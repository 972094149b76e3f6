import MiniRedis.Theory.Run
import MiniRedis.Verify.Commands
import MiniRedis.Verify.Expiry

/-! # Histories of the server

A history is any sequence of requests and calls of `process_timers`, each with its reading of the
clock. Every state that a history leads to is well-formed. -/

namespace MiniRedis

inductive ServerOp where
  | request (now : UInt64) (cmd : List Bytes)
  | timers (now : UInt64)

/-- One step of the server, with the response to a request. -/
def ServerOp.serve (s : ServerData) : ServerOp → Result (ServerData × Option Bytes)
  | .request now cmd => do
    let (s, resp) ← runRequest now s cmd []
    return (s, some resp)
  | .timers now => do
    return (← expireKeys now s, none)

def ServerOp.apply (s : ServerData) (op : ServerOp) : Result ServerData := do
  return (← op.serve s).1

namespace ServerData

variable {s s' : ServerData}

/-- What a step does to the contents: the timers delete keys that are due, and a request has its
meaning. -/
theorem WF.apply_cases {op : ServerOp} (h : s.WF) (hrun : op.apply s = .ok s') :
    s'.WF ∧ s.Later s' ∧
      ((∃ now, ∃ ks : List Bytes, op = .timers now ∧
          (∀ k ∈ ks, ∃ x d, s.contents k = some x ∧ x.expiry = some d ∧ d ≤ now) ∧
          s'.contents = fun k => if k ∈ ks then none else s.contents k) ∨
        ∃ now cmd, op = .request now cmd ∧
          ((Request.ofCmd cmd).IsQuery ∧ s'.contents = s.contents ∨
            ∃ v, (Request.ofCmd cmd).Answers now s.contents v s'.contents)) := by
  obtain ⟨⟨s₁, r⟩, hserve, hret⟩ := bind_eq_ok.mp hrun
  cases hret
  cases op with
  | request now cmd =>
    obtain ⟨⟨s₂, resp⟩, hreq, hret⟩ := bind_eq_ok.mp hserve
    cases hret
    obtain ⟨hwf, hlater, hquery | ⟨v, -, hanswers⟩⟩ := h.runRequest_ok hreq
    · exact ⟨hwf, hlater, .inr ⟨now, cmd, rfl, .inl hquery⟩⟩
    · exact ⟨hwf, hlater, .inr ⟨now, cmd, rfl, .inr ⟨v, hanswers⟩⟩⟩
  | timers now =>
    obtain ⟨s', ks, hloop, hwf, hlater, hdue, hcontents⟩ := h.expireLoop now kMaxWorks
    simp only [ServerOp.serve, expireKeys, hloop, ok_bind] at hserve
    cases hserve
    exact ⟨hwf, hlater, .inl ⟨now, ks, rfl, hdue, hcontents⟩⟩

theorem WF.run {ops : List ServerOp} (h : s.WF) (hrun : runSteps ServerOp.apply s ops = .ok s') :
    s'.WF ∧ s.Later s' := by
  refine runSteps_invariant (motive := fun s' => s'.WF ∧ s.Later s') (fun s₁ s₂ h₁ op hop => ?_)
    ⟨h, .refl s⟩ hrun
  obtain ⟨hwf, hlater, -⟩ := h₁.1.apply_cases hop
  exact ⟨hwf, h₁.2.trans hlater⟩

/-- The heap of deadlines and the database are in exact correspondence. -/
structure HeapMatches (s : ServerData) : Prop where
  slot : ∀ i item, s.heap.items[i]? = some item → item.ref ∈ s.refs ∧ s.heap.idx item.ref = i
  distinct : (s.heap.items.map (·.ref)).Nodup
  entry : ∀ p ∈ s.refs, (s.heap.idx p = sizeMax ∧ p ∉ s.heap.items.map (·.ref)) ∨
    ∃ item, s.heap.items[s.heap.idx p]? = some item ∧ item.ref = p

theorem WF.heapMatches (h : s.WF) : s.HeapMatches where
  slot i item hitem := ⟨h.heap.owned item (List.mem_of_getElem? hitem), h.heap.idx i item hitem⟩
  distinct := h.heap.refs
  entry p hp := by
    by_cases hmem : p ∈ s.heap.items.map (·.ref)
    · obtain ⟨item, hitem, href, -⟩ := h.heap.item_of_mem hmem
      exact .inr ⟨item, hitem, href⟩
    · exact .inl ⟨h.heap.idle p hp hmem, hmem⟩

/-- The log of `entry_del`. -/
def deleted (s : ServerData) : List EPtr := s.freed ++ s.queue

theorem WF.nodup_deleted (h : s.WF) : (s.refs ++ s.deleted).Nodup :=
  h.owners.nodup_iff.mpr List.nodup_range

/-- What `entry_del` got is in neither of the two structures. -/
theorem WF.not_mem_of_deleted {p : EPtr} (h : s.WF) (hp : p ∈ s.deleted) :
    s.deleted.count p = 1 ∧ p ∉ s.refs ∧ p ∉ s.heap.items.map (·.ref) := by
  obtain ⟨-, hnd, hdisj⟩ := List.nodup_append.mp h.nodup_deleted
  have hnot : p ∉ s.refs := fun hmem => hdisj p hmem p hp rfl
  refine ⟨List.count_eq_one_of_mem hnd hp, hnot, fun hmem => hnot ?_⟩
  obtain ⟨item, hitem, rfl⟩ := List.mem_map.mp hmem
  exact h.heap.owned item hitem

theorem Later.mem_deleted {p : EPtr} (h : s.Later s') (hp : p ∈ s.deleted) : p ∈ s'.deleted :=
  (List.mem_append.mp hp).elim (fun hp => List.mem_append_left _ (h.freed.subset hp))
    fun hp => List.mem_append_right _ (h.queue.subset hp)

/-- An entry leaves the database only through `entry_del`. -/
theorem WF.deleted_of_not_mem {p : EPtr} (h : s.WF) (h' : s'.WF) (hlater : s.Later s')
    (hp : p ∈ s.refs) (hp' : p ∉ s'.refs) : p ∈ s'.deleted := by
  have hlt : p < s'.next := Nat.lt_of_lt_of_le (h.lt_next hp) hlater.next
  exact (List.mem_append.mp (h'.owners.mem_iff.mpr (List.mem_range.mpr hlt))).resolve_left hp'

/-- **The heap and the database.** In every state of every history they correspond exactly. Hence
`get_ttl_ms` reads the entry's own deadline, `process_timers` finds the node of every entry it takes
from the heap and never warns, and an entry that has left the database was given to `entry_del` once
and is referred to by neither from then on. -/
theorem heap_matches_db {ops ops' : List ServerOp} (hrun : runSteps ServerOp.apply {} ops = .ok s)
    (hrun' : runSteps ServerOp.apply s ops' = .ok s') :
    s.HeapMatches ∧
    (∀ now key resp, ∃ r, getTtlMs now s key resp = .ok r) ∧
    (∀ p ∈ s.refs, ∀ item, s.heap.items[s.heap.idx p]? = some item → ∀ now resp, ∃ s₁,
      getTtlMs now s (s.entries p).key resp =
        .ok (s₁, outInt resp (if item.val > now then (item.val - now).toInt64 else 0))) ∧
    (∀ item ∈ s.heap.items, ∃ node db,
      hmDelete s.db { ref := item.ref, hashCode := (s.entries item.ref).hashCode } hnodeSame =
        .ok (some node, db) ∧ node.ref = item.ref) ∧
    (∀ now, ∃ s₁, expireKeys now s = .ok s₁ ∧ s₁.warnings = []) ∧
    (∀ p ∈ s.refs, p ∉ s'.refs → s'.deleted.count p = 1 ∧ p ∉ s'.heap.items.map (·.ref)) ∧
    (∀ p ∈ s.deleted, s'.deleted.count p = 1 ∧ p ∉ s'.refs ∧ p ∉ s'.heap.items.map (·.ref)) := by
  obtain ⟨h, -⟩ := WF.empty.run hrun
  obtain ⟨h', hlater⟩ := h.run hrun'
  refine ⟨h.heapMatches, fun now key resp => ?_, fun p hp item hitem now resp => ?_,
    fun item hitem => ?_, fun now => ?_, fun p hp hp' => ?_,
    fun p hp => h'.not_mem_of_deleted (hlater.mem_deleted hp)⟩
  · obtain ⟨s₁, hget, -⟩ := h.getTtlMs_eq now key resp
    exact ⟨_, hget⟩
  · obtain ⟨s₁, hget, -⟩ := h.getTtlMs_eq now (s.entries p).key resp
    refine ⟨s₁, hget.trans ?_⟩
    rcases h.heapMatches.entry p hp with ⟨hidx, -⟩ | ⟨item', hitem', rfl⟩
    · have := (List.getElem?_eq_some_iff.mp hitem).1
      have := h.heap.length_le
      omega
    · obtain rfl : item = item' := by
        rw [hitem] at hitem'
        exact Option.some.inj hitem'
      rw [h.contents_of_mem hp]
      simp [pttlAnswer, content, h.heap.deadline_of_item hitem]
  · obtain ⟨node, db, hdel, href, -⟩ := h.deleteNode (h.heap.owned item hitem)
    exact ⟨node, db, hdel, href⟩
  · obtain ⟨s₁, -, hloop, h₁, -⟩ := h.expireLoop now kMaxWorks
    exact ⟨s₁, hloop, h₁.warnings⟩
  · obtain ⟨hcount, -, hheap⟩ := h'.not_mem_of_deleted (h.deleted_of_not_mem h' hlater hp hp')
    exact ⟨hcount, hheap⟩

/-- A key that gets a deadline. -/
def expiringKey : List ServerOp :=
  [.request 0 [ascii ['s', 'e', 't'], ascii ['k'], ascii ['v']],
    .request 0 [ascii ['p', 'e', 'x', 'p', 'i', 'r', 'e'], ascii ['k'], ascii ['1', '0']]]

theorem heap_matches_db_expiringKey :
    ∃ s s', runSteps ServerOp.apply {} expiringKey = .ok s ∧
      runSteps ServerOp.apply s [.timers 20] = .ok s' ∧ s.HeapMatches ∧ s'.deleted.count 0 = 1 := by
  obtain ⟨s, hs⟩ : ∃ s, runSteps ServerOp.apply {} expiringKey = .ok s := ⟨_, rfl⟩
  obtain ⟨s', hs'⟩ : ∃ s', runSteps ServerOp.apply {} (expiringKey ++ [.timers 20]) = .ok s' :=
    ⟨_, rfl⟩
  have hrefs : s.refs = [0] := eq_of_toOption_map hs (by decide +kernel)
  have hrefs' : s'.refs = [] := eq_of_toOption_map hs' (by decide +kernel)
  have hstep := (runSteps_append_ok hs).symm.trans hs'
  obtain ⟨hmatches, -, -, -, -, hleft, -⟩ := heap_matches_db hs hstep
  exact ⟨s, s', hs, hstep, hmatches, (hleft 0 (by simp [hrefs]) (by simp [hrefs'])).1⟩

end ServerData

end MiniRedis
