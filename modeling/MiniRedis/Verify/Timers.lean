import Mathlib.Data.Set.Card
import MiniRedis.Verify.EventLoop
import MiniRedis.Verify.History

/-! # Calls of `process_timers`

How many keys a call deletes, and which. The keys that have expired are counted in the heap: there is
one item for each. -/

namespace MiniRedis

namespace ServerData

variable {s s' : ServerData} {now : UInt64} {works : Nat} {items : List (HeapItem EPtr)}

/-- The keys whose deadline has passed. -/
def expired (s : ServerData) (now : UInt64) : Set Bytes :=
  { k | ∃ x d, s.contents k = some x ∧ x.expiry = some d ∧ d ≤ now }

/-- The number of items that are due. -/
def dueItems (s : ServerData) (now : UInt64) : Nat := s.heap.items.countP (·.val ≤ now)

/-- The key of an item. -/
def keyOf (s : ServerData) (item : HeapItem EPtr) : Bytes := (s.entries item.ref).key

namespace WF

/-- The items have distinct keys. -/
theorem nodup_keyOf (h : s.WF) : (s.heap.items.map s.keyOf).Nodup := by
  have hitems : s.heap.items.Nodup := h.heap.refs.of_map _
  refine hitems.map_on fun a ha b hb heq => ?_
  have href : a.ref = b.ref :=
    List.inj_on_of_nodup_map h.keys (h.heap.owned a ha) (h.heap.owned b hb) heq
  exact List.inj_on_of_nodup_map h.heap.refs ha hb href

/-- A key with a deadline has an item. -/
theorem item_of_contents {k : Bytes} {x : Content} {d : UInt64} (h : s.WF)
    (hx : s.contents k = some x) (hd : x.expiry = some d) :
    ∃ item ∈ s.heap.items, s.keyOf item = k ∧ item.val = d := by
  obtain ⟨p, hp, rfl, rfl⟩ := (valueOf_eq_some h.keys).mp hx
  obtain ⟨item, hitem, rfl, hval⟩ := (valueOf_eq_some h.heap.refs).mp hd
  exact ⟨item, hitem, rfl, hval⟩

theorem expired_eq (h : s.WF) (now : UInt64) :
    s.expired now = ((s.heap.items.filter (·.val ≤ now)).map s.keyOf).toFinset := by
  ext k
  simp only [List.coe_toFinset, List.mem_map, List.mem_filter, decide_eq_true_eq, Set.mem_ofPred_eq]
  constructor
  · rintro ⟨x, d, hx, hd, hle⟩
    obtain ⟨item, hitem, hkey, rfl⟩ := h.item_of_contents hx hd
    exact ⟨item, ⟨hitem, hle⟩, hkey⟩
  · rintro ⟨item, ⟨hitem, hle⟩, rfl⟩
    obtain ⟨hx, hd⟩ := h.contents_of_item hitem
    exact ⟨_, _, hx, hd, hle⟩

/-- There are as many expired keys as items that are due. -/
theorem ncard_expired (h : s.WF) (now : UInt64) : (s.expired now).ncard = s.dueItems now := by
  have hnd : ((s.heap.items.filter (·.val ≤ now)).map s.keyOf).Nodup :=
    h.nodup_keyOf.sublist (List.filter_sublist.map _)
  rw [h.expired_eq, Set.ncard_coe_finset, List.toFinset_card_of_nodup hnd, List.length_map, dueItems,
    List.countP_eq_length_filter]

theorem expired_eq_empty (h : s.WF) (hdue : s.dueItems now = 0) : s.expired now = ∅ := by
  have hnone : s.heap.items.filter (·.val ≤ now) = [] := by
    rw [← List.length_eq_zero_iff, ← List.countP_eq_length_filter]
    exact hdue
  rw [h.expired_eq, hnone]
  simp

end WF

namespace Expires

theorem nodup_keyOf (hall : s.Expires items s') (h : s.WF) : (items.map s.keyOf).Nodup := by
  have hnd := (hall.heap.map s.keyOf).nodup_iff.mp h.nodup_keyOf
  rw [List.map_append] at hnd
  exact (List.nodup_append.mp hnd).1

/-- Items that are due leave, and what stays is counted as before. -/
theorem dueItems_eq (h : s.Expires items s') (hpast : ∀ item ∈ items, item.val ≤ now) :
    s.dueItems now = items.length + s'.dueItems now := by
  have hall : items.countP (·.val ≤ now) = items.length :=
    List.countP_eq_length.mpr fun item hitem => decide_eq_true (hpast item hitem)
  rw [dueItems, h.heap.countP_eq, List.countP_append, hall, dueItems]

/-- If the item at the top is not due, nothing is. -/
theorem dueItems_eq_zero (h : s.heap.Ordered)
    (htop : ∀ top, s.heap.items[0]? = some top → now < top.val) : s.dueItems now = 0 := by
  refine List.countP_eq_zero.mpr fun item hitem => ?_
  obtain ⟨top, rest, hitems⟩ := List.exists_cons_of_ne_nil (List.ne_nil_of_mem hitem)
  have hget : s.heap.items[0]? = some top := by simp [hitems]
  have hlt := UInt64.lt_of_lt_of_le (htop top hget) (h.top_le hget hitem)
  simpa using hlt

/-- The number of items that leave. -/
theorem length_eq (h : s.Expires items s') (hord : s.heap.Ordered)
    (hpast : ∀ item ∈ items, item.val ≤ now) (hlen : items.length ≤ works)
    (hstop : items.length = works ∨ ∀ top, s'.heap.items[0]? = some top → now < top.val) :
    items.length = min works (s.dueItems now) := by
  have hdue := h.dueItems_eq hpast
  rcases hstop with hfull | htop
  · omega
  · have hzero := dueItems_eq_zero (h.ordered hord).1 htop
    omega

end Expires

end ServerData

namespace Server

variable {s : Server} {ps : List CPtr}

/-- The number of items that are due after a call, and which items it deletes. -/
theorem Consistent.timers_dueItems (h : s.Consistent ps) (now : UInt64) :
    ∃ s' ps' items, processTimers now s = .ok s' ∧ s'.Consistent ps' ∧ s.data.Expires items s'.data ∧
      (∀ item ∈ items, item.val ≤ now) ∧ items.length = min kMaxWorks (s.data.dueItems now) ∧
      s'.data.dueItems now = s.data.dueItems now - kMaxWorks := by
  obtain ⟨s', as, bs, items, hrun, -, h', -, -, -, hall, hpast, hlen, hstop⟩ := h.timers now
  have hcount := hall.length_eq h.ordered hpast hlen hstop
  have hdue := hall.dueItems_eq hpast
  exact ⟨s', bs, items, hrun, h', hall, hpast, hcount, by omega⟩

/-- Calls at the same time, as many as there are full or partial rounds of work. -/
theorem Consistent.timers_rounds (h : s.Consistent ps) (now : UInt64) {rounds : Nat}
    (hrounds : s.data.dueItems now ≤ rounds * kMaxWorks) :
    ∃ s', runSteps (fun s now => processTimers now s) s (List.replicate rounds now) = .ok s' ∧
      s'.data.expired now = ∅ := by
  induction rounds generalizing s ps with
  | zero => exact ⟨s, rfl, h.data.expired_eq_empty (by omega)⟩
  | succ rounds ih =>
    obtain ⟨s₁, ps₁, items, hrun, h₁, -, -, -, hdue⟩ := h.timers_dueItems now
    have hleft : s₁.data.dueItems now ≤ rounds * kMaxWorks := by
      rw [hdue, Nat.sub_le_iff_le_add, ← Nat.succ_mul]
      exact hrounds
    obtain ⟨s', hruns, hnone⟩ := ih h₁ hleft
    exact ⟨s', (runSteps_cons_ok hrun).trans hruns, hnone⟩

end Server

/-- **Expiry.** In a consistent state `process_timers` returns. It takes out of the heap and the
database as many keys as have expired, up to the limit of a call; these have the earliest deadlines.
All other keys keep what they hold. Enough calls at the same time leave no expired key. -/
theorem processTimers_expires {s : Server} {ps : List CPtr} (h : s.Consistent ps) (now : UInt64) :
    (∃ (s' : Server) (items : List (HeapItem EPtr)) (removed : List Bytes),
      processTimers now s = .ok s' ∧
      removed = items.map s.data.keyOf ∧ removed.Nodup ∧
      removed.length = min kMaxWorks (s.data.expired now).ncard ∧
      s.data.heap.items.Perm (items ++ s'.data.heap.items) ∧
      s.data.refs.Perm (items.map (·.ref) ++ s'.data.refs) ∧
      (∀ k ∈ removed, ∃ x d, s.data.contents k = some x ∧ x.expiry = some d ∧ d ≤ now ∧
        ∀ k' x' d', s'.data.contents k' = some x' → x'.expiry = some d' → d ≤ d') ∧
      (∀ k, k ∈ removed → s'.data.contents k = none) ∧
      (∀ k, k ∉ removed → s'.data.contents k = s.data.contents k) ∧
      ∀ k x, s.data.contents k = some x → x.expiry = none → s'.data.contents k = some x) ∧
    ∃ s', runSteps (fun s now => processTimers now s) s
        (List.replicate (((s.data.expired now).ncard + kMaxWorks - 1) / kMaxWorks) now) = .ok s' ∧
      s'.data.expired now = ∅ := by
  have hcard := h.data.ncard_expired now
  refine ⟨?_, h.timers_rounds now ?_⟩
  · obtain ⟨s', ps', items, hrun, h', hall, hpast, hcount, -⟩ := h.timers_dueItems now
    have hmem : ∀ item ∈ items, item ∈ s.data.heap.items := fun item hitem =>
      hall.heap.mem_iff.mpr (List.mem_append_left _ hitem)
    have hin : ∀ k, k ∈ items.map s.data.keyOf → s'.data.contents k = none := fun k hk => by
      rw [hall.contents]
      exact if_pos hk
    have hout : ∀ k, k ∉ items.map s.data.keyOf → s'.data.contents k = s.data.contents k :=
      fun k hk => by
        rw [hall.contents]
        exact if_neg hk
    refine ⟨s', items, items.map s.data.keyOf, hrun, rfl, hall.nodup_keyOf h.data, ?_, hall.heap,
      hall.refs, ?_, hin, hout, ?_⟩
    · rw [List.length_map, hcount, hcard]
    · intro k hk
      obtain ⟨item, hitem, rfl⟩ := List.mem_map.mp hk
      obtain ⟨hx, hd⟩ := h.data.contents_of_item (hmem item hitem)
      refine ⟨_, _, hx, hd, hpast item hitem, fun k' x' d' hx' hd' => ?_⟩
      obtain ⟨item', hitem', -, rfl⟩ := h'.data.item_of_contents hx' hd'
      exact (hall.ordered h.ordered).2 item hitem item' hitem'
    · intro k x hx hnone
      refine (hout k fun hk => ?_).trans hx
      obtain ⟨item, hitem, rfl⟩ := List.mem_map.mp hk
      obtain ⟨hx', hd⟩ := h.data.contents_of_item (hmem item hitem)
      rw [ServerData.keyOf, hx'] at hx
      cases hx
      cases hnone.symm.trans hd
  · rw [hcard]
    have hpos : 0 < kMaxWorks := by decide
    have := Nat.lt_div_mul_add (a := s.data.dueItems now + kMaxWorks - 1) hpos
    omega

/-- The only key expires. -/
theorem processTimers_expires_expiringKey :
    ∃ (data : ServerData) (s' : Server),
      runSteps ServerOp.apply {} ServerData.expiringKey = .ok data ∧
      processTimers 20 { data, openFds := [3] } = .ok s' ∧ data.refs.length = 1 ∧
      s'.data.refs.length = 0 := by
  obtain ⟨data, hdata⟩ : ∃ data, runSteps ServerOp.apply {} ServerData.expiringKey = .ok data :=
    ⟨_, rfl⟩
  have hitems : (data.heap.items.map (·.val), data.refs.length) = ([10], 1) :=
    eq_of_toOption_map (f := fun s => (s.heap.items.map (·.val), s.refs.length)) hdata
      (by decide +kernel)
  obtain ⟨hitems, hrefs⟩ := Prod.mk.inj hitems
  have hlen : data.heap.items.length = 1 := by simpa using congrArg List.length hitems
  have hwf : data.WF := (ServerData.WF.empty.run hdata).1
  have hord : data.heap.Ordered := fun i up item h0 _ hitem => by
    have := (List.getElem?_eq_some_iff.mp hitem).1
    omega
  have h : Server.Consistent { data, openFds := [3] } [] := by
    have hreg := Server.registered_init 3
    exact ⟨⟨hreg.idle, hreg.live, hreg.slots, hreg.sorted, hreg.isOpen, hreg.fresh⟩, hwf, hord⟩
  obtain ⟨⟨s', items, removed, hrun, rfl, -, hcount, -, hperm, -⟩, -⟩ := processTimers_expires h 20
  refine ⟨data, s', hdata, hrun, hrefs, ?_⟩
  have hdue : data.dueItems 20 = 1 := by
    have hcountP : data.dueItems 20 = (data.heap.items.map (·.val)).countP (· ≤ 20) := by
      rw [List.countP_map]
      rfl
    rw [hcountP, hitems]
    decide
  have hlengths := hperm.length_eq
  simp only [hwf.ncard_expired, hdue, List.length_append, List.length_map, hrefs] at hcount hlengths
  have : min kMaxWorks 1 = 1 := by decide
  omega

end MiniRedis
