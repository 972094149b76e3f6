import MiniRedis.Model.Commands
import MiniRedis.Verify.Format
import MiniRedis.Verify.Heap
import MiniRedis.Verify.SortedSet

/-! # The server state and what the keys hold

`ServerData.WF` ties the database, the entries and the heap of deadlines together. Under it the
state stands for a map from keys to contents (`ServerData.contents`). The functions that the request
handlers share are specified here: each says which state it leads to and how the contents change. -/

namespace MiniRedis

/-- The faults that are deliberate: a failed assertion or an allocation that fails. -/
def Fault.IsAbort : Fault → Prop
  | .assertion _ | .badAlloc => True
  | .memory | .diverges => False

instance : Std.Total (α := Double) (· ≤ ·) := ⟨Double.le_total⟩

/-- What a key holds. -/
@[ext] structure Content where
  isZset : Bool
  value : Bytes
  scores : Bytes → Option Double
  expiry : Option UInt64

namespace ServerData

/-- The entries in the database. -/
def refs (s : ServerData) : List EPtr := s.db.nodes.map (·.ref)

/-- What an entry holds. -/
def content (s : ServerData) (p : EPtr) : Content where
  isZset := (s.entries p).type = .zset
  value := (s.entries p).value
  scores := (s.entries p).zset.scoreOf
  expiry := s.heap.deadline p

/-- The map from keys to contents that the state stands for. -/
def contents (s : ServerData) : Bytes → Option Content :=
  valueOf (fun p => (s.entries p).key) s.content s.refs

/-- A later state: entries are created and given to `entry_del`, and never forgotten. -/
structure Later (s s' : ServerData) : Prop where
  next : s.next ≤ s'.next
  freed : s.freed <+: s'.freed
  queue : s.queue <+: s'.queue

theorem Later.of_eq {s s' : ServerData} (hnext : s'.next = s.next) (hfreed : s'.freed = s.freed)
    (hqueue : s'.queue = s.queue) : s.Later s' :=
  ⟨Nat.le_of_eq hnext.symm, hfreed ▸ List.prefix_rfl, hqueue ▸ List.prefix_rfl⟩

theorem Later.refl (s : ServerData) : s.Later s := .of_eq rfl rfl rfl

theorem Later.trans {s₁ s₂ s₃ : ServerData} (h : s₁.Later s₂) (h' : s₂.Later s₃) : s₁.Later s₃ :=
  ⟨Nat.le_trans h.next h'.next, h.freed.trans h'.freed, h.queue.trans h'.queue⟩

structure WF (s : ServerData) : Prop where
  db : s.db.WF fun p => (s.entries p).key
  hash : ∀ n ∈ s.db.nodes, n.hashCode = stringHash (s.entries n.ref).key ∧
    n.hashCode = (s.entries n.ref).hashCode
  zsets : ∀ p ∈ s.refs, ∃ t, (s.entries p).zset.WF t
  heap : s.heap.Serves s.refs
  -- Every entry that was created is in the database or was given to `entry_del`, once.
  owners : (s.refs ++ (s.freed ++ s.queue)).Perm (List.range s.next)
  next_le : s.next ≤ sizeMax
  warnings : s.warnings = []

theorem WF.empty : ({} : ServerData).WF where
  db := .empty _
  hash := by simp [HMap.nodes, HTable.nodes]
  zsets := by simp [refs, HMap.nodes, HTable.nodes]
  heap := ⟨⟨.nil, by simp⟩, by simp, fun _ _ _ => rfl, by simp [refs, HMap.nodes, HTable.nodes]⟩
  owners := .nil
  next_le := Nat.zero_le _
  warnings := rfl

variable {s s' : ServerData} {p : EPtr} {key : Bytes}

namespace WF

theorem keys (h : s.WF) : (s.refs.map fun p => (s.entries p).key).Nodup := by
  rw [refs, List.map_map]
  exact h.db.keys

theorem mem_refs : p ∈ s.refs ↔ ∃ n ∈ s.db.nodes, n.ref = p := by
  simp [refs]

theorem contents_of_mem (h : s.WF) (hp : p ∈ s.refs) :
    s.contents (s.entries p).key = some (s.content p) :=
  valueOf_eq_of_mem h.keys hp

theorem contents_eq_none :
    s.contents key = none ↔ ∀ p ∈ s.refs, (s.entries p).key ≠ key :=
  valueOf_eq_none

theorem searches (h : s.WF) (key : Bytes) :
    s.db.Searches (fun p => (s.entries p).key) { ref := key, hashCode := stringHash key }
      (entryEquals s) where
  eq_iff p := by simp [entryEquals]
  hashCode n hn hkey := by rw [(h.hash n hn).1, hkey]

/-! ## Looking up a key -/

/-- Reordering the database. -/
theorem of_db {db : HMap EPtr} (h : s.WF) (hwf : db.WF fun p => (s.entries p).key)
    (hperm : db.nodes.Perm s.db.nodes) : ({ s with db } : ServerData).WF where
  db := hwf
  hash n hn := h.hash n (hperm.mem_iff.mp hn)
  zsets p hp := h.zsets p ((hperm.map _).mem_iff.mp hp)
  heap := h.heap.perm (hperm.map _).symm
  owners := ((hperm.map _).append_right _).trans h.owners
  next_le := h.next_le
  warnings := h.warnings

theorem contents_of_db {db : HMap EPtr} (h : s.WF) (hperm : db.nodes.Perm s.db.nodes) :
    ({ s with db } : ServerData).contents = s.contents :=
  (valueOf_perm h.keys (hperm.symm.map _)).symm

/-- A lookup either finds the entry of the key or shows that the key is missing. It may migrate nodes
of the database. -/
theorem lookup (h : s.WF) (key : Bytes) :
    (∃ p s₁, dbLookup s key = .ok (some p, s₁) ∧ s₁.WF ∧ s.Later s₁ ∧ s₁.contents = s.contents ∧
      p ∈ s₁.refs ∧ (s₁.entries p).key = key ∧ s.contents key = some (s₁.content p)) ∨
    (∃ s₁, dbLookup s key = .ok (none, s₁) ∧ s₁.WF ∧ s.Later s₁ ∧ s₁.contents = s.contents ∧
      s.contents key = none) := by
  obtain ⟨found, db, hrun, hwf, hperm, hfound⟩ := h.db.hmLookup (h.searches key)
  have h₁ := h.of_db hwf hperm
  have hsame := h.contents_of_db hperm
  have hrun' : dbLookup s key = .ok (found.map (·.ref), { s with db }) := by simp [dbLookup, hrun]
  cases found with
  | some n =>
    obtain ⟨hmem, hkey⟩ : n ∈ s.db.nodes ∧ (s.entries n.ref).key = key := (hfound n).mp rfl
    have hp : n.ref ∈ ({ s with db } : ServerData).refs := mem_refs.mpr
      ⟨n, hperm.mem_iff.mpr hmem, rfl⟩
    refine .inl ⟨n.ref, _, hrun', h₁, .of_eq rfl rfl rfl, hsame, hp, hkey, ?_⟩
    rw [← hsame]
    exact hkey ▸ h₁.contents_of_mem hp
  | none =>
    refine .inr ⟨_, hrun', h₁, .of_eq rfl rfl rfl, hsame, contents_eq_none.mpr fun p hp hkey => ?_⟩
    obtain ⟨n, hn, rfl⟩ := mem_refs.mp hp
    cases (hfound n).mpr ⟨hn, hkey⟩

theorem lookup_frame (h : s.WF) {found : Option EPtr} {s₁ : ServerData}
    (hrun : dbLookup s key = .ok (found, s₁)) : s₁.entries = s.entries ∧ s₁.refs.Perm s.refs := by
  obtain ⟨found', db, hrun', -, hperm, -⟩ := h.db.hmLookup (h.searches key)
  simp only [dbLookup, hrun', ok_bind, pure_eq_ok, Except.ok.injEq, Prod.mk.injEq] at hrun
  obtain ⟨-, rfl⟩ := hrun
  exact ⟨rfl, hperm.map _⟩

/-! ## Changing an entry -/

/-- Writing to the value or the set of an entry. -/
theorem setEntry {e : Entry} (h : s.WF) (hp : p ∈ s.refs) (hkey : e.key = (s.entries p).key)
    (hhash : e.hashCode = (s.entries p).hashCode) (hz : ∃ t, e.zset.WF t) :
    ({ s with entries := Function.update s.entries p e } : ServerData).WF ∧
      ({ s with entries := Function.update s.entries p e } : ServerData).contents =
        Function.update s.contents (s.entries p).key (some {
          isZset := e.type = .zset, value := e.value, scores := e.zset.scoreOf,
          expiry := (s.content p).expiry }) := by
  have hsame : ∀ q, (Function.update s.entries p e q).key = (s.entries q).key ∧
      (Function.update s.entries p e q).hashCode = (s.entries q).hashCode := fun q => by
    by_cases hq : q = p
    · subst hq
      simp [hkey, hhash]
    · simp [Function.update_of_ne hq]
  have hwf : ({ s with entries := Function.update s.entries p e } : ServerData).WF := by
    refine ⟨h.db.congr fun n _ => (hsame n.ref).1, fun n hn => ?_, fun q hq => ?_, h.heap, h.owners,
      h.next_le, h.warnings⟩
    · rw [(hsame n.ref).1, (hsame n.ref).2]
      exact h.hash n hn
    · by_cases hqp : q = p
      · subst hqp
        simpa using hz
      · simpa [Function.update_of_ne hqp] using h.zsets q hq
  refine ⟨hwf, ?_⟩
  have hkeys : (fun q => (Function.update s.entries p e q).key) = fun q => (s.entries q).key :=
    funext fun q => (hsame q).1
  unfold contents
  simp only [hkeys]
  refine (valueOf_set s.content h.keys hp fun q hq hqp => ?_).trans ?_
  · simp [content, Function.update_of_ne hqp]
  · simp [content]

/-- Writing to the set of an entry. -/
theorem setZset {z : ZSet Double} {t : BinaryTree ZPtr} (h : s.WF) (hp : p ∈ s.refs) (hz : z.WF t) :
    (s.setZset p z).WF ∧ (s.setZset p z).contents = Function.update s.contents (s.entries p).key
      (some { s.content p with scores := z.scoreOf }) :=
  h.setEntry (e := { s.entries p with zset := z }) hp rfl rfl ⟨t, hz⟩

/-- Writing to the heap only. -/
theorem setHeap {heap : Heap EPtr} (h : s.WF) (hheap : heap.Serves s.refs) :
    ({ s with heap } : ServerData).WF :=
  ⟨h.db, h.hash, h.zsets, hheap, h.owners, h.next_le, h.warnings⟩

theorem contents_setHeap {heap : Heap EPtr} {deadline : Option UInt64} (h : s.WF) (hp : p ∈ s.refs)
    (hdeadline : heap.deadline = Function.update s.heap.deadline p deadline) :
    ({ s with heap } : ServerData).contents = Function.update s.contents (s.entries p).key
      (some { s.content p with expiry := deadline }) := by
  refine (valueOf_set s.content h.keys hp fun q hq hqp => ?_).trans ?_
  · simp [content, hdeadline, Function.update_of_ne hqp]
  · simp [content, hdeadline, contents]

/-- Giving an entry a deadline. -/
theorem setTtl (h : s.WF) (hp : p ∈ s.refs) (now : UInt64) {ttlMs : Int} (httl : 0 ≤ ttlMs) :
    ∃ s', entrySetTtl now s p ttlMs = .ok s' ∧ s'.WF ∧ s.Later s' ∧
      s'.contents = Function.update s.contents (s.entries p).key
        (some { s.content p with expiry := some (now + .ofNat ttlMs.toNat) }) := by
  obtain ⟨heap, hrun, hserves, hdeadline⟩ := h.heap.upsert hp (now + .ofNat ttlMs.toNat)
  refine ⟨{ s with heap }, ?_, h.setHeap hserves, .of_eq rfl rfl rfl,
    h.contents_setHeap hp hdeadline⟩
  simp [entrySetTtl, Int.not_lt.mpr httl, httl, hrun]

/-- Taking the deadline of an entry away. -/
theorem clearTtl {owners : List EPtr} (h : s.heap.Serves owners) (hp : p ∈ owners) (now : UInt64)
    (ttlMs : Int) (httl : ttlMs < 0) :
    ∃ heap, entrySetTtl now s p ttlMs = .ok { s with heap } ∧ heap.Serves owners ∧
      heap.deadline = Function.update s.heap.deadline p none := by
  by_cases hidx : s.heap.idx p = sizeMax
  · have hnone : s.heap.deadline p = none :=
      Heap.Serves.deadline_eq_none.mpr ((h.idx_eq_sizeMax hp).mp hidx)
    refine ⟨s.heap, ?_, h, ?_⟩
    · simp [entrySetTtl, hidx, httl]
    · rw [← hnone, Function.update_eq_self]
  · have hmem : p ∈ s.heap.items.map (·.ref) := by
      by_contra hnot
      exact hidx ((h.idx_eq_sizeMax hp).mpr hnot)
    obtain ⟨item, hitem, rfl, -⟩ := h.item_of_mem hmem
    obtain ⟨heap, hrun, hserves, hdeadline⟩ := h.remove hitem
    refine ⟨heap.setIdx item.ref sizeMax, ?_, hserves, hdeadline⟩
    simp [entrySetTtl, hidx, httl, hrun]

/-! ## Creating and removing entries -/

theorem refs_nodup (h : s.WF) : s.refs.Nodup := h.db.refs

theorem lt_next (h : s.WF) (hp : p ∈ s.refs) : p < s.next := by
  have := h.owners.mem_iff.mp (List.mem_append_left _ hp)
  simpa using this

theorem length_refs_le (h : s.WF) : s.refs.length ≤ s.next := by
  have := h.owners.length_eq
  simp only [List.length_append, List.length_range] at this
  omega

/-- An entry that is created for a missing key and stored in the database. -/
theorem addEntry (h : s.WF) (hnew : s.contents key = none) (type : ValueType) (value : Bytes) :
    (∃ s₁, entryNew s type key value = .ok (s.next, s₁) ∧
      ((∃ s', dbInsert s₁ s.next = .ok s' ∧ s'.WF ∧ s.Later s' ∧ s.next ∈ s'.refs ∧
        s'.entries s.next = { hashCode := stringHash key, key, type, value, zset := .empty } ∧
        s'.content s.next =
          { isZset := type = .zset, value, scores := fun _ => none, expiry := none } ∧
        s'.contents = Function.update s.contents key (some (s'.content s.next))) ∨
      dbInsert s₁ s.next = .error (.assertion .hInitSize))) ∨
    entryNew s type key value = .error .badAlloc := by
  by_cases hnext : s.next < sizeMax
  · refine .inl ⟨_, if_pos hnext, ?_⟩
    set e : Entry := { hashCode := stringHash key, key, type, value, zset := .empty } with he
    have hne : ∀ q ∈ s.refs, q ≠ s.next := fun q hq => Nat.ne_of_lt (h.lt_next hq)
    have hold : ∀ q ∈ s.refs, Function.update s.entries s.next e q = s.entries q := fun q hq =>
      Function.update_of_ne (hne q hq) ..
    have hself : Function.update s.entries s.next e s.next = e := Function.update_self ..
    have hwf : s.db.WF fun q => (Function.update s.entries s.next e q).key :=
      h.db.congr fun n hn => by rw [hold n.ref (mem_refs.mpr ⟨n, hn, rfl⟩)]
    have hserves := h.heap.addOwner (fun hmem => hne _ hmem rfl)
      (Nat.lt_of_le_of_lt h.length_refs_le hnext)
    rcases hwf.hmInsert { ref := s.next, hashCode := e.hashCode } (fun n hn => by
        rw [hself, hold n.ref (mem_refs.mpr ⟨n, hn, rfl⟩)]
        exact contents_eq_none.mp hnew n.ref (mem_refs.mpr ⟨n, hn, rfl⟩))
      with ⟨db, hrun, hdb, hperm⟩ | hrun
    · have hrefs : (db.nodes.map (·.ref)).Perm (s.next :: s.refs) := hperm.map (·.ref)
      have hnone : (s.heap.setIdx s.next sizeMax).deadline s.next = none := by
        refine Heap.Serves.deadline_eq_none.mpr fun hmem => ?_
        obtain ⟨item, hitem, href⟩ := List.mem_map.mp hmem
        exact hne _ (h.heap.owned item hitem) href
      have hs' : ({ s with db, next := s.next + 1, heap := s.heap.setIdx s.next sizeMax,
                           entries := Function.update s.entries s.next e } : ServerData).WF := by
        refine ⟨hdb, fun n hn => ?_, fun q hq => ?_, hserves.perm hrefs.symm, ?_, hnext, h.warnings⟩
        · rcases List.mem_cons.mp (hperm.mem_iff.mp hn) with rfl | hn
          · simp only [hself]
            exact ⟨rfl, trivial⟩
          · simpa only [hold n.ref (mem_refs.mpr ⟨n, hn, rfl⟩)] using h.hash n hn
        · rcases List.mem_cons.mp (hrefs.mem_iff.mp hq) with rfl | hq
          · simpa only [hself] using ⟨_, .empty⟩
          · simpa only [hold q hq] using h.zsets q hq
        · rw [List.range_succ]
          refine (hrefs.append_right _).trans ?_
          exact (h.owners.cons s.next).trans (List.perm_append_singleton _ _).symm
      have hcontent : ({ s with db, next := s.next + 1, heap := s.heap.setIdx s.next sizeMax,
                                entries := Function.update s.entries s.next e }
          : ServerData).content s.next =
            { isZset := type = .zset, value, scores := fun _ => none, expiry := none } := by
        simp only [content, hself, hnone]
        rfl
      refine .inl ⟨_, by simp only [dbInsert, hself, hrun, ok_bind, pure_eq_ok], hs',
        ⟨Nat.le_succ _, List.prefix_rfl, List.prefix_rfl⟩, hrefs.mem_iff.mpr List.mem_cons_self, hself, hcontent, ?_⟩
      rw [contents, valueOf_perm hs'.keys hrefs, valueOf_cons]
      simp only [hself]
      refine congrArg (fun f : Bytes → Option Content => Function.update f key _) ?_
      refine valueOf_congr ?_ h.keys fun k c => exists_congr fun q => and_congr_right fun hq => ?_
      · rw [List.map_congr_left fun q hq => congrArg Entry.key (hold q hq)]
        exact h.keys
      · have hsame : ({ s with db, next := s.next + 1, heap := s.heap.setIdx s.next sizeMax,
                               entries := Function.update s.entries s.next e }
            : ServerData).content q = s.content q := by
          simp only [content, hold q hq]
          rfl
        simp only [hold q hq, hsame]
    · exact .inr (by simp only [dbInsert, hself, hrun, error_bind])
  · exact .inr (by simp [entryNew, hnext])

/-- An entry that is taken out of the database and given to `entry_del`. -/
theorem removeEntry {db : HMap EPtr} {n : HNode EPtr} (h : s.WF)
    (hperm : s.db.nodes.Perm (n :: db.nodes)) (hdb : db.WF fun p => (s.entries p).key)
    (now : UInt64) :
    ∃ s', entryDel now { s with db } n.ref = .ok s' ∧ s'.WF ∧ s.Later s' ∧
      s'.contents = Function.update s.contents (s.entries n.ref).key none := by
  have hrefs : s.refs.Perm (n.ref :: db.nodes.map (·.ref)) := hperm.map HNode.ref
  have hp : n.ref ∈ s.refs := hrefs.mem_iff.mpr List.mem_cons_self
  have hnot : n.ref ∉ db.nodes.map (·.ref) :=
    (List.nodup_cons.mp (hrefs.nodup_iff.mp h.refs_nodup)).1
  have hsub : ∀ q ∈ db.nodes.map (·.ref), q ∈ s.refs := fun q hq =>
    hrefs.mem_iff.mpr (List.mem_cons_of_mem _ hq)
  obtain ⟨heap, hclear, hserves, hdeadline⟩ :=
    clearTtl (s := { s with db }) (p := n.ref) h.heap hp now (-1) (by decide)
  have hnone : heap.deadline n.ref = none := by rw [hdeadline, Function.update_self]
  have hserves' := hserves.dropOwner hrefs (Heap.Serves.deadline_eq_none.mp hnone)
  -- Whichever way the entry is freed, only the entry itself is written to.
  have hfinal : ∀ entries freed queue, (∀ q ∈ db.nodes.map (·.ref), entries q = s.entries q) →
      (freed ++ queue).Perm (n.ref :: (s.freed ++ s.queue)) → s.freed <+: freed → s.queue <+: queue →
      ({ s with db, heap, entries, freed, queue } : ServerData).WF ∧
        s.Later { s with db, heap, entries, freed, queue } ∧
        ({ s with db, heap, entries, freed, queue } : ServerData).contents =
          Function.update s.contents (s.entries n.ref).key none := by
    intro entries freed queue hentries hlog hfreed hqueue
    have hkeys : ∀ n' ∈ db.nodes, (entries n'.ref).key = (s.entries n'.ref).key := fun n' hn' => by
      rw [hentries n'.ref (List.mem_map.mpr ⟨n', hn', rfl⟩)]
    refine ⟨⟨hdb.congr hkeys, fun n' hn' => ?_, fun q hq => ?_, hserves', ?_, h.next_le,
      h.warnings⟩, ⟨Nat.le_refl _, hfreed, hqueue⟩, ?_⟩
    · simp only [hentries n'.ref (List.mem_map.mpr ⟨n', hn', rfl⟩)]
      exact h.hash n' (hperm.mem_iff.mpr (List.mem_cons_of_mem _ hn'))
    · simp only [hentries q hq]
      exact h.zsets q (hsub q hq)
    · refine (hlog.append_left _).trans (List.perm_middle.trans ?_)
      rw [← List.cons_append]
      exact (hrefs.symm.append_right _).trans h.owners
    · refine Eq.trans ?_ (valueOf_of_perm_cons h.keys hrefs)
      have hnd := (hrefs.map fun q => (s.entries q).key).nodup_iff.mp h.keys
      refine valueOf_congr ?_ (List.nodup_cons.mp hnd).2 fun k c =>
        exists_congr fun q => and_congr_right fun hq => ?_
      · change ((db.nodes.map HNode.ref).map fun q => (entries q).key).Nodup
        rw [List.map_congr_left fun q hq => congrArg Entry.key (hentries q hq)]
        exact (List.nodup_cons.mp hnd).2
      · have hne : q ≠ n.ref := fun he => hnot (he ▸ hq)
        have hsame : ({ s with db, heap, entries, freed, queue } : ServerData).content q =
            s.content q := by
          simp only [content, hentries q hq, hdeadline, Function.update_of_ne hne]
        simp only [hentries q hq, hsame]
  simp only [entryDel, hclear, ok_bind]
  by_cases hlarge : (if (s.entries n.ref).type = .zset then hmSize (s.entries n.ref).zset.hmap else 0) >
      kLargeContainerSize
  · rw [if_pos hlarge]
    refine ⟨_, rfl, hfinal s.entries s.freed (s.queue ++ [n.ref]) (fun _ _ => rfl) ?_ List.prefix_rfl
      (List.prefix_append ..)⟩
    rw [← List.append_assoc]
    exact List.perm_append_singleton _ _
  · have hlog : (s.freed ++ [n.ref] ++ s.queue).Perm (n.ref :: (s.freed ++ s.queue)) := by
      rw [List.append_assoc]
      exact List.perm_middle
    rw [if_neg hlarge]
    unfold entryDelSync
    split
    · obtain ⟨t, ht⟩ := h.zsets n.ref hp
      obtain ⟨z', -, hclear', -⟩ := ht.clear
      simp only [hclear', ok_bind]
      refine ⟨_, rfl, hfinal _ _ s.queue (fun q hq => ?_) hlog (List.prefix_append ..) List.prefix_rfl⟩
      have hne : q ≠ n.ref := fun he => hnot (he ▸ hq)
      exact Function.update_of_ne hne ..
    · exact ⟨_, rfl, hfinal s.entries _ s.queue (fun _ _ => rfl) hlog (List.prefix_append ..)
        List.prefix_rfl⟩

end WF

end ServerData

end MiniRedis
