import MiniRedis.Verify.Deadlines
import MiniRedis.Verify.Server

/-! # Expiry of keys

The loop of `process_timers` over the heap. Each turn takes the entry at the top out of the heap and
out of the database and gives it to `entry_del`; the node that `hm_delete` finds is always the one of
the entry. -/

namespace MiniRedis.ServerData

variable {s s₁ s' : ServerData} {now : UInt64} {top item : HeapItem EPtr} {p : EPtr}
  {items items' : List (HeapItem EPtr)}

/-- The items leave the heap and their entries the database; the rest stays as it is. If the heap is
ordered, what leaves is due no later than what stays. -/
structure Expires (s : ServerData) (items : List (HeapItem EPtr)) (s' : ServerData) : Prop where
  wf : s'.WF
  later : s.Later s'
  heap : s.heap.items.Perm (items ++ s'.heap.items)
  refs : s.refs.Perm (items.map (·.ref) ++ s'.refs)
  keys : ∀ p, (s'.entries p).key = (s.entries p).key
  contents : s'.contents = fun k =>
    if k ∈ items.map fun item => (s.entries item.ref).key then none else s.contents k
  ordered : s.heap.Ordered →
    s'.heap.Ordered ∧ ∀ item ∈ items, ∀ item' ∈ s'.heap.items, item.val ≤ item'.val

theorem Expires.refl (h : s.WF) : s.Expires [] s where
  wf := h
  later := .refl s
  heap := .rfl
  refs := .rfl
  keys _ := rfl
  contents := by simp
  ordered hord := ⟨hord, by simp⟩

theorem Expires.trans (h : s.Expires items s₁) (h' : s₁.Expires items' s') :
    s.Expires (items ++ items') s' where
  wf := h'.wf
  later := h.later.trans h'.later
  heap := by
    rw [List.append_assoc]
    exact h.heap.trans (h'.heap.append_left _)
  refs := by
    rw [List.map_append, List.append_assoc]
    exact h.refs.trans (h'.refs.append_left _)
  keys p := (h'.keys p).trans (h.keys p)
  contents := by
    rw [h'.contents, h.contents]
    funext k
    simp only [h.keys, List.map_append, List.mem_append]
    by_cases hk : k ∈ items'.map fun item => (s.entries item.ref).key
    · simp [hk]
    · simp [hk]
  ordered hord := by
    obtain ⟨hord₁, hle⟩ := h.ordered hord
    obtain ⟨hord', hle'⟩ := h'.ordered hord₁
    refine ⟨hord', fun item hitem item' hitem' => ?_⟩
    rcases List.mem_append.mp hitem with hitem | hitem
    · exact hle item hitem item' (h'.heap.mem_iff.mpr (List.mem_append_right _ hitem'))
    · exact hle' item hitem item' hitem'

namespace WF

/-- A search for the node of an entry by its address. -/
theorem searches_node (h : s.WF) (p : EPtr) :
    s.db.Searches id { ref := p, hashCode := (s.entries p).hashCode } hnodeSame where
  eq_iff q := by simp [hnodeSame]
  hashCode n hn href := by
    obtain rfl : n.ref = p := href
    exact (h.hash n hn).2

/-- `hm_delete` with `hnode_same` finds the node of an entry in the database. -/
theorem deleteNode (h : s.WF) {p : EPtr} (hp : p ∈ s.refs) :
    ∃ node db, hmDelete s.db { ref := p, hashCode := (s.entries p).hashCode } hnodeSame =
        .ok (some node, db) ∧
      node.ref = p ∧ s.db.nodes.Perm (node :: db.nodes) ∧ db.WF fun p => (s.entries p).key := by
  obtain ⟨found, db, hrun, hdb, hfound, hsome, -⟩ := h.db.byRef.hmDelete (h.searches_node p)
  obtain ⟨n, hn, href⟩ := mem_refs.mp hp
  obtain rfl : found = some n := (hfound n).mpr ⟨hn, href⟩
  exact ⟨n, db, hrun, href, hsome n rfl, h.db.of_perm_cons hdb.toTablesWF (hsome n rfl)⟩

/-- The entry of an item is in the database, and its deadline is that of the item. -/
theorem contents_of_item (h : s.WF) (hitem : item ∈ s.heap.items) :
    s.contents (s.entries item.ref).key = some (s.content item.ref) ∧
      (s.content item.ref).expiry = some item.val :=
  ⟨h.contents_of_mem (h.heap.owned item hitem),
    valueOf_eq_of_mem h.heap.refs hitem⟩

/-- `entry_del` on an entry that is not in the heap frees it and does nothing else. -/
theorem entryDel_unlinked (hidx : s.heap.idx p = sizeMax) (hrun : entryDel now s p = .ok s') :
    s'.db = s.db ∧ s'.heap = s.heap ∧ ∀ q, (s'.entries q).key = (s.entries q).key := by
  have hclear : entrySetTtl now s p (-1) = .ok s := by simp [entrySetTtl, hidx]
  simp only [entryDel, hclear, ok_bind] at hrun
  generalize (if (s.entries p).type = .zset then hmSize (s.entries p).zset.hmap else 0) = sz at hrun
  by_cases hlarge : sz > kLargeContainerSize
  · rw [if_pos hlarge] at hrun
    cases hrun
    exact ⟨rfl, rfl, fun _ => rfl⟩
  · rw [if_neg hlarge] at hrun
    unfold entryDelSync at hrun
    split at hrun
    · obtain ⟨zset, -, hret⟩ := bind_eq_ok.mp hrun
      cases hret
      refine ⟨rfl, rfl, fun q => ?_⟩
      by_cases hq : q = p
      · subst hq
        simp
      · simp [hq]
    · cases hrun
      exact ⟨rfl, rfl, fun _ => rfl⟩

/-- One turn of the loop. -/
theorem expireOne (h : s.WF) (htop : s.heap.items[0]? = some top) (now : UInt64) :
    ∃ heap node db s', s.heap.heapDelete 0 = .ok heap ∧
      hmDelete s.db { ref := top.ref, hashCode := (s.entries top.ref).hashCode } hnodeSame =
        .ok (some node, db) ∧ node.ref = top.ref ∧
      entryDel now { s with heap := heap.setIdx top.ref sizeMax, db } top.ref = .ok s' ∧
      s.Expires [top] s' := by
  have hp : top.ref ∈ s.refs := h.heap.owned top (List.mem_of_getElem? htop)
  obtain ⟨heap, hheap, hserves, hdeadline⟩ := h.heap.remove htop
  have h₁ := h.setHeap hserves
  obtain ⟨node, db, hdel, href, hperm, hdb⟩ := h.deleteNode hp
  obtain ⟨s', hrun, hs', hlater, hcontents⟩ := h₁.removeEntry hperm hdb now
  rw [href] at hrun
  obtain ⟨hdb', hheap', hkeys⟩ := entryDel_unlinked (Function.update_self ..) hrun
  obtain ⟨heap₁, hdelete, -, hitems, -⟩ := h.heap.toLinked.delete htop
  cases hdelete.symm.trans hheap
  have hitems' : s.heap.items.Perm (top :: s'.heap.items) := hheap' ▸ hitems
  refine ⟨heap, node, db, s', hheap, hdel, href, hrun, hs',
    ⟨hlater.next, hlater.freed, hlater.queue⟩, hitems', ?_, hkeys, ?_, fun hord => ⟨?_, ?_⟩⟩
  · rw [refs, refs, hdb', List.map_singleton, List.singleton_append, ← href]
    exact hperm.map HNode.ref
  · rw [hcontents, h.contents_setHeap hp hdeadline, href, Function.update_idem]
    funext k
    by_cases hk : k = (s.entries top.ref).key
    · simp [hk]
    · simp [hk]
  · rw [hheap']
    exact (hord.delete hheap).congr rfl
  · intro item hitem item' hitem'
    obtain rfl := List.mem_singleton.mp hitem
    exact hord.top_le htop (hitems'.mem_iff.mpr (List.mem_cons_of_mem _ hitem'))

/-- The loop returns. It stops when it has done all its work or when nothing that is left is due. -/
theorem expireLoop_expires (h : s.WF) (now : UInt64) (works : Nat) :
    ∃ s' items, MiniRedis.expireLoop now works s = .ok s' ∧ s.Expires items s' ∧
      (∀ item ∈ items, item.val ≤ now) ∧ items.length ≤ works ∧
      (items.length = works ∨ ∀ top, s'.heap.items[0]? = some top → now < top.val) := by
  induction works generalizing s with
  | zero => exact ⟨s, [], rfl, .refl h, by simp, by simp, .inl rfl⟩
  | succ works ih =>
    unfold MiniRedis.expireLoop
    cases hitems : s.heap.items with
    | nil => exact ⟨s, [], rfl, .refl h, by simp, by simp, .inr (by simp [hitems])⟩
    | cons top rest =>
      have htop : s.heap.items[0]? = some top := by simp [hitems]
      by_cases hdue : top.val ≤ now
      · obtain ⟨heap, node, db, s₁, hheap, hdel, href, hrun, hone⟩ :=
          h.expireOne htop now
        obtain ⟨s', items, hloop, hall, hpast, hlen, hstop⟩ := ih hone.wf
        refine ⟨s', top :: items, ?_, hone.trans hall, ?_, Nat.succ_le_succ hlen, ?_⟩
        · simp only [hdue, if_true, hheap, ok_bind, hdel, href, hrun, hloop]
        · intro item hitem
          rcases List.mem_cons.mp hitem with rfl | hitem
          · exact hdue
          · exact hpast item hitem
        · exact hstop.imp_left (congrArg Nat.succ)
      · refine ⟨s, [], by simp [hdue], .refl h, by simp, by simp, .inr fun top' htop' => ?_⟩
        obtain rfl : top = top' := by simpa [hitems] using htop'
        exact UInt64.not_le.mp hdue

/-- It deletes keys whose deadline has passed, and nothing else. -/
theorem expireLoop (h : s.WF) (now : UInt64) (works : Nat) :
    ∃ (s' : ServerData) (ks : List Bytes), expireLoop now works s = .ok s' ∧ s'.WF ∧ s.Later s' ∧
      (∀ k ∈ ks, ∃ x d, s.contents k = some x ∧ x.expiry = some d ∧ d ≤ now) ∧
      s'.contents = fun k => if k ∈ ks then none else s.contents k := by
  obtain ⟨s', items, hloop, hall, hpast, -, -⟩ := h.expireLoop_expires now works
  refine ⟨s', _, hloop, hall.wf, hall.later, fun k hk => ?_, hall.contents⟩
  obtain ⟨item, hitem, rfl⟩ := List.mem_map.mp hk
  obtain ⟨hx, hd⟩ := h.contents_of_item (hall.heap.mem_iff.mpr (List.mem_append_left _ hitem))
  exact ⟨_, _, hx, hd, hpast item hitem⟩

end WF

end MiniRedis.ServerData
