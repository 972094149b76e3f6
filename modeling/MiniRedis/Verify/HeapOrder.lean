import Mathlib.Order.Nat
import MiniRedis.Theory.BinaryHeap
import MiniRedis.Verify.Heap

/-! # The order of the heap

The sifts restore the order of the deadlines. Together with the back-references (`Linked`) this makes
a heap well-formed. -/

namespace MiniRedis.Heap

variable {ρ : Type} {heap heap' : Heap ρ} {pos len fuel : Nat} {temp item : HeapItem ρ}

/-- No item is earlier than the one above it. -/
def Ordered (heap : Heap ρ) : Prop :=
  ∀ i up item, 0 < i → heap.items[parent i]? = some up → heap.items[i]? = some item →
    up.val ≤ item.val

/-- Every item at the position that its owner records, and in order. -/
structure WF (heap : Heap ρ) : Prop extends heap.Linked where
  ordered : heap.Ordered

/-- The deadline at a position. -/
def key (items : List (HeapItem ρ)) (i : Nat) : Nat := items[i]?.elim 0 (·.val.toNat)

theorem key_of_some {items : List (HeapItem ρ)} {i : Nat} (h : items[i]? = some item) :
    key items i = item.val.toNat := by
  simp [key, h]

theorem key_set {items : List (HeapItem ρ)} (h : pos < items.length) (item : HeapItem ρ) :
    key (items.set pos item) = Function.update (key items) pos item.val.toNat := by
  funext i
  by_cases hi : i = pos
  · subst hi
    simp [key, h]
  · rw [Function.update_of_ne hi, key, key, List.getElem?_set_ne (Ne.symm hi)]

theorem parent_eq (h : 0 < pos) : parent pos = heapParent pos := by
  unfold parent heapParent
  omega

theorem ordered_iff : heap.Ordered ↔ HeapOrdered (key heap.items) heap.items.length := by
  constructor
  · intro h i h0 hi
    have hlt := heapParent_lt h0
    rw [key_of_some (List.getElem?_eq_getElem hi),
      key_of_some (List.getElem?_eq_getElem (Nat.lt_trans hlt hi))]
    refine UInt64.le_iff_toNat_le.mp (h i _ _ h0 ?_ (List.getElem?_eq_getElem hi))
    rw [parent_eq h0, List.getElem?_eq_getElem]
  · intro h i up item h0 hup hitem
    have := h i h0 (List.getElem?_eq_some_iff.mp hitem).1
    rw [← parent_eq h0, key_of_some hup, key_of_some hitem] at this
    exact UInt64.le_iff_toNat_le.mpr this

/-- The top has the smallest deadline. -/
theorem Ordered.top_le {top : HeapItem ρ} (h : heap.Ordered) (htop : heap.items[0]? = some top)
    (hitem : item ∈ heap.items) : top.val ≤ item.val := by
  obtain ⟨i, hi, hget⟩ := List.mem_iff_getElem.mp hitem
  have hle := (ordered_iff.mp h).root_le hi
  rw [key_of_some htop, key_of_some (List.getElem?_eq_some_iff.mpr ⟨hi, hget⟩)] at hle
  exact UInt64.le_iff_toNat_le.mpr hle

variable [DecidableEq ρ]

theorem place_ok (h : heap.place pos item = .ok heap') :
    pos < heap.items.length ∧ heap'.items = heap.items.set pos item := by
  by_cases hpos : pos < heap.items.length
  · rw [place_eq hpos] at h
    cases h
    exact ⟨hpos, rfl⟩
  · simp [place, store, hpos] at h

/-- Filling the hole with an item that fits. -/
theorem ordered_place (hrun : heap.place pos temp = .ok heap')
    (hhole : HeapHole (key heap.items) heap.items.length pos)
    (habove : 0 < pos → key heap.items (heapParent pos) ≤ temp.val.toNat)
    (hbelow : ∀ c, IsHeapChild heap.items.length c pos → temp.val.toNat ≤ key heap.items c) :
    heap'.Ordered := by
  obtain ⟨hpos, hitems⟩ := place_ok hrun
  rw [ordered_iff, hitems, key_set hpos, List.length_set]
  exact hhole.fill habove hbelow

/-- The loop of `heap_up` restores the order if `temp` fits above the children of the hole. -/
theorem upLoop_ordered (hrun : upLoop temp fuel heap pos = .ok heap')
    (hhole : HeapHole (key heap.items) heap.items.length pos)
    (hbelow : ∀ c, IsHeapChild heap.items.length c pos → temp.val.toNat ≤ key heap.items c) :
    heap'.Ordered := by
  induction fuel generalizing heap pos with
  | zero => cases hrun
  | succ fuel ih =>
    rw [upLoop] at hrun
    split at hrun
    · next h0 =>
      obtain ⟨up, hup, hrun⟩ := bind_eq_ok.mp hrun
      rw [index_eq_ok, parent_eq h0] at hup
      have hkey := key_of_some hup
      split at hrun
      · next hgt =>
        obtain ⟨heap₁, hplace, hrun⟩ := bind_eq_ok.mp hrun
        obtain ⟨hpos, hitems⟩ := place_ok hplace
        have hle : temp.val.toNat ≤ key heap.items (heapParent pos) := by
          rw [hkey]
          exact Nat.le_of_lt (UInt64.lt_iff_toNat_lt.mp hgt)
        rw [parent_eq h0] at hrun
        refine ih hrun ?_ ?_
        · rw [hitems, key_set hpos, List.length_set, ← hkey]
          exact hhole.moveUp h0 hpos
        · rw [hitems, key_set hpos, List.length_set, ← hkey]
          exact hhole.below_moveUp h0 hle
      · next hle =>
        refine ordered_place hrun hhole (fun _ => ?_) hbelow
        rw [hkey]
        exact Nat.not_lt.mp fun hlt => hle (UInt64.lt_iff_toNat_lt.mpr hlt)
    · next h0 => exact ordered_place hrun hhole (fun h => absurd h h0) hbelow

omit [DecidableEq ρ] in
/-- One comparison of `heap_down`: the child is taken, or it is not smaller. -/
theorem smaller_cases {child : Nat} {smallest r : Nat × UInt64}
    (hrun : heap.smaller len child smallest = .ok r) :
    (child < len ∧ key heap.items child < smallest.2.toNat ∧ r.1 = child ∧
      r.2.toNat = key heap.items child) ∨
    (r = smallest ∧ (child < len → smallest.2.toNat ≤ key heap.items child)) := by
  unfold smaller at hrun
  split at hrun
  · next hlt =>
    obtain ⟨item, hitem, hret⟩ := bind_eq_ok.mp hrun
    have hkey := key_of_some (index_eq_ok.mp hitem)
    cases hret
    rw [hkey]
    split
    · next hless => exact .inl ⟨hlt, UInt64.lt_iff_toNat_lt.mp hless, rfl, rfl⟩
    · next hless =>
      exact .inr ⟨rfl, fun _ => Nat.not_lt.mp fun h => hless (UInt64.lt_iff_toNat_lt.mpr h)⟩
  · next hlt =>
    cases hrun
    exact .inr ⟨rfl, fun h => absurd h hlt⟩

omit [DecidableEq ρ] in
/-- Both comparisons: no child is smaller than `temp`, or the smallest child is taken. -/
theorem smallest_cases {r₁ r₂ : Nat × UInt64}
    (hleft : heap.smaller len (leftChild pos) (pos, temp.val) = .ok r₁)
    (hright : heap.smaller len (rightChild pos) r₁ = .ok r₂) :
    (r₂.1 = pos ∧ ∀ c, IsHeapChild len c pos → temp.val.toNat ≤ key heap.items c) ∨
    (r₂.1 ≠ pos ∧ IsHeapChild len r₂.1 pos ∧ key heap.items r₂.1 < temp.val.toNat ∧
      ∀ c, IsHeapChild len c pos → key heap.items r₂.1 ≤ key heap.items c) := by
  have hl : leftChild pos = 2 * pos + 1 := by
    unfold leftChild
    omega
  have hr : rightChild pos = 2 * pos + 2 := by
    unfold rightChild
    omega
  simp only [isHeapChild_iff]
  rw [hl] at hleft
  rw [hr] at hright
  rcases smaller_cases hleft with ⟨hlt₁, hless₁, hpos₁, hval₁⟩ | ⟨rfl, hge₁⟩
  · simp only at hless₁
    rcases smaller_cases hright with ⟨hlt₂, hless₂, hpos₂, -⟩ | ⟨rfl, hge₂⟩
    · refine .inr ⟨by omega, ⟨.inr hpos₂, by omega⟩, by rw [hpos₂]; omega, ?_⟩
      rw [hpos₂]
      rintro c ⟨rfl | rfl, hc⟩ <;> omega
    · refine .inr ⟨by omega, ⟨.inl hpos₁, by omega⟩, by rw [hpos₁]; omega, ?_⟩
      rw [hpos₁]
      rintro c ⟨rfl | rfl, hc⟩ <;> omega
  · rcases smaller_cases hright with ⟨hlt₂, hless₂, hpos₂, -⟩ | ⟨rfl, hge₂⟩
    · refine .inr ⟨by omega, ⟨.inr hpos₂, by omega⟩, by rw [hpos₂]; exact hless₂, ?_⟩
      rw [hpos₂]
      rintro c ⟨rfl | rfl, hc⟩ <;> omega
    · refine .inl ⟨rfl, ?_⟩
      rintro c ⟨rfl | rfl, hc⟩
      · exact hge₁ hc
      · exact hge₂ hc

/-- The loop of `heap_down` restores the order if `temp` fits below the parent of the hole. -/
theorem downLoop_ordered (hrun : downLoop temp len fuel heap pos = .ok heap')
    (hlen : len = heap.items.length) (hhole : HeapHole (key heap.items) heap.items.length pos)
    (habove : 0 < pos → key heap.items (heapParent pos) ≤ temp.val.toNat) : heap'.Ordered := by
  induction fuel generalizing heap pos with
  | zero => cases hrun
  | succ fuel ih =>
    rw [downLoop] at hrun
    obtain ⟨r₁, hleft, hrun⟩ := bind_eq_ok.mp hrun
    obtain ⟨r₂, hright, hrun⟩ := bind_eq_ok.mp hrun
    rcases smallest_cases hleft hright with ⟨hstay, hbelow⟩ | ⟨hmove, hchild, hless, hmin⟩
    · rw [if_pos hstay] at hrun
      exact ordered_place hrun hhole habove (hlen ▸ hbelow)
    · rw [if_neg hmove] at hrun
      obtain ⟨item, hitem, hrun⟩ := bind_eq_ok.mp hrun
      obtain ⟨heap₁, hplace, hrun⟩ := bind_eq_ok.mp hrun
      have hkey := key_of_some (index_eq_ok.mp hitem)
      obtain ⟨hpos, hitems⟩ := place_ok hplace
      have hkey' : key heap₁.items = Function.update (key heap.items) pos (key heap.items r₂.1) := by
        rw [hitems, key_set hpos, hkey]
      have hlen' : heap₁.items.length = heap.items.length := by rw [hitems, List.length_set]
      refine ih hrun (hlen.trans hlen'.symm) ?_ fun _ => ?_
      · rw [hkey', hlen']
        exact hhole.moveDown (hlen ▸ hchild) (hlen ▸ hmin)
      · rw [hkey', hchild.2.2, Function.update_self]
        exact Nat.le_of_lt hless

/-- `heap_update` restores the order, whatever item stands at `pos`. -/
theorem heapUpdate_ordered (hrun : heapUpdate heap pos len = .ok heap')
    (hlen : len = heap.items.length) (hpos : pos < len)
    (hhole : HeapHole (key heap.items) heap.items.length pos) : heap'.Ordered := by
  obtain ⟨temp, htemp⟩ : ∃ temp, heap.items[pos]? = some temp :=
    ⟨_, List.getElem?_eq_getElem (hlen ▸ hpos)⟩
  obtain ⟨below, hbelow, hrun⟩ := bind_eq_ok.mp hrun
  unfold belowParent at hbelow
  split at hbelow
  · next h0 =>
    obtain ⟨up, hup, hbelow⟩ := bind_eq_ok.mp hbelow
    simp only [index_eq_ok.mpr htemp, ok_bind, pure_eq_ok, Except.ok.injEq] at hbelow
    have hkey := key_of_some (parent_eq h0 ▸ index_eq_ok.mp hup)
    cases below with
    | true =>
      have hlt : temp.val.toNat < key heap.items (heapParent pos) := by
        rw [hkey]
        exact UInt64.lt_iff_toNat_lt.mp (of_decide_eq_true hbelow)
      simp only [if_true, heapUp, index_eq_ok.mpr htemp, ok_bind] at hrun
      exact upLoop_ordered hrun hhole fun c hc =>
        Nat.le_trans (Nat.le_of_lt hlt) (hhole.grand h0 c hc)
    | false =>
      simp only [Bool.false_eq_true, if_false, heapDown, index_eq_ok.mpr htemp, ok_bind] at hrun
      refine downLoop_ordered hrun hlen hhole fun _ => ?_
      rw [hkey]
      exact Nat.not_lt.mp fun h => of_decide_eq_false hbelow (UInt64.lt_iff_toNat_lt.mpr h)
  · next h0 =>
    cases hbelow
    simp only [Bool.false_eq_true, if_false, heapDown, index_eq_ok.mpr htemp, ok_bind] at hrun
    exact downLoop_ordered hrun hlen hhole fun h => absurd h h0

/-! ## The operations -/

omit [DecidableEq ρ] in
/-- The order of a heap does not depend on what stands at the hole. -/
theorem Ordered.hole (h : heap.Ordered) {items : List (HeapItem ρ)} (hpos : pos < items.length)
    (hlen : items.length ≤ heap.items.length)
    (hsame : ∀ i, i < items.length → i ≠ pos → items[i]? = heap.items[i]?) :
    HeapHole (key items) items.length pos := by
  have hordered : HeapOrdered (key heap.items) items.length := fun i h0 hi =>
    ordered_iff.mp h i h0 (Nat.lt_of_lt_of_le hi hlen)
  exact (hordered.hole hpos).congr (fun i hi hne => by rw [key, key, hsame i hi hne]) hpos

theorem Ordered.upsert_update (h : heap.Ordered) (hpos : pos < heap.items.length)
    (hrun : heapUpsert heap pos item = .ok heap') : heap'.Ordered := by
  simp only [heapUpsert, hpos, if_true, store, pure_eq_ok, ok_bind] at hrun
  refine heapUpdate_ordered hrun rfl (by simpa using hpos) ?_
  refine h.hole (by simpa [setIdx] using hpos) (by simp [setIdx]) fun i _ hne => ?_
  exact List.getElem?_set_ne (Ne.symm hne)

theorem Ordered.upsert_insert (h : heap.Ordered) (hpos : heap.items.length ≤ pos)
    (hrun : heapUpsert heap pos item = .ok heap') : heap'.Ordered := by
  simp only [heapUpsert, Nat.not_lt.mpr hpos, if_false] at hrun
  refine heapUpdate_ordered hrun rfl (by simp) ?_
  -- The new item is the last one: it has no children, and nothing else has changed.
  have hsame : ∀ i, i < heap.items.length →
      key (heap.items ++ [item]) i = key heap.items i := fun i hi => by
    rw [key, key, List.getElem?_append_left hi]
  have hlast : (heap.items ++ [item]).length = heap.items.length + 1 := by simp
  refine ⟨fun i h0 hi hne hne' => ?_, fun h0 c hc => ?_⟩
  · have hlt : i < heap.items.length := by
      simp only [setIdx, hlast] at hi
      omega
    have := heapParent_lt h0
    simp only [setIdx]
    rw [hsame i hlt, hsame _ (by omega)]
    exact ordered_iff.mp h i h0 hlt
  · have hchild := isHeapChild_iff.mp hc
    simp only [setIdx, hlast] at hchild
    omega

theorem Ordered.delete (h : heap.Ordered) (hrun : heapDelete heap pos = .ok heap') :
    heap'.Ordered := by
  obtain ⟨back, hback, hrun⟩ := bind_eq_ok.mp hrun
  obtain ⟨heap₁, hstore, hrun⟩ := bind_eq_ok.mp hrun
  unfold store at hstore
  split at hstore
  · next hlt =>
    cases hstore
    have hlen : (heap.items.set pos back).dropLast.length = heap.items.length - 1 := by simp
    have hsame : ∀ i, i < (heap.items.set pos back).dropLast.length → i ≠ pos →
        (heap.items.set pos back).dropLast[i]? = heap.items[i]? := fun i hi hne => by
      rw [List.getElem?_dropLast, if_pos (by simpa using hi), List.getElem?_set_ne (Ne.symm hne)]
    simp only at hrun
    split at hrun
    · next hpos =>
      obtain ⟨item, -, hrun⟩ := bind_eq_ok.mp hrun
      have hhole := h.hole hpos (by omega) hsame
      exact heapUpdate_ordered hrun rfl hpos hhole
    · next hpos =>
      cases hrun
      refine ordered_iff.mpr fun i h0 hi => ?_
      have := heapParent_lt h0
      simp only at hi ⊢
      rw [key, key, hsame i hi (by omega), hsame _ (by omega) (by omega)]
      exact ordered_iff.mp h i h0 (by omega)
  · cases hstore

/-- **The heap of deadlines.** From a well-formed heap, giving an item a new deadline, adding an item
and deleting one all return a well-formed heap, which holds the items with that one replaced, added
or removed. The index fields of owners without an item in the new heap are not written to. -/
theorem WF.upsert_delete (h : heap.WF) :
    (∀ pos old item, heap.items[pos]? = some old → item.ref = old.ref →
      ∃ heap', heapUpsert heap pos item = .ok heap' ∧ heap'.WF ∧
        heap'.items.Perm (heap.items.set pos item) ∧
        ∀ r, r ∉ heap'.items.map (·.ref) → heap'.idx r = heap.idx r) ∧
    (∀ pos item, heap.items.length ≤ pos → item.ref ∉ heap.items.map (·.ref) →
      ∃ heap', heapUpsert heap pos item = .ok heap' ∧ heap'.WF ∧
        heap'.items.Perm (item :: heap.items) ∧
        ∀ r, r ∉ heap'.items.map (·.ref) → heap'.idx r = heap.idx r) ∧
    (∀ pos old, heap.items[pos]? = some old →
      ∃ heap', heapDelete heap pos = .ok heap' ∧ heap'.WF ∧
        heap.items.Perm (old :: heap'.items) ∧
        ∀ r, r ∉ heap'.items.map (·.ref) → heap'.idx r = heap.idx r) := by
  refine ⟨fun pos old item hold href => ?_, fun pos item hpos href => ?_, fun pos old hold => ?_⟩
  · obtain ⟨heap', hrun, hlinked, hs⟩ := h.toLinked.upsert_update hold href
    have hpos := (List.getElem?_eq_some_iff.mp hold).1
    refine ⟨heap', hrun, ⟨hlinked, h.ordered.upsert_update hpos hrun⟩, hs.perm, fun r hr => ?_⟩
    exact hs.frame r fun hmem => hr ((hs.perm.map _).mem_iff.mpr hmem)
  · obtain ⟨heap', hrun, hlinked, hs⟩ := h.toLinked.upsert_insert hpos href
    refine ⟨heap', hrun, ⟨hlinked, h.ordered.upsert_insert hpos hrun⟩,
      hs.perm.trans (List.perm_append_singleton _ _), fun r hr => ?_⟩
    exact hs.frame r fun hmem => hr ((hs.perm.map _).mem_iff.mpr hmem)
  · obtain ⟨heap', hrun, hlinked, hperm, hframe⟩ := h.toLinked.delete hold
    exact ⟨heap', hrun, ⟨hlinked, h.ordered.delete hrun⟩, hperm, hframe⟩

/-- The later of two deadlines becomes the earlier one. -/
theorem WF.upsert_delete_swap :
    ∃ heap : Heap Nat, heap.WF ∧ ∃ heap', heapUpsert heap 1 { val := 3, ref := 1 } = .ok heap' ∧
      heap'.WF ∧ heap'.items.Perm [{ val := 5, ref := 0 }, { val := 3, ref := 1 }] := by
  have h : (⟨[{ val := 5, ref := 0 }, { val := 8, ref := 1 }], id⟩ : Heap Nat).WF := by
    refine ⟨⟨by decide, fun i item hitem => ?_⟩, fun i up item h0 hup hitem => ?_⟩
    · rcases i with - | - | i <;> simp_all
      · cases hitem
        rfl
      · cases hitem
        rfl
    · rcases i with - | - | i <;> simp_all [parent]
      cases hup
      cases hitem
      decide
  obtain ⟨heap', hrun, hwf, hperm, -⟩ := h.upsert_delete.1 1 { val := 8, ref := 1 }
    { val := 3, ref := 1 } rfl rfl
  exact ⟨_, h, heap', hrun, hwf, hperm⟩

end MiniRedis.Heap
