import Mathlib.Data.List.Nodup
import Mathlib.Data.List.Perm.Basic
import Mathlib.Data.List.Perm.Subperm
import MiniRedis.Theory.Keyed
import MiniRedis.Model.Heap

/-! # The heap keeps its back-references

Every item of the heap is found at the position that its owner records. During a sift the heap has a
hole at `pos`, into which `temp` will go (`Sifting`); a step moves the hole to a neighbour, and the
end of the loop fills it (`Settled`). -/

namespace MiniRedis.Heap

variable {ρ : Type} {heap : Heap ρ} {items : List (HeapItem ρ)} {old : ρ → Nat} {pos q : Nat}
  {temp item : HeapItem ρ}

/-- The owner of every item records its position, and no two items have one owner. -/
structure Linked (heap : Heap ρ) : Prop where
  refs : (heap.items.map (·.ref)).Nodup
  idx : ∀ i item, heap.items[i]? = some item → heap.idx item.ref = i

/-- A heap that holds `items`, after writes to the position fields of their owners only. -/
structure Settled (items : List (HeapItem ρ)) (old : ρ → Nat) (heap : Heap ρ) : Prop where
  idx : ∀ i item, heap.items[i]? = some item → heap.idx item.ref = i
  perm : heap.items.Perm items
  frame : ∀ r, r ∉ items.map (·.ref) → heap.idx r = old r

theorem Settled.linked (h : Settled items old heap) (hnd : (items.map (·.ref)).Nodup) :
    heap.Linked :=
  ⟨(h.perm.map _).nodup_iff.mpr hnd, h.idx⟩

/-- A heap that will hold `items` once `temp` is put at `pos`. -/
structure Sifting (items : List (HeapItem ρ)) (old : ρ → Nat) (heap : Heap ρ) (pos : Nat)
    (temp : HeapItem ρ) : Prop where
  lt : pos < heap.items.length
  perm : (heap.items.set pos temp).Perm items
  idx : ∀ i item, i ≠ pos → heap.items[i]? = some item → heap.idx item.ref = i
  frame : ∀ r, r ∉ items.map (·.ref) → heap.idx r = old r

variable [DecidableEq ρ]

theorem place_eq (h : pos < heap.items.length) (item : HeapItem ρ) :
    heap.place pos item = .ok ⟨heap.items.set pos item, Function.update heap.idx item.ref pos⟩ := by
  simp [place, store, h, setIdx]

omit [DecidableEq ρ] in
/-- Different positions have different owners. -/
theorem ref_ne {xs : List (HeapItem ρ)} (hnd : (xs.map (·.ref)).Nodup) {i j : Nat}
    {a b : HeapItem ρ} (hij : i ≠ j) (ha : xs[i]? = some a) (hb : xs[j]? = some b) :
    a.ref ≠ b.ref := by
  intro href
  have hi : i < (xs.map (·.ref)).length := by
    have := (List.getElem?_eq_some_iff.mp ha).1
    simpa using this
  exact hij ((List.getElem?_inj hi hnd).mp (by simp [ha, hb, href]))

theorem Sifting.finish (h : Sifting items old heap pos temp) (hnd : (items.map (·.ref)).Nodup) :
    ∃ heap', heap.place pos temp = .ok heap' ∧ Settled items old heap' := by
  refine ⟨_, place_eq h.lt temp, fun i item hitem => ?_, h.perm, fun r hr => ?_⟩
  · by_cases hi : i = pos
    · subst hi
      rw [List.getElem?_set_self h.lt] at hitem
      cases hitem
      exact Function.update_self ..
    · have htemp : (heap.items.set pos temp)[pos]? = some temp := by simp [h.lt]
      have hne := ref_ne ((h.perm.map _).nodup_iff.mpr hnd) hi hitem htemp
      rw [List.getElem?_set_ne (Ne.symm hi)] at hitem
      exact (Function.update_of_ne hne ..).trans (h.idx i item hi hitem)
  · have hmem : temp ∈ items := h.perm.mem_iff.mp (List.mem_set h.lt temp)
    have hne : r ≠ temp.ref := fun he => hr (List.mem_map.mpr ⟨temp, hmem, he.symm⟩)
    exact (Function.update_of_ne hne ..).trans (h.frame r hr)

omit [DecidableEq ρ] in
/-- Moving the hole swaps `temp` with the item that is moved. -/
theorem move_perm (hpos : pos < heap.items.length) (hq : q ≠ pos) (hitem : heap.items[q]? = some item) :
    ((heap.items.set pos item).set q temp).Perm (heap.items.set pos temp) := by
  obtain ⟨hlt, hget⟩ := List.getElem?_eq_some_iff.mp hitem
  have hi : pos < (heap.items.set pos temp).length := by simpa using hpos
  have hj : q < (heap.items.set pos temp).length := by simpa using hlt
  have hswap := List.set_set_perm hi hj
  simpa [List.getElem_set_ne (Ne.symm hq), hget] using hswap

theorem Sifting.move (h : Sifting items old heap pos temp) (hnd : (items.map (·.ref)).Nodup)
    (hq : q ≠ pos) (hitem : heap.items[q]? = some item) :
    Sifting items old ⟨heap.items.set pos item, Function.update heap.idx item.ref pos⟩ q temp := by
  obtain ⟨hlt, -⟩ := List.getElem?_eq_some_iff.mp hitem
  have hnd' := (h.perm.map (·.ref)).nodup_iff.mpr hnd
  have hq' : (heap.items.set pos temp)[q]? = some item := by
    rw [List.getElem?_set_ne (Ne.symm hq), hitem]
  refine ⟨by simpa using hlt, (move_perm h.lt hq hitem).trans h.perm, fun i a hi ha => ?_,
    fun r hr => ?_⟩
  · by_cases hip : i = pos
    · subst hip
      rw [List.getElem?_set_self h.lt] at ha
      cases ha
      exact Function.update_self ..
    · rw [List.getElem?_set_ne (Ne.symm hip)] at ha
      have ha' : (heap.items.set pos temp)[i]? = some a := by
        rw [List.getElem?_set_ne (Ne.symm hip), ha]
      exact (Function.update_of_ne (ref_ne hnd' hi ha' hq') ..).trans (h.idx i a hip ha)
  · have hmem : item ∈ items := h.perm.mem_iff.mp (List.mem_of_getElem? hq')
    have hne : r ≠ item.ref := fun he => hr (List.mem_map.mpr ⟨item, hmem, he.symm⟩)
    exact (Function.update_of_ne hne ..).trans (h.frame r hr)

/-! ## The loops -/

theorem parent_lt (h : 0 < pos) : parent pos < pos := by
  unfold parent
  omega

/-- An invariant of the loops: the hole is inside of the heap, and an item from elsewhere can move into it. -/
structure Moves (P : Heap ρ → Nat → Prop) : Prop where
  lt : ∀ heap pos, P heap pos → pos < heap.items.length
  move : ∀ heap pos q item, P heap pos → q ≠ pos → heap.items[q]? = some item →
    P ⟨heap.items.set pos item, Function.update heap.idx item.ref pos⟩ q

theorem Sifting.moves (hnd : (items.map (·.ref)).Nodup) :
    Moves fun heap pos => Sifting items old heap pos temp where
  lt _ _ h := h.lt
  move _ _ _ _ h hq hitem := h.move hnd hq hitem

/-- The loop of `heap_up` ends where `temp` is put into the hole. -/
theorem Moves.upLoop {P : Heap ρ → Nat → Prop} {fuel : Nat} (hP : Moves P) (temp : HeapItem ρ)
    (h : P heap pos) (hfuel : pos < fuel) :
    ∃ heap' pos', P heap' pos' ∧ upLoop temp fuel heap pos = heap'.place pos' temp := by
  induction fuel generalizing heap pos with
  | zero => omega
  | succ fuel ih =>
    rw [Heap.upLoop]
    by_cases hpos : 0 < pos
    · have hparent := parent_lt hpos
      have hlt := hP.lt heap pos h
      obtain ⟨up, hup⟩ : ∃ up, heap.items[parent pos]? = some up :=
        ⟨_, List.getElem?_eq_getElem (Nat.lt_trans hparent hlt)⟩
      rw [if_pos hpos, index_eq_ok.mpr hup, ok_bind]
      split
      · rw [place_eq hlt, ok_bind]
        exact ih (hP.move heap pos _ up h (Nat.ne_of_lt hparent) hup) (by omega)
      · exact ⟨heap, pos, h, rfl⟩
    · rw [if_neg hpos]
      exact ⟨heap, pos, h, rfl⟩

omit [DecidableEq ρ] in
theorem smaller_eq {len : Nat} (hlen : len = heap.items.length) (child : Nat)
    (smallest : Nat × UInt64) :
    ∃ smallest', heap.smaller len child smallest = .ok smallest' ∧
      (smallest' = smallest ∨ smallest'.1 = child ∧ child < len) := by
  unfold smaller
  split
  case isTrue h =>
    rw [index_eq_ok.mpr (List.getElem?_eq_getElem (hlen ▸ h)), ok_bind]
    refine ⟨_, rfl, ?_⟩
    split
    · exact .inr ⟨rfl, h⟩
    · exact .inl rfl
  case isFalse => exact ⟨smallest, rfl, .inl rfl⟩

/-- The loop of `heap_down` does too. -/
theorem Moves.downLoop {P : Heap ρ → Nat → Prop} {fuel len : Nat} (hP : Moves P) (temp : HeapItem ρ)
    (h : P heap pos) (hlen : len = heap.items.length) (hfuel : len < fuel + pos) :
    ∃ heap' pos', P heap' pos' ∧ downLoop temp len fuel heap pos = heap'.place pos' temp := by
  induction fuel generalizing heap pos with
  | zero =>
    have := hP.lt heap pos h
    omega
  | succ fuel ih =>
    obtain ⟨s₁, hs₁, hcase₁⟩ := smaller_eq hlen (leftChild pos) (pos, temp.val)
    obtain ⟨s₂, hs₂, hcase₂⟩ := smaller_eq hlen (rightChild pos) s₁
    -- The hole stays or moves to a child that is below `len`.
    have hchild : s₂.1 = pos ∨ pos < s₂.1 ∧ s₂.1 < len := by
      unfold leftChild at hcase₁
      unfold rightChild at hcase₂
      rcases hcase₂ with rfl | ⟨h₂, h₃⟩
      · rcases hcase₁ with rfl | ⟨h₁, h₂⟩
        · exact .inl rfl
        · exact .inr (by omega)
      · exact .inr (by omega)
    rw [Heap.downLoop, hs₁, ok_bind, hs₂, ok_bind]
    split
    · exact ⟨heap, pos, h, rfl⟩
    · obtain ⟨hgt, hlt⟩ := hchild.resolve_left ‹_›
      obtain ⟨item, hitem⟩ : ∃ item, heap.items[s₂.1]? = some item :=
        ⟨_, List.getElem?_eq_getElem (hlen ▸ hlt)⟩
      rw [index_eq_ok.mpr hitem, ok_bind, place_eq (hP.lt heap pos h), ok_bind]
      refine ih (hP.move heap pos _ item h (Nat.ne_of_gt hgt) hitem) ?_ (by omega)
      rw [List.length_set]
      exact hlen

theorem Sifting.upLoop {fuel : Nat} (h : Sifting items old heap pos temp)
    (hnd : (items.map (·.ref)).Nodup) (hfuel : pos < fuel) :
    ∃ heap', upLoop temp fuel heap pos = .ok heap' ∧ Settled items old heap' := by
  obtain ⟨heap₁, pos', h', hrun⟩ := (moves hnd).upLoop temp h hfuel
  rw [hrun]
  exact h'.finish hnd

theorem Sifting.downLoop {fuel len : Nat} (h : Sifting items old heap pos temp)
    (hnd : (items.map (·.ref)).Nodup) (hlen : len = heap.items.length) (hfuel : len < fuel + pos) :
    ∃ heap', downLoop temp len fuel heap pos = .ok heap' ∧ Settled items old heap' := by
  obtain ⟨heap₁, pos', h', hrun⟩ := (moves hnd).downLoop temp h hlen hfuel
  rw [hrun]
  exact h'.finish hnd

/-- The hole and `temp` together hold the items, whoever owns them. -/
theorem moves_perm (items : List (HeapItem ρ)) (temp : HeapItem ρ) :
    Moves fun heap pos => pos < heap.items.length ∧ (heap.items.set pos temp).Perm items where
  lt _ _ h := h.1
  move _ _ _ _ h hq hitem :=
    ⟨by simpa using (List.getElem?_eq_some_iff.mp hitem).1, (move_perm h.1 hq hitem).trans h.2⟩

/-- `heap_up` keeps the items, and `heap_down` does. -/
theorem heapUp_perm (hpos : pos < heap.items.length) :
    ∃ heap', heap.heapUp pos = .ok heap' ∧ heap'.items.Perm heap.items := by
  have hitem := List.getElem?_eq_getElem hpos
  have hset : heap.items.set pos heap.items[pos] = heap.items := List.set_getElem_self hpos
  obtain ⟨heap₁, pos', ⟨hlt, hperm⟩, hrun⟩ := (moves_perm heap.items heap.items[pos]).upLoop
    heap.items[pos] ⟨hpos, .of_eq hset⟩ (Nat.lt_succ_self pos)
  rw [heapUp, index_eq_ok.mpr hitem, ok_bind, hrun, place_eq hlt]
  exact ⟨_, rfl, hperm⟩

theorem heapDown_perm (hpos : pos < heap.items.length) :
    ∃ heap', heap.heapDown pos heap.items.length = .ok heap' ∧ heap'.items.Perm heap.items := by
  have hitem := List.getElem?_eq_getElem hpos
  have hset : heap.items.set pos heap.items[pos] = heap.items := List.set_getElem_self hpos
  obtain ⟨heap₁, pos', ⟨hlt, hperm⟩, hrun⟩ := (moves_perm heap.items heap.items[pos]).downLoop
    heap.items[pos] ⟨hpos, .of_eq hset⟩ rfl (Nat.lt_add_right pos (Nat.lt_succ_self _))
  rw [heapDown, index_eq_ok.mpr hitem, ok_bind, hrun, place_eq hlt]
  exact ⟨_, rfl, hperm⟩

/-! ## The operations -/

theorem heapUpdate_settled (heap : Heap ρ) {len : Nat} (hlen : len = heap.items.length)
    (hpos : pos < len) (hnd : (heap.items.map (·.ref)).Nodup)
    (hidx : ∀ i item, i ≠ pos → heap.items[i]? = some item → heap.idx item.ref = i) :
    ∃ heap', heapUpdate heap pos len = .ok heap' ∧ Settled heap.items heap.idx heap' := by
  subst hlen
  obtain ⟨temp, htemp⟩ : ∃ temp, heap.items[pos]? = some temp := ⟨_, List.getElem?_eq_getElem hpos⟩
  have hset : heap.items.set pos temp = heap.items := by
    rw [← (List.getElem?_eq_some_iff.mp htemp).2, List.set_getElem_self]
  have h : Sifting heap.items heap.idx heap pos temp := ⟨hpos, by rw [hset], hidx, fun _ _ => rfl⟩
  have hbelow : ∃ b, heap.belowParent pos = .ok b := by
    unfold belowParent
    split
    case isTrue h0 =>
      have hup := List.getElem?_eq_getElem (Nat.lt_trans (parent_lt h0) hpos)
      exact ⟨_, by rw [index_eq_ok.mpr hup, ok_bind, index_eq_ok.mpr htemp]; rfl⟩
    case isFalse => exact ⟨false, rfl⟩
  obtain ⟨b, hb⟩ := hbelow
  rw [heapUpdate, hb, ok_bind]
  cases b with
  | true =>
    simp only [if_true, heapUp, index_eq_ok.mpr htemp, ok_bind]
    exact h.upLoop hnd (by omega)
  | false =>
    simp only [Bool.false_eq_true, if_false, heapDown, index_eq_ok.mpr htemp, ok_bind]
    exact h.downLoop hnd rfl (by omega)

omit [DecidableEq ρ] in
/-- The items with one of them replaced by an item of the same owner. -/
theorem map_ref_set {xs : List (HeapItem ρ)} (hitem : xs[pos]? = some item)
    (href : temp.ref = item.ref) : (xs.set pos temp).map (·.ref) = xs.map (·.ref) := by
  obtain ⟨hlt, hget⟩ := List.getElem?_eq_some_iff.mp hitem
  rw [List.map_set, href, ← hget]
  have hlt' : pos < (xs.map (·.ref)).length := by simpa using hlt
  have := List.set_getElem_self hlt'
  simpa using this

/-- Changing the deadline of an owner that has an item. -/
theorem Linked.upsert_update (h : heap.Linked) (hitem : heap.items[pos]? = some item)
    (href : temp.ref = item.ref) :
    ∃ heap', heapUpsert heap pos temp = .ok heap' ∧ heap'.Linked ∧
      Settled (heap.items.set pos temp) heap.idx heap' := by
  obtain ⟨hlt, hget⟩ := List.getElem?_eq_some_iff.mp hitem
  have hnd : ((heap.items.set pos temp).map (·.ref)).Nodup := by
    rw [map_ref_set hitem href]
    exact h.refs
  have hidx : Function.update heap.idx temp.ref pos = heap.idx := by
    rw [href, ← h.idx pos item hitem, Function.update_eq_self]
  obtain ⟨heap', hrun, hs⟩ := heapUpdate_settled ⟨heap.items.set pos temp, heap.idx⟩ (by simp) hlt
    hnd fun i a hi ha => by
      rw [List.getElem?_set_ne (Ne.symm hi)] at ha
      exact h.idx i a ha
  refine ⟨heap', ?_, hs.linked hnd, hs⟩
  simp [heapUpsert, store, setIdx, hlt, hidx, hrun]

/-- A deadline for an owner without an item. -/
theorem Linked.upsert_insert (h : heap.Linked) (hpos : heap.items.length ≤ pos)
    (href : temp.ref ∉ heap.items.map (·.ref)) :
    ∃ heap', heapUpsert heap pos temp = .ok heap' ∧ heap'.Linked ∧
      Settled (heap.items ++ [temp]) heap.idx heap' := by
  have hnd : ((heap.items ++ [temp]).map (·.ref)).Nodup := by
    rw [List.map_append, List.map_singleton, ← List.concat_eq_append]
    exact h.refs.concat href
  have hlen : heap.items.length + 1 = (heap.items ++ [temp]).length := by simp
  obtain ⟨heap', hrun, hs⟩ := heapUpdate_settled
    ⟨heap.items ++ [temp], Function.update heap.idx temp.ref heap.items.length⟩ hlen
    (Nat.lt_succ_self heap.items.length) hnd
    fun i a hi ha => by
      rw [List.getElem?_append] at ha
      split at ha
      · have hne : a.ref ≠ temp.ref := fun he =>
          href (List.mem_map.mpr ⟨a, List.mem_of_getElem? ha, he⟩)
        exact (Function.update_of_ne hne ..).trans (h.idx i a ha)
      · have := (List.getElem?_eq_some_iff.mp ha).1
        simp at this
        omega
  refine ⟨heap', ?_, hs.linked hnd, hs.idx, hs.perm, fun r hr => (hs.frame r hr).trans ?_⟩
  · simp [heapUpsert, setIdx, Nat.not_lt.mpr hpos, hrun]
  · refine Function.update_of_ne (fun he => hr ?_) ..
    simp [he]

/-- Deleting an item. -/
theorem Linked.delete (h : heap.Linked) (hitem : heap.items[pos]? = some item) :
    ∃ heap', heapDelete heap pos = .ok heap' ∧ heap'.Linked ∧
      heap.items.Perm (item :: heap'.items) ∧
      ∀ r, r ∉ heap'.items.map (·.ref) → heap'.idx r = heap.idx r := by
  obtain ⟨hlt, hget⟩ := List.getElem?_eq_some_iff.mp hitem
  obtain ⟨ys, back, hys⟩ := (List.eq_nil_or_concat heap.items).resolve_left
    (List.ne_nil_of_length_pos (by omega))
  rw [List.concat_eq_append] at hys
  obtain ⟨items, idx⟩ := heap
  obtain rfl : items = ys ++ [back] := hys
  simp only [List.length_append, List.length_singleton] at hlt
  have hlast : (ys ++ [back]).getLast? = some back := by simp
  by_cases hpos : pos < ys.length
  · -- The last item takes the place of the deleted one.
    have hitem' : ys[pos]? = some item := by
      simpa [List.getElem?_append_left hpos] using hitem
    have hperm : (ys ++ [back]).Perm (item :: ys.set pos back) := by
      have h1 := List.getElem_cons_eraseIdx_perm hpos
      rw [(List.getElem?_eq_some_iff.mp hitem').2] at h1
      refine (List.perm_append_singleton back ys).trans ((h1.symm.cons back).trans ?_)
      exact (List.Perm.swap item back _).trans
        ((List.set_perm_cons_eraseIdx hpos back).symm.cons item)
    have hnd : ((ys.set pos back).map (·.ref)).Nodup :=
      (List.nodup_cons.mp ((hperm.map (·.ref)).nodup_iff.mp h.refs)).2
    obtain ⟨heap', hrun, hs⟩ := heapUpdate_settled
      ⟨ys.set pos back, Function.update idx back.ref pos⟩
      (by simp) hpos hnd fun i a hi ha => by
        have hne := ref_ne hnd hi ha (by simp [hpos] : (ys.set pos back)[pos]? = some back)
        rw [List.getElem?_set_ne (Ne.symm hi)] at ha
        refine (Function.update_of_ne hne ..).trans (h.idx i a ?_)
        rw [List.getElem?_append_left (List.getElem?_eq_some_iff.mp ha).1, ha]
    refine ⟨heap', ?_, hs.linked hnd, hperm.trans (hs.perm.symm.cons item), fun r hr => ?_⟩
    · have hback : index (ys.set pos back) pos = .ok back := index_eq_ok.mpr (by simp [hpos])
      simp [heapDelete, hlast, store, setIdx, hpos, hback, hrun, Nat.lt_succ_of_lt hpos]
    · rw [((hs.perm.map (·.ref)).mem_iff)] at hr
      refine (hs.frame r hr).trans (Function.update_of_ne (fun he => hr ?_) ..)
      exact List.mem_map.mpr ⟨back, List.mem_set hpos back, he.symm⟩
  · obtain rfl : pos = ys.length := by omega
    obtain rfl : back = item := by simpa using hitem
    refine ⟨⟨ys, idx⟩, ?_, ⟨?_, fun i a ha => h.idx i a ?_⟩, List.perm_append_singleton back ys,
      fun r _ => rfl⟩
    · simp [heapDelete, store]
    · exact (List.nodup_append.mp (by simpa using h.refs)).1
    · rw [List.getElem?_append_left (List.getElem?_eq_some_iff.mp ha).1, ha]

/-! ## Deadlines of owners -/

/-- The deadline of an owner. -/
def deadline (heap : Heap ρ) : ρ → Option UInt64 := valueOf (·.ref) (·.val) heap.items

/-- The heap of a set of owners: those without a deadline record that they have no position. -/
structure Serves (heap : Heap ρ) (owners : List ρ) : Prop extends heap.Linked where
  owned : ∀ item ∈ heap.items, item.ref ∈ owners
  idle : ∀ r ∈ owners, r ∉ heap.items.map (·.ref) → heap.idx r = sizeMax
  room : owners.length ≤ sizeMax

namespace Serves

variable {owners : List ρ} {r : ρ}

omit [DecidableEq ρ] in
theorem length_le (h : heap.Serves owners) : heap.items.length ≤ sizeMax := by
  have hsub : heap.items.map (·.ref) ⊆ owners := fun r hr => by
    obtain ⟨item, hitem, rfl⟩ := List.mem_map.mp hr
    exact h.owned item hitem
  have := (h.refs.subperm hsub).length_le
  rw [List.length_map] at this
  exact Nat.le_trans this h.room

omit [DecidableEq ρ] in
theorem perm {owners' : List ρ} (h : heap.Serves owners) (hperm : owners.Perm owners') :
    heap.Serves owners' :=
  ⟨h.toLinked, fun item hitem => hperm.mem_iff.mp (h.owned item hitem),
    fun r hr => h.idle r (hperm.mem_iff.mpr hr), hperm.length_eq ▸ h.room⟩

omit [DecidableEq ρ] in
/-- The item of an owner that has one. -/
theorem item_of_mem (h : heap.Serves owners) (hr : r ∈ heap.items.map (·.ref)) :
    ∃ item, heap.items[heap.idx r]? = some item ∧ item.ref = r ∧ heap.idx r < sizeMax := by
  obtain ⟨item, hitem, rfl⟩ := List.mem_map.mp hr
  obtain ⟨i, hi, hget⟩ := List.mem_iff_getElem.mp hitem
  have hsome : heap.items[i]? = some item := List.getElem?_eq_some_iff.mpr ⟨hi, hget⟩
  have hidx := h.idx i item hsome
  have := h.length_le
  exact ⟨item, hidx ▸ hsome, rfl, by omega⟩

omit [DecidableEq ρ] in
theorem idx_eq_sizeMax (h : heap.Serves owners) (hr : r ∈ owners) :
    heap.idx r = sizeMax ↔ r ∉ heap.items.map (·.ref) := by
  refine ⟨fun hidx hmem => ?_, h.idle r hr⟩
  obtain ⟨item, -, -, hlt⟩ := h.item_of_mem hmem
  omega

theorem deadline_eq_none : heap.deadline r = none ↔ r ∉ heap.items.map (·.ref) := by
  rw [deadline, valueOf_eq_none]
  simp

theorem deadline_of_item (h : heap.Serves owners) (hitem : heap.items[pos]? = some item) :
    heap.deadline item.ref = some item.val :=
  valueOf_eq_of_mem h.refs (List.mem_of_getElem? hitem)

/-- Setting the deadline of an owner. -/
theorem upsert (h : heap.Serves owners) (hr : r ∈ owners) (val : UInt64) :
    ∃ heap', heapUpsert heap (heap.idx r) { val, ref := r } = .ok heap' ∧ heap'.Serves owners ∧
      heap'.deadline = Function.update heap.deadline r (some val) := by
  by_cases hmem : r ∈ heap.items.map (·.ref)
  · obtain ⟨item, hitem, rfl, -⟩ := h.item_of_mem hmem
    obtain ⟨hlt, hget⟩ := List.getElem?_eq_some_iff.mp hitem
    have href : (HeapItem.mk val item.ref).ref = item.ref := rfl
    obtain ⟨heap', hrun, hlinked, hs⟩ := h.toLinked.upsert_update hitem href
    have hmap := map_ref_set hitem href
    have hrefs : ∀ x, x ∈ heap'.items.map (·.ref) ↔ x ∈ heap.items.map (·.ref) := fun x => by
      rw [(hs.perm.map _).mem_iff, hmap]
    refine ⟨heap', hrun, ⟨hlinked, fun item' hitem' => ?_, fun x hx hnot => ?_, h.room⟩, ?_⟩
    · obtain ⟨a, ha, href⟩ := List.mem_map.mp
        ((hrefs item'.ref).mp (List.mem_map.mpr ⟨item', hitem', rfl⟩))
      exact href ▸ h.owned a ha
    · rw [hrefs] at hnot
      rw [hs.frame x (by rw [hmap]; exact hnot)]
      exact h.idle x hx hnot
    · have hold : heap.items.Perm (item :: heap.items.eraseIdx (heap.idx item.ref)) := by
        have := List.getElem_cons_eraseIdx_perm hlt
        rw [hget] at this
        exact this.symm
      have hnew := hs.perm.trans (List.set_perm_cons_eraseIdx hlt { val, ref := item.ref })
      rw [deadline, valueOf_perm hlinked.refs hnew, valueOf_cons, deadline, valueOf_perm h.refs hold,
        valueOf_cons, Function.update_idem]
  · have hpos : heap.items.length ≤ heap.idx r := (h.idle r hr hmem).symm ▸ h.length_le
    have hnew : (HeapItem.mk val r).ref ∉ heap.items.map (·.ref) := hmem
    obtain ⟨heap', hrun, hlinked, hs⟩ := h.toLinked.upsert_insert hpos hnew
    have hnew := hs.perm.trans (List.perm_append_singleton _ _)
    refine ⟨heap', hrun, ⟨hlinked, fun item hitem => ?_, fun x hx hnot => ?_, h.room⟩, ?_⟩
    · rcases List.mem_cons.mp (hnew.mem_iff.mp hitem) with rfl | hitem
      · exact hr
      · exact h.owned item hitem
    · rw [(hs.perm.map _).mem_iff] at hnot
      rw [hs.frame x hnot]
      refine h.idle x hx fun hx' => hnot ?_
      rw [List.map_append]
      exact List.mem_append_left _ hx'
    · rw [deadline, valueOf_perm hlinked.refs hnew, valueOf_cons]
      rfl

/-- Deleting the deadline of an owner. -/
theorem remove (h : heap.Serves owners) (hitem : heap.items[pos]? = some item) :
    ∃ heap', heapDelete heap pos = .ok heap' ∧ (heap'.setIdx item.ref sizeMax).Serves owners ∧
      (heap'.setIdx item.ref sizeMax).deadline = Function.update heap.deadline item.ref none := by
  obtain ⟨heap', hrun, hlinked, hperm, hframe⟩ := h.toLinked.delete hitem
  have hnot : item.ref ∉ heap'.items.map (·.ref) :=
    (List.nodup_cons.mp ((hperm.map _).nodup_iff.mp h.refs)).1
  refine ⟨heap', hrun, ⟨⟨hlinked.refs, fun i a ha => ?_⟩, fun a ha => ?_, fun x hx hx' => ?_,
    h.room⟩, ?_⟩
  · have hne : a.ref ≠ item.ref := fun he =>
      hnot (he ▸ List.mem_map.mpr ⟨a, List.mem_of_getElem? ha, rfl⟩)
    exact (Function.update_of_ne hne ..).trans (hlinked.idx i a ha)
  · exact h.owned a (hperm.mem_iff.mpr (List.mem_cons_of_mem _ ha))
  · by_cases hxr : x = item.ref
    · subst hxr
      exact Function.update_self ..
    · refine (Function.update_of_ne hxr ..).trans ((hframe x hx').trans (h.idle x hx fun hmem => ?_))
      rw [(hperm.map _).mem_iff, List.map_cons, List.mem_cons] at hmem
      exact hmem.elim hxr hx'
  · exact valueOf_of_perm_cons h.refs hperm

/-- A new owner, which has no deadline. -/
theorem addOwner (h : heap.Serves owners) (hr : r ∉ owners) (hroom : owners.length < sizeMax) :
    (heap.setIdx r sizeMax).Serves (r :: owners) := by
  have hne : ∀ a ∈ heap.items, a.ref ≠ r := fun a ha he => hr (he ▸ h.owned a ha)
  refine ⟨⟨h.refs, fun i a ha => ?_⟩, fun a ha => List.mem_cons_of_mem _ (h.owned a ha),
    fun x hx hx' => ?_, hroom⟩
  · exact (Function.update_of_ne (hne a (List.mem_of_getElem? ha)) ..).trans (h.idx i a ha)
  · by_cases hxr : x = r
    · subst hxr
      exact Function.update_self ..
    · exact (Function.update_of_ne hxr ..).trans
        (h.idle x ((List.mem_cons.mp hx).resolve_left hxr) hx')

omit [DecidableEq ρ] in
/-- An owner without a deadline leaves. -/
theorem dropOwner {owners' : List ρ} (h : heap.Serves owners) (hperm : owners.Perm (r :: owners'))
    (hr : r ∉ heap.items.map (·.ref)) : heap.Serves owners' := by
  refine ⟨h.toLinked, fun a ha => ?_, fun x hx => ?_, ?_⟩
  · refine (List.mem_cons.mp (hperm.mem_iff.mp (h.owned a ha))).resolve_left fun he => hr ?_
    exact he ▸ List.mem_map.mpr ⟨a, ha, rfl⟩
  · exact h.idle x (hperm.mem_iff.mpr (List.mem_cons_of_mem _ hx))
  · have := hperm.length_eq
    rw [List.length_cons] at this
    exact Nat.le_trans (by omega : owners'.length ≤ owners.length) h.room

end Serves

end MiniRedis.Heap
