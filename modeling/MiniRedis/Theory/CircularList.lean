import Mathlib.Data.List.Chain
import Mathlib.Data.List.Nodup
import Mathlib.Logic.Function.Basic

/-! # Circular doubly linked lists

A memory of `next` and `prev` links holds a ring: the list from a head node once around and back to
it. Taking a node out and putting one in before the head change two neighbours only. -/

namespace CircularList

variable {ν : Type} {next prev next' prev' : ν → Option ν} {head a b r : ν} {l xs as bs : List ν}

/-- Neighbours in the list are linked in both directions. -/
def Linked (next prev : ν → Option ν) (l : List ν) : Prop :=
  l.IsChain fun a b => next a = some b ∧ prev b = some a

/-- Only the `next` links of all nodes but the last and the `prev` links of all but the first
matter. -/
theorem Linked.congr (h : Linked next prev l) (hnext : ∀ a ∈ l.dropLast, next' a = next a)
    (hprev : ∀ b ∈ l.tail, prev' b = prev b) : Linked next' prev' l := by
  induction l with
  | nil => exact .nil
  | cons a l ih =>
    cases l with
    | nil => exact .singleton a
    | cons b l =>
      obtain ⟨⟨hn, hp⟩, hrest⟩ := List.isChain_cons_cons.mp h
      refine List.isChain_cons_cons.mpr ⟨⟨?_, ?_⟩, ih hrest (fun c hc => ?_) fun c hc => ?_⟩
      · rw [hnext a (by simp), hn]
      · rw [hprev b (by simp), hp]
      · exact hnext c (by simp [hc])
      · exact hprev c (List.mem_cons_of_mem _ hc)

/-- The nodes of a ring, from its head on. -/
structure IsRing (next prev : ν → Option ν) (head : ν) (xs : List ν) : Prop where
  linked : Linked next prev (head :: xs ++ [head])
  nodup : (head :: xs).Nodup

/-- A head that is linked to itself. -/
theorem IsRing.nil (hnext : next head = some head) (hprev : prev head = some head) :
    IsRing next prev head [] :=
  ⟨List.isChain_pair.mpr ⟨hnext, hprev⟩, List.nodup_singleton head⟩

theorem IsRing.next_head (h : IsRing next prev head xs) : next head = some (xs.head?.getD head) := by
  cases xs with
  | nil => exact (List.isChain_pair.mp h.linked).1
  | cons a xs => exact (List.isChain_cons_cons.mp h.linked).1.1

/-- The list is empty exactly if the head is linked to itself. -/
theorem IsRing.next_head_eq (h : IsRing next prev head xs) : next head = some head ↔ xs = [] := by
  rw [h.next_head]
  cases xs with
  | nil => simp
  | cons a xs =>
    have hne : a ≠ head := fun he => (List.nodup_cons.mp h.nodup).1 (by simp [he])
    simp [hne]

theorem notMem_dropLast_of_getLast? (h : l.Nodup) (ha : l.getLast? = some a) : a ∉ l.dropLast := by
  obtain ⟨ys, rfl⟩ := List.getLast?_eq_some_iff.mp ha
  rw [List.dropLast_concat]
  exact fun hmem => (List.nodup_append.mp h).2.2 a hmem a (by simp) rfl

theorem notMem_tail_of_head? (h : l.Nodup) (ha : l.head? = some a) : a ∉ l.tail := by
  cases l with
  | nil => cases ha
  | cons b l =>
    obtain rfl : b = a := Option.some.inj ha
    exact (List.nodup_cons.mp h).1

variable [DecidableEq ν]

/-- Taking a node out: its neighbours are linked to each other. -/
theorem IsRing.detach (h : IsRing next prev head (as ++ b :: bs)) :
    ∃ x y, prev b = some x ∧ next b = some y ∧
      IsRing (Function.update next x (some y)) (Function.update prev y (some x)) head (as ++ bs) := by
  have hlist : head :: (as ++ b :: bs) ++ [head] = head :: as ++ b :: (bs ++ [head]) := by simp
  have hlinked := h.linked
  rw [hlist] at hlinked
  obtain ⟨hfront, hback, hlink⟩ := List.isChain_append.mp hlinked
  obtain ⟨x, hx⟩ : ∃ x, (head :: as).getLast? = some x := ⟨_, List.getLast?_eq_some_getLast (by simp)⟩
  obtain ⟨y, hy⟩ : ∃ y, (bs ++ [head]).head? = some y := by
    cases bs with
    | nil => exact ⟨head, rfl⟩
    | cons c bs => exact ⟨c, rfl⟩
  obtain ⟨hnextx, hprevb⟩ := hlink x hx b (by simp)
  obtain ⟨hrest, hlink'⟩ := List.isChain_cons.mp hback |>.symm
  obtain ⟨hnextb, hprevy⟩ := hlink' y hy
  -- The nodes of the ring in two halves; `x` ends the first and `y` begins the second.
  have hnd : (head :: as ++ b :: bs).Nodup := h.nodup
  obtain ⟨hndas, hndbs, hdisj⟩ := List.nodup_append.mp hnd
  have hndbs' : (bs ++ [head]).Nodup := by
    refine List.nodup_append.mpr ⟨(List.nodup_cons.mp hndbs).2, List.nodup_singleton head, ?_⟩
    rintro c hc d hd rfl
    exact hdisj head List.mem_cons_self c (List.mem_cons_of_mem _ hc) (List.mem_singleton.mp hd).symm
  have hxmem : x ∈ head :: as := List.mem_of_getLast? hx
  have hymem : y ∈ bs ++ [head] := List.mem_of_head? hy
  refine ⟨x, y, hprevb, hnextb, ?_, ?_⟩
  · rw [show head :: (as ++ bs) ++ [head] = head :: as ++ (bs ++ [head]) by simp]
    refine List.isChain_append.mpr ⟨Linked.congr hfront (fun c hc => ?_) fun c hc => ?_,
      Linked.congr hrest (fun c hc => ?_) fun c hc => ?_, ?_⟩
    · refine Function.update_of_ne ?_ ..
      rintro rfl
      exact notMem_dropLast_of_getLast? hndas hx hc
    · refine Function.update_of_ne ?_ ..
      rintro rfl
      have hc' : c ∈ as := hc
      rcases List.mem_append.mp hymem with hmem | hmem
      · exact hdisj c (List.mem_cons_of_mem _ hc') c (List.mem_cons_of_mem _ hmem) rfl
      · exact (List.nodup_cons.mp hndas).1 (List.mem_singleton.mp hmem ▸ hc')
    · refine Function.update_of_ne ?_ ..
      rintro rfl
      rw [List.dropLast_concat] at hc
      exact hdisj c hxmem c (List.mem_cons_of_mem _ hc) rfl
    · refine Function.update_of_ne ?_ ..
      rintro rfl
      exact notMem_tail_of_head? hndbs' hy hc
    · intro u hu w hw
      obtain rfl : x = u := Option.some.inj (hx.symm.trans hu)
      obtain rfl : y = w := Option.some.inj (hy.symm.trans hw)
      exact ⟨Function.update_self .., Function.update_self ..⟩
  · exact hnd.sublist (by simp)

/-- Putting a new node in before the head, that is, at the end of the list. -/
theorem IsRing.insert (h : IsRing next prev head xs) (hr : r ∉ head :: xs) :
    ∃ x, prev head = some x ∧
      IsRing (Function.update (Function.update next x (some r)) r (some head))
        (Function.update (Function.update prev r (some x)) head (some r)) head (xs ++ [r]) := by
  obtain ⟨x, hx⟩ : ∃ x, (head :: xs).getLast? = some x := ⟨_, List.getLast?_eq_some_getLast (by simp)⟩
  obtain ⟨hfront, -, hlink⟩ := List.isChain_append.mp h.linked
  obtain ⟨-, hprev⟩ := hlink x hx head (by simp)
  have hxr : x ≠ r := fun he => hr (he ▸ List.mem_of_getLast? hx)
  have hhr : head ≠ r := fun he => hr (he ▸ List.mem_cons_self)
  refine ⟨x, hprev, ?_, ?_⟩
  · rw [show head :: (xs ++ [r]) ++ [head] = head :: xs ++ [r, head] by simp]
    refine List.isChain_append.mpr ⟨Linked.congr hfront (fun c hc => ?_) fun c hc => ?_,
      List.isChain_pair.mpr ⟨Function.update_self .., Function.update_self ..⟩, ?_⟩
    · have hcx : c ≠ x := fun he => notMem_dropLast_of_getLast? h.nodup hx (he ▸ hc)
      have hcr : c ≠ r := fun he => hr (he ▸ List.dropLast_subset _ hc)
      rw [Function.update_of_ne hcr, Function.update_of_ne hcx]
    · have hch : c ≠ head := fun he => (List.nodup_cons.mp h.nodup).1 (he ▸ hc)
      have hcr : c ≠ r := fun he => hr (he ▸ List.mem_cons_of_mem _ hc)
      rw [Function.update_of_ne hch, Function.update_of_ne hcr]
    · intro u hu w hw
      obtain rfl : x = u := Option.some.inj (hx.symm.trans hu)
      obtain rfl : r = w := Option.some.inj hw
      rw [Function.update_of_ne hxr, Function.update_self, Function.update_of_ne (Ne.symm hhr),
        Function.update_self]
      exact ⟨rfl, rfl⟩
  · rw [← List.cons_append, ← List.concat_eq_append]
    exact h.nodup.concat hr

end CircularList
