import Mathlib.Logic.Function.Basic
import Mathlib.Order.Basic

/-! # Binary heaps with a hole

The order of a binary heap whose keys are `v 0`, …, `v (n - 1)`. A sift moves a hole along a path:
whatever key stands at the hole does not matter, the pairs off the hole are in order, and the
children of the hole are in order with its parent. A key may fill the hole if it fits between the
parent and the children. -/

section
variable [Preorder κ] {v : Nat → κ} {n pos c : Nat} {x : κ}

def heapParent (i : Nat) : Nat := (i - 1) / 2

/-- No key is smaller than the one above it. -/
def HeapOrdered (v : Nat → κ) (n : Nat) : Prop := ∀ i, 0 < i → i < n → v (heapParent i) ≤ v i

theorem heapParent_lt {i : Nat} (h : 0 < i) : heapParent i < i := by
  unfold heapParent
  omega

/-- A child below `n` of a position. -/
def IsHeapChild (n c pos : Nat) : Prop := 0 < c ∧ c < n ∧ heapParent c = pos

theorem isHeapChild_iff : IsHeapChild n c pos ↔ (c = 2 * pos + 1 ∨ c = 2 * pos + 2) ∧ c < n := by
  unfold IsHeapChild heapParent
  omega

/-- The root has the smallest key. -/
theorem HeapOrdered.root_le (h : HeapOrdered v n) {i : Nat} (hi : i < n) : v 0 ≤ v i := by
  induction i using Nat.strongRecOn with
  | ind i ih =>
    by_cases h0 : 0 < i
    · have hlt := heapParent_lt h0
      exact le_trans (ih _ hlt (Nat.lt_trans hlt hi)) (h i h0 hi)
    · obtain rfl : i = 0 := by omega
      exact le_refl _

/-- The pairs off the hole are in order, and the children of the hole with its parent. -/
structure HeapHole (v : Nat → κ) (n pos : Nat) : Prop where
  except : ∀ i, 0 < i → i < n → i ≠ pos → heapParent i ≠ pos → v (heapParent i) ≤ v i
  grand : 0 < pos → ∀ c, IsHeapChild n c pos → v (heapParent pos) ≤ v c

/-- Any position of a heap can be taken as the hole. -/
theorem HeapOrdered.hole (h : HeapOrdered v n) (hpos : pos < n) : HeapHole v n pos where
  except i hi hlt _ _ := h i hi hlt
  grand h0 c hc := by
    have hchild := h c hc.1 hc.2.1
    rw [hc.2.2] at hchild
    exact le_trans (h pos h0 hpos) hchild

namespace HeapHole

/-- The key at the hole does not matter. -/
theorem congr {v' : Nat → κ} (h : HeapHole v n pos) (hv : ∀ i, i < n → i ≠ pos → v' i = v i)
    (hpos : pos < n) : HeapHole v' n pos where
  except i hi hlt hne hne' := by
    have := heapParent_lt hi
    rw [hv i hlt hne, hv _ (by omega) hne']
    exact h.except i hi hlt hne hne'
  grand h0 c hc := by
    have := heapParent_lt h0
    have := heapParent_lt hc.1
    have := hc.2.2
    rw [hv c hc.2.1 (by omega), hv _ (by omega) (by omega)]
    exact h.grand h0 c hc

/-- A key that fits fills the hole. -/
theorem fill (h : HeapHole v n pos) (habove : 0 < pos → v (heapParent pos) ≤ x)
    (hbelow : ∀ c, IsHeapChild n c pos → x ≤ v c) : HeapOrdered (Function.update v pos x) n := by
  intro i hi hlt
  have hparent := heapParent_lt hi
  by_cases hip : i = pos
  · subst hip
    rw [Function.update_self, Function.update_of_ne (Nat.ne_of_lt hparent)]
    exact habove hi
  · rw [Function.update_of_ne hip]
    by_cases hpp : heapParent i = pos
    · rw [hpp, Function.update_self]
      exact hbelow i ⟨hi, hlt, hpp⟩
    · rw [Function.update_of_ne hpp]
      exact h.except i hi hlt hip hpp

/-- The key above the hole moves down into it. -/
theorem moveUp (h : HeapHole v n pos) (h0 : 0 < pos) (hpos : pos < n) :
    HeapHole (Function.update v pos (v (heapParent pos))) n (heapParent pos) where
  except i hi hlt hne hne' := by
    have hip : i ≠ pos := fun he => hne' (by rw [he])
    rw [Function.update_of_ne hip]
    by_cases hpp : heapParent i = pos
    · rw [hpp, Function.update_self]
      exact h.grand h0 i ⟨hi, hlt, hpp⟩
    · rw [Function.update_of_ne hpp]
      exact h.except i hi hlt hip hpp
  grand h0' c hc := by
    have hlt := heapParent_lt h0
    have hlt' := heapParent_lt h0'
    have hup : v (heapParent (heapParent pos)) ≤ v (heapParent pos) :=
      h.except _ h0' (by omega) (by omega) (by omega)
    rw [Function.update_of_ne (by omega)]
    by_cases hcp : c = pos
    · rw [hcp, Function.update_self]
      exact hup
    · rw [Function.update_of_ne hcp]
      have hchild := h.except c hc.1 hc.2.1 hcp (by rw [hc.2.2]; omega)
      rw [hc.2.2] at hchild
      exact le_trans hup hchild

/-- After the move, a key that is smaller than the one that moved fits above all children. -/
theorem below_moveUp (h : HeapHole v n pos) (h0 : 0 < pos) (hx : x ≤ v (heapParent pos)) :
    ∀ c, IsHeapChild n c (heapParent pos) →
      x ≤ Function.update v pos (v (heapParent pos)) c := by
  intro c hc
  have hlt := heapParent_lt h0
  by_cases hcp : c = pos
  · rw [hcp, Function.update_self]
    exact hx
  · have hchild := h.except c hc.1 hc.2.1 hcp (by rw [hc.2.2]; omega)
    rw [hc.2.2] at hchild
    rw [Function.update_of_ne hcp]
    exact le_trans hx hchild

/-- The smallest key below the hole moves up into it. -/
theorem moveDown (h : HeapHole v n pos) (hc : IsHeapChild n c pos)
    (hmin : ∀ d, IsHeapChild n d pos → v c ≤ v d) :
    HeapHole (Function.update v pos (v c)) n c where
  except i hi hlt hne hne' := by
    by_cases hip : i = pos
    · subst hip
      rw [Function.update_self, Function.update_of_ne (Nat.ne_of_lt (heapParent_lt hi))]
      exact h.grand hi c hc
    · rw [Function.update_of_ne hip]
      by_cases hpp : heapParent i = pos
      · rw [hpp, Function.update_self]
        exact hmin i ⟨hi, hlt, hpp⟩
      · rw [Function.update_of_ne hpp]
        exact h.except i hi hlt hip hpp
  grand _ d hd := by
    have hcd := heapParent_lt hd.1
    have hpc := heapParent_lt hc.1
    rw [hc.2.2] at hpc ⊢
    rw [hd.2.2] at hcd
    have hchild := h.except d hd.1 hd.2.1 (by omega) (by rw [hd.2.2]; omega)
    rw [hd.2.2] at hchild
    rwa [Function.update_self, Function.update_of_ne (by omega)]

end HeapHole

end
