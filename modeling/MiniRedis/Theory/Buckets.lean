import Mathlib.Data.List.Perm.Basic
import Mathlib.Data.List.Nodup
import Mathlib.Data.Nat.Bitwise

/-! # Lists of chains

A table of chains is a list of lists and its contents are the concatenation. Replacing one chain
changes the contents at one place. -/

namespace List

/-- The contents around chain `i`, for every chain that may stand there. -/
theorem exists_flatten_set {tab : List (List α)} {i : Nat} {chain : List α}
    (h : tab[i]? = some chain) :
    ∃ before after, tab.flatten = before ++ chain ++ after ∧
      ∀ chain', (tab.set i chain').flatten = before ++ chain' ++ after := by
  obtain ⟨hi, hchain⟩ := List.getElem?_eq_some_iff.mp h
  refine ⟨(tab.take i).flatten, (tab.drop (i + 1)).flatten, ?_, fun chain' => ?_⟩
  · conv_lhs => rw [← List.take_append_drop i tab, List.drop_eq_getElem_cons hi, hchain]
    simp
  · rw [List.set_eq_take_append_cons_drop, if_pos hi]
    simp

theorem flatten_set_cons_perm {tab : List (List α)} {i : Nat} {chain : List α}
    (h : tab[i]? = some chain) (a : α) :
    (tab.set i (a :: chain)).flatten.Perm (a :: tab.flatten) := by
  obtain ⟨before, after, htab, hset⟩ := exists_flatten_set h
  rw [hset, htab, List.append_assoc, List.append_assoc]
  exact List.perm_middle

theorem flatten_set_eraseIdx_perm {tab : List (List α)} {i j : Nat} {chain : List α} {a : α}
    (h : tab[i]? = some chain) (ha : chain[j]? = some a) :
    tab.flatten.Perm (a :: (tab.set i (chain.eraseIdx j)).flatten) := by
  obtain ⟨before, after, htab, hset⟩ := exists_flatten_set h
  obtain ⟨hj, rfl⟩ := List.getElem?_eq_some_iff.mp ha
  have hchain := (List.getElem_cons_eraseIdx_perm hj).symm
  rw [hset, htab]
  refine ((hchain.append_left before).append_right after).trans ?_
  simp

/-- Every element of the contents stands in one of the chains. -/
theorem exists_getElem?_of_mem_flatten {tab : List (List α)} {a : α} (h : a ∈ tab.flatten) :
    ∃ (i : Nat) (chain : List α), tab[i]? = some chain ∧ a ∈ chain := by
  obtain ⟨chain, hchain, ha⟩ := List.mem_flatten.mp h
  obtain ⟨i, hi⟩ := List.mem_iff_getElem?.mp hchain
  exact ⟨i, chain, hi, ha⟩

theorem mem_flatten_of_getElem? {tab : List (List α)} {i : Nat} {chain : List α} {a : α}
    (h : tab[i]? = some chain) (ha : a ∈ chain) : a ∈ tab.flatten :=
  List.mem_flatten.mpr ⟨chain, List.mem_of_getElem? h, ha⟩

end List

/-- Masking by one less than a power of two stays below it. -/
theorem Nat.isPowerOfTwo.and_mask_lt {slots : Nat} (h : slots.isPowerOfTwo) (n : Nat) :
    n &&& (slots - 1) < slots := by
  obtain ⟨k, rfl⟩ := h
  rw [Nat.and_two_pow_sub_one_eq_mod]
  exact Nat.mod_lt _ (Nat.two_pow_pos k)
