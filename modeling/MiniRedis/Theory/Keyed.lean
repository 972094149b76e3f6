import Mathlib.Data.List.Nodup
import Mathlib.Data.Set.Card
import Mathlib.Logic.Function.Basic

/-! # Lists of keyed elements

A list whose elements have distinct keys is a finite map; `valueOf` reads it as one. Its meaning
does not depend on the order of the list. -/

variable [DecidableEq κ] {key key' : α → κ} {val val' : α → β} {xs ys : List α} {k : κ} {a : α}
  {b : β}

/-- The value of the element with the given key. -/
def valueOf (key : α → κ) (val : α → β) (xs : List α) (k : κ) : Option β :=
  (xs.find? fun x => key x = k).map val

theorem valueOf_eq_some (h : (xs.map key).Nodup) :
    valueOf key val xs k = some b ↔ ∃ x ∈ xs, key x = k ∧ val x = b := by
  simp only [valueOf, Option.map_eq_some_iff]
  constructor
  · rintro ⟨x, hx, rfl⟩
    exact ⟨x, List.mem_of_find?_eq_some hx, by simpa using List.find?_some hx, rfl⟩
  · rintro ⟨x, hx, rfl, rfl⟩
    refine ⟨x, ?_, rfl⟩
    cases hfind : xs.find? fun y => key y = key x with
    | none =>
      have := List.find?_eq_none.mp hfind x hx
      simp at this
    | some y =>
      have hy := List.find?_some hfind
      rw [List.inj_on_of_nodup_map h (List.mem_of_find?_eq_some hfind) hx (by simpa using hy)]

theorem valueOf_eq_none : valueOf key val xs k = none ↔ ∀ x ∈ xs, key x ≠ k := by
  simp [valueOf]

theorem valueOf_eq_of_mem (h : (xs.map key).Nodup) (ha : a ∈ xs) :
    valueOf key val xs (key a) = some (val a) :=
  (valueOf_eq_some h).mpr ⟨a, ha, rfl, rfl⟩

@[simp] theorem valueOf_nil : valueOf key val [] = fun _ => none := rfl

/-- Two lists with the same keyed values are the same map. -/
theorem valueOf_congr (hx : (xs.map key).Nodup) (hy : (ys.map key').Nodup)
    (h : ∀ k b, (∃ x ∈ xs, key x = k ∧ val x = b) ↔ ∃ y ∈ ys, key' y = k ∧ val' y = b) :
    valueOf key val xs = valueOf key' val' ys := by
  funext k
  ext b
  rw [valueOf_eq_some hx, valueOf_eq_some hy, h]

theorem valueOf_perm (hx : (xs.map key).Nodup) (h : xs.Perm ys) :
    valueOf key val xs = valueOf key val ys :=
  valueOf_congr hx ((h.map key).nodup_iff.mp hx) fun k b => by simp only [h.mem_iff]

/-- The map has as many keys as the list has elements. -/
theorem ncard_valueOf (h : (xs.map key).Nodup) :
    {k | valueOf key val xs k ≠ none}.ncard = xs.length := by
  have hkeys : {k | valueOf key val xs k ≠ none} = ((xs.map key).toFinset : Set κ) := by
    ext k
    simp [valueOf_eq_none]
  rw [hkeys, Set.ncard_coe_finset, List.toFinset_card_of_nodup h, List.length_map]

/-- Adding an element with a new key. -/
theorem valueOf_cons : valueOf key val (a :: xs) = Function.update (valueOf key val xs) (key a)
    (some (val a)) := by
  funext k
  by_cases hk : key a = k
  · subst hk
    simp [valueOf]
  · simp [valueOf, hk, Function.update_of_ne (Ne.symm hk)]

/-- Taking an element out. -/
theorem valueOf_of_perm_cons (hx : (xs.map key).Nodup) (h : xs.Perm (a :: ys)) :
    valueOf key val ys = Function.update (valueOf key val xs) (key a) none := by
  have hnd : ((a :: ys).map key).Nodup := (h.map key).nodup_iff.mp hx
  rw [List.map_cons, List.nodup_cons] at hnd
  rw [valueOf_perm hx h, valueOf_cons, Function.update_idem, eq_comm, Function.update_eq_self_iff,
    eq_comm, valueOf_eq_none]
  exact fun x hx hk => hnd.1 (List.mem_map.mpr ⟨x, hx, hk⟩)

/-- Changing the value of one element. -/
theorem valueOf_set (val : α → β) (hx : (xs.map key).Nodup) (ha : a ∈ xs)
    (hother : ∀ x ∈ xs, x ≠ a → val' x = val x) :
    valueOf key val' xs = Function.update (valueOf key val xs) (key a) (some (val' a)) := by
  funext k
  by_cases hk : k = key a
  · subst hk
    rw [Function.update_self, valueOf_eq_of_mem hx ha]
  · rw [Function.update_of_ne hk]
    ext b
    rw [valueOf_eq_some hx, valueOf_eq_some hx]
    have hne : ∀ x ∈ xs, key x = k → val' x = val x := by
      rintro x hmem rfl
      exact hother x hmem fun h => hk (by rw [h])
    constructor
    · rintro ⟨x, hmem, hkey, rfl⟩
      exact ⟨x, hmem, hkey, (hne x hmem hkey).symm⟩
    · rintro ⟨x, hmem, hkey, rfl⟩
      exact ⟨x, hmem, hkey, hne x hmem hkey⟩

/-! ## Properties of all values -/

/-- After an update of one key, all other values are old ones. -/
theorem forall_update_some {P : κ → β → Prop} {c : κ → Option β} {y : Option β}
    (hold : ∀ k' x, k' ≠ k → c k' = some x → P k' x) (hnew : ∀ x, y = some x → P k x) :
    ∀ k' x, Function.update c k y k' = some x → P k' x := by
  intro k' x hx
  by_cases hk : k' = k
  · subst hk
    rw [Function.update_self] at hx
    exact hnew x hx
  · rw [Function.update_of_ne hk] at hx
    exact hold k' x hk hx

omit [DecidableEq κ] in
/-- Removing keys keeps what holds of all values. -/
theorem forall_without_some {P : κ → β → Prop} {c c' : κ → Option β} {gone : κ → Prop}
    [DecidablePred gone] (hc : c' = fun k => if gone k then none else c k)
    (h : ∀ k x, c k = some x → P k x) : ∀ k x, c' k = some x → P k x := by
  intro k x hx
  simp only [hc] at hx
  split at hx
  · cases hx
  · exact h k x hx
