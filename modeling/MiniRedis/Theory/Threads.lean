import Mathlib.Algebra.BigOperators.Group.Finset.Piecewise
import Mathlib.Data.Fintype.Basic

/-! # Threads that share a lock -/

/-- The thread in its critical section is the one that holds the lock. -/
def Excludes (critical : T → Prop) (owner : Option T) : Prop := ∀ t, critical t ↔ owner = some t

namespace Excludes

variable {critical critical' : T → Prop} {owner : Option T} {t t' : T}

/-- Mutual exclusion. -/
theorem unique (h : Excludes critical owner) (ht : critical t) (ht' : critical t') : t = t' :=
  Option.some.inj (((h t).mp ht).symm.trans ((h t').mp ht'))

theorem congr (h : Excludes critical owner) (hsame : ∀ t, critical' t ↔ critical t) :
    Excludes critical' owner :=
  fun t => (hsame t).trans (h t)

/-- A thread takes the lock and enters its critical section. -/
theorem acquire (h : Excludes critical none) (ht : critical' t)
    (hothers : ∀ t', t' ≠ t → (critical' t' ↔ critical t')) : Excludes critical' (some t) := by
  intro t'
  constructor
  · intro ht'
    by_contra hne
    have hold := (hothers t' fun he => hne (congrArg some he.symm)).mp ht'
    cases (h t').mp hold
  · intro he
    cases he
    exact ht

/-- A thread leaves its critical section and gives the lock back. -/
theorem release (h : Excludes critical (some t)) (ht : ¬ critical' t)
    (hothers : ∀ t', t' ≠ t → (critical' t' ↔ critical t')) : Excludes critical' none := by
  intro t'
  refine iff_of_false ?_ nofun
  intro ht'
  have hne : t' ≠ t := fun he => ht (he ▸ ht')
  have hold := (hothers t' hne).mp ht'
  exact hne (Option.some.inj ((h t').mp hold)).symm

end Excludes

/-- What the threads have together, when one of them changes. -/
theorem sum_update_add {ι α M : Type*} [Fintype ι] [DecidableEq ι] [AddCommMonoid M] (f : α → M)
    (g : ι → α) (i : ι) (a : α) :
    ∑ j, f (Function.update g i a j) + f (g i) = ∑ j, f (g j) + f a := by
  have hold : ∑ j ∈ Finset.univ.erase i, f (Function.update g i a j) =
      ∑ j ∈ Finset.univ.erase i, f (g j) :=
    Finset.sum_congr rfl fun j hj => by rw [Function.update_of_ne (Finset.ne_of_mem_erase hj)]
  rw [← Finset.add_sum_erase _ _ (Finset.mem_univ i), hold, Function.update_self,
    ← Finset.add_sum_erase _ _ (Finset.mem_univ i)]
  ac_rfl
