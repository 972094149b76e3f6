import Mathlib.Algebra.Order.Ring.Nat
import Mathlib.Data.List.Induction
import Mathlib.Tactic.Push

/-! # Runs of a fallible step function

A run applies a step to a list of actions and stops at the first error. -/

/-- The state after a list of actions, or the first error. -/
def runSteps (step : S → A → Except E S) : S → List A → Except E S
  | s, [] => .ok s
  | s, a :: as =>
    match step s a with
    | .ok s' => runSteps step s' as
    | .error e => .error e

section
variable {step : S → A → Except E S}

@[simp] theorem runSteps_nil (s : S) : runSteps step s [] = .ok s := rfl

theorem runSteps_cons_ok {s s' : S} {a : A} {as : List A} (h : step s a = .ok s') :
    runSteps step s (a :: as) = runSteps step s' as := by
  simp [runSteps, h]

theorem runSteps_cons_error {s : S} {a : A} {as : List A} {e : E} (h : step s a = .error e) :
    runSteps step s (a :: as) = .error e := by
  simp [runSteps, h]

theorem runSteps_append {s : S} {as bs : List A} :
    runSteps step s (as ++ bs) =
      match runSteps step s as with
      | .ok s' => runSteps step s' bs
      | .error e => .error e := by
  induction as generalizing s with
  | nil => rfl
  | cons a as ih =>
    cases h : step s a with
    | ok s' => simpa only [List.cons_append, runSteps_cons_ok h] using ih
    | error e => simp only [List.cons_append, runSteps_cons_error h]

theorem runSteps_append_ok {s s' : S} {as bs : List A} (h : runSteps step s as = .ok s') :
    runSteps step s (as ++ bs) = runSteps step s' bs := by
  rw [runSteps_append, h]

theorem runSteps_concat_ok {s s' s'' : S} {as : List A} {a : A} (h : runSteps step s as = .ok s')
    (ha : step s' a = .ok s'') : runSteps step s (as ++ [a]) = .ok s'' := by
  rw [runSteps_append_ok h, runSteps_cons_ok ha, runSteps_nil]

/-- The invariant rule: what every step preserves holds after every run. -/
theorem runSteps_invariant {motive : S → Prop} {s s' : S} {as : List A}
    (hstep : ∀ s s', motive s → ∀ a, step s a = .ok s' → motive s') (h : motive s)
    (hrun : runSteps step s as = .ok s') : motive s' := by
  induction as generalizing s with
  | nil =>
    cases hrun
    exact h
  | cons a as ih =>
    cases ha : step s a with
    | ok s₁ =>
      rw [runSteps_cons_ok ha] at hrun
      exact ih (hstep s s₁ h a ha) hrun
    | error e =>
      rw [runSteps_cons_error ha] at hrun
      cases hrun

/-- The potential rule: a run is no longer than its potential at the start and what its actions cost. -/
theorem runSteps_length_le {potential : S → Nat} {cost : A → Nat} {s s' : S} {as : List A}
    (hstep : ∀ s a s', step s a = .ok s' → potential s' + 1 ≤ potential s + cost a)
    (hrun : runSteps step s as = .ok s') :
    as.length + potential s' ≤ potential s + (as.map cost).sum := by
  induction as generalizing s with
  | nil =>
    cases hrun
    simp
  | cons a as ih =>
    cases ha : step s a with
    | error e =>
      rw [runSteps_cons_error ha] at hrun
      cases hrun
    | ok s₁ =>
      rw [runSteps_cons_ok ha] at hrun
      have hrest := ih hrun
      have hfirst := hstep s a s₁ ha
      simp only [List.length_cons, List.map_cons, List.sum_cons]
      omega

/-- If some of the actions lower a potential, a run of them leads to a state where none is possible. -/
theorem exists_run_to_end {potential : S → Nat} {allowed : A → Prop}
    (hstep : ∀ s a s', allowed a → step s a = .ok s' → potential s' < potential s) (s : S) :
    ∃ as s', (∀ a ∈ as, allowed a) ∧ runSteps step s as = .ok s' ∧
      ∀ a s'', allowed a → step s' a ≠ .ok s'' := by
  induction hn : potential s using Nat.strongRecOn generalizing s with
  | ind n ih =>
    by_cases hend : ∀ a s'', allowed a → step s a ≠ .ok s''
    · exact ⟨[], s, by simp, rfl, hend⟩
    · push Not at hend
      obtain ⟨a, s₁, ha, hrun₁⟩ := hend
      obtain ⟨as, s', has, hrun, hdone⟩ := ih _ (hn ▸ hstep s a s₁ ha hrun₁) s₁ rfl
      refine ⟨a :: as, s', ?_, (runSteps_cons_ok hrun₁).trans hrun, hdone⟩
      intro b hb
      rcases List.mem_cons.mp hb with rfl | hb
      · exact ha
      · exact has b hb

theorem runSteps_concat_eq_ok {s s' : S} {as : List A} {a : A} :
    runSteps step s (as ++ [a]) = .ok s' ↔
      ∃ s₁, runSteps step s as = .ok s₁ ∧ step s₁ a = .ok s' := by
  rw [runSteps_append]
  cases runSteps step s as with
  | error e => simp
  | ok s₁ => cases h : step s₁ a <;> simp [runSteps, h]

/-- A run stops where one of its steps fails. -/
theorem runSteps_eq_error {s : S} {as : List A} {e : E} :
    runSteps step s as = .error e ↔
      ∃ pre a s₁, pre ++ [a] <+: as ∧ runSteps step s pre = .ok s₁ ∧ step s₁ a = .error e := by
  induction as generalizing s with
  | nil =>
    refine iff_of_false (fun h => nomatch h) ?_
    rintro ⟨pre, a, -, hpre, -⟩
    simpa using hpre.length_le
  | cons b as ih =>
    cases hb : step s b with
    | error e' =>
      rw [runSteps_cons_error hb]
      constructor
      · intro he
        exact ⟨[], b, s, ⟨as, rfl⟩, rfl, hb.trans he⟩
      · rintro ⟨pre, a, s₁, hpre, hrun, ha⟩
        cases pre with
        | nil =>
          obtain ⟨rfl, -⟩ := List.cons_prefix_cons.mp hpre
          cases hrun
          exact hb.symm.trans ha
        | cons c pre =>
          obtain ⟨rfl, -⟩ := List.cons_prefix_cons.mp hpre
          cases (runSteps_cons_error hb).symm.trans hrun
    | ok s₂ =>
      rw [runSteps_cons_ok hb, ih]
      constructor
      · rintro ⟨pre, a, s₁, hpre, hrun, ha⟩
        exact ⟨b :: pre, a, s₁, List.cons_prefix_cons.mpr ⟨rfl, hpre⟩,
          (runSteps_cons_ok hb).trans hrun, ha⟩
      · rintro ⟨pre, a, s₁, hpre, hrun, ha⟩
        cases pre with
        | nil =>
          obtain ⟨rfl, -⟩ := List.cons_prefix_cons.mp hpre
          cases hrun
          cases hb.symm.trans ha
        | cons c pre =>
          obtain ⟨rfl, hpre'⟩ := List.cons_prefix_cons.mp hpre
          exact ⟨pre, a, s₁, hpre', (runSteps_cons_ok hb).symm.trans hrun, ha⟩

/-- The invariant rule for the prefixes of one run: a step may use where in the run it stands. -/
theorem runSteps_prefix_invariant {motive : S → Prop} {s s' : S} {as pre : List A} (h : motive s)
    (hstep : ∀ pre a s₁ s₂, pre ++ [a] <+: as → runSteps step s pre = .ok s₁ → motive s₁ →
      step s₁ a = .ok s₂ → motive s₂)
    (hpre : pre <+: as) (hrun : runSteps step s pre = .ok s') : motive s' := by
  induction pre using List.reverseRecOn generalizing s' with
  | nil =>
    cases hrun
    exact h
  | append_singleton pre a ih =>
    obtain ⟨s₁, hrun₁, ha⟩ := runSteps_concat_eq_ok.mp hrun
    exact hstep pre a s₁ s' hpre hrun₁ (ih ((List.prefix_append _ _).trans hpre) hrun₁) ha

/-- The states of a run are good after every step exactly when a condition holds before every step, if
the steps that meet the condition keep an invariant and the others lead to a bad state. -/
theorem runSteps_always_iff {inv good : S → Prop} {cond : S → A → Prop} {s : S} {as : List A}
    (h : inv s) (hgood : ∀ s, inv s → good s)
    (hkeep : ∀ pre a s₁, pre ++ [a] <+: as → runSteps step s pre = .ok s₁ → inv s₁ → cond s₁ a →
      ∃ s₂, step s₁ a = .ok s₂ ∧ inv s₂)
    (hbreak : ∀ pre a s₁ s₂, pre ++ [a] <+: as → runSteps step s pre = .ok s₁ → inv s₁ →
      step s₁ a = .ok s₂ → good s₂ → cond s₁ a) :
    (∀ pre, pre <+: as → ∃ s', runSteps step s pre = .ok s' ∧ good s') ↔
      ∀ pre a s₁, pre ++ [a] <+: as → runSteps step s pre = .ok s₁ → cond s₁ a := by
  -- either side gives the invariant after every prefix
  have hinv : ∀ pre, pre <+: as →
      (∀ pre' a s₁, pre' ++ [a] <+: pre → runSteps step s pre' = .ok s₁ → inv s₁ → cond s₁ a) →
      ∃ s', runSteps step s pre = .ok s' ∧ inv s' := by
    intro pre hpre hcond
    induction pre using List.reverseRecOn with
    | nil => exact ⟨s, rfl, h⟩
    | append_singleton pre a ih =>
      obtain ⟨s₁, hrun, h₁⟩ := ih ((List.prefix_append _ _).trans hpre)
        fun pre' a' s₁ hpre' => hcond pre' a' s₁ (hpre'.trans (List.prefix_append _ _))
      obtain ⟨s₂, ha, h₂⟩ := hkeep pre a s₁ hpre hrun h₁ (hcond pre a s₁ List.prefix_rfl hrun h₁)
      exact ⟨s₂, runSteps_concat_ok hrun ha, h₂⟩
  constructor
  · intro hall
    have hcond : ∀ pre a s₁, pre ++ [a] <+: as → runSteps step s pre = .ok s₁ → inv s₁ →
        cond s₁ a := by
      intro pre a s₁ hpre hrun h₁
      obtain ⟨s₂, hrun₂, hs₂⟩ := hall _ hpre
      obtain ⟨_, hrun', ha⟩ := runSteps_concat_eq_ok.mp hrun₂
      cases hrun.symm.trans hrun'
      exact hbreak pre a s₁ s₂ hpre hrun h₁ ha hs₂
    intro pre a s₁ hpre hrun
    obtain ⟨_, hrun', h₁⟩ := hinv pre ((List.prefix_append _ _).trans hpre)
      fun pre' a' s₁ hpre' => hcond pre' a' s₁ (hpre'.trans ((List.prefix_append _ _).trans hpre))
    cases hrun.symm.trans hrun'
    exact hcond pre a s₁ hpre hrun h₁
  · intro hcond pre hpre
    obtain ⟨s', hrun, h'⟩ := hinv pre hpre fun pre' a s₁ hpre' hrun' _ =>
      hcond pre' a s₁ (hpre'.trans hpre) hrun'
    exact ⟨s', hrun, hgood s' h'⟩

/-- A run ends, in a state related to its start, exactly when every step is possible and related, if a
relation of two states of a run amounts to that of each with a state between them. -/
theorem runSteps_related_iff {inv : S → Prop} {rel : S → S → Prop} {cond : S → A → Prop} {s : S} {as : List A}
    (h : inv s) (hkeep : ∀ s a s', inv s → step s a = .ok s' → inv s')
    (hstep : ∀ s a, inv s → ((∃ s', step s a = .ok s' ∧ rel s s') ↔ cond s a)) (hrefl : ∀ s, rel s s)
    (htrans : ∀ s a s₁ bs s', inv s → step s a = .ok s₁ → runSteps step s₁ bs = .ok s' →
      (rel s s' ↔ rel s s₁ ∧ rel s₁ s')) :
    (∃ s', runSteps step s as = .ok s' ∧ rel s s') ↔
      ∀ pre a s₁, pre ++ [a] <+: as → runSteps step s pre = .ok s₁ → cond s₁ a := by
  induction as generalizing s with
  | nil =>
    refine iff_of_true ⟨s, rfl, hrefl s⟩ fun pre a s₁ hpre => ?_
    simpa using hpre.length_le
  | cons b as ih =>
    constructor
    · rintro ⟨s', hrun, hrel⟩ pre a s₁ hpre hrun₁
      cases hb : step s b with
      | error e => cases (runSteps_cons_error hb).symm.trans hrun
      | ok s₂ =>
        rw [runSteps_cons_ok hb] at hrun
        obtain ⟨hfirst, hrest⟩ := (htrans s b s₂ as s' h hb hrun).mp hrel
        cases pre with
        | nil =>
          obtain ⟨rfl, -⟩ := List.cons_prefix_cons.mp hpre
          cases hrun₁
          exact (hstep s a h).mp ⟨s₂, hb, hfirst⟩
        | cons c pre =>
          obtain ⟨rfl, hpre'⟩ := List.cons_prefix_cons.mp hpre
          rw [runSteps_cons_ok hb] at hrun₁
          exact (ih (hkeep s c s₂ h hb)).mp ⟨s', hrun, hrest⟩ pre a s₁ hpre' hrun₁
    · intro hall
      obtain ⟨s₂, hb, hfirst⟩ := (hstep s b h).mpr (hall [] b s ⟨as, rfl⟩ rfl)
      obtain ⟨s', hrun, hrest⟩ := (ih (hkeep s b s₂ h hb)).mpr fun pre a s₁ hpre hrun₁ =>
        hall (b :: pre) a s₁ (List.cons_prefix_cons.mpr ⟨rfl, hpre⟩) ((runSteps_cons_ok hb).trans hrun₁)
      exact ⟨s', (runSteps_cons_ok hb).trans hrun, (htrans s b s₂ as s' h hb hrun).mpr ⟨hfirst, hrest⟩⟩

end

/-- Read a fact about the outcome of a run off an evaluation of it. -/
theorem eq_of_toOption_map {x : Except E A} {a : A} {f : A → B} {b : B} (hx : x = .ok a)
    (h : x.toOption.map f = some b) : f a = b := by
  subst hx
  exact Option.some.inj h

theorem exists_ok_of_toOption_map {x : Except E A} {f : A → B} {b : B} (h : x.toOption.map f = some b) :
    ∃ a, x = .ok a ∧ f a = b := by
  cases x with
  | error e => cases h
  | ok a => exact ⟨a, rfl, Option.some.inj h⟩

theorem eq_ok_of_toOption {x : Except E A} {a : A} (h : x.toOption = some a) : x = .ok a := by
  cases x with
  | error e => cases h
  | ok b => exact congrArg _ (Option.some.inj h)
