import Mathlib.Algebra.Group.Action.Defs
import Mathlib.Algebra.Order.BigOperators.Group.Finset
import MiniRedis.Model.Basic
import MiniRedis.Model.ThreadPool
import MiniRedis.Theory.Run
import MiniRedis.Theory.Threads

/-! # The thread pool

Whatever the scheduler does, the works are taken in the order in which they were queued and each is run
once. No wakeup is lost: if no thread can go on, all works are done. -/

namespace MiniRedis

/-! ## Where the threads stand -/

def CallerAt.InCritical : CallerAt ω → Prop
  | .pushBack _ | .signal | .unlock => True
  | .outside | .lock _ => False

def WorkerAt.InCritical : WorkerAt ω → Prop
  | .testEmpty | .popFront | .unlock _ => True
  | .lock | .waiting | .relock | .run _ => False

/-- The work that a worker has taken and not yet run. -/
def WorkerAt.inHand : WorkerAt ω → Multiset ω
  | .unlock w | .run w => {w}
  | _ => 0

/-- The steps that the threads still have to take, at most. -/
def WorkerAt.potential : WorkerAt ω → Nat
  | .waiting => 0
  | .popFront => 1
  | .testEmpty => 2
  | .lock | .relock => 3
  | .run _ => 4
  | .unlock _ => 5

def CallerAt.potential (n : Nat) : CallerAt ω → Nat
  | .outside => 0
  | .unlock => 1
  | .signal => 3 * n + 2
  | .pushBack _ => 3 * n + 8
  | .lock _ => 3 * n + 9

/-- What a call and a spurious wakeup add. -/
def PoolAction.cost : PoolAction ω n → Nat
  | .call _ => 3 * n + 10
  | .spurious _ => 4
  | .caller _ | .worker _ => 0

def PoolAction.isCall : PoolAction ω n → Bool
  | .call _ => true
  | _ => false

def PoolAction.isSpurious : PoolAction ω n → Bool
  | .spurious _ => true
  | _ => false

/-- The steps of the threads themselves. -/
def PoolAction.Internal : PoolAction ω n → Prop
  | .caller _ | .worker _ => True
  | .call _ | .spurious _ => False

namespace ThreadPool

variable {ω : Type} {n : Nat}

/-! ## Steps -/

/-- What a step can do. -/
inductive Move : ThreadPool ω n → PoolAction ω n → ThreadPool ω n → Prop where
  | call (hat : s.caller = .outside) : Move s (.call w) { s with caller := .lock w }
  | callerLock (hat : s.caller = .lock w) (hmu : s.mu = none) :
      Move s (.caller woken) { s with mu := some .caller, caller := .pushBack w }
  | pushBack (hat : s.caller = .pushBack w) : Move s (.caller woken)
      { s with queue := s.queue ++ [w], queued := s.queued ++ [w], caller := .signal }
  | signal (hat : s.caller = .signal) (hwoken : ∀ i ∈ woken, s.workers i = .waiting)
      (hsome : (∃ i, s.workers i = .waiting) → woken.Nonempty) : Move s (.caller woken)
      { s with caller := .unlock, workers := fun i => if i ∈ woken then .relock else s.workers i }
  | callerUnlock (hat : s.caller = .unlock) (hmu : s.mu = some .caller) :
      Move s (.caller woken) { s with mu := none, caller := .outside }
  | lock (hat : s.workers i = .lock ∨ s.workers i = .relock) (hmu : s.mu = none) :
      Move s (.worker i) ({ s with mu := some (.worker i) }.setWorker i .testEmpty)
  | wait (hat : s.workers i = .testEmpty) (hempty : s.queue = []) (hmu : s.mu = some (.worker i)) :
      Move s (.worker i) ({ s with mu := none }.setWorker i .waiting)
  | nonempty (hat : s.workers i = .testEmpty) (hne : s.queue ≠ []) :
      Move s (.worker i) (s.setWorker i .popFront)
  | popFront (hat : s.workers i = .popFront) (hqueue : s.queue = w :: rest) :
      Move s (.worker i) ({ s with queue := rest, taken := s.taken ++ [w] }.setWorker i (.unlock w))
  | unlock (hat : s.workers i = .unlock w) (hmu : s.mu = some (.worker i)) :
      Move s (.worker i) ({ s with mu := none }.setWorker i (.run w))
  | run (hat : s.workers i = .run w) :
      Move s (.worker i) ({ s with done := s.done ++ [w] }.setWorker i .lock)
  | spurious (hat : s.workers i = .waiting) : Move s (.spurious i) (s.setWorker i .relock)

variable {s s' : ThreadPool ω n} {a : PoolAction ω n} {t : Thread n} {i : Fin n}
  {caller caller' : CallerAt ω} {workers : Fin n → WorkerAt ω} {x : WorkerAt ω}

theorem isWaiting_iff {x : WorkerAt ω} : x.isWaiting = true ↔ x = .waiting := by
  cases x <;> simp [WorkerAt.isWaiting]

theorem lock_eq_ok : s.lock t = .ok s' ↔ s.mu = none ∧ { s with mu := some t } = s' := by
  unfold lock
  split
  · next h =>
    have hmu := Option.isNone_iff_eq_none.mp h
    simp [pure, Except.pure, hmu]
  · next h => exact iff_of_false nofun fun h' => h (Option.isNone_iff_eq_none.mpr h'.1)

theorem unlock_eq_ok : s.unlock t = .ok s' ↔ s.mu = some t ∧ { s with mu := none } = s' := by
  unfold unlock
  split
  · next hmu => simp [pure, Except.pure, hmu]
  · next hmu => exact iff_of_false nofun fun h' => hmu h'.1

theorem signal_eq_ok {woken : Finset (Fin n)} : s.signal woken = .ok s' ↔
    (∀ i ∈ woken, s.workers i = .waiting) ∧ ((∃ i, s.workers i = .waiting) → woken.Nonempty) ∧
      { s with workers := fun i => if i ∈ woken then .relock else s.workers i } = s' := by
  unfold signal
  split
  · next h =>
    simp only [isWaiting_iff] at h
    exact ⟨fun hrun => ⟨h.1, h.2, Except.ok.inj hrun⟩, fun h' => congrArg Except.ok h'.2.2⟩
  · next h =>
    simp only [isWaiting_iff] at h
    exact iff_of_false nofun fun h' => h ⟨h'.1, h'.2.1⟩

theorem move_of_stepCaller {woken : Finset (Fin n)} (hrun : s.stepCaller woken = .ok s') :
    Move s (.caller woken) s' := by
  unfold stepCaller at hrun
  split at hrun
  · cases hrun
  · next w hat =>
    obtain ⟨_, hlock, hret⟩ := bind_eq_ok.mp hrun
    obtain ⟨hmu, rfl⟩ := lock_eq_ok.mp hlock
    cases hret
    exact .callerLock hat hmu
  · next w hat =>
    cases hrun
    exact .pushBack hat
  · next hat =>
    obtain ⟨_, hsignal, hret⟩ := bind_eq_ok.mp hrun
    obtain ⟨hwoken, hsome, rfl⟩ := signal_eq_ok.mp hsignal
    cases hret
    exact .signal hat hwoken hsome
  · next hat =>
    obtain ⟨_, hunlock, hret⟩ := bind_eq_ok.mp hrun
    obtain ⟨hmu, rfl⟩ := unlock_eq_ok.mp hunlock
    cases hret
    exact .callerUnlock hat hmu

theorem move_of_stepWorker (hrun : s.stepWorker i = .ok s') : Move s (.worker i) s' := by
  unfold stepWorker at hrun
  split at hrun
  · next hat =>
    obtain ⟨_, hlock, hret⟩ := bind_eq_ok.mp hrun
    obtain ⟨hmu, rfl⟩ := lock_eq_ok.mp hlock
    cases hret
    exact .lock (.inl hat) hmu
  · next hat =>
    obtain ⟨_, hlock, hret⟩ := bind_eq_ok.mp hrun
    obtain ⟨hmu, rfl⟩ := lock_eq_ok.mp hlock
    cases hret
    exact .lock (.inr hat) hmu
  · next hat =>
    split at hrun
    · next hempty =>
      obtain ⟨_, hunlock, hret⟩ := bind_eq_ok.mp hrun
      obtain ⟨hmu, rfl⟩ := unlock_eq_ok.mp hunlock
      cases hret
      exact .wait hat (List.isEmpty_iff.mp hempty) hmu
    · next hne =>
      cases hrun
      exact .nonempty hat fun hnil => hne (List.isEmpty_iff.mpr hnil)
  · cases hrun
  · next hat =>
    split at hrun
    · cases hrun
    · next w queue hqueue =>
      cases hrun
      exact .popFront hat hqueue
  · next w hat =>
    obtain ⟨_, hunlock, hret⟩ := bind_eq_ok.mp hrun
    obtain ⟨hmu, rfl⟩ := unlock_eq_ok.mp hunlock
    cases hret
    exact .unlock hat hmu
  · next w hat =>
    cases hrun
    exact .run hat

theorem move_of_step (hrun : s.step a = .ok s') : Move s a s' := by
  cases a with
  | call w =>
    simp only [step] at hrun
    split at hrun
    · next hat =>
      cases hrun
      exact .call hat
    · cases hrun
  | caller woken => exact move_of_stepCaller hrun
  | worker i => exact move_of_stepWorker hrun
  | spurious i =>
    simp only [step] at hrun
    split at hrun
    · next hwaiting =>
      cases hrun
      exact .spurious (isWaiting_iff.mp hwaiting)
    · cases hrun

/-! ## The invariant -/

/-- The threads that hold the mutex, by the code. -/
def Critical (caller : CallerAt ω) (workers : Fin n → WorkerAt ω) : Thread n → Prop
  | .caller => caller.InCritical
  | .worker i => (workers i).InCritical

structure Inv (s : ThreadPool ω n) : Prop where
  mutex : Excludes (Critical s.caller s.workers) s.mu
  popping : ∀ i, s.workers i = .popFront → s.queue ≠ []
  fifo : s.queued = s.taken ++ s.queue
  once : (s.taken : Multiset ω) = ∑ i, (s.workers i).inHand + (s.done : Multiset ω)
  -- The wakeup for a work in the queue is still to come, or somebody is awake to take it.
  awake : 0 < n → s.queue ≠ [] → s.caller = .signal ∨ ∃ i, s.workers i ≠ .waiting

theorem critical_caller (ht : t ≠ .caller) : Critical caller' workers t ↔ Critical caller workers t := by
  cases t with
  | caller => exact absurd rfl ht
  | worker i => exact Iff.rfl

theorem critical_update_self : Critical caller (Function.update workers i x) (.worker i) ↔
    x.InCritical := by
  simp only [Critical, Function.update_self]

theorem critical_update_of_ne (ht : t ≠ .worker i) :
    Critical caller (Function.update workers i x) t ↔ Critical caller workers t := by
  cases t with
  | caller => exact Iff.rfl
  | worker j =>
    have hne : j ≠ i := fun he => ht (congrArg Thread.worker he)
    simp only [Critical, Function.update_of_ne hne]

/-- A worker that stays on its side of the lock. -/
theorem critical_update (hx : x.InCritical ↔ (workers i).InCritical) (t : Thread n) :
    Critical caller (Function.update workers i x) t ↔ Critical caller workers t := by
  by_cases ht : t = .worker i
  · subst ht
    exact critical_update_self.trans hx
  · exact critical_update_of_ne ht

theorem Move.mutex (hmove : Move s a s') (h : Excludes (Critical s.caller s.workers) s.mu) :
    Excludes (Critical s'.caller s'.workers) s'.mu := by
  cases hmove with
  | call hat =>
    refine h.congr fun t => ?_
    cases t with
    | caller => rw [Critical, Critical, hat]; rfl
    | worker i => exact Iff.rfl
  | callerLock hat hmu =>
    rw [hmu] at h
    exact h.acquire trivial fun t ht => critical_caller ht
  | pushBack hat =>
    refine h.congr fun t => ?_
    cases t with
    | caller => rw [Critical, Critical, hat]; rfl
    | worker i => exact Iff.rfl
  | signal hat hwoken hsome =>
    refine h.congr fun t => ?_
    cases t with
    | caller => rw [Critical, Critical, hat]; rfl
    | worker i =>
      simp only [Critical]
      split
      · next hi => rw [hwoken i hi]; rfl
      · exact Iff.rfl
  | callerUnlock hat hmu =>
    rw [hmu] at h
    exact h.release id fun t ht => critical_caller ht
  | lock hat hmu =>
    rw [hmu] at h
    exact h.acquire (critical_update_self.mpr trivial) fun t ht => critical_update_of_ne ht
  | wait hat hempty hmu =>
    rw [hmu] at h
    exact h.release (fun hw => critical_update_self.mp hw) fun t ht => critical_update_of_ne ht
  | nonempty hat hne =>
    refine h.congr (critical_update ?_)
    rw [hat]; rfl
  | popFront hat hqueue =>
    refine h.congr (critical_update ?_)
    rw [hat]; rfl
  | unlock hat hmu =>
    rw [hmu] at h
    exact h.release (fun hw => critical_update_self.mp hw) fun t ht => critical_update_of_ne ht
  | run hat =>
    refine h.congr (critical_update ?_)
    rw [hat]; rfl
  | spurious hat =>
    refine h.congr (critical_update ?_)
    rw [hat]; rfl

theorem popFront_of_update {j : Fin n} (hj : Function.update workers i x j = .popFront) :
    x = .popFront ∨ j ≠ i ∧ workers j = .popFront := by
  by_cases hji : j = i
  · subst hji
    rw [Function.update_self] at hj
    exact .inl hj
  · rw [Function.update_of_ne hji] at hj
    exact .inr ⟨hji, hj⟩

/-- The queue is not empty when a worker takes its front. -/
theorem Move.popping (hmove : Move s a s') (h : s.Inv) {j : Fin n} (hj : s'.workers j = .popFront) :
    s'.queue ≠ [] := by
  cases hmove with
  | call | callerLock | callerUnlock => exact h.popping j hj
  | pushBack => exact List.append_ne_nil_of_right_ne_nil _ (List.cons_ne_nil _ _)
  | signal =>
    simp only at hj
    split at hj
    · cases hj
    · exact h.popping j hj
  | nonempty hat hne => exact hne
  | @popFront w rest _ i hat hqueue =>
    rcases popFront_of_update hj with hx | ⟨hne, hj⟩
    · cases hx
    · -- Two workers would hold the mutex.
      have hi : Critical s.caller s.workers (.worker i) := by
        rw [Critical, hat]
        trivial
      have hj : Critical s.caller s.workers (.worker j) := by
        rw [Critical, hj]
        trivial
      exact absurd (Thread.worker.inj (h.mutex.unique hj hi)) hne
  | lock | wait | unlock | run | spurious =>
    rcases popFront_of_update hj with hx | ⟨-, hj⟩
    · cases hx
    · exact h.popping j hj

theorem Move.fifo (hmove : Move s a s') (h : s.queued = s.taken ++ s.queue) :
    s'.queued = s'.taken ++ s'.queue := by
  cases hmove with
  | pushBack =>
    simp only [h, List.append_assoc]
  | popFront hat hqueue =>
    rw [hqueue] at h
    simpa [setWorker] using h
  | _ => exact h

/-- A worker that has the same work in hand as before. -/
theorem sum_inHand_update (hx : x.inHand = (workers i).inHand) :
    ∑ j, (Function.update workers i x j).inHand = ∑ j, (workers j).inHand := by
  have hsum := sum_update_add WorkerAt.inHand workers i x
  rw [hx] at hsum
  exact add_right_cancel hsum

theorem Move.once (hmove : Move s a s')
    (h : (s.taken : Multiset ω) = ∑ i, (s.workers i).inHand + (s.done : Multiset ω)) :
    (s'.taken : Multiset ω) = ∑ i, (s'.workers i).inHand + (s'.done : Multiset ω) := by
  cases hmove with
  | call | callerLock | pushBack | callerUnlock => exact h
  | signal hat hwoken hsome =>
    rw [h]
    refine congrArg (· + _) (Finset.sum_congr rfl fun j _ => ?_)
    simp only
    split
    · next hj => rw [hwoken j hj]; rfl
    · rfl
  | @lock _ i hat hmu =>
    have hsame : (WorkerAt.testEmpty : WorkerAt ω).inHand = (s.workers i).inHand := by
      rcases hat with hat | hat <;> rw [hat] <;> rfl
    simp only [setWorker, sum_inHand_update hsame, h]
  | wait hat | nonempty hat | unlock hat | spurious hat =>
    simp only [setWorker]
    rw [sum_inHand_update (by rw [hat]; rfl), h]
  | @popFront w rest _ i hat hqueue =>
    have hsum := sum_update_add WorkerAt.inHand s.workers i (.unlock w)
    rw [hat] at hsum
    simp only [setWorker, ← Multiset.coe_add, h]
    rw [add_right_comm]
    exact congrArg (· + _) (hsum.symm.trans (add_zero _))
  | @run _ i w hat =>
    have hsum := sum_update_add WorkerAt.inHand s.workers i .lock
    rw [hat] at hsum
    simp only [setWorker, ← Multiset.coe_add, h]
    have hadd : ∑ j, (Function.update s.workers i .lock j).inHand + {w} =
        ∑ j, (s.workers j).inHand := hsum.trans (add_zero _)
    rw [← hadd]
    exact add_right_comm _ _ _ |>.trans (add_assoc _ _ _)

/-- A worker that does not wait after the step. -/
theorem awake_update (hx : x ≠ .waiting) : ∃ j, Function.update workers i x j ≠ .waiting :=
  ⟨i, by rwa [Function.update_self]⟩

theorem Move.awake (hmove : Move s a s') (hn : 0 < n)
    (h : s.queue ≠ [] → s.caller = .signal ∨ ∃ i, s.workers i ≠ .waiting) (hqueue : s'.queue ≠ []) :
    s'.caller = .signal ∨ ∃ i, s'.workers i ≠ .waiting := by
  cases hmove with
  | call hat | callerLock hat | callerUnlock hat =>
    rcases h hqueue with hsignal | hawake
    · cases hat.symm.trans hsignal
    · exact .inr hawake
  | pushBack => exact .inl rfl
  | @signal _ woken hat hwoken hsome =>
    refine .inr ?_
    by_cases hall : ∃ i, s.workers i = .waiting
    · obtain ⟨i, hi⟩ := hsome hall
      exact ⟨i, by simp [hi]⟩
    · have hnone : ∀ i, s.workers i ≠ .waiting := fun i hi => hall ⟨i, hi⟩
      refine ⟨⟨0, hn⟩, ?_⟩
      simp only
      split
      · nofun
      · exact hnone _
  | wait hat hempty => exact absurd hempty hqueue
  | lock | nonempty | popFront | unlock | run | spurious => exact .inr (awake_update nofun)

theorem Inv.init : ({} : ThreadPool ω n).Inv where
  mutex t := by
    cases t with
    | caller => exact iff_of_false id nofun
    | worker i => exact iff_of_false id nofun
  popping i hi := by cases hi
  fifo := rfl
  once := by simp [WorkerAt.inHand]
  awake hn hqueue := absurd rfl hqueue

theorem Inv.step (h : s.Inv) (hrun : s.step a = .ok s') : s'.Inv :=
  have hmove := move_of_step hrun
  ⟨hmove.mutex h.mutex, fun _ hj => hmove.popping h hj, hmove.fifo h.fifo, hmove.once h.once,
    fun hn => hmove.awake hn (h.awake hn)⟩

theorem Inv.run {as : List (PoolAction ω n)} (hrun : runSteps ThreadPool.step {} as = .ok s) : s.Inv :=
  runSteps_invariant (motive := Inv) (fun _ _ h _ hstep => h.step hstep) .init hrun

/-! ## No undefined behaviour -/

theorem lock_error {e : PoolFault} (hrun : s.lock t = .error e) : e = .blocked := by
  unfold lock at hrun
  split at hrun
  · cases hrun
  · exact (Except.error.inj hrun).symm

/-- A thread in its critical section may unlock the mutex. -/
theorem Inv.unlock (h : s.Inv) (ht : Critical s.caller s.workers t) :
    s.unlock t = .ok { s with mu := none } :=
  unlock_eq_ok.mpr ⟨(h.mutex t).mp ht, rfl⟩

theorem Inv.stepCaller_error {woken : Finset (Fin n)} {e : PoolFault} (h : s.Inv)
    (hrun : s.stepCaller woken = .error e) : e = .blocked := by
  unfold stepCaller at hrun
  split at hrun
  · exact (Except.error.inj hrun).symm
  · cases hlock : s.lock .caller with
    | ok s₁ =>
      rw [hlock] at hrun
      cases hrun
    | error e' =>
      rw [hlock] at hrun
      cases hrun
      exact lock_error hlock
  · cases hrun
  · unfold signal at hrun
    split at hrun
    · cases hrun
    · exact (Except.error.inj hrun).symm
  · next hat =>
    have ht : Critical s.caller s.workers .caller := by
      rw [hat]
      trivial
    rw [h.unlock ht] at hrun
    cases hrun

theorem Inv.stepWorker_error {e : PoolFault} (h : s.Inv) (hrun : s.stepWorker i = .error e) :
    e = .blocked := by
  have hcritical : (s.workers i).InCritical → s.unlock (.worker i) = .ok { s with mu := none } :=
    fun ht => h.unlock (t := .worker i) ht
  have hlock : ∀ s₁ : Except PoolFault (ThreadPool ω n), s.lock (.worker i) = s₁ →
      (do return (← s₁).setWorker i .testEmpty) = Except.error e → e = .blocked := by
    intro s₁ hlock hrun
    cases s₁ with
    | ok s₁ => cases hrun
    | error e' =>
      cases hrun
      exact lock_error hlock
  unfold stepWorker at hrun
  split at hrun
  · exact hlock _ rfl hrun
  · exact hlock _ rfl hrun
  · next hat =>
    split at hrun
    · rw [hcritical (by rw [hat]; trivial)] at hrun
      cases hrun
    · cases hrun
  · exact (Except.error.inj hrun).symm
  · next hat =>
    split at hrun
    · next hnil => exact absurd hnil (h.popping i hat)
    · cases hrun
  · next hat =>
    rw [hcritical (by rw [hat]; trivial)] at hrun
    cases hrun
  · cases hrun

theorem Inv.step_error {e : PoolFault} (h : s.Inv) (hrun : s.step a = .error e) : e = .blocked := by
  cases a with
  | call w =>
    simp only [ThreadPool.step] at hrun
    split at hrun
    · cases hrun
    · exact (Except.error.inj hrun).symm
  | caller woken => exact h.stepCaller_error hrun
  | worker i => exact h.stepWorker_error hrun
  | spurious i =>
    simp only [ThreadPool.step] at hrun
    split at hrun
    · cases hrun
    · exact (Except.error.inj hrun).symm

/-! ## Progress -/

def potential (s : ThreadPool ω n) : Nat :=
  5 * s.queue.length + s.caller.potential n + ∑ i, (s.workers i).potential

theorem potential_setWorker (s : ThreadPool ω n) (i : Fin n) (x : WorkerAt ω) :
    (s.setWorker i x).potential + (s.workers i).potential = s.potential + x.potential := by
  have hsum := sum_update_add WorkerAt.potential s.workers i x
  simp only [ThreadPool.potential, setWorker]
  omega

/-- A signal wakes all threads at most. -/
theorem sum_potential_woken (workers : Fin n → WorkerAt ω) (woken : Finset (Fin n)) :
    ∑ i, (if i ∈ woken then WorkerAt.relock else workers i).potential ≤
      ∑ i, (workers i).potential + 3 * n := by
  have hsum : ∑ i, (if i ∈ woken then WorkerAt.relock else workers i).potential ≤
      ∑ i, ((workers i).potential + 3) := by
    refine Finset.sum_le_sum fun i _ => ?_
    split
    · exact Nat.le_add_left _ _
    · exact Nat.le_add_right _ _
  rw [Finset.sum_add_distrib, Finset.sum_const, Finset.card_univ, Fintype.card_fin, smul_eq_mul,
    Nat.mul_comm] at hsum
  exact hsum

/-- Every step is paid for. -/
theorem Move.potential (hmove : Move s a s') : s'.potential + 1 ≤ s.potential + a.cost := by
  cases hmove with
  | call hat | callerLock hat | callerUnlock hat =>
    simp only [ThreadPool.potential, hat, CallerAt.potential, PoolAction.cost]
    omega
  | pushBack hat =>
    simp only [ThreadPool.potential, hat, CallerAt.potential, PoolAction.cost, List.length_append,
      List.length_singleton]
    omega
  | signal hat hwoken hsome =>
    have hsum := sum_potential_woken s.workers
    simp only [ThreadPool.potential, hat, CallerAt.potential, PoolAction.cost]
    exact Nat.le_trans (Nat.add_le_add_right (Nat.add_le_add_left (hsum _) _) 1) (by omega)
  | @lock _ i hat hmu =>
    have hsum := potential_setWorker { s with mu := some (.worker i) } i .testEmpty
    have hold : (s.workers i).potential = 3 := by
      rcases hat with hat | hat <;> rw [hat] <;> rfl
    simp only [hold] at hsum
    change _ = s.potential + 2 at hsum
    simp only [PoolAction.cost]
    omega
  | @wait _ i hat hempty hmu =>
    have hsum := potential_setWorker { s with mu := none } i .waiting
    simp only [hat] at hsum
    change _ + 2 = s.potential + 0 at hsum
    simp only [PoolAction.cost]
    omega
  | @nonempty _ i hat hne =>
    have hsum := potential_setWorker s i .popFront
    simp only [hat] at hsum
    change _ + 2 = s.potential + 1 at hsum
    simp only [PoolAction.cost]
    omega
  | @popFront w rest _ i hat hqueue =>
    have hsum := potential_setWorker { s with queue := rest, taken := s.taken ++ [w] } i (.unlock w)
    simp only [hat] at hsum
    change _ + 1 = ThreadPool.potential { s with queue := rest, taken := s.taken ++ [w] } + 5 at hsum
    have hshorter : ThreadPool.potential { s with queue := rest, taken := s.taken ++ [w] } + 5 =
        s.potential := by
      simp only [ThreadPool.potential, hqueue, List.length_cons]
      omega
    simp only [PoolAction.cost]
    omega
  | @unlock _ i w hat hmu =>
    have hsum := potential_setWorker { s with mu := none } i (.run w)
    simp only [hat] at hsum
    change _ + 5 = s.potential + 4 at hsum
    simp only [PoolAction.cost]
    omega
  | @run _ i w hat =>
    have hsum := potential_setWorker { s with done := s.done ++ [w] } i .lock
    simp only [hat] at hsum
    change _ + 4 = s.potential + 3 at hsum
    simp only [PoolAction.cost]
    omega
  | @spurious _ i hat =>
    have hsum := potential_setWorker s i .relock
    simp only [hat] at hsum
    change _ + 0 = s.potential + 3 at hsum
    simp only [PoolAction.cost]
    omega

/-! ## The end of a run -/

/-- No thread can go on. -/
def Quiet (s : ThreadPool ω n) : Prop := ∀ a s', a.Internal → s.step a ≠ .ok s'

/-- The thread that holds the mutex can go on. -/
theorem Inv.holder_steps (h : s.Inv) (hmu : s.mu = some t) :
    ∃ a s', a.Internal ∧ s.step a = .ok s' := by
  have ht := (h.mutex t).mpr hmu
  have hunlock := h.unlock ht
  cases t with
  | caller =>
    simp only [Critical] at ht
    cases hat : s.caller with
    | outside | lock => simp [hat, CallerAt.InCritical] at ht
    | pushBack w => exact ⟨.caller ∅, _, trivial, by simp only [ThreadPool.step, stepCaller, hat]; rfl⟩
    | signal =>
      have hsignal : ∃ woken s', s.signal woken = .ok s' := by
        refine ⟨Finset.univ.filter fun i => (s.workers i).isWaiting, _, if_pos ⟨?_, ?_⟩⟩
        · intro i hi
          exact (Finset.mem_filter.mp hi).2
        · rintro ⟨i, hi⟩
          exact ⟨i, Finset.mem_filter.mpr ⟨Finset.mem_univ i, hi⟩⟩
      obtain ⟨woken, s₁, hsignal⟩ := hsignal
      exact ⟨.caller woken, _, trivial, by simp only [ThreadPool.step, stepCaller, hat, hsignal]; rfl⟩
    | unlock => exact ⟨.caller ∅, _, trivial, by simp only [ThreadPool.step, stepCaller, hat, hunlock]; rfl⟩
  | worker i =>
    simp only [Critical] at ht
    cases hat : s.workers i with
    | lock | waiting | relock | run => simp [hat, WorkerAt.InCritical] at ht
    | testEmpty =>
      cases hqueue : s.queue with
      | nil =>
        exact ⟨.worker i, _, trivial, by
          simp only [ThreadPool.step, stepWorker, hat, hunlock, hqueue, List.isEmpty_nil, if_true]; rfl⟩
      | cons w rest =>
        exact ⟨.worker i, _, trivial, by
          simp only [ThreadPool.step, stepWorker, hat, hqueue, List.isEmpty_cons, Bool.false_eq_true, if_false]; rfl⟩
    | popFront =>
      obtain ⟨w, rest, hqueue⟩ := List.exists_cons_of_ne_nil (h.popping i hat)
      exact ⟨.worker i, _, trivial, by simp only [ThreadPool.step, stepWorker, hat, hqueue]; rfl⟩
    | unlock w => exact ⟨.worker i, _, trivial, by simp only [ThreadPool.step, stepWorker, hat, hunlock]; rfl⟩

/-- If no thread can go on, the mutex is free, the workers wait, and nothing is left to do. -/
theorem Inv.quiet (h : s.Inv) (hn : 0 < n) (hquiet : s.Quiet) :
    s.caller = .outside ∧ (∀ i, s.workers i = .waiting) ∧ s.queue = [] ∧ s.done.Perm s.queued := by
  have hmu : s.mu = none := Option.eq_none_iff_forall_ne_some.mpr fun t ht => by
    obtain ⟨a, s', hinternal, hrun⟩ := h.holder_steps ht
    exact hquiet a s' hinternal hrun
  have hfree : ∀ t, ¬ Critical s.caller s.workers t := fun t ht => by
    cases hmu.symm.trans ((h.mutex t).mp ht)
  have hlock : ∀ t, s.lock t = .ok { s with mu := some t } := fun t => lock_eq_ok.mpr ⟨hmu, rfl⟩
  have hcaller : s.caller = .outside := by
    have hout := hfree .caller
    simp only [Critical] at hout
    cases hat : s.caller with
    | outside => rfl
    | lock w =>
      exact absurd (by simp only [ThreadPool.step, stepCaller, hat, hlock]; rfl) (hquiet (.caller ∅) _ trivial)
    | pushBack | signal | unlock => simp [hat, CallerAt.InCritical] at hout
  have hworkers : ∀ i, s.workers i = .waiting := by
    intro i
    have hout := hfree (.worker i)
    simp only [Critical] at hout
    cases hat : s.workers i with
    | waiting => rfl
    | lock | relock =>
      exact absurd (by simp only [ThreadPool.step, stepWorker, hat, hlock]; rfl) (hquiet (.worker i) _ trivial)
    | run w => exact absurd (by simp only [ThreadPool.step, stepWorker, hat]; rfl) (hquiet (.worker i) _ trivial)
    | testEmpty | popFront | unlock => simp [hat, WorkerAt.InCritical] at hout
  have hqueue : s.queue = [] := by
    by_contra hne
    rcases h.awake hn hne with hsignal | ⟨i, hi⟩
    · cases hcaller.symm.trans hsignal
    · exact hi (hworkers i)
  refine ⟨hcaller, hworkers, hqueue, ?_⟩
  have honce := h.once
  simp only [hworkers, WorkerAt.inHand, Finset.sum_const_zero, zero_add] at honce
  have hfifo := h.fifo
  rw [hqueue, List.append_nil] at hfifo
  rw [hfifo]
  exact (Multiset.coe_eq_coe.mp honce).symm

theorem potential_init : ({} : ThreadPool ω n).potential = 3 * n := by
  simp only [ThreadPool.potential, CallerAt.potential, WorkerAt.potential, List.length_nil,
    Finset.sum_const, Finset.card_univ, Fintype.card_fin, smul_eq_mul]
  omega

theorem sum_cost (as : List (PoolAction ω n)) : (as.map PoolAction.cost).sum =
    (3 * n + 10) * as.countP PoolAction.isCall + 4 * as.countP PoolAction.isSpurious := by
  induction as with
  | nil => rfl
  | cons a as ih =>
    rw [List.map_cons, List.sum_cons, ih, List.countP_cons, List.countP_cons]
    cases a with
    | call w => simp only [PoolAction.cost, PoolAction.isCall, PoolAction.isSpurious, if_true,
        Bool.false_eq_true, if_false, Nat.mul_add, Nat.mul_one]; omega
    | caller woken | worker i => simp [PoolAction.cost, PoolAction.isCall, PoolAction.isSpurious]
    | spurious i => simp only [PoolAction.cost, PoolAction.isCall, PoolAction.isSpurious, if_true,
        Bool.false_eq_true, if_false, Nat.mul_add, Nat.mul_one]; omega

theorem cost_of_internal (ha : a.Internal) : a.cost = 0 := by
  cases a with
  | caller | worker => rfl
  | call | spurious => exact ha.elim

theorem potential_run {as : List (PoolAction ω n)} (hrun : runSteps step s as = .ok s') :
    as.length + s'.potential ≤ s.potential + (as.map PoolAction.cost).sum :=
  runSteps_length_le (fun _ _ _ hstep => (move_of_step hstep).potential) hrun

end ThreadPool

/-- **The thread pool is safe.** In every state that the threads reach, however they are interleaved and
whomever a signal wakes, at most one of them is between locking and unlocking the mutex. None takes the
front of an empty queue or unlocks a mutex that it does not hold. The works leave the queue in the order
in which they were queued, and each of them is in the queue, in the hand of one worker, or was run once. -/
theorem threadPool_safe {as : List (PoolAction ω n)} {s : ThreadPool ω n}
    (hrun : runSteps ThreadPool.step {} as = .ok s) :
    (∀ t t', ThreadPool.Critical s.caller s.workers t → ThreadPool.Critical s.caller s.workers t' →
      t = t') ∧
    (∀ a e, s.step a = .error e → e = .blocked) ∧
    s.queued = s.taken ++ s.queue ∧
    (s.queued : Multiset ω) = s.queue + (∑ i, (s.workers i).inHand + s.done) := by
  have h := ThreadPool.Inv.run hrun
  refine ⟨fun t t' ht ht' => h.mutex.unique ht ht', fun a e he => h.step_error he, h.fifo, ?_⟩
  rw [h.fifo, ← Multiset.coe_add, h.once, add_comm]

/-- A worker that is woken for a work finds that another one has taken it. -/
theorem threadPool_safe_overtaken :
    ∃ s : ThreadPool Nat 4, runSteps ThreadPool.step {} [.worker 0, .worker 0, .call 7, .caller ∅,
        .caller ∅, .caller {0}, .caller ∅, .worker 1, .worker 1, .worker 1, .worker 1, .worker 0,
        .worker 0, .worker 1] = .ok s ∧
      s.done = [7] ∧ s.queued = s.taken ++ s.queue := by
  obtain ⟨s, hs⟩ : ∃ s : ThreadPool Nat 4, runSteps ThreadPool.step {} [.worker 0, .worker 0, .call 7,
      .caller ∅, .caller ∅, .caller {0}, .caller ∅, .worker 1, .worker 1, .worker 1, .worker 1, .worker 0,
      .worker 0, .worker 1] = .ok s := ⟨_, rfl⟩
  obtain ⟨-, -, hfifo, -⟩ := threadPool_safe hs
  exact ⟨s, hs, eq_of_toOption_map (f := ThreadPool.done) hs rfl, hfifo⟩

/-- **Every work is run.** The threads together take a number of steps that is bounded by the number of
workers, the calls of `thread_pool_queue` and the wakeups without a signal. Between calls and such wakeups
they stop after finitely many steps whatever the scheduler does, and where none can go on, the call has
returned, the queue is empty, all workers wait, and each work that was queued was run once. -/
theorem threadPool_runs_all {as : List (PoolAction ω n)} {s : ThreadPool ω n} (hn : 0 < n)
    (hrun : runSteps ThreadPool.step {} as = .ok s) :
    as.length ≤ 3 * n + (3 * n + 10) * as.countP PoolAction.isCall +
      4 * as.countP PoolAction.isSpurious ∧
    (∀ bs s', (∀ b ∈ bs, b.Internal) → runSteps ThreadPool.step s bs = .ok s' →
      bs.length ≤ s.potential ∧
      (s'.Quiet → s'.caller = .outside ∧ (∀ i, s'.workers i = .waiting) ∧ s'.queue = [] ∧
        s'.done.Perm s'.queued)) ∧
    ∃ bs s', (∀ b ∈ bs, b.Internal) ∧ runSteps ThreadPool.step s bs = .ok s' ∧ s'.Quiet := by
  refine ⟨?_, fun bs s' hbs hrun' => ⟨?_, fun hquiet => ?_⟩, ?_⟩
  · have hlen := ThreadPool.potential_run hrun
    rw [ThreadPool.potential_init, ThreadPool.sum_cost] at hlen
    omega
  · have hlen := ThreadPool.potential_run hrun'
    have hfree : (bs.map PoolAction.cost).sum = 0 := by
      refine List.sum_eq_zero fun c hc => ?_
      obtain ⟨b, hb, rfl⟩ := List.mem_map.mp hc
      exact ThreadPool.cost_of_internal (hbs b hb)
    omega
  · have hrun'' := (runSteps_append_ok hrun).trans hrun'
    exact (ThreadPool.Inv.run hrun'').quiet hn hquiet
  · have hlow : ∀ (s₁ : ThreadPool ω n) (a : PoolAction ω n) (s₂ : ThreadPool ω n), a.Internal →
        s₁.step a = .ok s₂ → s₂.potential < s₁.potential := by
      intro s₁ a s₂ ha hstep
      have hpaid := (ThreadPool.move_of_step hstep).potential
      rw [ThreadPool.cost_of_internal ha] at hpaid
      exact hpaid
    exact exists_run_to_end hlow s

/-- The run from above ends. -/
theorem threadPool_runs_all_overtaken :
    ∃ s s' : ThreadPool Nat 4, runSteps ThreadPool.step {} [.worker 0, .worker 0, .call 7, .caller ∅,
        .caller ∅, .caller {0}, .caller ∅, .worker 1, .worker 1, .worker 1] = .ok s ∧
      (∃ bs, runSteps ThreadPool.step s bs = .ok s') ∧ s'.queue = [] ∧ s'.done.Perm s'.queued := by
  obtain ⟨s, hs⟩ : ∃ s : ThreadPool Nat 4, runSteps ThreadPool.step {} [.worker 0, .worker 0, .call 7,
      .caller ∅, .caller ∅, .caller {0}, .caller ∅, .worker 1, .worker 1, .worker 1] = .ok s :=
    ⟨_, rfl⟩
  obtain ⟨-, hends, bs, s', hbs, hrun, hquiet⟩ := threadPool_runs_all (by decide) hs
  obtain ⟨-, -, hqueue, hperm⟩ := (hends bs s' hbs hrun).2 hquiet
  exact ⟨s, s', hs, ⟨bs, hrun⟩, hqueue, hperm⟩

end MiniRedis
