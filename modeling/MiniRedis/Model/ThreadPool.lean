import Mathlib.Data.Finset.Basic
import Mathlib.Data.Fintype.Basic

/-! # `core/thread_pool.cpp`

One thread calls `thread_pool_queue`, `n` workers run `worker`. The machine takes one step of one thread at
a time: a call on the mutex, the condition variable or the queue, or the work itself. What the scheduler
and the condition variable choose is the action: which thread goes on, which of the waiting threads
`pthread_cond_signal` unblocks (one at least, if there is one), and when a thread wakes without a signal.
A `Work` is whatever the workers run. -/

namespace MiniRedis

/-- The threads: the one that calls `thread_pool_queue`, and the workers. -/
inductive Thread (n : Nat) where
  | caller
  | worker (i : Fin n)
  deriving DecidableEq

/-- The next statement of `thread_pool_queue`; `outside` is between two calls. -/
inductive CallerAt (ω : Type) where
  | outside
  | lock (w : ω)
  | pushBack (w : ω)
  | signal
  | unlock

/-- The next statement of `worker`. -/
inductive WorkerAt (ω : Type) where
  | lock
  | testEmpty
  /-- In `pthread_cond_wait`, blocked and without the mutex. -/
  | waiting
  /-- In `pthread_cond_wait`, woken, and about to lock the mutex again. -/
  | relock
  | popFront
  | unlock (w : ω)
  | run (w : ω)

def WorkerAt.isWaiting : WorkerAt ω → Bool
  | .waiting => true
  | _ => false

/-- The pool after `thread_pool_init`. The last three lists are the works given to the pool, those that
were taken out of the queue and those that were run, each in order. -/
structure ThreadPool (ω : Type) (n : Nat) where
  mu : Option (Thread n) := none
  queue : List ω := []
  caller : CallerAt ω := .outside
  workers : Fin n → WorkerAt ω := fun _ => .lock
  queued : List ω := []
  taken : List ω := []
  done : List ω := []

inductive PoolAction (ω : Type) (n : Nat) where
  /-- Enter `thread_pool_queue`. -/
  | call (w : ω)
  /-- The next statement of `thread_pool_queue`; a signal unblocks the given threads. -/
  | caller (woken : Finset (Fin n))
  /-- The next statement of a worker. -/
  | worker (i : Fin n)
  /-- A waiting worker wakes without a signal. -/
  | spurious (i : Fin n)

/-- Why a step is not taken. -/
inductive PoolFault where
  /-- The thread is blocked, or the action does not fit to where it stands. -/
  | blocked
  /-- `front()` of an empty `std::deque`. -/
  | emptyFront
  /-- A mutex is unlocked, or waited with, that the thread does not hold. -/
  | notOwner
  deriving DecidableEq

namespace ThreadPool

variable {ω : Type} {n : Nat}

/-- `pthread_mutex_lock(&tp->mu)` -/
def lock (s : ThreadPool ω n) (t : Thread n) : Except PoolFault (ThreadPool ω n) :=
  if s.mu.isNone then return { s with mu := some t } else .error .blocked

/-- `pthread_mutex_unlock(&tp->mu)`, also the one in `pthread_cond_wait`. -/
def unlock (s : ThreadPool ω n) (t : Thread n) : Except PoolFault (ThreadPool ω n) :=
  if s.mu = some t then return { s with mu := none } else .error .notOwner

def setWorker (s : ThreadPool ω n) (i : Fin n) (next : WorkerAt ω) : ThreadPool ω n :=
  { s with workers := Function.update s.workers i next }

/-- `pthread_cond_signal(&tp->not_empty)` -/
def signal (s : ThreadPool ω n) (woken : Finset (Fin n)) : Except PoolFault (ThreadPool ω n) :=
  if (∀ i ∈ woken, (s.workers i).isWaiting) ∧ ((∃ i, (s.workers i).isWaiting) → woken.Nonempty) then
    return { s with workers := fun i => if i ∈ woken then .relock else s.workers i }
  else .error .blocked

/-- One statement of `thread_pool_queue`. -/
def stepCaller (s : ThreadPool ω n) (woken : Finset (Fin n)) : Except PoolFault (ThreadPool ω n) :=
  match s.caller with
  | .outside => .error .blocked
  | .lock w => return { ← s.lock .caller with caller := .pushBack w }
  | .pushBack w =>
    return { s with queue := s.queue ++ [w], queued := s.queued ++ [w], caller := .signal }
  | .signal => return { ← s.signal woken with caller := .unlock }
  | .unlock => return { ← s.unlock .caller with caller := .outside }

/-- One statement of `worker`. -/
def stepWorker (s : ThreadPool ω n) (i : Fin n) : Except PoolFault (ThreadPool ω n) :=
  match s.workers i with
  | .lock | .relock => return (← s.lock (.worker i)).setWorker i .testEmpty
  | .testEmpty =>
    if s.queue.isEmpty then return (← s.unlock (.worker i)).setWorker i .waiting
    else return s.setWorker i .popFront
  | .waiting => .error .blocked
  | .popFront =>
    match s.queue with
    | [] => .error .emptyFront
    | w :: queue => return { s with queue, taken := s.taken ++ [w] }.setWorker i (.unlock w)
  | .unlock w => return (← s.unlock (.worker i)).setWorker i (.run w)
  | .run w => return { s with done := s.done ++ [w] }.setWorker i .lock

def step (s : ThreadPool ω n) : PoolAction ω n → Except PoolFault (ThreadPool ω n)
  | .call w =>
    match s.caller with
    | .outside => return { s with caller := .lock w }
    | _ => .error .blocked
  | .caller woken => s.stepCaller woken
  | .worker i => s.stepWorker i
  | .spurious i => if (s.workers i).isWaiting then return s.setWorker i .relock else .error .blocked

end ThreadPool

end MiniRedis
