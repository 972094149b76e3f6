import Mathlib.Algebra.Group.Nat.Defs
import Mathlib.Data.List.Basic

/-! # Common vocabulary of the server model

Byte strings, the constants of `core/constants.h`, and the ways in which a run of the program can
stop. The build does not define `NDEBUG`, so a failed `assert` aborts the process; it is kept apart
from undefined behaviour (`Fault.memory`) and from a loop that does not end (`Fault.diverges`).

`size_t` counters are natural numbers. Addresses are 64-bit and name allocations: a freed block that is
used again has another address here, and an allocator fails when all of them are taken (`addressSpace`). -/

namespace MiniRedis

/-- A `std::string`, a `std::vector<uint8_t>` or a `(pointer, length)` pair. -/
abbrev Bytes := List UInt8

/-- The assertions of the server that a run can reach. -/
inductive Assertion where
  | hInitSize
  | hmTriggerRehashOlder
  | znodeNewNode
  | zsetDeleteFound
  | avlDeleteOneChild
  | getKeyValSize
  | handleWriteOutgoing
  | handleAcceptSlot
  deriving DecidableEq, Repr

/-- How a call can fail to return. -/
inductive Fault where
  /-- A failed `assert`. -/
  | assertion (site : Assertion)
  /-- An access through a null pointer or outside an array. -/
  | memory
  /-- `new` throws `std::bad_alloc`, which nothing catches. -/
  | badAlloc
  /-- A loop that exceeds every bound a terminating run can reach. -/
  | diverges
  deriving DecidableEq, Repr

abbrev Result := Except Fault

/-- `assert(cond)`. -/
def assert (cond : Bool) (site : Assertion) : Result Unit :=
  if cond then .ok () else .error (.assertion site)

/-- Follow a pointer that may be `NULL`. -/
def deref (p : Option α) : Result α :=
  match p with
  | some a => .ok a
  | none => .error .memory

/-- Read `xs[i]`. -/
def index (xs : List α) (i : Nat) : Result α := deref xs[i]?

def kMaxMsg : Nat := 32 * 2 ^ 20

def kMaxArgs : Nat := 200 * 1000

def kMaxLoadFactor : Nat := 8

def kRehashingWork : Nat := 128

def kIdleTimeoutMs : Nat := 15 * 1000

def kMaxWorks : Nat := 2000

/-- The number of addresses of a 64-bit machine. No walk along distinct nodes is longer, so it
bounds the walks over linked nodes. -/
def addressSpace : Nat := 2 ^ 64

/-- `(size_t)-1`. -/
def sizeMax : Nat := 2 ^ 64 - 1

@[simp] theorem assert_eq_ok {cond : Bool} {site : Assertion} {u : Unit} :
    assert cond site = .ok u ↔ cond = true := by
  cases cond <;> simp [assert]

@[simp] theorem deref_some (a : α) : deref (some a) = .ok a := rfl

@[simp] theorem deref_none : deref (none : Option α) = .error .memory := rfl

@[simp] theorem deref_eq_ok {p : Option α} {a : α} : deref p = .ok a ↔ p = some a := by
  cases p <;> simp [deref]

theorem index_eq_ok {xs : List α} {i : Nat} {a : α} : index xs i = .ok a ↔ xs[i]? = some a := by
  simp [index]

/-- A computation in sequence returns only if both parts do. -/
theorem bind_eq_ok {x : Except ε α} {f : α → Except ε β} {b : β} :
    x >>= f = .ok b ↔ ∃ a, x = .ok a ∧ f a = .ok b := by
  cases x with
  | error e => simp [bind, Except.bind]
  | ok a => simp [bind, Except.bind]

@[simp] theorem ok_bind (a : α) (f : α → Result β) : (Except.ok a : Result α) >>= f = f a := rfl

@[simp] theorem error_bind (e : Fault) (f : α → Result β) :
    (Except.error e : Result α) >>= f = .error e := rfl

@[simp] theorem pure_eq_ok (a : α) : (pure a : Result α) = .ok a := rfl

end MiniRedis
