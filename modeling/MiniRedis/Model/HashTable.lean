import MiniRedis.Model.Basic

/-! # `storage/hashtable.cpp`

The chaining hash table with progressive rehashing. A chain is the list of its nodes, so a node's
`next` field is its position; `ref` is the address of the structure the node is embedded in and
stands for the node's own address. A link (`HNode **`) is a slot with a position in its chain. -/

namespace MiniRedis

structure HNode (α : Type u) where
  ref : α
  hashCode : UInt64 := 0
  deriving DecidableEq, Repr

structure HTable (α : Type u) where
  tab : Option (List (List (HNode α))) := none
  mask : Nat := 0
  size : Nat := 0
  deriving DecidableEq, Repr

structure HMap (α : Type u) where
  older : HTable α := {}
  newer : HTable α := {}
  migrationPos : Nat := 0
  deriving DecidableEq, Repr

/-- The address of a link that points to a node of a chain. -/
structure HLink where
  pos : Nat
  idx : Nat
  deriving DecidableEq, Repr

/-- Initialize a table with `size` empty slots. -/
def hInit (size : Nat) : Result (HTable α) := do
  assert (0 < size && (size &&& (size - 1)) == 0) .hInitSize
  return { tab := some (List.replicate size []), mask := size - 1, size := 0 }

/-- The link to the first node of the key's chain that has the key's hash code and that the
callback accepts. -/
def hLookup (ht : HTable α) (key : HNode κ) (eq : α → κ → Bool) : Result (Option HLink) :=
  match ht.tab with
  | none => return none
  | some tab => do
    let pos := key.hashCode.toNat &&& ht.mask
    let chain ← index tab pos
    let found := chain.findIdx? fun curr => curr.hashCode == key.hashCode && eq curr.ref key.ref
    return found.map fun idx => { pos, idx }

/-- The node a link points to. -/
def HTable.load (ht : HTable α) (link : HLink) : Result (HNode α) := do
  let tab ← deref ht.tab
  let chain ← index tab link.pos
  index chain link.idx

/-- Put a node at the head of its chain. -/
def hInsert (ht : HTable α) (node : HNode α) : Result (HTable α) := do
  let pos := node.hashCode.toNat &&& ht.mask
  let tab ← deref ht.tab
  let next ← index tab pos
  return { ht with tab := some (tab.set pos (node :: next)), size := ht.size + 1 }

/-- Unlink the node a link points to. -/
def hDetach (ht : HTable α) (link : HLink) : Result (HNode α × HTable α) := do
  let tab ← deref ht.tab
  let chain ← index tab link.pos
  let target ← index chain link.idx
  return (target,
    { ht with tab := some (tab.set link.pos (chain.eraseIdx link.idx)), size := ht.size - 1 })

/-- Walk one chain until the callback answers `false`. -/
def chainForeach (f : HNode α → σ → Bool × σ) : List (HNode α) → σ → Bool × σ
  | [], args => (true, args)
  | node :: next, args =>
    match f node args with
    | (true, args) => chainForeach f next args
    | (false, args) => (false, args)

/-- Walk `n` slots from slot `i` on. -/
def slotsForeach (f : HNode α → σ → Bool × σ) (tab : List (List (HNode α))) :
    (n i : Nat) → σ → Result (Bool × σ)
  | 0, _, args => return (true, args)
  | n + 1, i, args => do
    let chain ← index tab i
    match chainForeach f chain args with
    | (true, args) => slotsForeach f tab n (i + 1) args
    | (false, args) => return (false, args)

def hForeach (ht : HTable α) (f : HNode α → σ → Bool × σ) (args : σ) : Result (Bool × σ) :=
  match ht.tab with
  | none => return (true, args)
  | some tab => slotsForeach f tab (ht.mask + 1) 0 args

def hmTriggerRehash (hmap : HMap α) : Result (HMap α) := do
  assert hmap.older.tab.isNone .hmTriggerRehashOlder
  let newer ← hInit ((hmap.newer.size + 1) * 2)
  return { older := hmap.newer, newer, migrationPos := 0 }

/-- The migration loop. Every iteration moves a node or advances `migrationPos`, so
`kRehashingWork` plus the number of slots bounds a loop that stays inside `older`. -/
def hmHelpRehashingLoop : (fuel work : Nat) → HMap α → Result (HMap α)
  | 0, _, _ => .error .diverges
  | fuel + 1, work, hmap =>
    if work < kRehashingWork ∧ 0 < hmap.older.size then do
      let tab ← deref hmap.older.tab
      match ← index tab hmap.migrationPos with
      | [] =>
        hmHelpRehashingLoop fuel work { hmap with migrationPos := hmap.migrationPos + 1 }
      | _ :: _ =>
        let (node, older) ← hDetach hmap.older { pos := hmap.migrationPos, idx := 0 }
        let newer ← hInsert hmap.newer node
        hmHelpRehashingLoop fuel (work + 1) { hmap with older, newer }
    else return hmap

/-- The number of slots of a table; none if it is not allocated. -/
def HTable.slots (ht : HTable α) : Nat := (ht.tab.getD []).length

/-- Migrate up to `kRehashingWork` nodes and discard the older table once it is empty. -/
def hmHelpRehashing (hmap : HMap α) : Result (HMap α) := do
  let hmap ← hmHelpRehashingLoop (kRehashingWork + hmap.older.slots + 1) 0 hmap
  if hmap.older.size = 0 ∧ hmap.older.tab.isSome then
    return { hmap with older := {} }
  else
    return hmap

def hmLookup (hmap : HMap α) (key : HNode κ) (eq : α → κ → Bool) :
    Result (Option (HNode α) × HMap α) := do
  let hmap ← hmHelpRehashing hmap
  match ← hLookup hmap.newer key eq with
  | some link => return (some (← hmap.newer.load link), hmap)
  | none =>
    match ← hLookup hmap.older key eq with
    | some link => return (some (← hmap.older.load link), hmap)
    | none => return (none, hmap)

/-- The newer table, allocated on first use. -/
def hmNewer (hmap : HMap α) : Result (HTable α) :=
  if hmap.newer.tab.isNone then hInit 4 else return hmap.newer

/-- Start a migration if none is under way and the load factor is reached. -/
def hmCheckLoad (hmap : HMap α) : Result (HMap α) :=
  if hmap.older.tab.isNone ∧ (hmap.newer.mask + 1) * kMaxLoadFactor ≤ hmap.newer.size then
    hmTriggerRehash hmap
  else
    return hmap

def hmInsert (hmap : HMap α) (node : HNode α) : Result (HMap α) := do
  let newer ← hmNewer hmap
  let newer ← hInsert newer node
  let hmap ← hmCheckLoad { hmap with newer }
  hmHelpRehashing hmap

def hmDelete (hmap : HMap α) (key : HNode κ) (eq : α → κ → Bool) :
    Result (Option (HNode α) × HMap α) := do
  let hmap ← hmHelpRehashing hmap
  match ← hLookup hmap.newer key eq with
  | some link =>
    let (node, newer) ← hDetach hmap.newer link
    return (some node, { hmap with newer })
  | none =>
    match ← hLookup hmap.older key eq with
    | some link =>
      let (node, older) ← hDetach hmap.older link
      return (some node, { hmap with older })
    | none => return (none, hmap)

def hmClear (_ : HMap α) : HMap α := {}

def hmSize (hmap : HMap α) : Nat := hmap.newer.size + hmap.older.size

/-- Invoke the callback on each node until it returns `false`. -/
def hmForeach (hmap : HMap α) (f : HNode α → σ → Bool × σ) (args : σ) : Result σ := do
  match ← hForeach hmap.newer f args with
  | (true, args) => return (← hForeach hmap.older f args).2
  | (false, args) => return args

end MiniRedis
