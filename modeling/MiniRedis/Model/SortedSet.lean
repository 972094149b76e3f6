import MiniRedis.Model.AvlTree
import MiniRedis.Model.Common
import MiniRedis.Model.HashTable
import MiniRedis.Model.Serialize

/-! # `storage/sorted_set.cpp`: the sorted set

A set owns the nodes it allocates, so its part of the heap is kept with it: the embedded `AVLNode`s
in `tree`, the other fields in `node`, the next address that `malloc` hands out, and the addresses
given to `free`, in order. The type of scores is a parameter; `==` holds of two scores when neither
is below the other. -/

namespace MiniRedis

/-- The address of a `ZNode`. -/
abbrev ZPtr := Nat

/-- The fields of a `ZNode` other than its links. -/
structure ZNode (σ : Type) where
  hashCode : UInt64
  score : σ
  name : Bytes
  deriving Inhabited

structure ZSet (σ : Type) where
  root : Option ZPtr
  hmap : HMap ZPtr
  tree : AVLMem ZPtr
  node : ZPtr → ZNode σ
  next : Nat
  freed : List ZPtr

/-- A new set. Nothing is allocated yet, so what the memory holds does not matter. -/
def ZSet.empty {σ : Type} [Inhabited σ] : ZSet σ where
  root := none
  hmap := {}
  tree := fun _ => {}
  node := fun _ => default
  next := 0
  freed := []

/-- The comparison of names in `zless`. -/
def nameLess (lhs rhs : Bytes) : Bool :=
  match memcmp lhs rhs (min lhs.length rhs.length) with
  | .lt => true
  | .gt => false
  | .eq => lhs.length < rhs.length

section
variable {σ : Type} [LE σ] [LT σ] [DecidableLE σ] [DecidableLT σ]

/-- `a == b` -/
def scoreEq (a b : σ) : Bool := a ≤ b && b ≤ a

/-- Whether a node comes before `(score, name)`. -/
def zless (zl : ZNode σ) (score : σ) (name : Bytes) : Bool :=
  if ! scoreEq zl.score score then zl.score < score else nameLess zl.name name

/-- `malloc` and the initialization of the node. The name is kept as its bytes; how they are written into the
block, and the NUL behind them, is `znodeNewName` below. -/
def znodeNew (zset : ZSet σ) (name : Bytes) (score : σ) : Result (ZPtr × ZSet σ) := do
  let p := zset.next
  assert (p < addressSpace) .znodeNewNode
  return (p, { zset with
    next := p + 1
    tree := avlInit zset.tree p
    node := Function.update zset.node p { hashCode := stringHash name, score, name } })

def znodeDel (zset : ZSet σ) (p : ZPtr) : ZSet σ := { zset with freed := zset.freed ++ [p] }

def treeInsert (zset : ZSet σ) (p : ZPtr) : Result (ZSet σ) := do
  let goLeft parent := zless (zset.node p) (zset.node parent).score (zset.node parent).name
  let (root, tree) ← avlAttach zset.tree zset.root p goLeft
  return { zset with root := some root, tree }

/-- Update the score of an existing node. -/
def zsetUpdate (zset : ZSet σ) (p : ZPtr) (score : σ) : Result (ZSet σ) :=
  if scoreEq (zset.node p).score score then return zset
  else do
    let (root, tree) ← avlDelete zset.tree p
    let node := Function.update zset.node p { zset.node p with score }
    treeInsert { zset with root, tree := avlInit tree p, node } p

/-- Compare a node with a name. -/
def hcmp (zset : ZSet σ) (p : ZPtr) (name : Bytes) : Bool :=
  if (zset.node p).name.length != name.length then false
  else memcmp (zset.node p).name name (zset.node p).name.length == .eq

/-- Look up by name. -/
def zsetLookup (zset : ZSet σ) (name : Bytes) : Result (Option ZPtr × ZSet σ) :=
  match zset.root with
  | none => return (none, zset)
  | some _ => do
    let key := { ref := name, hashCode := stringHash name }
    let (found, hmap) ← hmLookup zset.hmap key (hcmp zset)
    return (found.map (·.ref), { zset with hmap })

/-- Add a new `(score, name)`, or update the score. -/
def zsetInsert (zset : ZSet σ) (name : Bytes) (score : σ) : Result (Bool × ZSet σ) := do
  match ← zsetLookup zset name with
  | (some p, zset) => return (false, ← zsetUpdate zset p score)
  | (none, zset) =>
    let (p, zset) ← znodeNew zset name score
    let hmap ← hmInsert zset.hmap { ref := p, hashCode := (zset.node p).hashCode }
    return (true, ← treeInsert { zset with hmap } p)

def zsetDelete (zset : ZSet σ) (p : ZPtr) : Result (ZSet σ) := do
  let key := { ref := (zset.node p).name, hashCode := (zset.node p).hashCode }
  let (found, hmap) ← hmDelete zset.hmap key (hcmp zset)
  assert found.isSome .zsetDeleteFound
  let (root, tree) ← avlDelete zset.tree p
  return znodeDel { zset with hmap, root, tree } p

/-- The first node that is not before `(score, name)`: the search below `node` with the candidate
`found`. -/
def seekLoop (zset : ZSet σ) (score : σ) (name : Bytes) :
    (fuel : Nat) → (node found : Option ZPtr) → Result (Option ZPtr)
  | 0, _, _ => .error .diverges
  | _ + 1, none, found => return found
  | fuel + 1, some p, found =>
    if zless (zset.node p) score name then seekLoop zset score name fuel (zset.tree p).right found
    else seekLoop zset score name fuel (zset.tree p).left (some p)

def zsetSeekGreaterEqual (zset : ZSet σ) (score : σ) (name : Bytes) : Result (Option ZPtr) :=
  seekLoop zset score name addressSpace zset.root none

/-- The node `offset` positions further; `avl_offset` takes an `int32_t`. -/
def znodeOffset (zset : ZSet σ) (p : ZPtr) (offset : Int) : Result (Option ZPtr) :=
  avlOffset zset.tree (some p) (.ofInt offset)

/-- Free the nodes of a subtree, children first. The depth of the recursion is bounded by the number
of addresses. -/
def treeDispose : (fuel : Nat) → ZSet σ → (node : Option ZPtr) → Result (ZSet σ)
  | 0, _, _ => .error .diverges
  | _ + 1, zset, none => return zset
  | fuel + 1, zset, some p => do
    let zset ← treeDispose fuel zset (zset.tree p).left
    let zset ← treeDispose fuel zset (zset.tree p).right
    return znodeDel zset p

def zsetClear (zset : ZSet σ) : Result (ZSet σ) := do
  let zset := { zset with hmap := hmClear zset.hmap }
  let zset ← treeDispose addressSpace zset zset.root
  return { zset with root := none }

/-! ## The bytes of a name

Above, a name is a list of bytes. Below it is an array and a length, as in a `ZNode` or a `HashKey`, and
an access outside of the array is a fault. -/

structure NameArray where
  name : Bytes
  len : Nat

/-- `memcpy(dst, src, n)` -/
def memcpyTo (dst src : Bytes) (n : Nat) : Result Bytes :=
  if n ≤ dst.length ∧ n ≤ src.length then return src.take n ++ dst.drop n else .error .memory

/-- `dst[i] = c` -/
def storeByte (dst : Bytes) (i : Nat) (c : UInt8) : Result Bytes :=
  if i < dst.length then return dst.set i c else .error .memory

/-- `memcmp(lhs, rhs, n)`, which may read all of the `n` bytes. -/
def memcmpAt (lhs rhs : Bytes) (n : Nat) : Result Ordering :=
  if n ≤ lhs.length ∧ n ≤ rhs.length then return memcmp lhs rhs n else .error .memory

/-- What `znode_new` does with the `len` bytes that `malloc(sizeof(ZNode) + len)` leaves for the name;
`fresh` is what they hold at first. -/
def znodeNewName (fresh : Bytes) (name : NameArray) : Result NameArray := do
  let array ← if name.len > 0 then memcpyTo fresh name.name name.len else pure fresh
  let array ← storeByte array name.len 0
  return { name := array, len := name.len }

def zlessAt (zl : NameArray) (zlScore score : σ) (key : NameArray) : Result Bool :=
  if ! scoreEq zlScore score then return zlScore < score
  else do
    match ← memcmpAt zl.name key.name (min zl.len key.len) with
    | .lt => return true
    | .gt => return false
    | .eq => return zl.len < key.len

def hcmpAt (znode hkey : NameArray) : Result Bool :=
  if znode.len != hkey.len then return false
  else do return (← memcmpAt znode.name hkey.name znode.len) == .eq

/-- `out_str(resp, znode->name, znode->len)` -/
def outStrAt (resp : Bytes) (znode : NameArray) : Result Bytes :=
  if znode.len ≤ znode.name.length then return outStr resp (znode.name.take znode.len)
  else .error .memory

end

end MiniRedis
