import Mathlib.Logic.Function.Basic
import MiniRedis.Model.Basic

/-! # `storage/avl_tree.cpp`

The intrusive AVL tree with parent links. The memory maps an address to the `AVLNode` embedded
there; `NULL` is `none`, and following it is a `Fault.memory`. A link (`AVLNode **`) is a child field
of a node or a local variable. The walks of the source have no bound of their own; here they stop
with `Fault.diverges` after `addressSpace` steps. -/

namespace MiniRedis

structure AVLNode (ν : Type) where
  parent : Option ν := none
  left : Option ν := none
  right : Option ν := none
  height : UInt32 := 0
  cnt : UInt32 := 0
  deriving DecidableEq, Repr

abbrev AVLMem (ν : Type) := ν → AVLNode ν

namespace AVLMem

variable {ν : Type} [DecidableEq ν]

/-- `*p = node` -/
def store (m : AVLMem ν) (p : ν) (node : AVLNode ν) : AVLMem ν := Function.update m p node

def setParent (m : AVLMem ν) (p : ν) (v : Option ν) : AVLMem ν := m.store p { m p with parent := v }

def setLeft (m : AVLMem ν) (p : ν) (v : Option ν) : AVLMem ν := m.store p { m p with left := v }

def setRight (m : AVLMem ν) (p : ν) (v : Option ν) : AVLMem ν := m.store p { m p with right := v }

/-- `if (child) { child->parent = v; }` -/
def reparent (m : AVLMem ν) (child : Option ν) (v : Option ν) : AVLMem ν :=
  match child with
  | some c => m.setParent c v
  | none => m

end AVLMem

section
variable {ν : Type} [DecidableEq ν]

def avlInit (m : AVLMem ν) (node : ν) : AVLMem ν :=
  m.store node { height := 1, cnt := 1 }

def avlHeight (m : AVLMem ν) : Option ν → UInt32
  | some node => (m node).height
  | none => 0

def avlCnt (m : AVLMem ν) : Option ν → UInt32
  | some node => (m node).cnt
  | none => 0

def max32 (lhs rhs : UInt32) : UInt32 := if lhs > rhs then lhs else rhs

def avlUpdateStats (m : AVLMem ν) (node : ν) : AVLMem ν :=
  m.store node { m node with
    height := 1 + max32 (avlHeight m (m node).left) (avlHeight m (m node).right)
    cnt := 1 + avlCnt m (m node).left + avlCnt m (m node).right }

def rotLeft (m : AVLMem ν) (node : ν) : Result (ν × AVLMem ν) := do
  let parent := (m node).parent
  let newNode ← deref (m node).right
  let inner := (m newNode).left
  let m := m.setRight node inner
  let m := m.reparent inner (some node)
  let m := m.setParent newNode parent
  let m := m.setLeft newNode (some node)
  let m := m.setParent node (some newNode)
  let m := avlUpdateStats m node
  let m := avlUpdateStats m newNode
  return (newNode, m)

def rotRight (m : AVLMem ν) (node : ν) : Result (ν × AVLMem ν) := do
  let parent := (m node).parent
  let newNode ← deref (m node).left
  let inner := (m newNode).right
  let m := m.setLeft node inner
  let m := m.reparent inner (some node)
  let m := m.setParent newNode parent
  let m := m.setRight newNode (some node)
  let m := m.setParent node (some newNode)
  let m := avlUpdateStats m node
  let m := avlUpdateStats m newNode
  return (newNode, m)

/-- The left subtree is taller by 2. -/
def avlFixLeft (m : AVLMem ν) (node : ν) : Result (ν × AVLMem ν) := do
  let left ← deref (m node).left
  if avlHeight m (m left).left < avlHeight m (m left).right then
    let (child, m) ← rotLeft m left
    rotRight (m.setLeft node (some child)) node
  else
    rotRight m node

/-- The right subtree is taller by 2. -/
def avlFixRight (m : AVLMem ν) (node : ν) : Result (ν × AVLMem ν) := do
  let right ← deref (m node).right
  if avlHeight m (m right).right < avlHeight m (m right).left then
    let (child, m) ← rotRight m right
    rotLeft (m.setRight node (some child)) node
  else
    rotLeft m node

/-- An incoming pointer to a tree node. -/
inductive AVLLink (ν : Type) where
  /-- A variable of the caller: a local one, or the root pointer. -/
  | var
  | left (p : ν)
  | right (p : ν)
  deriving DecidableEq, Repr

/-- `parent->left == node ? &parent->left : &parent->right`, or the variable if there is no
parent. -/
def childLink (m : AVLMem ν) (parent : Option ν) (node : ν) : AVLLink ν :=
  match parent with
  | some parent => if (m parent).left = some node then .left parent else .right parent
  | none => .var

/-- `*from = v`. What a variable holds is kept by the caller. -/
def AVLLink.store (m : AVLMem ν) (v : Option ν) : AVLLink ν → AVLMem ν
  | .var => m
  | .left p => m.setLeft p v
  | .right p => m.setRight p v

/-- The body of the loop of `avl_fix_tree`: update one node and rotate if needed. The result is what
`from` holds for this subtree afterwards. -/
def avlFixNode (m : AVLMem ν) (node : ν) : Result (ν × AVLMem ν) := do
  let link := childLink m (m node).parent node
  let m := avlUpdateStats m node
  let leftHeight := avlHeight m (m node).left
  let rightHeight := avlHeight m (m node).right
  if leftHeight = rightHeight + 2 then
    let (fixed, m) ← avlFixLeft m node
    return (fixed, link.store m (some fixed))
  else if leftHeight + 2 = rightHeight then
    let (fixed, m) ← avlFixRight m node
    return (fixed, link.store m (some fixed))
  else
    return (node, m)

def avlFixTreeLoop : (fuel : Nat) → AVLMem ν → ν → Result (ν × AVLMem ν)
  | 0, _, _ => .error .diverges
  | fuel + 1, m, node => do
    let parent := (m node).parent
    let (fixed, m) ← avlFixNode m node
    match parent with
    | none => return (fixed, m)
    | some parent => avlFixTreeLoop fuel m parent

/-- Fix imbalanced nodes up to the root and return the root. -/
def avlFixTree (m : AVLMem ν) (node : ν) : Result (ν × AVLMem ν) :=
  avlFixTreeLoop addressSpace m node

/-- Detach a node with at most one child and return the new root. -/
def avlDeleteOneChild (m : AVLMem ν) (node : ν) : Result (Option ν × AVLMem ν) := do
  assert ((m node).left.isNone || (m node).right.isNone) .avlDeleteOneChild
  let child := if (m node).left.isSome then (m node).left else (m node).right
  let parent := (m node).parent
  let m := m.reparent child parent
  match parent with
  | none => return (child, m)
  | some p =>
    let (root, m) ← avlFixTree ((childLink m parent node).store m child) p
    return (some root, m)

/-- `while (victim->left) { victim = victim->left; }` -/
def leftmost (m : AVLMem ν) : (fuel : Nat) → ν → Result ν
  | 0, _ => .error .diverges
  | fuel + 1, victim =>
    match (m victim).left with
    | some left => leftmost m fuel left
    | none => return victim

/-- Detach a node and return the new root of the tree. -/
def avlDelete (m : AVLMem ν) (node : ν) : Result (Option ν × AVLMem ν) :=
  match (m node).left, (m node).right with
  | some _, some right => do
    let victim ← leftmost m addressSpace right
    let (root, m) ← avlDeleteOneChild m victim
    let m := m.store victim (m node)
    let m := m.reparent (m victim).left (some victim)
    let m := m.reparent (m victim).right (some victim)
    let link := childLink m (m node).parent node
    return (if link = .var then some victim else root, link.store m (some victim))
  | _, _ => avlDeleteOneChild m node

/-- The walk of `avl_offset`: `pos` is the rank of `node` relative to the starting node. Sums of
counters and small constants are computed in `uint32_t`, sums with `pos` in `int64_t`. -/
def avlOffsetLoop (m : AVLMem ν) (offset : Int) : (fuel : Nat) → ν → (pos : Int) → Result (Option ν)
  | 0, _, _ => .error .diverges
  | fuel + 1, node, pos =>
    if offset = pos then return some node
    else if pos < offset ∧ offset ≤ pos + (avlCnt m (m node).right).toNat then
      match (m node).right with
      | none => return none
      | some right => avlOffsetLoop m offset fuel right (pos + (avlCnt m (m right).left + 1).toNat)
    else if offset < pos ∧ pos - (avlCnt m (m node).left).toNat ≤ offset then
      match (m node).left with
      | none => return none
      | some left => avlOffsetLoop m offset fuel left (pos - (avlCnt m (m left).right + 1).toNat)
    else
      match (m node).parent with
      | none => return none
      | some parent =>
        if (m parent).right = some node then
          avlOffsetLoop m offset fuel parent (pos - (avlCnt m (m node).left + 1).toNat)
        else
          avlOffsetLoop m offset fuel parent (pos + (avlCnt m (m node).right + 1).toNat)

/-- The node `offset` positions after `node` in order. -/
def avlOffset (m : AVLMem ν) (node : Option ν) (offset : Int32) : Result (Option ν) :=
  match node with
  | none => return none
  | some node => avlOffsetLoop m offset.toInt addressSpace node 0

/-- The empty place below the root where a binary search ends, with its parent. `goLeft parent`
tells whether the search goes to the left of `parent`. -/
def searchPlace (m : AVLMem ν) (goLeft : ν → Bool) :
    (fuel : Nat) → (parent : Option ν) → (link : AVLLink ν) → (target : Option ν) →
    Result (Option ν × AVLLink ν)
  | 0, _, _, _ => .error .diverges
  | _ + 1, parent, link, none => return (parent, link)
  | fuel + 1, _, _, some parent =>
    if goLeft parent then searchPlace m goLeft fuel (some parent) (.left parent) (m parent).left
    else searchPlace m goLeft fuel (some parent) (.right parent) (m parent).right

/-- Attach a fresh node where the search ends and rebalance: the part of `tree_insert`
(`sorted_set.cpp`) that works on the tree. -/
def avlAttach (m : AVLMem ν) (root : Option ν) (node : ν) (goLeft : ν → Bool) :
    Result (ν × AVLMem ν) := do
  let (parent, link) ← searchPlace m goLeft addressSpace none .var root
  let m := link.store m (some node)
  avlFixTree (m.setParent node parent) node

/-! ## Insertion and deletion helpers

They get the address of the root pointer: the results are what it holds afterwards. -/

/-- Insert a node. What `avl_fix_tree` returns is not used. -/
def avlSearchAndInsert (m : AVLMem ν) (root : Option ν) (newNode : ν) (less : ν → ν → Bool) :
    Result (Option ν × AVLMem ν) := do
  let (parent, link) ← searchPlace m (less newNode) addressSpace none .var root
  let root := if link = .var then some newNode else root
  let m := link.store m (some newNode)
  let (_, m) ← avlFixTree (m.setParent newNode parent) newNode
  return (root, m)

/-- The loop of `avl_search_and_delete`: the node that compares equal to the key, if the search meets
one. -/
def searchNode (m : AVLMem ν) (key : κ) (cmp : ν → κ → Int32) :
    (fuel : Nat) → (node : Option ν) → Result (Option ν)
  | 0, _ => .error .diverges
  | _ + 1, none => return none
  | fuel + 1, some node =>
    let cmpResult := cmp node key
    if cmpResult < 0 then searchNode m key cmp fuel (m node).right
    else if cmpResult > 0 then searchNode m key cmp fuel (m node).left
    else return some node

/-- Delete a node that compares equal to the key and return it, with the root pointer. -/
def avlSearchAndDelete (m : AVLMem ν) (root : Option ν) (key : κ) (cmp : ν → κ → Int32) :
    Result (Option ν × Option ν × AVLMem ν) := do
  match ← searchNode m key cmp addressSpace root with
  | some node =>
    let (root, m) ← avlDelete m node
    return (some node, root, m)
  | none => return (none, root, m)

end

end MiniRedis
