import Mathlib.Logic.Function.Basic
import MiniRedis.Model.Basic

/-! # `storage/heap.cpp`

The binary heap of deadlines. An item refers to the field where its owner keeps its position; the
memory of these fields is part of the heap's state. -/

namespace MiniRedis

structure HeapItem (ρ : Type) where
  val : UInt64
  ref : ρ
  deriving DecidableEq, Repr

/-- The vector of items, and the position fields that the items refer to. -/
structure Heap (ρ : Type) where
  items : List (HeapItem ρ)
  idx : ρ → Nat

namespace Heap

variable {ρ : Type} [DecidableEq ρ]

def parent (pos : Nat) : Nat := (pos + 1) / 2 - 1

def leftChild (pos : Nat) : Nat := pos * 2 + 1

def rightChild (pos : Nat) : Nat := pos * 2 + 2

/-- `*ref = v` -/
def setIdx (heap : Heap ρ) (ref : ρ) (v : Nat) : Heap ρ :=
  { heap with idx := Function.update heap.idx ref v }

/-- `heap[pos] = item` -/
def store (heap : Heap ρ) (pos : Nat) (item : HeapItem ρ) : Result (Heap ρ) :=
  if pos < heap.items.length then return { heap with items := heap.items.set pos item }
  else .error .memory

/-- `heap[pos] = item; *heap[pos].ref = pos;` -/
def place (heap : Heap ρ) (pos : Nat) (item : HeapItem ρ) : Result (Heap ρ) := do
  return (← heap.store pos item).setIdx item.ref pos

/-- The loop of `heap_up`, which moves the hole at `pos` up until `temp` fits there. -/
def upLoop (temp : HeapItem ρ) : (fuel : Nat) → Heap ρ → (pos : Nat) → Result (Heap ρ)
  | 0, _, _ => .error .diverges
  | fuel + 1, heap, pos =>
    if 0 < pos then do
      let up ← index heap.items (parent pos)
      if up.val > temp.val then upLoop temp fuel (← heap.place pos up) (parent pos)
      else heap.place pos temp
    else heap.place pos temp

def heapUp (heap : Heap ρ) (pos : Nat) : Result (Heap ρ) := do
  upLoop (← index heap.items pos) (pos + 1) heap pos

/-- Take `child` as the smallest one if it is below `len` and smaller than `smallest`. -/
def smaller (heap : Heap ρ) (len child : Nat) (smallest : Nat × UInt64) : Result (Nat × UInt64) :=
  if child < len then do
    let item ← index heap.items child
    return if item.val < smallest.2 then (child, item.val) else smallest
  else return smallest

/-- The loop of `heap_down`, which moves the hole at `pos` down until `temp` fits there. -/
def downLoop (temp : HeapItem ρ) (len : Nat) : (fuel : Nat) → Heap ρ → (pos : Nat) → Result (Heap ρ)
  | 0, _, _ => .error .diverges
  | fuel + 1, heap, pos => do
    let smallest ← heap.smaller len (leftChild pos) (pos, temp.val)
    let smallest ← heap.smaller len (rightChild pos) smallest
    if smallest.1 = pos then heap.place pos temp
    else
      let item ← index heap.items smallest.1
      downLoop temp len fuel (← heap.place pos item) smallest.1

def heapDown (heap : Heap ρ) (pos len : Nat) : Result (Heap ρ) := do
  downLoop (← index heap.items pos) len (len + 1) heap pos

/-- Whether an item is smaller than its parent. -/
def belowParent (heap : Heap ρ) (pos : Nat) : Result Bool :=
  if 0 < pos then do
    let up ← index heap.items (parent pos)
    let item ← index heap.items pos
    return up.val > item.val
  else return false

def heapUpdate (heap : Heap ρ) (pos len : Nat) : Result (Heap ρ) := do
  if ← heap.belowParent pos then heapUp heap pos else heapDown heap pos len

/-- Insert or update an item. -/
def heapUpsert (heap : Heap ρ) (pos : Nat) (item : HeapItem ρ) : Result (Heap ρ) :=
  if pos < heap.items.length then do
    let heap ← heap.store pos item
    heapUpdate (heap.setIdx item.ref pos) pos heap.items.length
  else
    let pos := heap.items.length
    let heap := { heap with items := heap.items ++ [item] }
    heapUpdate (heap.setIdx item.ref pos) pos heap.items.length

/-- Delete an item. -/
def heapDelete (heap : Heap ρ) (pos : Nat) : Result (Heap ρ) := do
  let back ← deref heap.items.getLast?
  let heap ← heap.store pos back
  let heap := { heap with items := heap.items.dropLast }
  if pos < heap.items.length then
    let item ← index heap.items pos
    heapUpdate (heap.setIdx item.ref pos) pos heap.items.length
  else
    return heap

end Heap

end MiniRedis
