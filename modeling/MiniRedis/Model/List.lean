import Mathlib.Logic.Function.Basic
import MiniRedis.Model.Basic

/-! # `storage/list.h`

The intrusive doubly linked list. A `DList` is known by its address, and the links are in memory. -/

namespace MiniRedis

/-- The links of a `DList`. -/
structure DLinks (ν : Type) where
  prev : Option ν := none
  next : Option ν := none

abbrev DListMem (ν : Type) := ν → DLinks ν

variable {ν : Type} [DecidableEq ν]

/-- `node->prev = prev` -/
def DListMem.setPrev (m : DListMem ν) (node : ν) (prev : Option ν) : DListMem ν :=
  Function.update m node { m node with prev }

/-- `node->next = next` -/
def DListMem.setNext (m : DListMem ν) (node : ν) (next : Option ν) : DListMem ν :=
  Function.update m node { m node with next }

def dlistInit (m : DListMem ν) (list : ν) : DListMem ν :=
  Function.update m list { prev := some list, next := some list }

def dlistEmpty (m : DListMem ν) (list : ν) : Bool := (m list).next == some list

def dlistDetach (m : DListMem ν) (node : ν) : Result (DListMem ν) := do
  let m := m.setNext (← deref (m node).prev) (m node).next
  return m.setPrev (← deref (m node).next) (m node).prev

def dlistInsertBefore (m : DListMem ν) (target rookie : ν) : Result (DListMem ν) := do
  let m := m.setNext (← deref (m target).prev) (some rookie)
  let m := m.setPrev rookie (m target).prev
  let m := m.setNext rookie (some target)
  return m.setPrev target (some rookie)

end MiniRedis
