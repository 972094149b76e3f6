import MiniRedis.Model.List
import MiniRedis.Theory.CircularList

/-! # The list as a ring

The functions of `storage/list.h` on a memory that holds a ring of nodes. -/

namespace MiniRedis

open CircularList

variable {ν : Type} [DecidableEq ν] {m : DListMem ν} {list node : ν} {xs as bs : List ν}

namespace DListMem

/-- The memory holds a list of nodes: a ring from the head of the list. -/
def Holds (m : DListMem ν) (list : ν) (xs : List ν) : Prop :=
  IsRing (fun n => (m n).next) (fun n => (m n).prev) list xs

theorem next_setNext (m : DListMem ν) (node : ν) (next : Option ν) :
    (fun n => (m.setNext node next n).next) = Function.update (fun n => (m n).next) node next := by
  funext n
  by_cases h : n = node
  · subst h
    simp [setNext]
  · simp [setNext, h]

theorem prev_setNext (m : DListMem ν) (node : ν) (next : Option ν) :
    (fun n => (m.setNext node next n).prev) = fun n => (m n).prev := by
  funext n
  by_cases h : n = node
  · subst h
    simp [setNext]
  · simp [setNext, h]

theorem prev_setPrev (m : DListMem ν) (node : ν) (prev : Option ν) :
    (fun n => (m.setPrev node prev n).prev) = Function.update (fun n => (m n).prev) node prev := by
  funext n
  by_cases h : n = node
  · subst h
    simp [setPrev]
  · simp [setPrev, h]

theorem next_setPrev (m : DListMem ν) (node : ν) (prev : Option ν) :
    (fun n => (m.setPrev node prev n).next) = fun n => (m n).next := by
  funext n
  by_cases h : n = node
  · subst h
    simp [setPrev]
  · simp [setPrev, h]

theorem Holds.empty_iff (h : m.Holds list xs) : dlistEmpty m list = true ↔ xs = [] := by
  rw [dlistEmpty, beq_iff_eq]
  exact h.next_head_eq

omit [DecidableEq ν] in
theorem Holds.next_eq (h : m.Holds list (node :: xs)) : (m list).next = some node := h.next_head

/-- A new list is empty. -/
theorem holds_dlistInit (m : DListMem ν) (list : ν) : (dlistInit m list).Holds list [] :=
  .nil (by simp [dlistInit]) (by simp [dlistInit])

/-- The links of other nodes do not matter. -/
theorem Holds.update (h : m.Holds list xs) (hnode : node ∉ list :: xs) (links : DLinks ν) :
    Holds (Function.update m node links) list xs := by
  have hother : ∀ n ∈ list :: xs ++ [list], Function.update m node links n = m n := fun n hn => by
    have hmem : n ∈ list :: xs :=
      (List.mem_append.mp hn).elim id fun hn => List.mem_singleton.mp hn ▸ List.mem_cons_self
    have hne : n ≠ node := fun he => hnode (he ▸ hmem)
    exact Function.update_of_ne hne ..
  refine ⟨h.linked.congr (fun a ha => ?_) fun b hb => ?_, h.nodup⟩
  · simp only [hother a (List.dropLast_subset _ ha)]
  · simp only [hother b (List.mem_of_mem_tail hb)]

theorem Holds.detach (h : m.Holds list (as ++ node :: bs)) :
    ∃ m', dlistDetach m node = .ok m' ∧ m'.Holds list (as ++ bs) := by
  obtain ⟨x, y, hx, hy, hring⟩ := IsRing.detach h
  have hy' : (m.setNext x (m node).next node).next = some y := by
    have := congrFun (next_setNext m x (m node).next) node
    simp only [hy] at this ⊢
    rw [this]
    by_cases hn : node = x
    · rw [hn, Function.update_self]
    · rw [Function.update_of_ne hn, hy]
  have hx' : (m.setNext x (m node).next node).prev = some x :=
    (congrFun (prev_setNext m x (m node).next) node).trans hx
  refine ⟨(m.setNext x (m node).next).setPrev y (some x), ?_, ?_⟩
  · rw [dlistDetach, hx, deref_some, ok_bind]
    simp only [hy', hx', deref_some, ok_bind, pure_eq_ok]
  · rw [Holds, next_setPrev, next_setNext, prev_setPrev, prev_setNext, hy]
    exact hring

theorem Holds.insertBefore (h : m.Holds list xs) (hnode : node ∉ list :: xs) :
    ∃ m', dlistInsertBefore m list node = .ok m' ∧ m'.Holds list (xs ++ [node]) := by
  obtain ⟨x, hx, hring⟩ := IsRing.insert h hnode
  have hx' : (m.setNext x (some node) list).prev = some x :=
    (congrFun (prev_setNext m x (some node)) list).trans hx
  refine ⟨(((m.setNext x (some node)).setPrev node (some x)).setNext node (some list)).setPrev list
    (some node), ?_, ?_⟩
  · rw [dlistInsertBefore, hx, deref_some, ok_bind]
    simp only [hx', pure_eq_ok]
  · rw [Holds, next_setPrev, next_setNext, next_setPrev, next_setNext, prev_setPrev, prev_setNext,
      prev_setPrev, prev_setNext]
    exact hring

end DListMem

end MiniRedis
