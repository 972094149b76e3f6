import Mathlib.Data.Tree.Basic
import Mathlib.Data.List.Perm.Basic
import Mathlib.Data.List.Nodup
import Mathlib.Algebra.Order.Ring.Nat

/-! # Height-balanced trees and their zippers

Trees whose sibling heights differ by at most one, the local repair of a difference of two
(`rebalance`), and the repair of a whole path (`rebuild`). A position in a tree is the list of
crumbs on the way up to the root; `plug` puts a subtree back. -/

namespace BinaryTree

variable {α : Type u}

def inorder : BinaryTree α → List α
  | nil => []
  | node a l r => l.inorder ++ a :: r.inorder

def root? : BinaryTree α → Option α
  | nil => none
  | node a _ _ => some a

/-- Sibling heights differ by at most one. -/
def Balanced : BinaryTree α → Prop
  | nil => True
  | node _ l r => l.Balanced ∧ r.Balanced ∧ l.height ≤ r.height + 1 ∧ r.height ≤ l.height + 1

@[simp] theorem inorder_nil : (nil : BinaryTree α).inorder = [] := rfl

@[simp] theorem inorder_node (a : α) (l r : BinaryTree α) :
    (node a l r).inorder = l.inorder ++ a :: r.inorder := rfl

@[simp] theorem root?_nil : (nil : BinaryTree α).root? = none := rfl

@[simp] theorem root?_node (a : α) (l r : BinaryTree α) : (node a l r).root? = some a := rfl

@[simp] theorem length_inorder (t : BinaryTree α) : t.inorder.length = t.numNodes := by
  induction t with
  | nil => rfl
  | node a l r ihl ihr => simp [ihl, ihr]; omega

theorem root?_eq_none {t : BinaryTree α} : t.root? = none ↔ t = nil := by
  cases t <;> simp [root?]

theorem root?_mem {t : BinaryTree α} {a : α} (h : t.root? = some a) : a ∈ t.inorder := by
  cases t with
  | nil => cases h
  | node b l r =>
    cases h
    simp

/-- A balanced tree of height `h` has at least `2 ^ (h / 2) - 1` nodes. -/
theorem Balanced.two_pow_le {t : BinaryTree α} (h : t.Balanced) :
    2 ^ (t.height / 2) ≤ t.numNodes + 1 := by
  induction t with
  | nil => simp
  | node a l r ihl ihr =>
    obtain ⟨hl, hr, hlr, hrl⟩ := h
    simp only [height, numNodes]
    by_cases hlow : max l.height r.height = 0
    · simp [hlow]
    have hhalf : (max l.height r.height + 1) / 2 = (max l.height r.height - 1) / 2 + 1 := by omega
    have hpl : 2 ^ ((max l.height r.height - 1) / 2) ≤ 2 ^ (l.height / 2) :=
      Nat.pow_le_pow_right (by omega) (by omega)
    have hpr : 2 ^ ((max l.height r.height - 1) / 2) ≤ 2 ^ (r.height / 2) :=
      Nat.pow_le_pow_right (by omega) (by omega)
    have := ihl hl
    have := ihr hr
    rw [hhalf, Nat.pow_succ]
    omega

theorem Balanced.height_le {t : BinaryTree α} (h : t.Balanced) {k : Nat}
    (hn : t.numNodes < 2 ^ k) : t.height ≤ 2 * k + 1 := by
  have hlt : 2 ^ (t.height / 2) < 2 ^ (k + 1) := by
    have := h.two_pow_le
    rw [Nat.pow_succ]
    omega
  have := (Nat.pow_lt_pow_iff_right (by omega : 1 < 2)).mp hlt
  omega

/-! ## Reflection -/

/-- Exchange left and right everywhere. -/
def mirror : BinaryTree α → BinaryTree α
  | nil => nil
  | node a l r => node a r.mirror l.mirror

@[simp] theorem mirror_nil : (nil : BinaryTree α).mirror = nil := rfl

@[simp] theorem mirror_node (a : α) (l r : BinaryTree α) :
    (node a l r).mirror = node a r.mirror l.mirror := rfl

@[simp] theorem mirror_mirror (t : BinaryTree α) : t.mirror.mirror = t := by
  induction t with
  | nil => rfl
  | node a l r ihl ihr => simp [ihl, ihr]

@[simp] theorem root?_mirror (t : BinaryTree α) : t.mirror.root? = t.root? := by
  cases t <;> rfl

@[simp] theorem height_mirror (t : BinaryTree α) : t.mirror.height = t.height := by
  induction t with
  | nil => rfl
  | node a l r ihl ihr => simp [ihl, ihr, max_comm]

@[simp] theorem numNodes_mirror (t : BinaryTree α) : t.mirror.numNodes = t.numNodes := by
  induction t with
  | nil => rfl
  | node a l r ihl ihr => simp [ihl, ihr, Nat.add_comm]

@[simp] theorem inorder_mirror (t : BinaryTree α) : t.mirror.inorder = t.inorder.reverse := by
  induction t with
  | nil => rfl
  | node a l r ihl ihr => simp [ihl, ihr]

/-! ## Local repair -/

/-- The left subtree is too high. -/
def fixLeft (a : α) (l r : BinaryTree α) : BinaryTree α :=
  match l with
  | nil => node a l r
  | node b ll lr =>
    if ll.height < lr.height then
      match lr with
      | nil => node b ll (node a lr r)
      | node c lrl lrr => node c (node b ll lrl) (node a lrr r)
    else node b ll (node a lr r)

/-- The right subtree is too high. -/
def fixRight (a : α) (l r : BinaryTree α) : BinaryTree α :=
  match r with
  | nil => node a l r
  | node b rl rr =>
    if rr.height < rl.height then
      match rl with
      | nil => node b (node a l rl) rr
      | node c rll rlr => node c (node a l rll) (node b rlr rr)
    else node b (node a l rl) rr

/-- The tree with root `a` over `l` and `r`, rotated if their heights differ by two. -/
def rebalance (a : α) (l r : BinaryTree α) : BinaryTree α :=
  if l.height = r.height + 2 then fixLeft a l r
  else if l.height + 2 = r.height then fixRight a l r
  else node a l r

theorem inorder_fixLeft (a : α) (l r : BinaryTree α) :
    (fixLeft a l r).inorder = l.inorder ++ a :: r.inorder := by
  unfold fixLeft
  split
  · rfl
  · split
    · split <;> simp
    · simp

theorem mirror_fixLeft (a : α) (l r : BinaryTree α) :
    (fixLeft a l r).mirror = fixRight a r.mirror l.mirror := by
  cases l with
  | nil => rfl
  | node b ll lr =>
    simp only [fixLeft, fixRight, mirror_node, height_mirror]
    split
    · cases lr <;> rfl
    · rfl

theorem inorder_fixRight (a : α) (l r : BinaryTree α) :
    (fixRight a l r).inorder = l.inorder ++ a :: r.inorder := by
  have h := inorder_mirror (fixLeft a r.mirror l.mirror)
  rw [mirror_fixLeft, inorder_fixLeft] at h
  simpa using h

@[simp] theorem inorder_rebalance (a : α) (l r : BinaryTree α) :
    (rebalance a l r).inorder = l.inorder ++ a :: r.inorder := by
  unfold rebalance
  split
  · exact inorder_fixLeft a l r
  · split
    · exact inorder_fixRight a l r
    · rfl

/-- Rotating a left subtree that is too high by two balances the tree, one level lower or not. -/
theorem Balanced.fixLeft {a : α} {l r : BinaryTree α} (hl : l.Balanced) (hr : r.Balanced)
    (h : l.height = r.height + 2) :
    (fixLeft a l r).Balanced ∧ l.height ≤ (BinaryTree.fixLeft a l r).height ∧
      (BinaryTree.fixLeft a l r).height ≤ l.height + 1 := by
  cases l with
  | nil => simp at h
  | node b ll lr =>
    obtain ⟨hll, hlr, h1, h2⟩ := hl
    simp only [BinaryTree.fixLeft]
    split
    · cases lr with
      | nil => simp at *
      | node c lrl lrr =>
        obtain ⟨hlrl, hlrr, h3, h4⟩ := hlr
        simp only [Balanced, height] at *
        refine ⟨⟨⟨hll, hlrl, ?_, ?_⟩, ⟨hlrr, hr, ?_, ?_⟩, ?_, ?_⟩, ?_, ?_⟩ <;> omega
    · simp only [Balanced, height] at *
      refine ⟨⟨hll, ⟨hlr, hr, ?_, ?_⟩, ?_, ?_⟩, ?_, ?_⟩ <;> omega

theorem Balanced.mirror {t : BinaryTree α} (h : t.Balanced) : t.mirror.Balanced := by
  induction t with
  | nil => trivial
  | node a l r ihl ihr =>
    obtain ⟨hl, hr, hlr, hrl⟩ := h
    exact ⟨ihr hr, ihl hl, by simpa using hrl, by simpa using hlr⟩

theorem Balanced.fixRight {a : α} {l r : BinaryTree α} (hl : l.Balanced) (hr : r.Balanced)
    (h : l.height + 2 = r.height) :
    (fixRight a l r).Balanced ∧ r.height ≤ (BinaryTree.fixRight a l r).height ∧
      (BinaryTree.fixRight a l r).height ≤ r.height + 1 := by
  obtain ⟨hb, h1, h2⟩ := hr.mirror.fixLeft (a := a) hl.mirror (by simpa using h.symm)
  have hm := mirror_fixLeft a r.mirror l.mirror
  rw [mirror_mirror, mirror_mirror] at hm
  have hheight := height_mirror (BinaryTree.fixLeft a r.mirror l.mirror)
  rw [hm] at hheight
  rw [height_mirror] at h1 h2
  exact ⟨hm ▸ hb.mirror, by omega, by omega⟩

/-- `rebalance` repairs a difference of at most two and gains at most the one level of its root. -/
theorem Balanced.rebalance {a : α} {l r : BinaryTree α} (hl : l.Balanced) (hr : r.Balanced)
    (hlr : l.height ≤ r.height + 2) (hrl : r.height ≤ l.height + 2) :
    (rebalance a l r).Balanced ∧ max l.height r.height ≤ (BinaryTree.rebalance a l r).height ∧
      (BinaryTree.rebalance a l r).height ≤ max l.height r.height + 1 ∧
      (l.height ≤ r.height + 1 → r.height ≤ l.height + 1 →
        (BinaryTree.rebalance a l r).height = max l.height r.height + 1) := by
  unfold BinaryTree.rebalance
  split
  case isTrue h =>
    obtain ⟨hb, h1, h2⟩ := hl.fixLeft (a := a) hr h
    exact ⟨hb, by omega, by omega, by omega⟩
  case isFalse =>
    split
    case isTrue h =>
      obtain ⟨hb, h1, h2⟩ := hl.fixRight (a := a) hr h
      exact ⟨hb, by omega, by omega, by omega⟩
    case isFalse =>
      exact ⟨⟨hl, hr, by omega, by omega⟩, by simp, by simp, fun _ _ => rfl⟩

/-! ## Zippers -/

/-- One step up from a subtree: the parent and the subtree on its other side. -/
inductive Crumb (α : Type u) where
  | left (a : α) (r : BinaryTree α)
  | right (a : α) (l : BinaryTree α)

namespace Crumb

def value : Crumb α → α
  | .left a _ | .right a _ => a

def sibling : Crumb α → BinaryTree α
  | .left _ t | .right _ t => t

/-- The parent with the subtree put back. -/
def plug (t : BinaryTree α) : Crumb α → BinaryTree α
  | .left a r => node a t r
  | .right a l => node a l t

/-- The parent with the subtree put back and the difference of heights repaired. -/
def refit (t : BinaryTree α) : Crumb α → BinaryTree α
  | .left a r => BinaryTree.rebalance a t r
  | .right a l => BinaryTree.rebalance a l t

def before : Crumb α → List α
  | .left _ _ => []
  | .right a l => l.inorder ++ [a]

def after : Crumb α → List α
  | .left a r => a :: r.inorder
  | .right _ _ => []

end Crumb

/-- The whole tree around a subtree. -/
def plug : BinaryTree α → List (Crumb α) → BinaryTree α
  | t, [] => t
  | t, c :: path => plug (c.plug t) path

/-- The whole tree around a subtree, repaired on the way up. -/
def rebuild : BinaryTree α → List (Crumb α) → BinaryTree α
  | t, [] => t
  | t, c :: path => rebuild (c.refit t) path

/-- The elements in order before the hole. -/
def before : List (Crumb α) → List α
  | [] => []
  | c :: path => before path ++ c.before

/-- The elements in order after the hole. -/
def after : List (Crumb α) → List α
  | [] => []
  | c :: path => c.after ++ after path

@[simp] theorem inorder_plug_crumb (t : BinaryTree α) (c : Crumb α) :
    (c.plug t).inorder = c.before ++ t.inorder ++ c.after := by
  cases c <;> simp [Crumb.plug, Crumb.before, Crumb.after]

@[simp] theorem inorder_refit (t : BinaryTree α) (c : Crumb α) :
    (c.refit t).inorder = c.before ++ t.inorder ++ c.after := by
  cases c <;> simp [Crumb.refit, Crumb.before, Crumb.after]

theorem inorder_plug (t : BinaryTree α) (path : List (Crumb α)) :
    (t.plug path).inorder = before path ++ t.inorder ++ after path := by
  induction path generalizing t with
  | nil => simp [plug, before, after]
  | cons c path ih => simp [plug, before, after, ih]

theorem inorder_rebuild (t : BinaryTree α) (path : List (Crumb α)) :
    (t.rebuild path).inorder = before path ++ t.inorder ++ after path := by
  induction path generalizing t with
  | nil => simp [rebuild, before, after]
  | cons c path ih => simp [rebuild, before, after, ih]

theorem numNodes_le_plug (t : BinaryTree α) (path : List (Crumb α)) :
    t.numNodes ≤ (t.plug path).numNodes := by
  rw [← length_inorder t, ← length_inorder (t.plug path), inorder_plug]
  simp
  omega

/-- A subtree with the path above it is not higher than the tree. -/
theorem length_add_height_le (t : BinaryTree α) (path : List (Crumb α)) :
    path.length + t.height ≤ (t.plug path).height := by
  induction path generalizing t with
  | nil => exact Nat.le_of_eq (Nat.zero_add _)
  | cons c path ih =>
    have hrest := ih (c.plug t)
    have hstep : t.height + 1 ≤ (c.plug t).height := by
      cases c <;> simp [Crumb.plug, height]
    rw [List.length_cons, plug]
    omega

theorem plug_append (t : BinaryTree α) (path path' : List (Crumb α)) :
    t.plug (path ++ path') = (t.plug path).plug path' := by
  induction path generalizing t with
  | nil => rfl
  | cons c path ih => exact ih _

theorem before_append (path path' : List (Crumb α)) :
    before (path ++ path') = before path' ++ before path := by
  induction path with
  | nil => simp [before]
  | cons c path ih => simp [before, ih]

theorem after_append (path path' : List (Crumb α)) :
    after (path ++ path') = after path ++ after path' := by
  induction path with
  | nil => rfl
  | cons c path ih => simp [after, ih]

theorem length_add_numNodes_le (t : BinaryTree α) (path : List (Crumb α)) :
    path.length + t.numNodes ≤ (t.plug path).numNodes := by
  induction path generalizing t with
  | nil => simp [plug]
  | cons c path ih =>
    have := ih (c.plug t)
    cases c <;> simp only [plug, Crumb.plug, numNodes, List.length_cons] at * <;> omega

/-- Below the root the subtree does not matter for the root. -/
theorem root?_plug_cons (t t' : BinaryTree α) (c : Crumb α) (path : List (Crumb α)) :
    (t.plug (c :: path)).root? = (t'.plug (c :: path)).root? := by
  induction path generalizing t t' c with
  | nil => cases c <;> rfl
  | cons c' path ih => exact ih _ _ c'

/-- Every element of a tree is at the root of a subtree. -/
theorem exists_plug_of_mem {t : BinaryTree α} {a : α} (h : a ∈ t.inorder) :
    ∃ l r path, t = (node a l r).plug path := by
  suffices H : ∀ path, ∃ l r path', t.plug path = (node a l r).plug path' from H []
  induction t with
  | nil => simp at h
  | node b l r ihl ihr =>
    intro path
    simp only [inorder_node, List.mem_append, List.mem_cons] at h
    rcases h with h | rfl | h
    · exact ihl h (.left b r :: path)
    · exact ⟨l, r, path, rfl⟩
    · exact ihr h (.right b l :: path)

/-- The crumbs above a subtree of height `h` in a balanced tree. -/
def PathBalanced : Nat → List (Crumb α) → Prop
  | _, [] => True
  | h, c :: path => c.sibling.Balanced ∧ h ≤ c.sibling.height + 1 ∧ c.sibling.height ≤ h + 1 ∧
      PathBalanced (max h c.sibling.height + 1) path

theorem balanced_plug {t : BinaryTree α} {path : List (Crumb α)} :
    (t.plug path).Balanced ↔ t.Balanced ∧ PathBalanced t.height path := by
  induction path generalizing t with
  | nil => simp [plug, PathBalanced]
  | cons c path ih =>
    rw [plug, ih]
    cases c with
    | left a r => simp [Crumb.plug, Crumb.sibling, PathBalanced, Balanced, and_assoc]
    | right a l =>
      simp only [Crumb.plug, Crumb.sibling, PathBalanced, Balanced, height, max_comm l.height]
      tauto

theorem balanced_refit {t : BinaryTree α} {c : Crumb α} {h : Nat} (ht : t.Balanced)
    (hc : c.sibling.Balanced) (h1 : h ≤ c.sibling.height + 1) (h2 : c.sibling.height ≤ h + 1)
    (hlo : h ≤ t.height + 1) (hhi : t.height ≤ h + 1) :
    (c.refit t).Balanced ∧ max h c.sibling.height + 1 ≤ (c.refit t).height + 1 ∧
      (c.refit t).height ≤ max h c.sibling.height + 1 + 1 := by
  cases c with
  | left a r =>
    simp only [Crumb.refit, Crumb.sibling] at *
    obtain ⟨hb, h3, h4, h5⟩ := ht.rebalance (a := a) hc (by omega) (by omega)
    exact ⟨hb, by omega, by omega⟩
  | right a l =>
    simp only [Crumb.refit, Crumb.sibling] at *
    obtain ⟨hb, h3, h4, h5⟩ := hc.rebalance (a := a) ht (by omega) (by omega)
    exact ⟨hb, by omega, by omega⟩

/-- Repairing the path balances the whole tree when the subtree's height has changed by at most
one. The induction is on the path; the invariant is that the repaired part differs in height from
the part it replaces by at most one. -/
theorem balanced_rebuild {t : BinaryTree α} {path : List (Crumb α)} {h : Nat} (ht : t.Balanced)
    (hpath : PathBalanced h path) (hlo : h ≤ t.height + 1) (hhi : t.height ≤ h + 1) :
    (t.rebuild path).Balanced := by
  induction path generalizing t h with
  | nil => exact ht
  | cons c path ih =>
    obtain ⟨hc, h1, h2, hrest⟩ := hpath
    obtain ⟨hb, h3, h4⟩ := balanced_refit ht hc h1 h2 hlo hhi
    exact ih hb hrest h3 h4

/-! ## Search -/

/-- The path to the empty place where a binary search ends. -/
def descend (goLeft : α → Bool) : BinaryTree α → List (Crumb α) → List (Crumb α)
  | nil, path => path
  | node a l r, path =>
    if goLeft a then descend goLeft l (.left a r :: path)
    else descend goLeft r (.right a l :: path)

theorem plug_descend (goLeft : α → Bool) (t : BinaryTree α) (path : List (Crumb α)) :
    nil.plug (descend goLeft t path) = t.plug path := by
  induction t generalizing path with
  | nil => rfl
  | node a l r ihl ihr =>
    rw [descend]
    split
    · exact ihl _
    · exact ihr _

private theorem takeWhile_append_cons {p : α → Bool} {a : α} (h : p a = false) (xs ys : List α) :
    (xs ++ a :: ys).takeWhile p = xs.takeWhile p ∧
      (xs ++ a :: ys).dropWhile p = xs.dropWhile p ++ a :: ys := by
  induction xs with
  | nil => simp [h]
  | cons x xs ih => cases hx : p x <;> simp [hx, ih]

/-- What is not before the end of the search is after it. -/
theorem forall_mem_dropWhile {goLeft : α → Bool} {xs : List α}
    (h : xs.Pairwise fun a b => goLeft a → goLeft b) :
    ∀ b ∈ xs.dropWhile (!goLeft ·), goLeft b := by
  induction xs with
  | nil => simp
  | cons a xs ih =>
    rw [List.pairwise_cons] at h
    cases ha : goLeft a with
    | false => simpa [ha] using ih h.2
    | true => simpa [ha] using fun b hb => h.1 b hb ha

/-- In a tree that the search predicate splits into a part before and a part after, the search ends
between the two parts. -/
theorem descend_split {goLeft : α → Bool} {t : BinaryTree α}
    (h : t.inorder.Pairwise fun a b => goLeft a → goLeft b) (path : List (Crumb α)) :
    before (descend goLeft t path) = before path ++ t.inorder.takeWhile (!goLeft ·) ∧
      after (descend goLeft t path) = t.inorder.dropWhile (!goLeft ·) ++ after path := by
  induction t generalizing path with
  | nil => simp [descend]
  | node a l r ihl ihr =>
    rw [inorder_node, List.pairwise_append] at h
    obtain ⟨hl, hr, hlr⟩ := h
    rw [List.pairwise_cons] at hr
    rw [descend]
    split
    case isTrue ha =>
      obtain ⟨h1, h2⟩ := ihl hl (.left a r :: path)
      obtain ⟨h3, h4⟩ := takeWhile_append_cons (a := a) (p := (!goLeft ·)) (by simp [ha]) l.inorder
        r.inorder
      rw [h1, h2, inorder_node, h3, h4]
      simp [before, after, Crumb.before, Crumb.after]
    case isFalse ha =>
      obtain ⟨h1, h2⟩ := ihr hr.2 (.right a l :: path)
      have hall : ∀ b ∈ l.inorder, (!goLeft b) = true := fun b hb => by
        have := hlr b hb a List.mem_cons_self
        simpa [ha] using this
      rw [h1, h2, inorder_node, List.takeWhile_append_of_pos hall, List.dropWhile_append_of_pos hall]
      simp [before, after, Crumb.before, Crumb.after, ha]

/-! ## Growth

A new leaf makes a tree higher exactly if all nodes on the way to it have subtrees of the same height.
A root that leans to the side of a subtree which grows is rotated away. -/

/-- The subtrees have different heights. -/
def Leans : BinaryTree α → Prop
  | nil => False
  | node _ l r => l.height ≠ r.height

/-- The tree with a new leaf where the search ends, repaired on the way up. -/
def insertLeaf (goLeft : α → Bool) (p : α) : BinaryTree α → BinaryTree α
  | nil => node p nil nil
  | node a l r =>
    if goLeft a then rebalance a (insertLeaf goLeft p l) r else rebalance a l (insertLeaf goLeft p r)

/-- All nodes on the way of the search have subtrees of the same height. -/
def Grows (goLeft : α → Bool) : BinaryTree α → Prop
  | nil => True
  | node a l r => l.height = r.height ∧ if goLeft a then Grows goLeft l else Grows goLeft r

/-- The root leans to the side of the search, and the subtree there grows. -/
def RotatesRoot (goLeft : α → Bool) : BinaryTree α → Prop
  | nil => False
  | node a l r =>
    if goLeft a then l.height = r.height + 1 ∧ Grows goLeft l
    else r.height = l.height + 1 ∧ Grows goLeft r

theorem rebuild_descend (goLeft : α → Bool) (p : α) (t : BinaryTree α) (path : List (Crumb α)) :
    (node p nil nil).rebuild (descend goLeft t path) = (insertLeaf goLeft p t).rebuild path := by
  induction t generalizing path with
  | nil => rfl
  | node a l r ihl ihr =>
    rw [descend, insertLeaf]
    split
    · exact ihl _
    · exact ihr _

/-- Rotating a subtree that leans gives back the level that it had gained. -/
theorem height_fixLeft {a : α} {l r : BinaryTree α} (hl : l.Balanced) (h : l.height = r.height + 2)
    (hlean : l.Leans) : (fixLeft a l r).height = l.height := by
  cases l with
  | nil => cases hlean
  | node b ll lr =>
    obtain ⟨-, -, h1, h2⟩ := hl
    have hne : ll.height ≠ lr.height := hlean
    simp only [fixLeft]
    split
    · cases lr with
      | nil => simp at *
      | node c lrl lrr =>
        simp only [height] at *
        omega
    · simp only [height] at *
      omega

theorem Leans.mirror {t : BinaryTree α} (h : t.Leans) : t.mirror.Leans := by
  cases t with
  | nil => exact h
  | node a l r =>
    have hne : l.height ≠ r.height := h
    simpa [Leans] using hne.symm

/-- The tree `t'` is `t` with a new leaf; it is higher by one if `grows` holds, and else as high. -/
structure Grown (grows : Prop) (t t' : BinaryTree α) : Prop where
  balanced : t'.Balanced
  higher : grows → t'.height = t.height + 1 ∧ (t = nil ∨ t'.Leans)
  same : ¬ grows → t'.height = t.height

theorem Grown.height_le {grows : Prop} {t t' : BinaryTree α} (h : Grown grows t t') :
    t'.height ≤ t.height + 1 ∧ t.height ≤ t'.height := by
  by_cases hg : grows
  · have := (h.higher hg).1
    omega
  · have := h.same hg
    omega

theorem Grown.left {grows : Prop} {a : α} {l l' r : BinaryTree α} (h : Grown grows l l')
    (ht : (node a l r).Balanced) :
    Grown (l.height = r.height ∧ grows) (node a l r) (rebalance a l' r) := by
  obtain ⟨-, hr, h1, h2⟩ := ht
  have hle := h.height_le
  obtain ⟨hb, -, -, hflat⟩ := h.balanced.rebalance (a := a) hr (by omega) (by omega)
  refine ⟨hb, fun ⟨heq, hg⟩ => ⟨?_, .inr ?_⟩, fun hsame => ?_⟩
  · have hhigher := (h.higher hg).1
    rw [hflat (by omega) (by omega), height]
    omega
  · have hhigher := (h.higher hg).1
    rw [rebalance, if_neg (by omega), if_neg (by omega), Leans]
    omega
  · by_cases hg : grows
    · obtain ⟨hhigher, hlean⟩ := h.higher hg
      have hne : l.height ≠ r.height := fun heq => hsame ⟨heq, hg⟩
      by_cases hrot : l'.height = r.height + 2
      · have hlean' : l'.Leans := hlean.resolve_left (by rintro rfl; simp at *; omega)
        rw [rebalance, if_pos hrot, height_fixLeft h.balanced hrot hlean', height]
        omega
      · rw [hflat (by omega) (by omega), height]
        omega
    · have hsame := h.same hg
      rw [hflat (by omega) (by omega), height]
      omega

theorem mirror_rebalance (a : α) (l r : BinaryTree α) :
    (rebalance a l r).mirror = rebalance a r.mirror l.mirror := by
  simp only [rebalance, height_mirror]
  split
  · rw [mirror_fixLeft, if_neg (by omega), if_pos (by omega)]
  · split
    · have hm := mirror_fixLeft a r.mirror l.mirror
      rw [mirror_mirror, mirror_mirror] at hm
      rw [if_pos (by omega), ← hm, mirror_mirror]
    · rw [if_neg (by omega), if_neg (by omega), mirror_node]

theorem Grown.mirror {grows : Prop} {t t' : BinaryTree α} (h : Grown grows t t') :
    Grown grows t.mirror t'.mirror := by
  refine ⟨h.balanced.mirror, fun hg => ?_, fun hg => ?_⟩
  · obtain ⟨hhigher, hlean⟩ := h.higher hg
    rw [height_mirror, height_mirror]
    exact ⟨hhigher, hlean.imp (fun ht => by rw [ht, mirror_nil]) Leans.mirror⟩
  · rw [height_mirror, height_mirror, h.same hg]

theorem Grown.right {grows : Prop} {a : α} {l r r' : BinaryTree α} (h : Grown grows r r')
    (ht : (node a l r).Balanced) :
    Grown (l.height = r.height ∧ grows) (node a l r) (rebalance a l r') := by
  have hm := (h.mirror.left ht.mirror).mirror
  rw [mirror_rebalance, mirror_mirror, mirror_mirror, height_mirror, height_mirror, mirror_node,
    mirror_mirror, mirror_mirror] at hm
  rwa [eq_comm (a := l.height)]

theorem grown_insertLeaf (goLeft : α → Bool) (p : α) {t : BinaryTree α} (ht : t.Balanced) :
    Grown (Grows goLeft t) t (insertLeaf goLeft p t) := by
  induction t with
  | nil => exact ⟨⟨trivial, trivial, by simp, by simp⟩, fun _ => ⟨rfl, .inl rfl⟩, fun h => absurd trivial h⟩
  | node a l r ihl ihr =>
    rw [insertLeaf, Grows]
    split
    · exact (ihl ht.1).left ht
    · exact (ihr ht.2.1).right ht

/-- A new leaf leaves the root where it is, unless it rotates the root. -/
theorem root?_insertLeaf {goLeft : α → Bool} {t : BinaryTree α} {p : α} (ht : t.Balanced) (hne : t ≠ nil)
    (hroot : ¬ RotatesRoot goLeft t) : (insertLeaf goLeft p t).root? = t.root? := by
  cases t with
  | nil => exact absurd rfl hne
  | node a l r =>
    obtain ⟨hl, hr, h1, h2⟩ := ht
    rw [RotatesRoot] at hroot
    rw [insertLeaf]
    split at hroot
    · next ha =>
      have hgrown := grown_insertLeaf goLeft p hl
      have hle := hgrown.height_le
      have hrot : (insertLeaf goLeft p l).height ≠ r.height + 2 := fun hrot =>
        hroot ⟨by omega, by by_contra hg; have := hgrown.same hg; omega⟩
      rw [if_pos ha, rebalance, if_neg hrot, if_neg (by omega), root?_node, root?_node]
    · next ha =>
      have hgrown := grown_insertLeaf goLeft p hr
      have hle := hgrown.height_le
      have hrot : l.height + 2 ≠ (insertLeaf goLeft p r).height := fun hrot =>
        hroot ⟨by omega, by by_contra hg; have := hgrown.same hg; omega⟩
      rw [if_neg ha, rebalance, if_neg (by omega), if_neg hrot, root?_node, root?_node]

/-- A rotation to the right lifts a node of the left subtree. -/
theorem root?_fixLeft_mem {a : α} {l r : BinaryTree α} (hl : l ≠ nil) :
    ∃ b ∈ l.inorder, (fixLeft a l r).root? = some b := by
  cases l with
  | nil => exact absurd rfl hl
  | node b ll lr =>
    simp only [fixLeft]
    split
    · cases lr with
      | nil => exact ⟨b, by simp, rfl⟩
      | node c lrl lrr => exact ⟨c, by simp, rfl⟩
    · exact ⟨b, by simp, rfl⟩

theorem root?_fixRight_mem {a : α} {l r : BinaryTree α} (hr : r ≠ nil) :
    ∃ b ∈ r.inorder, (fixRight a l r).root? = some b := by
  have hm := mirror_fixLeft a r.mirror l.mirror
  rw [mirror_mirror, mirror_mirror] at hm
  obtain ⟨b, hb, hroot⟩ := root?_fixLeft_mem (a := a) (r := l.mirror) (show r.mirror ≠ nil from
    fun h => hr (by rw [← mirror_mirror r, h, mirror_nil]))
  exact ⟨b, by simpa using hb, by rw [← hm, root?_mirror, hroot]⟩

theorem inorder_insertLeaf_perm (goLeft : α → Bool) (p : α) (t : BinaryTree α) :
    (insertLeaf goLeft p t).inorder.Perm (p :: t.inorder) := by
  have hnew := inorder_rebuild (node p nil nil) (descend goLeft t [])
  have hold := inorder_plug nil (descend goLeft t [])
  rw [rebuild_descend] at hnew
  rw [plug_descend] at hold
  simp only [rebuild, plug, inorder_node, inorder_nil, List.nil_append, List.append_nil,
    List.append_assoc, List.cons_append] at hnew hold
  rw [hnew, hold]
  exact List.perm_middle

/-- A new leaf that rotates the root puts another node there. -/
theorem root?_insertLeaf_ne {goLeft : α → Bool} {t : BinaryTree α} {p : α} (ht : t.Balanced)
    (hnd : t.inorder.Nodup) (hp : p ∉ t.inorder) (hroot : RotatesRoot goLeft t) :
    (insertLeaf goLeft p t).root? ≠ t.root? := by
  cases t with
  | nil => cases hroot
  | node a l r =>
    obtain ⟨hl, hr, -, -⟩ := ht
    rw [inorder_node, List.nodup_append, List.nodup_cons] at hnd
    obtain ⟨-, ⟨har, -⟩, hla⟩ := hnd
    simp only [inorder_node, List.mem_append, List.mem_cons, not_or] at hp
    rw [RotatesRoot] at hroot
    rw [insertLeaf]
    split at hroot
    · next ha =>
      obtain ⟨hlean, hg⟩ := hroot
      have hhigher := ((grown_insertLeaf goLeft p hl).higher hg).1
      obtain ⟨b, hb, heq⟩ := root?_fixLeft_mem (a := a) (r := r)
        (show insertLeaf goLeft p l ≠ nil from fun h => by simp [h] at hhigher)
      rw [if_pos ha, rebalance, if_pos (by omega), heq, root?_node]
      rintro ⟨⟩
      rcases List.mem_cons.mp ((inorder_insertLeaf_perm ..).mem_iff.mp hb) with rfl | hb
      · exact hp.2.1 rfl
      · exact hla a hb a List.mem_cons_self rfl
    · next ha =>
      obtain ⟨hlean, hg⟩ := hroot
      have hhigher := ((grown_insertLeaf goLeft p hr).higher hg).1
      obtain ⟨b, hb, heq⟩ := root?_fixRight_mem (a := a) (l := l)
        (show insertLeaf goLeft p r ≠ nil from fun h => by simp [h] at hhigher)
      rw [if_neg ha, rebalance, if_neg (by omega), if_pos (by omega), heq, root?_node]
      rintro ⟨⟩
      rcases List.mem_cons.mp ((inorder_insertLeaf_perm ..).mem_iff.mp hb) with rfl | hb
      · exact hp.2.1 rfl
      · exact har hb

end BinaryTree
