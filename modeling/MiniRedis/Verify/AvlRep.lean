import MiniRedis.Theory.BalancedTree
import MiniRedis.Model.AvlTree

/-! # The pointer tree represents a tree

`Rep m parent t` says that the memory `m` holds the tree `t` below `parent`, with exact links and
statistics. The rotations of `avl_tree.cpp` and the repair of one node are followed through the
memory to the functions of `Theory.BalancedTree`; each of them is a `Turned` step. -/

namespace MiniRedis

open BinaryTree

/-! ## Statistics in `uint32_t` -/

theorem ofNat_lt_ofNat {a b : Nat} (ha : a < 2 ^ 32) (hb : b < 2 ^ 32) :
    UInt32.ofNat a < UInt32.ofNat b ↔ a < b := by
  rw [UInt32.lt_iff_toNat_lt, UInt32.toNat_ofNat_of_lt' ha, UInt32.toNat_ofNat_of_lt' hb]

theorem ofNat_inj {a b : Nat} (ha : a < 2 ^ 32) (hb : b < 2 ^ 32) :
    UInt32.ofNat a = UInt32.ofNat b ↔ a = b := by
  rw [← UInt32.toNat_inj, UInt32.toNat_ofNat_of_lt' ha, UInt32.toNat_ofNat_of_lt' hb]

theorem max32_ofNat {a b : Nat} (ha : a < 2 ^ 32) (hb : b < 2 ^ 32) :
    max32 (.ofNat a) (.ofNat b) = .ofNat (max a b) := by
  simp only [max32, GT.gt, ofNat_lt_ofNat hb ha]
  split
  · rw [max_eq_left (by omega)]
  · rw [max_eq_right (by omega)]

section
variable {ν : Type} {m m' : AVLMem ν}

/-! ## Representation -/

/-- The node at the root of a tree. -/
def cell (parent : Option ν) (l r : BinaryTree ν) : AVLNode ν where
  parent := parent
  left := l.root?
  right := r.root?
  height := .ofNat (max l.height r.height + 1)
  cnt := .ofNat (l.numNodes + r.numNodes + 1)

/-- The memory holds the tree: exact links, heights and counters. -/
def Rep (m : AVLMem ν) : Option ν → BinaryTree ν → Prop
  | _, .nil => True
  | parent, .node p l r => m p = cell parent l r ∧ Rep m (some p) l ∧ Rep m (some p) r

/-- A node with exact links over two trees; its own statistics may be stale. -/
structure Fork (m : AVLMem ν) (parent : Option ν) (p : ν) (l r : BinaryTree ν) : Prop where
  parent : (m p).parent = parent
  left : (m p).left = l.root?
  right : (m p).right = r.root?
  repLeft : Rep m (some p) l
  repRight : Rep m (some p) r

variable {parent parent' : Option ν} {p q : ν} {t l r : BinaryTree ν}

theorem Rep.fork (h : Rep m parent (.node p l r)) : Fork m parent p l r :=
  ⟨by rw [h.1, cell], by rw [h.1, cell], by rw [h.1, cell], h.2.1, h.2.2⟩

theorem Rep.congr (h : Rep m parent t) (hm : ∀ x ∈ t.inorder, m' x = m x) : Rep m' parent t := by
  induction t generalizing parent with
  | nil => trivial
  | node p l r ihl ihr =>
    obtain ⟨hp, hl, hr⟩ := h
    simp only [inorder_node, List.mem_append, List.mem_cons] at hm
    exact ⟨by rw [hm p (by simp), hp], ihl hl fun x hx => hm x (by simp [hx]),
      ihr hr fun x hx => hm x (by simp [hx])⟩

theorem Rep.height_eq (h : Rep m parent t) : avlHeight m t.root? = .ofNat t.height := by
  cases t with
  | nil => rfl
  | node p l r => simp [avlHeight, h.1, cell]

theorem Rep.cnt_eq (h : Rep m parent t) : avlCnt m t.root? = .ofNat t.numNodes := by
  cases t with
  | nil => rfl
  | node p l r => simp [avlCnt, h.1, cell]

variable [DecidableEq ν]

/-! ## Memory -/

namespace AVLMem

@[simp] theorem store_self (m : AVLMem ν) (p : ν) (n : AVLNode ν) : m.store p n p = n :=
  Function.update_self ..

theorem store_of_ne {p x : ν} (h : x ≠ p) (n : AVLNode ν) : m.store p n x = m x :=
  Function.update_of_ne h ..

@[simp] theorem setParent_self (m : AVLMem ν) (p : ν) (v : Option ν) :
    m.setParent p v p = { m p with parent := v } := store_self ..

@[simp] theorem setLeft_self (m : AVLMem ν) (p : ν) (v : Option ν) :
    m.setLeft p v p = { m p with left := v } := store_self ..

@[simp] theorem setRight_self (m : AVLMem ν) (p : ν) (v : Option ν) :
    m.setRight p v p = { m p with right := v } := store_self ..

theorem setParent_of_ne {p x : ν} (h : x ≠ p) (v : Option ν) : m.setParent p v x = m x :=
  store_of_ne h _

theorem setLeft_of_ne {p x : ν} (h : x ≠ p) (v : Option ν) : m.setLeft p v x = m x :=
  store_of_ne h _

theorem setRight_of_ne {p x : ν} (h : x ≠ p) (v : Option ν) : m.setRight p v x = m x :=
  store_of_ne h _

theorem setLeft_eq_self {p : ν} {v : Option ν} (h : (m p).left = v) : m.setLeft p v = m := by
  subst h
  exact Function.update_eq_self ..

theorem setRight_eq_self {p : ν} {v : Option ν} (h : (m p).right = v) : m.setRight p v = m := by
  subst h
  exact Function.update_eq_self ..

theorem reparent_congr {x : ν} (h : m' x = m x) (child v : Option ν) :
    m'.reparent child v x = m.reparent child v x := by
  cases child with
  | none => exact h
  | some c =>
    by_cases hx : x = c
    · subst hx
      simp [reparent, h]
    · simp [reparent, setParent_of_ne hx, h]

theorem reparent_of_ne {child : Option ν} {x : ν} (h : child ≠ some x) (v : Option ν) :
    m.reparent child v x = m x := by
  cases child with
  | none => rfl
  | some c => exact setParent_of_ne (fun hx => h (by rw [hx])) v

end AVLMem

open AVLMem

/-- Moving a tree below another parent. -/
theorem Rep.reparent (h : Rep m parent t) (hnd : t.inorder.Nodup) :
    Rep (m.reparent t.root? parent') parent' t := by
  cases t with
  | nil => trivial
  | node p l r =>
    obtain ⟨hp, hl, hr⟩ := h
    have hne : ∀ x, x ∈ l.inorder ∨ x ∈ r.inorder → x ≠ p := by
      rintro x hx rfl
      simp [List.nodup_append] at hnd
      grind
    refine ⟨by simp [AVLMem.reparent, hp, cell], hl.congr fun x hx => ?_, hr.congr fun x hx => ?_⟩
    · exact setParent_of_ne (hne x (.inl hx)) _
    · exact setParent_of_ne (hne x (.inr hx)) _

/-- `avlUpdateStats` completes a node over two trees. -/
theorem Fork.rep_updateStats (h : Fork m parent p l r) (hl : l.height < 2 ^ 31)
    (hr : r.height < 2 ^ 31) (hp : p ∉ l.inorder ++ r.inorder) :
    Rep (avlUpdateStats m p) parent (.node p l r) := by
  have hcell : avlUpdateStats m p = m.store p (cell parent l r) := by
    have hmax := max32_ofNat (a := l.height) (b := r.height) (by omega) (by omega)
    unfold avlUpdateStats
    rw [h.left, h.right, h.repLeft.height_eq, h.repRight.height_eq, h.repLeft.cnt_eq,
      h.repRight.cnt_eq, hmax, cell, ← h.parent, ← h.left, ← h.right]
    refine congrArg (m.store p) ?_
    simp only [AVLNode.mk.injEq, UInt32.ofNat_add, true_and]
    exact ⟨UInt32.add_comm _ _, by ac_rfl⟩
  rw [hcell]
  simp only [List.mem_append, not_or] at hp
  refine ⟨by simp, h.repLeft.congr fun x hx => ?_, h.repRight.congr fun x hx => ?_⟩
  · exact store_of_ne (ne_of_mem_of_not_mem hx hp.1) _
  · exact store_of_ne (ne_of_mem_of_not_mem hx hp.2) _

theorem avlUpdateStats_of_ne {x : ν} (h : x ≠ p) : avlUpdateStats m p x = m x :=
  store_of_ne h _

/-! ## Rotations -/

/-- A step that turns the tree `t` into `t'` below the same parent and writes only to its nodes. -/
structure Turned (m : AVLMem ν) (parent : Option ν) (t t' : BinaryTree ν) (root : ν)
    (m' : AVLMem ν) : Prop where
  rep : Rep m' parent t'
  root : t'.root? = some root
  frame : ∀ x, x ∉ t.inorder → m' x = m x

theorem Fork.rotLeft_turned {rl rr : BinaryTree ν} (h : Fork m parent p l (.node q rl rr))
    (hnd : (node p l (node q rl rr)).inorder.Nodup) (hl : l.height < 2 ^ 30)
    (hrl : rl.height < 2 ^ 30) (hrr : rr.height < 2 ^ 30) :
    ∃ m', rotLeft m p = .ok (q, m') ∧
      Turned m parent (.node p l (.node q rl rr)) (.node q (.node p l rl) rr) q m' := by
  obtain ⟨hq, hrepl, hrepr⟩ := h.repRight
  have hroot : ∀ x, rl.root? = some x → x ∈ rl.inorder := fun x hx => root?_mem hx
  simp only [inorder_node, List.nodup_append, List.nodup_cons, List.mem_append, List.mem_cons] at hnd
  have hpq : p ≠ q := by grind
  -- The memory once all links are in place.
  set m₅ := ((((m.setRight p rl.root?).reparent rl.root? (some p)).setParent q parent).setLeft q
    (some p)).setParent p (some q) with hm₅
  have hrun : rotLeft m p = .ok (q, avlUpdateStats (avlUpdateStats m₅ p) q) := by
    simp only [rotLeft, h.right, h.parent, root?_node, deref_some, ok_bind, hq, cell, pure_eq_ok]
    rfl
  have hinner : ∀ x, x ≠ p → x ≠ q → m₅ x = m.reparent rl.root? (some p) x := by
    intro x hxp hxq
    rw [hm₅, setParent_of_ne hxp, setLeft_of_ne hxq, setParent_of_ne hxq]
    exact reparent_congr (setRight_of_ne hxp _) _ _
  have hother : ∀ x, x ≠ p → x ≠ q → rl.root? ≠ some x → m₅ x = m x := fun x hxp hxq hx =>
    (hinner x hxp hxq).trans (reparent_of_ne hx _)
  have hp₅ : m₅ p = { m p with parent := some q, right := rl.root? } := by
    rw [hm₅, setParent_self, setLeft_of_ne hpq, setParent_of_ne hpq, reparent_of_ne (by grind),
      setRight_self]
  have hq₅ : m₅ q = { m q with parent := parent, left := some p } := by
    rw [hm₅, setParent_of_ne hpq.symm, setLeft_self, setParent_self, reparent_of_ne (by grind),
      setRight_of_ne hpq.symm]
  have hlow : Fork m₅ (some q) p l rl := by
    refine ⟨by rw [hp₅], by rw [hp₅, h.left], by rw [hp₅], ?_, ?_⟩
    · exact h.repLeft.congr fun x hx => hother x (by grind) (by grind) (by grind)
    · exact (hrepl.reparent (by grind)).congr fun x hx => hinner x (by grind) (by grind)
  have hrep₆ := hlow.rep_updateStats (by omega) (by omega) (by grind)
  have htop : Fork (avlUpdateStats m₅ p) parent q (.node p l rl) rr := by
    rw [← avlUpdateStats_of_ne (m := m₅) hpq.symm] at hq₅
    refine ⟨by rw [hq₅], by rw [hq₅, root?_node], by rw [hq₅, hq, cell], hrep₆, ?_⟩
    refine hrepr.congr fun x hx => ?_
    rw [avlUpdateStats_of_ne (by grind)]
    exact hother x (by grind) (by grind) (by grind)
  refine ⟨_, hrun, ⟨htop.rep_updateStats (by simp only [height]; omega) (by omega) ?_, rfl, ?_⟩⟩
  · simp only [inorder_node]
    grind
  · intro x hx
    simp only [inorder_node, List.mem_append, List.mem_cons, not_or] at hx
    rw [avlUpdateStats_of_ne hx.2.2.2.1, avlUpdateStats_of_ne hx.2.1]
    exact hother x hx.2.1 hx.2.2.2.1 (by grind)

/-! The right rotation is the left rotation of the reflected memory. -/

/-- Exchange the child fields of every node. -/
def AVLMem.mirror (m : AVLMem ν) : AVLMem ν := fun p =>
  { m p with left := (m p).right, right := (m p).left }

omit [DecidableEq ν] in
@[simp] theorem AVLMem.mirror_mirror (m : AVLMem ν) : m.mirror.mirror = m := rfl

theorem AVLMem.mirror_store (m : AVLMem ν) (p : ν) (n : AVLNode ν) :
    (m.store p n).mirror = m.mirror.store p { n with left := n.right, right := n.left } := by
  funext x
  by_cases hx : x = p
  · subst hx
    simp [AVLMem.mirror]
  · simp [AVLMem.mirror, store_of_ne hx]

theorem AVLMem.mirror_setParent (m : AVLMem ν) (p : ν) (v : Option ν) :
    (m.setParent p v).mirror = m.mirror.setParent p v := mirror_store ..

theorem AVLMem.mirror_setLeft (m : AVLMem ν) (p : ν) (v : Option ν) :
    (m.setLeft p v).mirror = m.mirror.setRight p v := mirror_store ..

theorem AVLMem.mirror_setRight (m : AVLMem ν) (p : ν) (v : Option ν) :
    (m.setRight p v).mirror = m.mirror.setLeft p v := mirror_store ..

theorem AVLMem.mirror_reparent (m : AVLMem ν) (child v : Option ν) :
    (m.reparent child v).mirror = m.mirror.reparent child v := by
  cases child with
  | none => rfl
  | some c => exact mirror_store ..

omit [DecidableEq ν] in
theorem max32_comm (a b : UInt32) : max32 a b = max32 b a := by
  simp only [max32]
  grind

theorem mirror_avlUpdateStats (m : AVLMem ν) (p : ν) :
    (avlUpdateStats m p).mirror = avlUpdateStats m.mirror p := by
  have hh : ∀ x, avlHeight m.mirror x = avlHeight m x := by rintro (_ | _) <;> rfl
  have hc : ∀ x, avlCnt m.mirror x = avlCnt m x := by rintro (_ | _) <;> rfl
  rw [avlUpdateStats, mirror_store, avlUpdateStats, hh, hh, hc, hc]
  refine congrArg (m.mirror.store p) ?_
  simp only [AVLMem.mirror, AVLNode.mk.injEq, true_and]
  exact ⟨by rw [max32_comm], by ac_rfl⟩

theorem rotRight_eq_mirror (m : AVLMem ν) (p : ν) :
    rotRight m p = rotLeft m.mirror p >>= fun (q, m') => .ok (q, m'.mirror) := by
  simp only [rotRight, rotLeft]
  cases h : (m p).left with
  | none => simp [AVLMem.mirror, h]
  | some q =>
    have hq : (m.mirror p).right = some q := h
    simp only [hq, deref_some, ok_bind, pure_eq_ok, mirror_avlUpdateStats, mirror_setParent,
      mirror_setLeft, mirror_setRight, mirror_reparent, AVLMem.mirror_mirror]
    rfl

omit [DecidableEq ν] in
theorem Rep.mirror (h : Rep m parent t) : Rep m.mirror parent t.mirror := by
  induction t generalizing parent with
  | nil => trivial
  | node p l r ihl ihr =>
    obtain ⟨hp, hl, hr⟩ := h
    refine ⟨?_, ihr hr, ihl hl⟩
    simp [AVLMem.mirror, hp, cell, max_comm, Nat.add_comm]

omit [DecidableEq ν] in
theorem Fork.mirror (h : Fork m parent p l r) : Fork m.mirror parent p r.mirror l.mirror :=
  ⟨h.parent, h.right.trans (root?_mirror r).symm, h.left.trans (root?_mirror l).symm,
    h.repRight.mirror, h.repLeft.mirror⟩

omit [DecidableEq ν] in
theorem Turned.mirror {t' : BinaryTree ν} {root : ν} (h : Turned m.mirror parent t t' root m') :
    Turned m parent t.mirror t'.mirror root m'.mirror :=
  ⟨h.rep.mirror, by simpa using h.root, fun x hx => by
    have := h.frame x (by simpa using hx)
    simp [AVLMem.mirror, this]⟩

theorem Fork.rotRight_turned {ll lr : BinaryTree ν} (h : Fork m parent p (.node q ll lr) r)
    (hnd : (node p (node q ll lr) r).inorder.Nodup) (hll : ll.height < 2 ^ 30)
    (hlr : lr.height < 2 ^ 30) (hr : r.height < 2 ^ 30) :
    ∃ m', rotRight m p = .ok (q, m') ∧
      Turned m parent (.node p (.node q ll lr) r) (.node q ll (.node p lr r)) q m' := by
  have hnd' : (node p (node q ll lr) r).mirror.inorder.Nodup := by
    rw [inorder_mirror]
    exact List.nodup_reverse.mpr hnd
  obtain ⟨m', hrun, ht⟩ := h.mirror.rotLeft_turned hnd' (by simpa) (by simpa) (by simpa)
  exact ⟨m'.mirror, by simp [rotRight_eq_mirror, hrun], by simpa using ht.mirror⟩

/-! ## Repairing one node -/

omit [DecidableEq ν] in
/-- A turn after other writes to the nodes of the tree. -/
theorem Turned.after {m₁ m₂ : AVLMem ν} {t₁ t₂ : BinaryTree ν} {root : ν}
    (h : Turned m₁ parent t₁ t₂ root m₂) (hframe : ∀ x, x ∉ t.inorder → m₁ x = m x)
    (hmem : ∀ x, x ∈ t₁.inorder → x ∈ t.inorder) : Turned m parent t t₂ root m₂ :=
  ⟨h.rep, h.root, fun x hx => (h.frame x fun hx' => hx (hmem x hx')).trans (hframe x hx)⟩

theorem Fork.fixLeft_turned (h : Fork m parent p l r) (hnd : (node p l r).inorder.Nodup)
    (hl : l.height = r.height + 2) (hr : r.height < 2 ^ 29) :
    ∃ root m', avlFixLeft m p = .ok (root, m') ∧
      Turned m parent (.node p l r) (fixLeft p l r) root m' := by
  cases l with
  | nil => simp at hl
  | node b ll lr =>
    have hb := h.repLeft.fork
    simp only [height] at hl
    have hcond : avlHeight m (m b).left < avlHeight m (m b).right ↔ ll.height < lr.height := by
      rw [hb.left, hb.right, hb.repLeft.height_eq, hb.repRight.height_eq]
      exact ofNat_lt_ofNat (by omega) (by omega)
    simp only [avlFixLeft, h.left, root?_node, deref_some, ok_bind, hcond, fixLeft]
    split
    case isFalse =>
      obtain ⟨m', hrun, ht⟩ := h.rotRight_turned hnd (by omega) (by omega) (by omega)
      exact ⟨b, m', hrun, ht⟩
    case isTrue hlt =>
      cases lr with
      | nil => simp at hlt
      | node c lrl lrr =>
        simp only [height] at hl
        simp only [inorder_node] at hnd
        -- First the left child is rotated below `p`, then `p` itself.
        obtain ⟨m₁, hrun₁, ht₁⟩ := hb.rotLeft_turned (by
          simp only [inorder_node]
          grind) (by omega) (by omega) (by omega)
        have hp₁ : m₁ p = m p := ht₁.frame p (by
          simp only [inorder_node]
          grind)
        have hf : Fork (m₁.setLeft p (some c)) parent p (.node c (.node b ll lrl) lrr) r := by
          refine ⟨by simp [hp₁, h.parent], by simp, by simp [hp₁, h.right], ?_, ?_⟩
          · refine ht₁.rep.congr fun x hx => setLeft_of_ne ?_ _
            simp only [inorder_node] at hx
            grind
          · refine h.repRight.congr fun x hx => ?_
            rw [setLeft_of_ne (by grind)]
            refine ht₁.frame x ?_
            simp only [inorder_node]
            grind
        obtain ⟨m₂, hrun₂, ht₂⟩ := hf.rotRight_turned (by
          simp only [inorder_node]
          grind) (by simp only [height]; omega) (by omega) (by omega)
        refine ⟨c, m₂, by simp [hrun₁, hrun₂], ?_⟩
        refine ht₂.after (fun x hx => ?_) fun x hx => ?_
        · simp only [inorder_node] at hx
          rw [setLeft_of_ne (by grind)]
          refine ht₁.frame x ?_
          simp only [inorder_node]
          grind
        · simp only [inorder_node] at hx ⊢
          grind

omit [DecidableEq ν] in
@[simp] theorem avlHeight_mirror (m : AVLMem ν) (x : Option ν) :
    avlHeight m.mirror x = avlHeight m x := by
  cases x <;> rfl

omit [DecidableEq ν] in
@[simp] theorem avlCnt_mirror (m : AVLMem ν) (x : Option ν) : avlCnt m.mirror x = avlCnt m x := by
  cases x <;> rfl

theorem avlFixRight_eq_mirror (m : AVLMem ν) (p : ν) :
    avlFixRight m p = avlFixLeft m.mirror p >>= fun (q, m') => .ok (q, m'.mirror) := by
  simp only [avlFixRight, avlFixLeft]
  cases h : (m p).right with
  | none => simp [AVLMem.mirror, h]
  | some b =>
    have hb : (m.mirror p).left = some b := h
    have hcond : avlHeight m.mirror (m.mirror b).left < avlHeight m.mirror (m.mirror b).right ↔
        avlHeight m (m b).right < avlHeight m (m b).left := by
      rw [avlHeight_mirror, avlHeight_mirror]
      rfl
    have hright : ∀ m : AVLMem ν, rotLeft m p =
        rotRight m.mirror p >>= fun (q, m') => .ok (q, m'.mirror) := fun m => by
      rw [rotRight_eq_mirror, AVLMem.mirror_mirror]
      cases rotLeft m p <;> rfl
    simp only [hb, deref_some, ok_bind, hcond, rotRight_eq_mirror m b]
    split
    · cases rotLeft m.mirror b with
      | error e => rfl
      | ok res =>
        obtain ⟨child, m₁⟩ := res
        simp only [ok_bind, hright (m₁.mirror.setRight p (some child)), mirror_setRight,
          AVLMem.mirror_mirror]
    · exact hright m

theorem Fork.fixRight_turned (h : Fork m parent p l r) (hnd : (node p l r).inorder.Nodup)
    (hr : l.height + 2 = r.height) (hl : l.height < 2 ^ 29) :
    ∃ root m', avlFixRight m p = .ok (root, m') ∧
      Turned m parent (.node p l r) (fixRight p l r) root m' := by
  have hnd' : (node p l r).mirror.inorder.Nodup := by
    rw [inorder_mirror]
    exact List.nodup_reverse.mpr hnd
  obtain ⟨root, m', hrun, ht⟩ := h.mirror.fixLeft_turned hnd' (by simpa using hr.symm) (by simpa)
  refine ⟨root, m'.mirror, by simp [avlFixRight_eq_mirror, hrun], ?_⟩
  have := ht.mirror
  rwa [mirror_fixLeft, BinaryTree.mirror_mirror, BinaryTree.mirror_mirror, mirror_node,
    BinaryTree.mirror_mirror, BinaryTree.mirror_mirror] at this

/-- `avlFixNode` repairs one node and stores the root of its subtree in the parent's link, which
held the node before. -/
theorem Fork.fixNode_turned (h : Fork m parent p l r)
    (hlink : ∀ a, parent = some a → (m a).left = some p ∨ (m a).right = some p)
    (hpar : ∀ a, parent = some a → a ∉ (node p l r).inorder) (hnd : (node p l r).inorder.Nodup)
    (hl : l.height < 2 ^ 28) (hr : r.height < 2 ^ 28) :
    ∃ root m₁, avlFixNode m p = .ok (root, (childLink m parent p).store m₁ (some root)) ∧
      Turned m parent (.node p l r) (rebalance p l r) root m₁ := by
  have hp : p ∉ l.inorder ++ r.inorder := by
    simp only [inorder_node] at hnd
    grind
  have hrep := h.rep_updateStats (by omega) (by omega) hp
  have hframe : ∀ x, x ∉ (node p l r).inorder → avlUpdateStats m p x = m x := fun x hx => by
    simp only [inorder_node] at hx
    exact avlUpdateStats_of_ne (by grind)
  have hf := hrep.fork
  simp only [avlFixNode, h.parent, hf.left, hf.right, hf.repLeft.height_eq, hf.repRight.height_eq]
  have hcond : UInt32.ofNat l.height = UInt32.ofNat r.height + 2 ↔ l.height = r.height + 2 := by
    rw [← ofNat_inj (a := l.height) (by omega) (by omega), UInt32.ofNat_add]
    rfl
  have hcond' : UInt32.ofNat l.height + 2 = UInt32.ofNat r.height ↔ l.height + 2 = r.height := by
    rw [← ofNat_inj (b := r.height) (by omega) (by omega), UInt32.ofNat_add]
    rfl
  simp only [hcond, hcond', rebalance]
  split
  · obtain ⟨root, m₁, hrun, ht⟩ := hf.fixLeft_turned hnd (by omega) (by omega)
    exact ⟨root, m₁, by simp [hrun], ht.after hframe fun _ => id⟩
  · split
    · obtain ⟨root, m₁, hrun, ht⟩ := hf.fixRight_turned hnd (by omega) (by omega)
      exact ⟨root, m₁, by simp [hrun], ht.after hframe fun _ => id⟩
    · refine ⟨p, avlUpdateStats m p, ?_, hrep, rfl, hframe⟩
      -- Without a rotation the link already holds `p`.
      cases hparent : parent with
      | none => rfl
      | some a =>
        have ha := hframe a (hpar a hparent)
        by_cases hleft : (m a).left = some p
        · simp [childLink, if_pos hleft, AVLLink.store, setLeft_eq_self (ha ▸ hleft)]
        · have hright := (hlink a hparent).resolve_left hleft
          simp [childLink, if_neg hleft, AVLLink.store, setRight_eq_self (ha ▸ hright)]

end

end MiniRedis
