import Mathlib.Data.List.TakeWhile
import MiniRedis.Verify.AvlHistory

/-! # The insertion and deletion helpers

`avl_search_and_insert` and `avl_search_and_delete` on one root pointer. The first does not store what
`avl_fix_tree` returns, so the pointer stays at the old root when an insertion rotates the root away. -/

namespace MiniRedis

open BinaryTree

section
variable {ν κ : Type} {less : ν → ν → Bool} {cmp : ν → κ → Int32}

/-- `less` is a strict weak order, and `cmp` compares nodes with keys that have a place in it. -/
structure SearchOrder (less : ν → ν → Bool) (cmp : ν → κ → Int32) : Prop where
  irrefl : ∀ a, ¬ less a a
  trans : ∀ {a b c}, less a b → less b c → less a c
  incomp : ∀ {a b c}, ¬ less a b → ¬ less b c → ¬ less a c
  below : ∀ {a b k}, ¬ less b a → cmp b k < 0 → cmp a k < 0
  above : ∀ {a b k}, ¬ less b a → cmp a k > 0 → cmp b k > 0

/-- Exact parent and child links and heights; the counters are exact up to their width. -/
def Linked (m : AVLMem ν) : Option ν → BinaryTree ν → Prop
  | _, .nil => True
  | parent, .node p l r =>
    (m p).parent = parent ∧ (m p).left = l.root? ∧ (m p).right = r.root? ∧
    (m p).height.toNat = max l.height r.height + 1 ∧
    (m p).cnt = .ofNat (l.numNodes + r.numNodes + 1) ∧ Linked m (some p) l ∧ Linked m (some p) r

/-- The root pointer leads to a valid AVL tree with the shape `t` that is sorted by `less`. -/
structure AVLTree.Sorted (s : AVLTree ν) (less : ν → ν → Bool) (t : BinaryTree ν) : Prop where
  root : s.root = t.root?
  linked : Linked s.mem none t
  balanced : t.Balanced
  nodup : t.inorder.Nodup
  sorted : t.inorder.Pairwise fun a b => ¬ less b a

/-- A call of one of the helpers. -/
inductive SearchOp (ν κ : Type) where
  | insert (newNode : ν)
  | delete (key : κ)

/-- The root pointer and the memory, with the nodes that were inserted and not yet deleted. -/
structure SearchState (ν : Type) extends AVLTree ν where
  nodes : List ν

/-- The calls; a node goes through `avl_init` before it is inserted. -/
def SearchOp.apply [DecidableEq ν] (less : ν → ν → Bool) (cmp : ν → κ → Int32)
    (s : SearchState ν) : SearchOp ν κ → Result (SearchState ν)
  | .insert newNode => do
    let (root, mem) ← avlSearchAndInsert (avlInit s.mem newNode) s.root newNode less
    return { mem, root, nodes := newNode :: s.nodes }
  | .delete key => do
    let (found, root, mem) ← avlSearchAndDelete s.mem s.root key cmp
    return { mem, root, nodes := found.elim s.nodes s.nodes.erase }

/-- A new node is not in use, and there is room for it. -/
def SearchOp.Fresh (s : SearchState ν) : SearchOp ν κ → Prop
  | .insert newNode => newNode ∉ s.nodes ∧ s.nodes.length < addressSpace
  | .delete _ => True

/-- The call does not rotate the root of a tree that it inserts into. -/
def SearchOp.KeepsRoot (less : ν → ν → Bool) (s : SearchState ν) : SearchOp ν κ → Prop
  | .insert newNode => ∀ t, s.Sorted less t → ¬ RotatesRoot (less newNode) t
  | .delete _ => True

/-- The root pointer leads to a sorted AVL tree of the nodes in use, and `avl_search_and_delete` returns
one of them that compares equal to its key, or nothing if none does. -/
structure SearchState.Good [DecidableEq ν] (less : ν → ν → Bool) (cmp : ν → κ → Int32)
    (s : SearchState ν) : Prop where
  tree : ∃ t, s.Sorted less t ∧ t.inorder.Perm s.nodes
  finds : ∀ key, ∃ found root mem, avlSearchAndDelete s.mem s.root key cmp = .ok (found, root, mem) ∧
    (∀ n, found = some n → n ∈ s.nodes ∧ cmp n key = 0) ∧
    (found = none → ∀ n ∈ s.nodes, cmp n key ≠ 0)

/-! ## The order -/

theorem SearchOrder.asymm (h : SearchOrder less cmp) {a b : ν} (hab : less a b) : ¬ less b a :=
  fun hba => h.irrefl a (h.trans hab hba)

/-- The nodes that a new node goes to the left of come last. -/
theorem SearchOrder.splits (h : SearchOrder less cmp) {xs : List ν} (p : ν)
    (hsorted : xs.Pairwise fun a b => ¬ less b a) :
    xs.Pairwise fun a b => less p a → less p b :=
  hsorted.imp fun {a b} hab hpa => by
    by_contra hpb
    exact h.incomp hpb hab hpa

theorem SearchOrder.sorted_insertLeaf (h : SearchOrder less cmp) {t : BinaryTree ν} (p : ν)
    (hsorted : t.inorder.Pairwise fun a b => ¬ less b a) :
    (insertLeaf (less p) p t).inorder.Pairwise fun a b => ¬ less b a := by
  have hsplits := h.splits p hsorted
  obtain ⟨hbefore, hafter⟩ := descend_split hsplits []
  have hinorder : (insertLeaf (less p) p t).inorder =
      t.inorder.takeWhile (!less p ·) ++ p :: t.inorder.dropWhile (!less p ·) := by
    have hrebuild := inorder_rebuild (node p nil nil) (descend (less p) t [])
    rw [rebuild_descend, hbefore, hafter] at hrebuild
    simpa [before, after, rebuild] using hrebuild
  have hold := List.takeWhile_append_dropWhile (p := (!less p ·)) (l := t.inorder)
  rw [← hold, List.pairwise_append] at hsorted
  obtain ⟨hfirst, hlast, hbetween⟩ := hsorted
  have hleft : ∀ a ∈ t.inorder.takeWhile (!less p ·), ¬ less p a := fun a ha => by
    simpa using List.mem_takeWhile_imp ha
  have hright := forall_mem_dropWhile hsplits
  rw [hinorder, List.pairwise_append]
  refine ⟨hfirst, List.pairwise_cons.mpr ⟨fun b hb => h.asymm (hright b hb), hlast⟩, ?_⟩
  intro a ha b hb
  rcases List.mem_cons.mp hb with rfl | hb
  · exact hleft a ha
  · exact hbetween a ha b hb

/-! ## The calls -/

theorem Rep.linked {m : AVLMem ν} {parent : Option ν} {t : BinaryTree ν} (h : Rep m parent t)
    (hb : t.Balanced) (hn : t.numNodes ≤ addressSpace) : Linked m parent t := by
  induction t generalizing parent with
  | nil => trivial
  | node p l r ihl ihr =>
    obtain ⟨hp, hl, hr⟩ := h
    have hh := height_lt_of_balanced hb hn
    simp only [numNodes, height] at hn hh
    refine ⟨by rw [hp, cell], by rw [hp, cell], by rw [hp, cell], ?_, by rw [hp, cell],
      ihl hl hb.1 (by omega), ihr hr hb.2.1 (by omega)⟩
    rw [hp, cell, UInt32.toNat_ofNat_of_lt' (by simp only [UInt32.size]; omega)]

theorem IsTree.sorted {s : AVLTree ν} {t : BinaryTree ν} (h : IsTree s.mem s.root t)
    (hsorted : t.inorder.Pairwise fun a b => ¬ less b a) : s.Sorted less t :=
  ⟨h.root, h.rep.linked h.balanced h.numNodes_le, h.balanced, h.nodup, hsorted⟩

/-- The search meets a node that compares equal to the key if there is one. -/
theorem searchNode_found (h : SearchOrder less cmp) {m : AVLMem ν} {parent : Option ν}
    {t : BinaryTree ν} {fuel : Nat} (key : κ) (ht : Rep m parent t)
    (hsorted : t.inorder.Pairwise fun a b => ¬ less b a) (hfuel : t.height < fuel) :
    ∃ found, searchNode m key cmp fuel t.root? = .ok found ∧
      (∀ n, found = some n → n ∈ t.inorder ∧ cmp n key = 0) ∧
      (found = none → ∀ n ∈ t.inorder, cmp n key ≠ 0) := by
  induction t generalizing parent fuel with
  | nil =>
    obtain ⟨fuel, rfl⟩ := Nat.exists_eq_add_of_lt hfuel
    exact ⟨none, rfl, by simp, by simp⟩
  | node p l r ihl ihr =>
    obtain ⟨fuel, rfl⟩ : ∃ n, fuel = n + 1 := ⟨fuel - 1, by omega⟩
    obtain ⟨hp, hl, hr⟩ := ht
    rw [inorder_node, List.pairwise_append, List.pairwise_cons] at hsorted
    obtain ⟨hsl, ⟨hpr, hsr⟩, hlr⟩ := hsorted
    simp only [height] at hfuel
    have hleft : (m p).left = l.root? := by rw [hp, cell]
    have hright : (m p).right = r.root? := by rw [hp, cell]
    simp only [searchNode, root?_node, hleft, hright, inorder_node]
    split
    · next hlt =>
      obtain ⟨found, hrun, hsome, hnone⟩ := ihr hr hsr (show r.height < fuel by omega)
      refine ⟨found, hrun, fun n hn => ?_, fun hf n hn heq => ?_⟩
      · obtain ⟨hmem, hzero⟩ := hsome n hn
        exact ⟨by simp [hmem], hzero⟩
      · rcases List.mem_append.mp hn with hn | hn
        · have hneg := h.below (hlr n hn p List.mem_cons_self) hlt
          rw [heq] at hneg
          exact absurd hneg (by decide)
        · rcases List.mem_cons.mp hn with rfl | hn
          · rw [heq] at hlt
            exact absurd hlt (by decide)
          · exact hnone hf n hn heq
    · split
      · next hgt =>
        obtain ⟨found, hrun, hsome, hnone⟩ := ihl hl hsl (show l.height < fuel by omega)
        refine ⟨found, hrun, fun n hn => ?_, fun hf n hn heq => ?_⟩
        · obtain ⟨hmem, hzero⟩ := hsome n hn
          exact ⟨by simp [hmem], hzero⟩
        · rcases List.mem_append.mp hn with hn | hn
          · exact hnone hf n hn heq
          · rcases List.mem_cons.mp hn with rfl | hn
            · rw [heq] at hgt
              exact absurd hgt (by decide)
            · have hpos := h.above (hpr n hn) hgt
              rw [heq] at hpos
              exact absurd hpos (by decide)
      · next hlt hgt =>
        refine ⟨some p, rfl, ?_, by simp⟩
        rintro _ ⟨⟩
        refine ⟨by simp, ?_⟩
        rw [Int32.not_lt] at hlt
        exact Int32.le_antisymm (Int32.not_lt.mp hgt) hlt

section
variable [DecidableEq ν]

omit [DecidableEq ν] in
theorem pathLink_descend_eq_var {goLeft : ν → Bool} {t : BinaryTree ν} (path : List (Crumb ν)) :
    pathLink (descend goLeft t path) = .var ↔ t = nil ∧ pathLink path = .var := by
  induction t generalizing path with
  | nil => simp [descend]
  | node a l r ihl ihr =>
    rw [descend]
    split
    · rw [ihl]
      simp [pathLink]
    · rw [ihr]
      simp [pathLink]

/-- The root pointer is set when the tree was empty, and otherwise left alone. -/
theorem IsTree.searchAndInsert {m : AVLMem ν} {root : Option ν} {t : BinaryTree ν} {p : ν}
    (h : IsTree m root t) (hp : p ∉ t.inorder) (hfresh : m p = { height := 1, cnt := 1 })
    (hlen : t.numNodes < addressSpace) (less : ν → ν → Bool) :
    ∃ m', avlSearchAndInsert m root p less = .ok (some (root.getD p), m') ∧
      IsTree m' (insertLeaf (less p) p t).root? (insertLeaf (less p) p t) := by
  have hsearch : searchPlace m (less p) addressSpace none .var root =
      .ok (pathParent (descend (less p) t []), pathLink (descend (less p) t [])) := by
    rw [h.root]
    exact searchPlace_eq [] h.rep h.height_lt
  obtain ⟨root', m', hrun, ht, -⟩ := h.attach hp hfresh hlen (less p)
  rw [rebuild_descend] at ht
  simp only [avlAttach, hsearch, ok_bind] at hrun
  refine ⟨m', ?_, ht.rep, rfl, ht.balanced, ht.nodup, ht.numNodes_le⟩
  simp only [avlSearchAndInsert, hsearch, ok_bind, hrun, pure, Except.pure, pathLink_descend_eq_var]
  cases t with
  | nil => simp [h.root, pathLink]
  | node a l r => simp [h.root]

/-- Deletion finds a node that compares equal to the key if there is one, and takes it out. -/
theorem IsTree.searchAndDelete (horder : SearchOrder less cmp) {m : AVLMem ν} {root : Option ν}
    {t : BinaryTree ν} (h : IsTree m root t) (hsorted : t.inorder.Pairwise fun a b => ¬ less b a)
    (key : κ) :
    ∃ found root' m' t', avlSearchAndDelete m root key cmp = .ok (found, root', m') ∧
      (∀ n, found = some n → n ∈ t.inorder ∧ cmp n key = 0 ∧ t'.inorder = t.inorder.erase n) ∧
      (found = none → (∀ n ∈ t.inorder, cmp n key ≠ 0) ∧ t'.inorder = t.inorder) ∧
      IsTree m' root' t' := by
  obtain ⟨found, hrun, hsome, hnone⟩ := searchNode_found horder key h.rep hsorted h.height_lt
  rw [← h.root] at hrun
  cases found with
  | none =>
    exact ⟨none, root, m, t, by simp [avlSearchAndDelete, hrun, ok_bind, pure, Except.pure], by simp,
      fun _ => ⟨hnone rfl, rfl⟩, h⟩
  | some n =>
    obtain ⟨hmem, hzero⟩ := hsome n rfl
    obtain ⟨root', m', t', hdel, ht', hinorder, -⟩ := h.delete hmem
    refine ⟨some n, root', m', t', ?_, ?_, by simp, ht'⟩
    · simp [avlSearchAndDelete, hrun, hdel, ok_bind, pure, Except.pure]
    · rintro _ ⟨⟩
      exact ⟨hmem, hzero, hinorder⟩

/-! ## Runs -/

omit [DecidableEq ν] in
theorem Linked.unique {m : AVLMem ν} {parent : Option ν} {t t' : BinaryTree ν} (h : Linked m parent t)
    (h' : Linked m parent t') (hroot : t.root? = t'.root?) : t = t' := by
  induction t generalizing parent t' with
  | nil =>
    cases t' with
    | nil => rfl
    | node => cases hroot
  | node p l r ihl ihr =>
    cases t' with
    | nil => cases hroot
    | node p' l' r' =>
      cases hroot
      obtain ⟨-, hl, hr, -, -, hll, hlr⟩ := h
      obtain ⟨-, hl', hr', -, -, hll', hlr'⟩ := h'
      rw [ihl hll hll' (hl.symm.trans hl'), ihr hlr hlr' (hr.symm.trans hr')]

omit [DecidableEq ν] in
/-- Only the root has no parent. -/
theorem Rep.root_of_parent {m : AVLMem ν} {t : BinaryTree ν} (h : Rep m none t) {p : ν}
    (hp : p ∈ t.inorder) (hparent : (m p).parent = none) : t.root? = some p := by
  obtain ⟨l, r, path, rfl⟩ := exists_plug_of_mem hp
  obtain ⟨hrep, -⟩ := rep_plug.mp h
  rw [hrep.1, cell] at hparent
  cases path with
  | nil => rfl
  | cons => cases hparent

/-- What the calls keep: the nodes in use form a sorted tree. -/
def SearchState.Holds (less : ν → ν → Bool) (s : SearchState ν) : Prop :=
  ∃ t, IsTree s.mem s.root t ∧ (t.inorder.Pairwise fun a b => ¬ less b a) ∧ t.inorder.Perm s.nodes

theorem SearchState.Holds.good (horder : SearchOrder less cmp) {s : SearchState ν}
    (h : s.Holds less) : s.Good less cmp := by
  obtain ⟨t, ht, hsorted, hperm⟩ := h
  refine ⟨⟨t, ht.sorted hsorted, hperm⟩, fun key => ?_⟩
  obtain ⟨found, root', m', t', hrun, hsome, hnone, -⟩ := ht.searchAndDelete horder hsorted key
  refine ⟨found, root', m', hrun, fun n hn => ?_, fun hf n hn => ?_⟩
  · obtain ⟨hmem, hzero, -⟩ := hsome n hn
    exact ⟨hperm.mem_iff.mp hmem, hzero⟩
  · exact (hnone hf).1 n (hperm.mem_iff.mpr hn)

/-- An insertion returns; the root pointer changes only when the tree was empty. -/
theorem SearchState.Holds.insert (less : ν → ν → Bool) (cmp : ν → κ → Int32) {s : SearchState ν}
    {t : BinaryTree ν} {p : ν} (ht : IsTree s.mem s.root t) (hperm : t.inorder.Perm s.nodes)
    (hfresh : (SearchOp.insert (κ := κ) p).Fresh s) :
    ∃ m', (SearchOp.insert p).apply less cmp s =
        .ok { mem := m', root := some (s.root.getD p), nodes := p :: s.nodes } ∧
      IsTree m' (insertLeaf (less p) p t).root? (insertLeaf (less p) p t) := by
  obtain ⟨hnew, hlen⟩ := hfresh
  have hp : p ∉ t.inorder := fun hmem => hnew (hperm.mem_iff.mp hmem)
  obtain ⟨m', hrun, ht'⟩ := (ht.init hp).searchAndInsert hp (AVLMem.store_self ..)
    (by rwa [← length_inorder, hperm.length_eq]) less
  exact ⟨m', by simp [SearchOp.apply, hrun, ok_bind, pure, Except.pure], ht'⟩

theorem SearchState.Holds.step (horder : SearchOrder less cmp) {s : SearchState ν}
    (h : s.Holds less) {op : SearchOp ν κ} (hfresh : op.Fresh s) (hroot : op.KeepsRoot less s) :
    ∃ s', op.apply less cmp s = .ok s' ∧ s'.Holds less := by
  obtain ⟨t, ht, hsorted, hperm⟩ := h
  cases op with
  | insert p =>
    obtain ⟨m', hrun, ht'⟩ := SearchState.Holds.insert less cmp ht hperm hfresh
    refine ⟨_, hrun, insertLeaf (less p) p t, ?_, horder.sorted_insertLeaf p hsorted,
      (inorder_insertLeaf_perm ..).trans (hperm.cons p)⟩
    have heq : some (s.root.getD p) = (insertLeaf (less p) p t).root? := by
      cases t with
      | nil => simp [ht.root, insertLeaf]
      | node a l r =>
        rw [root?_insertLeaf ht.balanced (by simp) (hroot _ (ht.sorted hsorted)), ht.root]
        rfl
    rw [heq]
    exact ht'
  | delete key =>
    obtain ⟨found, root', m', t', hrun, hsome, hnone, ht'⟩ := ht.searchAndDelete horder hsorted key
    refine ⟨{ mem := m', root := root', nodes := found.elim s.nodes s.nodes.erase },
      by simp only [SearchOp.apply, hrun, ok_bind, pure, Except.pure], t', ht', ?_⟩
    cases found with
    | none =>
      rw [(hnone rfl).2]
      exact ⟨hsorted, hperm⟩
    | some n =>
      rw [(hsome n rfl).2.2]
      exact ⟨hsorted.sublist List.erase_sublist, hperm.erase n⟩

/-- After an insertion that rotates the root, the root pointer is at a node with a parent. -/
theorem SearchState.Holds.keepsRoot {s s' : SearchState ν} (h : s.Holds less) {op : SearchOp ν κ}
    (hfresh : op.Fresh s) (hrun : op.apply less cmp s = .ok s') (hgood : s'.Good less cmp) :
    op.KeepsRoot less s := by
  obtain ⟨t, ht, hsorted, hperm⟩ := h
  cases op with
  | delete key => trivial
  | insert p =>
    intro t₁ ht₁ hrot
    obtain rfl : t₁ = t :=
      ht₁.linked.unique (ht.sorted hsorted).linked (ht₁.root.symm.trans ht.root)
    obtain ⟨m', hrun', ht'⟩ := SearchState.Holds.insert less cmp ht hperm hfresh
    cases hrun.symm.trans hrun'
    have hp : p ∉ t₁.inorder := fun hmem => hfresh.1 (hperm.mem_iff.mp hmem)
    have hne := root?_insertLeaf_ne ht.balanced ht.nodup hp hrot
    cases t₁ with
    | nil => cases hrot
    | node a l r =>
      obtain ⟨t₂, ht₂, -⟩ := hgood.tree
      have hroot : t₂.root? = some a := by rw [← ht₂.root, ht.root]; rfl
      have hparent : (m' a).parent = none := by
        cases t₂ with
        | nil => cases hroot
        | node b l₂ r₂ =>
          cases hroot
          exact ht₂.linked.1
      have hmem : a ∈ (insertLeaf (less p) p (node a l r)).inorder :=
        (inorder_insertLeaf_perm ..).mem_iff.mpr (by simp)
      exact hne (ht'.rep.root_of_parent hmem hparent)

/-- **Insertion and deletion helpers.** The state is good after every call of a run exactly when no
insertion rotates the root. -/
theorem searchHelpers_good_iff (horder : SearchOrder less cmp) (mem : AVLMem ν)
    (ops : List (SearchOp ν κ))
    (hfresh : ∀ pre op s, pre ++ [op] <+: ops →
      runSteps (SearchOp.apply less cmp) { mem, root := none, nodes := [] } pre = .ok s → op.Fresh s) :
    (∀ pre, pre <+: ops → ∃ s,
      runSteps (SearchOp.apply less cmp) { mem, root := none, nodes := [] } pre = .ok s ∧
        s.Good less cmp) ↔
    ∀ pre op s, pre ++ [op] <+: ops →
      runSteps (SearchOp.apply less cmp) { mem, root := none, nodes := [] } pre = .ok s →
        op.KeepsRoot less s := by
  have hstart : SearchState.Holds less { mem, root := none, nodes := [] } :=
    ⟨nil, ⟨trivial, rfl, trivial, List.nodup_nil, Nat.zero_le _⟩, .nil, .nil⟩
  refine runSteps_always_iff hstart (fun s h => h.good horder) ?_ ?_
  · intro pre op s₁ hpre hrun h₁ hroot
    exact h₁.step horder (hfresh pre op s₁ hpre hrun) hroot
  · intro pre op s₁ s₂ hpre hrun h₁ ha hgood
    exact h₁.keepsRoot (hfresh pre op s₁ hpre hrun) ha hgood

theorem SearchOp.nodes_inserts {ps : List ν} {s s' : SearchState ν}
    (hrun : runSteps (SearchOp.apply less cmp) s (ps.map .insert) = .ok s') :
    s'.nodes = ps.reverse ++ s.nodes := by
  induction ps generalizing s with
  | nil =>
    cases hrun
    rfl
  | cons p ps ih =>
    cases hp : (SearchOp.insert p).apply less cmp s with
    | error e =>
      rw [List.map_cons, runSteps_cons_error hp] at hrun
      cases hrun
    | ok s₁ =>
      rw [List.map_cons, runSteps_cons_ok hp] at hrun
      obtain ⟨⟨root, mem⟩, -, hret⟩ := bind_eq_ok.mp hp
      cases hret
      rw [ih hrun, List.reverse_cons, List.append_assoc, List.singleton_append]

/-- In a run of insertions of different nodes every node is fresh. -/
theorem SearchOp.fresh_inserts {ps : List ν} (hnd : ps.Nodup) (hlen : ps.length ≤ addressSpace)
    (mem : AVLMem ν) (pre : List (SearchOp ν κ)) (op : SearchOp ν κ) (s : SearchState ν)
    (hpre : pre ++ [op] <+: ps.map .insert)
    (hrun : runSteps (SearchOp.apply less cmp) { mem, root := none, nodes := [] } pre = .ok s) :
    op.Fresh s := by
  obtain ⟨qs, hqs, heq⟩ := List.prefix_map_iff.mp hpre
  obtain ⟨qs, last, rfl, rfl, hlast⟩ := List.append_eq_map_iff.mp heq
  obtain ⟨p, rfl, rfl⟩ := List.map_eq_singleton_iff.mp hlast
  have hnodes := SearchOp.nodes_inserts hrun
  rw [List.append_nil] at hnodes
  have hnd' := hnd.sublist hqs.sublist
  have hlen' := hqs.length_le
  rw [List.length_append, List.length_singleton] at hlen'
  refine ⟨?_, by rw [hnodes, List.length_reverse]; omega⟩
  rw [hnodes, List.mem_reverse]
  exact fun hmem => (List.nodup_append.mp hnd').2.2 p hmem p (by simp) rfl

end

end

/-- Numbers as nodes and as keys. -/
def compareNat (node key : Nat) : Int32 :=
  if node < key then -1 else if key < node then 1 else 0

theorem searchOrder_nat : SearchOrder (fun a b : Nat => decide (a < b)) compareNat where
  irrefl a := by simp
  trans := by simp; omega
  incomp := by simp; omega
  below := by
    intro a b k hab hneg
    have hb : b < k := by
      simp only [compareNat] at hneg
      split at hneg
      · assumption
      · split at hneg <;> exact absurd hneg (by decide)
    have ha : a < k := by simp at hab; omega
    rw [compareNat, if_pos ha]
    decide
  above := by
    intro a b k hab hpos
    have ha : k < a := by
      simp only [compareNat] at hpos
      split at hpos
      · exact absurd hpos (by decide)
      · split at hpos
        · assumption
        · exact absurd hpos (by decide)
    have hb : k < b := by simp at hab; omega
    rw [compareNat, if_neg (by omega), if_pos hb]
    decide

/-- Insert `1`, `2` and `3` in order: the third insertion makes `2` the root, and the root pointer
stays at `1`. -/
theorem insert_rotation :
    ∃ s, runSteps (SearchOp.apply (fun a b : Nat => decide (a < b)) compareNat)
        { mem := fun _ => {}, root := none, nodes := [] } ([1, 2, 3].map .insert) = .ok s ∧
      s.root = some 1 ∧ (s.mem 1).parent = some 2 ∧ s.nodes = [3, 2, 1] ∧
      ¬ s.Good (fun a b : Nat => decide (a < b)) compareNat := by
  have heval : (runSteps (SearchOp.apply (fun a b : Nat => decide (a < b)) compareNat)
      { mem := fun _ => {}, root := none, nodes := [] } ([1, 2, 3].map .insert)).toOption.map
      (fun s => (s.root, (s.mem 1).parent, s.nodes)) = some (some 1, some 2, [3, 2, 1]) := by
    decide
  obtain ⟨s, hrun, hs⟩ := exists_ok_of_toOption_map heval
  simp only [Prod.mk.injEq] at hs
  obtain ⟨hroot, hparent, hnodes⟩ := hs
  refine ⟨s, hrun, hroot, hparent, hnodes, fun hgood => ?_⟩
  obtain ⟨t, ht, -⟩ := hgood.tree
  have htroot := hroot.symm.trans ht.root
  cases t with
  | nil => cases htroot
  | node a l r =>
    cases htroot
    exact absurd (hparent.symm.trans ht.linked.1) (by simp)

/-- A tree with one node at most does not rotate. -/
theorem SearchOp.keepsRoot_of_leaf {less : Nat → Nat → Bool} {s : SearchState Nat} {p : Nat}
    (hleaf : ∀ q, s.root = some q → (s.mem q).left = none ∧ (s.mem q).right = none) :
    (SearchOp.insert p : SearchOp Nat Nat).KeepsRoot less s := by
  intro t ht hrot
  cases t with
  | nil => cases hrot
  | node q l r =>
    obtain ⟨-, hl, hr, -⟩ := ht.linked
    obtain ⟨hleft, hright⟩ := hleaf q ht.root
    obtain rfl : l = nil := root?_eq_none.mp (hl.symm.trans hleft)
    obtain rfl : r = nil := root?_eq_none.mp (hr.symm.trans hright)
    rw [RotatesRoot] at hrot
    split at hrot
    · exact absurd hrot.1 (by simp)
    · exact absurd hrot.1 (by simp)

/-- `2` and `1` are found after every insertion; `1`, `2` and `3` rotate the root. -/
theorem searchHelpers_good_iff_pair :
    SearchOrder (fun a b : Nat => decide (a < b)) compareNat ∧
    (∀ pre, pre <+: [2, 1].map SearchOp.insert → ∃ s,
      runSteps (SearchOp.apply (fun a b : Nat => decide (a < b)) compareNat)
        { mem := fun _ => {}, root := none, nodes := [] } pre = .ok s ∧
        s.Good (fun a b : Nat => decide (a < b)) compareNat) ∧
    ¬ ∀ pre op s, pre ++ [op] <+: [1, 2, 3].map SearchOp.insert →
      runSteps (SearchOp.apply (fun a b : Nat => decide (a < b)) compareNat)
        { mem := fun _ => {}, root := none, nodes := [] } pre = .ok s →
        op.KeepsRoot (fun a b : Nat => decide (a < b)) s := by
  refine ⟨searchOrder_nat, (searchHelpers_good_iff searchOrder_nat (fun _ => {}) ([2, 1].map .insert)
    (SearchOp.fresh_inserts (by decide) (by decide) _)).mpr ?_, fun hroot => ?_⟩
  · intro pre op s hpre hrun
    rcases pre with _ | ⟨first, _ | ⟨second, pre⟩⟩
    · obtain ⟨rfl, -⟩ := List.cons_prefix_cons.mp hpre
      cases hrun
      exact SearchOp.keepsRoot_of_leaf nofun
    · obtain ⟨rfl, htail⟩ := List.cons_prefix_cons.mp hpre
      obtain ⟨rfl, -⟩ := List.cons_prefix_cons.mp htail
      cases hrun
      refine SearchOp.keepsRoot_of_leaf ?_
      rintro q ⟨⟩
      exact ⟨rfl, rfl⟩
    · have hlen := hpre.length_le
      simp at hlen
  · obtain ⟨s, hrun, hgood⟩ := (searchHelpers_good_iff searchOrder_nat (fun _ => {}) ([1, 2, 3].map .insert)
      (SearchOp.fresh_inserts (by decide) (by decide) _)).mpr hroot _ List.prefix_rfl
    obtain ⟨s', hrun', -, -, -, hbad⟩ := insert_rotation
    cases hrun.symm.trans hrun'
    exact hbad hgood

/-- Insertions of fresh nodes in an order as it has to be, and a root pointer at a node with a parent. -/
theorem insert_rotation_loses_root :
    SearchOrder (fun a b : Nat => decide (a < b)) compareNat ∧
    (∀ pre op s, pre ++ [op] <+: [1, 2, 3].map SearchOp.insert →
      runSteps (SearchOp.apply (fun a b : Nat => decide (a < b)) compareNat)
        { mem := fun _ => {}, root := none, nodes := [] } pre = .ok s → op.Fresh s) ∧
    ∃ s, runSteps (SearchOp.apply (fun a b : Nat => decide (a < b)) compareNat)
        { mem := fun _ => {}, root := none, nodes := [] } ([1, 2, 3].map .insert) = .ok s ∧
      s.root = some 1 ∧ (s.mem 1).parent = some 2 ∧ s.nodes = [3, 2, 1] ∧
      ¬ s.Good (fun a b : Nat => decide (a < b)) compareNat :=
  ⟨searchOrder_nat, SearchOp.fresh_inserts (by decide) (by decide) _, insert_rotation⟩

end MiniRedis
