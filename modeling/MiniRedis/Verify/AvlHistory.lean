import MiniRedis.Theory.Run
import MiniRedis.Verify.AvlTree

/-! # Histories of the AVL tree

Runs of insertions and deletions on one root pointer, starting from the empty tree. -/

namespace MiniRedis

open BinaryTree

section
variable {ν : Type} [DecidableEq ν]

/-- The root pointer and the memory that the nodes live in. -/
structure AVLTree (ν : Type) where
  mem : AVLMem ν
  root : Option ν

/-- A call that changes the tree. `goLeft` is the comparison of `tree_insert`: whether the new node
belongs to the left of a node that the search meets. -/
inductive TreeOp (ν : Type) where
  | insert (p : ν) (goLeft : ν → Bool)
  | delete (p : ν)

/-- `avl_init` and `tree_insert`, or `root = avl_delete(node)`. -/
def TreeOp.apply (s : AVLTree ν) : TreeOp ν → Result (AVLTree ν)
  | .insert p goLeft => do
    let (root, mem) ← avlAttach (avlInit s.mem p) s.root p goLeft
    return { mem, root := some root }
  | .delete p => do
    let (root, mem) ← avlDelete s.mem p
    return { mem, root }

/-- The nodes in the tree after a call. -/
def TreeOp.present (nodes : List ν) : TreeOp ν → List ν
  | .insert p _ => p :: nodes
  | .delete p => nodes.erase p

/-- New nodes are inserted and present ones deleted, and there are fewer than `2 ^ 32` nodes. -/
def TreeOp.Allowed (nodes : List ν) : TreeOp ν → Prop
  | .insert p _ => p ∉ nodes ∧ nodes.length + 1 < 2 ^ 32
  | .delete p => p ∈ nodes

instance (nodes : List ν) (op : TreeOp ν) : Decidable (op.Allowed nodes) :=
  match op with
  | .insert p _ => inferInstanceAs (Decidable (p ∉ nodes ∧ nodes.length + 1 < 2 ^ 32))
  | .delete p => inferInstanceAs (Decidable (p ∈ nodes))

def TreeOp.AllAllowed : List ν → List (TreeOp ν) → Prop
  | _, [] => True
  | nodes, op :: ops => op.Allowed nodes ∧ AllAllowed (op.present nodes) ops

/-- Exact parent and child links, heights and counters. -/
def Exact (m : AVLMem ν) : Option ν → BinaryTree ν → Prop
  | _, .nil => True
  | parent, .node p l r =>
    (m p).parent = parent ∧ (m p).left = l.root? ∧ (m p).right = r.root? ∧
    (m p).height.toNat = max l.height r.height + 1 ∧
    (m p).cnt.toNat = l.numNodes + r.numNodes + 1 ∧
    Exact m (some p) l ∧ Exact m (some p) r

/-- The root pointer leads to a valid AVL tree with the shape `t`. -/
structure AVLTree.Valid (s : AVLTree ν) (t : BinaryTree ν) : Prop where
  root : s.root = t.root?
  exact : Exact s.mem none t
  balanced : t.Balanced
  nodup : t.inorder.Nodup

/-- `ys` is `xs` with `p` at an empty place: next to the node whose child link it is. -/
def InsertedAt (p : ν) (xs ys : List ν) : AVLLink ν → Prop
  | .var => xs = [] ∧ ys = [p]
  | .left a => ∃ as bs, xs = as ++ a :: bs ∧ ys = as ++ p :: a :: bs
  | .right a => ∃ as bs, xs = as ++ a :: bs ∧ ys = as ++ a :: p :: bs

/-- What a call does to the in-order sequence: a new node is put where the search ends, which is
between the nodes before and after it if the comparison agrees with the order; a deleted node is
taken out. -/
def TreeOp.Effect (s : AVLTree ν) (xs ys : List ν) : TreeOp ν → Prop
  | .insert p goLeft =>
    (∃ parent link, searchPlace (avlInit s.mem p) goLeft addressSpace none .var s.root =
      .ok (parent, link) ∧ InsertedAt p xs ys link) ∧
    (xs.Pairwise (fun a b => goLeft a → goLeft b) →
      ys = xs.takeWhile (!goLeft ·) ++ p :: xs.dropWhile (!goLeft ·))
  | .delete p => ys = xs.erase p

omit [DecidableEq ν] in
theorem Rep.exact {m : AVLMem ν} {parent : Option ν} {t : BinaryTree ν} (h : Rep m parent t)
    (hb : t.Balanced) (hn : t.numNodes < 2 ^ 32) : Exact m parent t := by
  induction t generalizing parent with
  | nil => trivial
  | node p l r ihl ihr =>
    obtain ⟨hp, hl, hr⟩ := h
    have hh := height_lt_of_balanced hb (by simp only [addressSpace]; omega)
    simp only [numNodes, height] at hn hh
    refine ⟨by rw [hp, cell], by rw [hp, cell], by rw [hp, cell], ?_, ?_, ihl hl hb.1 (by omega),
      ihr hr hb.2.1 (by omega)⟩
    · rw [hp, cell, UInt32.toNat_ofNat_of_lt' (by simp only [UInt32.size]; omega)]
    · rw [hp, cell, UInt32.toNat_ofNat_of_lt' (by omega)]

omit [DecidableEq ν] in
theorem IsTree.valid {s : AVLTree ν} {t : BinaryTree ν} (h : IsTree s.mem s.root t)
    (hn : t.numNodes < 2 ^ 32) : s.Valid t :=
  ⟨h.root, h.rep.exact h.balanced hn, h.balanced, h.nodup⟩

omit [DecidableEq ν] in
theorem insertedAt_descend (p : ν) (path : List (Crumb ν)) :
    InsertedAt p (before path ++ after path) (before path ++ p :: after path)
      (pathLink path) := by
  match path with
  | [] => exact ⟨rfl, rfl⟩
  | .left a r :: path =>
    refine ⟨before path, r.inorder ++ after path, ?_, ?_⟩ <;>
      simp [before, after, Crumb.before, Crumb.after]
  | .right a l :: path =>
    refine ⟨before path ++ l.inorder, after path, ?_, ?_⟩ <;>
      simp [before, after, Crumb.before, Crumb.after]

/-- One call. -/
theorem IsTree.step {s : AVLTree ν} {t : BinaryTree ν} {nodes : List ν}
    (h : IsTree s.mem s.root t) (hperm : t.inorder.Perm nodes) {op : TreeOp ν}
    (hop : op.Allowed nodes) :
    ∃ s' t', op.apply s = .ok s' ∧ IsTree s'.mem s'.root t' ∧
      t'.inorder.Perm (op.present nodes) ∧ op.Effect s t.inorder t'.inorder := by
  cases op with
  | insert p goLeft =>
    obtain ⟨hnew, hlen⟩ := hop
    have hp' : p ∉ t.inorder := fun hmem => hnew (hperm.mem_iff.mp hmem)
    have hnum : t.numNodes < addressSpace := by
      rw [← length_inorder, hperm.length_eq]
      simp only [addressSpace]
      omega
    have hinit := h.init hp'
    obtain ⟨root', m', hrun, ht, -⟩ := hinit.attach hp' (AVLMem.store_self ..) hnum goLeft
    have hold : t.inorder = before (descend goLeft t []) ++ after (descend goLeft t []) := by
      have := congrArg inorder (plug_descend goLeft t [])
      simpa [inorder_plug, plug] using this.symm
    have hin : ((node p nil nil).rebuild (descend goLeft t [])).inorder =
        before (descend goLeft t []) ++ p :: after (descend goLeft t []) := by
      simp [inorder_rebuild]
    refine ⟨⟨m', some root'⟩, _, by simp [TreeOp.apply, hrun], ht, ?_, ⟨?_, fun hsplit => ?_⟩⟩
    · rw [hin]
      exact List.perm_middle.trans ((hold ▸ hperm).cons p)
    · refine ⟨pathParent (descend goLeft t []), pathLink (descend goLeft t []), ?_, ?_⟩
      · rw [h.root]
        exact searchPlace_eq [] hinit.rep (by
          have := height_lt_of_balanced h.balanced h.numNodes_le
          simp only [addressSpace]
          omega)
      · rw [hin]
        nth_rewrite 1 [hold]
        exact insertedAt_descend p _
    · obtain ⟨hb, ha⟩ := descend_split hsplit []
      rw [hin, hb, ha]
      simp [before, after]
  | delete p =>
    obtain ⟨root', m', t', hrun, ht, hin, -⟩ := h.delete (hperm.mem_iff.mpr hop)
    refine ⟨⟨m', root'⟩, t', by simp [TreeOp.apply, hrun], ht, ?_, hin⟩
    rw [hin]
    exact hperm.erase p

theorem TreeOp.Allowed.length_lt {op : TreeOp ν} {nodes : List ν} (h : op.Allowed nodes)
    (hn : nodes.length < 2 ^ 32) : (op.present nodes).length < 2 ^ 32 := by
  cases op with
  | insert p goLeft => exact h.2
  | delete p => exact (List.erase_sublist.length_le).trans_lt hn

theorem IsTree.run {ops : List (TreeOp ν)} {s : AVLTree ν} {t : BinaryTree ν} {nodes : List ν}
    (h : IsTree s.mem s.root t) (hperm : t.inorder.Perm nodes) (hn : nodes.length < 2 ^ 32)
    (hops : TreeOp.AllAllowed nodes ops) :
    ∃ s' t', runSteps TreeOp.apply s ops = .ok s' ∧ IsTree s'.mem s'.root t' ∧
      t'.inorder.Perm (ops.foldl TreeOp.present nodes) ∧ t'.numNodes < 2 ^ 32 := by
  induction ops generalizing s t nodes with
  | nil => exact ⟨s, t, rfl, h, hperm, by rwa [← length_inorder, hperm.length_eq]⟩
  | cons op ops ih =>
    obtain ⟨hop, hops⟩ := hops
    obtain ⟨s₁, t₁, hrun, h₁, hperm₁, -⟩ := h.step hperm hop
    rw [runSteps_cons_ok hrun]
    exact ih h₁ hperm₁ (hop.length_lt hn) hops

/-- **Histories.** Every run of insertions of new nodes and deletions of present ones from the empty
tree leads to a valid AVL tree of the nodes that are present, and so does every further call, which
changes the in-order sequence only at the node it inserts or deletes. -/
theorem avlHistory_valid (m₀ : AVLMem ν) (ops : List (TreeOp ν)) (hops : TreeOp.AllAllowed [] ops) :
    ∃ s t, runSteps TreeOp.apply ⟨m₀, none⟩ ops = .ok s ∧ s.Valid t ∧
      t.inorder.Perm (ops.foldl TreeOp.present []) ∧
      ∀ op : TreeOp ν, op.Allowed (ops.foldl TreeOp.present []) →
        ∃ s' t', op.apply s = .ok s' ∧ s'.Valid t' ∧ op.Effect s t.inorder t'.inorder := by
  have hinit : IsTree (⟨m₀, none⟩ : AVLTree ν).mem (⟨m₀, none⟩ : AVLTree ν).root nil :=
    ⟨trivial, rfl, trivial, .nil, Nat.zero_le _⟩
  obtain ⟨s, t, hrun, h, hperm, hn⟩ := hinit.run .nil (by simp) hops
  refine ⟨s, t, hrun, h.valid hn, hperm, fun op hop => ?_⟩
  obtain ⟨s', t', hrun', h', hperm', heffect⟩ := h.step hperm hop
  have hn' : t'.numNodes < 2 ^ 32 := by
    rw [← length_inorder, hperm.length_eq] at hn
    rw [← length_inorder, hperm'.length_eq]
    exact hop.length_lt hn
  exact ⟨s', t', hrun', h'.valid hn', heffect⟩

/-- Insert `0`, …, `4` in order. Deleting node `1`, the root, detaches its successor. -/
theorem avlHistory_valid_delete_root :
    let ops : List (TreeOp Nat) := (List.range 5).map fun i => .insert i fun a => i < a
    TreeOp.AllAllowed [] ops ∧ (TreeOp.delete 1).Allowed (ops.foldl TreeOp.present []) ∧
      ∃ s t s' t', runSteps TreeOp.apply ⟨fun _ => {}, none⟩ ops = .ok s ∧ s.Valid t ∧
        (TreeOp.delete 1).apply s = .ok s' ∧ s'.Valid t' ∧
        t'.inorder = t.inorder.erase 1 := by
  have hops : TreeOp.AllAllowed []
      ((List.range 5).map fun i => TreeOp.insert i fun a => decide (i < a)) := by
    simp [List.range, List.range.loop, TreeOp.AllAllowed, TreeOp.Allowed, TreeOp.present]
  refine ⟨hops, by decide, ?_⟩
  obtain ⟨s, t, hrun, ht, -, hstep⟩ := avlHistory_valid (fun _ => {}) _ hops
  obtain ⟨s', t', hrun', hvalid, heffect⟩ := hstep (.delete 1) (by decide)
  exact ⟨s, t, s', t', hrun, ht, hrun', hvalid, heffect⟩

end

end MiniRedis
