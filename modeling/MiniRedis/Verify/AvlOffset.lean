import MiniRedis.Verify.AvlHistory

/-! # Walking by rank

`avl_offset` walks from a node to the node a given number of positions away: up until the target is
in the subtree of the current node, then down to it. Throughout, the rank of the current node minus
`pos` is the rank of the node the walk started at. -/

namespace MiniRedis

open BinaryTree

section
variable {ν : Type} {m : AVLMem ν} {parent : Option ν} {p : ν} {t l r : BinaryTree ν}
  {path : List (Crumb ν)} {offset pos : Int} {fuel : Nat}

theorem Rep.cnt_toNat (h : Rep m parent t) (hn : t.numNodes < 2 ^ 32) :
    (avlCnt m t.root?).toNat = t.numNodes := by
  rw [h.cnt_eq, UInt32.toNat_ofNat_of_lt' hn]

theorem Rep.cnt_succ_toNat (h : Rep m parent t) (hn : t.numNodes + 1 < 2 ^ 32) :
    (avlCnt m t.root? + 1).toNat = t.numNodes + 1 := by
  have hone : (1 : UInt32) = .ofNat 1 := rfl
  rw [h.cnt_eq, hone, ← UInt32.ofNat_add, UInt32.toNat_ofNat_of_lt' hn]

/-- The element of a list at an integer position. -/
def atRank (xs : List ν) (i : Int) : Option ν := if 0 ≤ i then xs[i.toNat]? else none

theorem atRank_root (p : ν) (l r : BinaryTree ν) :
    atRank (node p l r).inorder l.numNodes = some p := by
  simp [atRank]

theorem atRank_right {i : Int} (hi : 0 < i) :
    atRank (node p l r).inorder (l.numNodes + i) = atRank r.inorder (i - 1) := by
  obtain ⟨k, rfl⟩ : ∃ k : Nat, i = k + 1 := ⟨(i - 1).toNat, by omega⟩
  have h1 : ((l.numNodes : Int) + (k + 1)).toNat = l.inorder.length + (k + 1) := by
    rw [length_inorder]
    omega
  have h2 : (k + 1 - 1 : Int).toNat = k := by omega
  rw [atRank, if_pos (by omega), atRank, if_pos (by omega), h1, h2, inorder_node,
    List.getElem?_append_right (by omega)]
  simp

theorem atRank_left {i : Int} (hi : i < l.numNodes) :
    atRank (node p l r).inorder i = atRank l.inorder i := by
  unfold atRank
  split
  · rw [inorder_node, List.getElem?_append_left (by rw [length_inorder]; omega)]
  · rfl

theorem atRank_eq_none {xs : List ν} {i : Int} :
    atRank xs i = none ↔ ¬ (0 ≤ i ∧ i < xs.length) := by
  unfold atRank
  split
  · rw [List.getElem?_eq_none_iff]
    omega
  · simp only [true_iff]
    omega

theorem atRank_eq_some {xs : List ν} {i : Int} {q : ν} :
    atRank xs i = some q ↔ 0 ≤ i ∧ xs[i.toNat]? = some q := by
  unfold atRank
  split
  · next h => simp [h]
  · next h => simp [h]

variable [DecidableEq ν]

/-- The target is in the subtree. -/
theorem Rep.offsetLoop_down (h : Rep m parent (node p l r)) (hn : (node p l r).numNodes < 2 ^ 32)
    (hlo : pos - l.numNodes ≤ offset) (hhi : offset ≤ pos + r.numNodes)
    (hfuel : (node p l r).height ≤ fuel) :
    avlOffsetLoop m offset fuel p pos =
      .ok (atRank (node p l r).inorder (l.numNodes + (offset - pos))) := by
  induction fuel generalizing parent p l r pos with
  | zero => simp at hfuel
  | succ fuel ih =>
    obtain ⟨hp, hl, hr⟩ := h
    simp only [numNodes] at hn
    simp only [height] at hfuel
    have hcr : (avlCnt m (m p).right).toNat = r.numNodes := by
      rw [hp]
      exact hr.cnt_toNat (by omega)
    have hcl : (avlCnt m (m p).left).toNat = l.numNodes := by
      rw [hp]
      exact hl.cnt_toNat (by omega)
    rw [avlOffsetLoop]
    by_cases heq : offset = pos
    · subst heq
      rw [if_pos rfl, Int.sub_self, Int.add_zero, atRank_root]
      rfl
    rw [if_neg heq, hcr, hcl]
    by_cases hlt : pos < offset
    · cases r with
      | nil => simp at hhi; omega
      | node q rl rr =>
        simp only [numNodes] at hn hhi
        have hright : (m p).right = some q := by rw [hp]; rfl
        have hstep : (avlCnt m (m q).left + 1).toNat = rl.numNodes + 1 := by
          rw [hr.1]
          exact hr.2.1.cnt_succ_toNat (by omega)
        rw [if_pos (by simp only [numNodes]; omega), hright]
        have hlo' : pos + (rl.numNodes + 1 : Nat) - rl.numNodes ≤ offset := by
          push_cast
          omega
        have hhi' : offset ≤ pos + (rl.numNodes + 1 : Nat) + rr.numNodes := by
          push_cast at hhi ⊢
          omega
        have hrun := ih hr (by simp only [numNodes]; omega) hlo' hhi' (by omega)
        simp only [hstep, hrun]
        rw [atRank_right (by omega : 0 < offset - pos)]
        congr 2
        push_cast
        omega
    · rw [if_neg (by omega), if_pos (by omega)]
      cases l with
      | nil => simp at hlo; omega
      | node q ll lr =>
        simp only [numNodes] at hn hlo
        have hleft : (m p).left = some q := by rw [hp]; rfl
        have hstep : (avlCnt m (m q).right + 1).toNat = lr.numNodes + 1 := by
          rw [hl.1]
          exact hl.2.2.cnt_succ_toNat (by omega)
        rw [hleft]
        have hlo' : pos - (lr.numNodes + 1 : Nat) - ll.numNodes ≤ offset := by
          push_cast at hlo ⊢
          omega
        have hhi' : offset ≤ pos - (lr.numNodes + 1 : Nat) + lr.numNodes := by
          push_cast
          omega
        have hrun := ih hl (by simp only [numNodes]; omega) hlo' hhi' (by omega)
        have hi : ((node q ll lr).numNodes : Int) + (offset - pos) < (node q ll lr).numNodes := by
          omega
        simp only [hstep, hrun]
        rw [atRank_left hi]
        congr 2
        simp only [numNodes]
        push_cast
        omega

omit [DecidableEq ν] in
theorem numNodes_plug (t : BinaryTree ν) (path : List (Crumb ν)) :
    (t.plug path).numNodes = (before path).length + t.numNodes + (after path).length := by
  rw [← length_inorder (t.plug path), inorder_plug]
  simp [Nat.add_assoc]

/-- One step up, away from the subtree. -/
theorem Rep.offsetLoop_up (h : Rep m parent (node p l r)) (hn : (node p l r).numNodes < 2 ^ 32)
    (hout : ¬ (pos - l.numNodes ≤ offset ∧ offset ≤ pos + r.numNodes)) :
    avlOffsetLoop m offset (fuel + 1) p pos =
      match parent with
      | none => .ok none
      | some a =>
        if (m a).right = some p then avlOffsetLoop m offset fuel a (pos - (l.numNodes + 1))
        else avlOffsetLoop m offset fuel a (pos + (r.numNodes + 1)) := by
  obtain ⟨hp, hl, hr⟩ := h
  simp only [numNodes] at hn
  have hcr : avlCnt m (m p).right = avlCnt m r.root? := by rw [hp, cell]
  have hcl : avlCnt m (m p).left = avlCnt m l.root? := by rw [hp, cell]
  have hpar : (m p).parent = parent := by rw [hp, cell]
  have h1 := hr.cnt_toNat (by omega)
  have h2 := hl.cnt_toNat (by omega)
  rw [avlOffsetLoop, hcr, hcl, h1, h2, if_neg (by omega), if_neg (by omega), if_neg (by omega), hpar,
    hr.cnt_succ_toNat (by omega), hl.cnt_succ_toNat (by omega)]
  cases parent with
  | none => rfl
  | some a =>
    push_cast
    rfl

/-- The target is in the subtree, seen from the whole tree. -/
theorem Rep.offsetLoop_inside (h : Rep m none ((node p l r).plug path))
    (hn : ((node p l r).plug path).numNodes < 2 ^ 32) (hlo : pos - l.numNodes ≤ offset)
    (hhi : offset ≤ pos + r.numNodes) (hfuel : (node p l r).height ≤ fuel) :
    avlOffsetLoop m offset fuel p pos =
      .ok (atRank ((node p l r).plug path).inorder
        ((before path).length + l.numNodes + (offset - pos))) := by
  have hsum := numNodes_plug (node p l r) path
  have hnn : (node p l r).numNodes = l.numNodes + r.numNodes + 1 := rfl
  have hidx : ((before path).length + l.numNodes + (offset - pos)).toNat =
      (before path).length + (l.numNodes + (offset - pos)).toNat := by omega
  rw [(rep_plug.mp h).1.offsetLoop_down (by omega) hlo hhi hfuel]
  unfold atRank
  rw [if_pos (by omega), if_pos (by omega), hidx, inorder_plug, List.append_assoc,
    List.getElem?_append_right (by omega), Nat.add_sub_cancel_left,
    List.getElem?_append_left (by rw [length_inorder]; omega)]

/-- The walk reaches the node at the target's rank, or ends at the root if there is none. The
induction is on the path above the current node. -/
theorem Rep.offsetLoop_eq (h : Rep m none ((node p l r).plug path))
    (hnd : ((node p l r).plug path).inorder.Nodup) (hn : ((node p l r).plug path).numNodes < 2 ^ 32)
    (hfuel : path.length + ((node p l r).plug path).height ≤ fuel) :
    avlOffsetLoop m offset fuel p pos =
      .ok (atRank ((node p l r).plug path).inorder
        ((before path).length + l.numNodes + (offset - pos))) := by
  have hpos : 0 < (node p l r).height := Nat.succ_pos _
  have hheight := length_add_height_le (node p l r) path
  induction path generalizing p l r pos fuel with
  | nil =>
    by_cases hin : pos - l.numNodes ≤ offset ∧ offset ≤ pos + r.numNodes
    · exact h.offsetLoop_inside hn hin.1 hin.2 (by omega)
    have hnn : ((node p l r).plug []).numNodes = l.numNodes + r.numNodes + 1 := rfl
    obtain ⟨fuel, rfl⟩ : ∃ n, fuel = n + 1 := ⟨fuel - 1, by omega⟩
    have hnone : atRank ((node p l r).plug []).inorder
        ((before ([] : List (Crumb ν))).length + l.numNodes + (offset - pos)) = none := by
      unfold atRank
      split
      · refine List.getElem?_eq_none ?_
        rw [length_inorder, hnn]
        simp only [before, List.length_nil] at *
        omega
      · rfl
    rw [h.offsetLoop_up hn hin, hnone]
  | cons c path ih =>
    by_cases hin : pos - l.numNodes ≤ offset ∧ offset ≤ pos + r.numNodes
    · exact h.offsetLoop_inside hn hin.1 hin.2 (by omega)
    have hsum := numNodes_plug (node p l r) (c :: path)
    have hnn : (node p l r).numNodes = l.numNodes + r.numNodes + 1 := rfl
    obtain ⟨fuel, rfl⟩ : ∃ n, fuel = n + 1 := ⟨fuel - 1, by omega⟩
    obtain ⟨hrep, hpath⟩ := rep_plug.mp h
    rw [hrep.offsetLoop_up (by omega) hin]
    have hright : (m c.value).right = childRight (some p) c := by rw [hpath.1]; rfl
    simp only [pathParent, hright]
    have hfuel' : path.length + ((node p l r).plug (c :: path)).height ≤ fuel := by
      rw [List.length_cons] at hfuel
      omega
    cases c with
    | left a s =>
      have hne : s.root? ≠ some p := fun he => by
        have := (notMem_path hnd (x := p) (by simp)).2
        simp [after, Crumb.after, root?_mem he] at this
      simp only [childRight, hne, if_false, Crumb.value]
      rw [ih (l := node p l r) (r := s) h hnd hn hfuel' (Nat.succ_pos _) (length_add_height_le _ path)]
      congr 2
      simp only [before, Crumb.before, hnn, List.append_nil]
      push_cast
      omega
    | right a s =>
      simp only [childRight, if_true, Crumb.value]
      rw [ih (l := s) (r := node p l r) h hnd hn hfuel' (Nat.succ_pos _) (length_add_height_le _ path)]
      congr 2
      simp only [before, Crumb.before, List.length_append, length_inorder, List.length_singleton]
      push_cast
      omega

/-- **Offset.** The node `offset` positions after `p` in order, or nothing. -/
theorem IsTree.offset_eq {root : Option ν} (h : IsTree m root t) (hn : t.numNodes < 2 ^ 32) {i : Nat}
    (hp : t.inorder[i]? = some p) (offset : Int32) :
    avlOffset m (some p) offset = .ok (atRank t.inorder (i + offset.toInt)) := by
  obtain ⟨l, r, path, rfl⟩ := exists_plug_of_mem (List.mem_of_getElem? hp)
  have hi : i = (before path).length + l.numNodes := by
    have hp' : ((node p l r).plug path).inorder[(before path).length + l.numNodes]? = some p := by
      have hlt : (before path).length + l.numNodes - (before path).length <
          (node p l r).inorder.length := by
        simp
      rw [inorder_plug, List.append_assoc, List.getElem?_append_right (by omega),
        List.getElem?_append_left hlt, Nat.add_sub_cancel_left, inorder_node,
        List.getElem?_append_right (by simp)]
      simp
    exact (List.getElem?_inj (List.getElem?_eq_some_iff.mp hp).1 h.nodup).mp (hp.trans hp'.symm)
  have hfuel : path.length + ((node p l r).plug path).height ≤ addressSpace := by
    have := length_add_numNodes_le (node p l r) path
    have := height_lt_of_balanced h.balanced h.numNodes_le
    simp only [addressSpace]
    omega
  rw [avlOffset, h.rep.offsetLoop_eq h.nodup hn hfuel, hi]
  simp

/-! ## Valid trees -/

omit [DecidableEq ν] in
/-- Exact heights and counters fix the contents of the nodes. -/
theorem Exact.rep (h : Exact m parent t) : Rep m parent t := by
  induction t generalizing parent with
  | nil => trivial
  | node p l r ihl ihr =>
    obtain ⟨hparent, hleft, hright, hheight, hcnt, hl, hr⟩ := h
    refine ⟨?_, ihl hl, ihr hr⟩
    have hh : (m p).height = .ofNat (max l.height r.height + 1) := by rw [← hheight, UInt32.ofNat_toNat]
    have hc : (m p).cnt = .ofNat (l.numNodes + r.numNodes + 1) := by rw [← hcnt, UInt32.ofNat_toNat]
    rw [cell, ← hparent, ← hleft, ← hright, ← hh, ← hc]

omit [DecidableEq ν] in
/-- An exact counter at the root bounds the number of nodes. -/
theorem Exact.numNodes_lt (h : Exact m parent t) : t.numNodes < 2 ^ 32 := by
  cases t with
  | nil => exact Nat.two_pow_pos 32
  | node p l r =>
    obtain ⟨-, -, -, -, hcnt, -⟩ := h
    have := (m p).cnt.toNat_lt
    simp only [numNodes]
    omega

omit [DecidableEq ν] in
theorem AVLTree.Valid.isTree {s : AVLTree ν} (h : s.Valid t) : IsTree s.mem s.root t := by
  have hn := h.exact.numNodes_lt
  refine ⟨h.exact.rep, h.root, h.balanced, h.nodup, ?_⟩
  simp only [addressSpace]
  omega

/-- **Rank walk.** In a valid tree, `avl_offset` ends at the node whose in-order index is `offset`
more than that of the node it starts from, and at `NULL` if there is none. Hence two walks in a row
are one walk. -/
theorem AVLTree.Valid.avlOffset_rank {s : AVLTree ν} (h : s.Valid t) {r : Nat}
    (hp : t.inorder[r]? = some p) :
    (∀ offset : Int32,
      (0 ≤ r + offset.toInt ∧ r + offset.toInt < t.numNodes →
        ∃ q, t.inorder[(r + offset.toInt).toNat]? = some q ∧
          avlOffset s.mem (some p) offset = .ok (some q)) ∧
      (¬ (0 ≤ r + offset.toInt ∧ r + offset.toInt < t.numNodes) →
        avlOffset s.mem (some p) offset = .ok none)) ∧
    ∀ (a b c : Int32) (q : ν), avlOffset s.mem (some p) a = .ok (some q) →
      c.toInt = a.toInt + b.toInt → avlOffset s.mem (some q) b = avlOffset s.mem (some p) c := by
  have hn := h.exact.numNodes_lt
  refine ⟨fun offset => ⟨fun hin => ?_, fun hout => ?_⟩, fun a b c q ha hc => ?_⟩
  · rw [h.isTree.offset_eq hn hp]
    cases hq : atRank t.inorder (r + offset.toInt) with
    | none => exact absurd (length_inorder t ▸ hin) (atRank_eq_none.mp hq)
    | some q => exact ⟨q, (atRank_eq_some.mp hq).2, rfl⟩
  · rw [h.isTree.offset_eq hn hp, atRank_eq_none.mpr (length_inorder t ▸ hout)]
  · rw [h.isTree.offset_eq hn hp, Except.ok.injEq] at ha
    obtain ⟨hpos, hq⟩ := atRank_eq_some.mp ha
    rw [h.isTree.offset_eq hn hq, h.isTree.offset_eq hn hp, Int.toNat_of_nonneg hpos, hc,
      Int.add_assoc]

end

/-- A root with a right child. -/
theorem AVLTree.Valid.avlOffset_rank_two :
    let s : AVLTree Nat := ⟨fun p => if p = 0 then { right := some 1, height := 2, cnt := 2 }
      else { parent := some 0, height := 1, cnt := 1 }, some 0⟩
    s.Valid (node 0 nil (node 1 nil nil)) ∧ avlOffset s.mem (some 0) 1 = .ok (some 1) ∧
      avlOffset s.mem (some 1) (-2) = avlOffset s.mem (some 0) (-1) := by
  intro s
  have h : s.Valid (node 0 nil (node 1 nil nil)) :=
    ⟨rfl, by simp [s, Exact, numNodes, height], by simp [BinaryTree.Balanced, height], by simp⟩
  obtain ⟨hwalk, hcompose⟩ := h.avlOffset_rank (r := 0) (p := 0) (by simp)
  obtain ⟨q, hq, hrun⟩ := (hwalk 1).1 (by decide)
  obtain rfl : q = 1 := by simpa using hq.symm
  exact ⟨h, hrun, hcompose 1 (-2) (-1) 1 hrun (by decide)⟩

end MiniRedis
