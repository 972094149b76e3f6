import Mathlib.Data.Int.ConditionallyCompleteOrder
import Mathlib.Data.List.TakeWhile
import MiniRedis.Theory.Keyed
import MiniRedis.Model.SortedSet
import MiniRedis.Verify.AvlTree
import MiniRedis.Verify.HashMap

/-! # The sorted set as a finite map

`ZSet.WF z t` relates the two indexes of a set to each other and to a tree `t`: the nodes of the tree
in order are sorted by `(score, name)` and are those of the hash map. The operations keep it and act
on `ZSet.scoreOf`, the map from names to scores. -/

namespace MiniRedis

open BinaryTree

/-! ## The order of `(score, name)` -/

theorem uint8_trichotomy (a b : UInt8) : a < b ∨ a = b ∨ b < a := by
  rw [UInt8.lt_iff_toNat_lt, UInt8.lt_iff_toNat_lt, ← UInt8.toNat_inj]
  omega

theorem nameLess_eq (lhs rhs : Bytes) : nameLess lhs rhs = decide (lhs < rhs) := by
  induction lhs generalizing rhs with
  | nil => cases rhs <;> simp [nameLess, memcmp]
  | cons a lhs ih =>
    cases rhs with
    | nil => simp [nameLess, memcmp]
    | cons b rhs =>
      have hmin : min (a :: lhs).length (b :: rhs).length = min lhs.length rhs.length + 1 := by
        simp only [List.length_cons]
        omega
      rw [nameLess, hmin, memcmp]
      rcases uint8_trichotomy a b with hab | rfl | hab
      · simp [hab, List.cons_lt_cons_iff]
      · simpa [nameLess, List.cons_lt_cons_iff] using ih rhs
      · have hba : ¬ a < b := fun h => UInt8.lt_asymm h hab
        have hne : a ≠ b := fun h => UInt8.lt_irrefl b (h ▸ hab)
        simp [hba, hab, hne, List.cons_lt_cons_iff]

theorem memcmp_eq_eq {lhs rhs : Bytes} (h : lhs.length = rhs.length) :
    memcmp lhs rhs lhs.length = .eq ↔ lhs = rhs := by
  induction lhs generalizing rhs with
  | nil => cases rhs <;> simp_all [memcmp]
  | cons a lhs ih =>
    cases rhs with
    | nil => simp at h
    | cons b rhs =>
      have := ih (by simpa using h)
      rw [List.length_cons, memcmp]
      rcases uint8_trichotomy a b with hab | rfl | hab
      · have hne : a ≠ b := fun h => UInt8.lt_irrefl b (h ▸ hab)
        simp [hab, hne]
      · simpa using this
      · have hba : ¬ a < b := fun h => UInt8.lt_asymm h hab
        have hne : a ≠ b := fun h => UInt8.lt_irrefl b (h ▸ hab)
        simp [hba, hab, hne]

section
variable {σ : Type} [Preorder σ] [DecidableLE σ] [DecidableLT σ]

theorem zless_iff {zl : ZNode σ} {score : σ} {name : Bytes} :
    zless zl score name = true ↔
      zl.score < score ∨ (zl.score ≤ score ∧ score ≤ zl.score) ∧ zl.name < name := by
  unfold zless
  by_cases h : scoreEq zl.score score = true
  · have heq : zl.score ≤ score ∧ score ≤ zl.score := by simpa [scoreEq] using h
    rw [if_neg (by simp [h]), nameLess_eq]
    simp [heq, not_lt_of_ge heq.2]
  · have hne : ¬ (zl.score ≤ score ∧ score ≤ zl.score) := by simpa [scoreEq] using h
    rw [if_pos (by simp [h])]
    simp [hne]

/-- `zless` between two nodes. -/
def ZNode.Before (a b : ZNode σ) : Prop := zless a b.score b.name = true

variable {a b c : ZNode σ}

theorem ZNode.Before.trans (hab : a.Before b) (hbc : b.Before c) : a.Before c := by
  unfold ZNode.Before at *
  rw [zless_iff] at *
  rcases hab with hab | ⟨hab, hname⟩
  · rcases hbc with hbc | ⟨hbc, -⟩
    · exact .inl (hab.trans hbc)
    · exact .inl (hab.trans_le hbc.1)
  · rcases hbc with hbc | ⟨hbc, hname'⟩
    · exact .inl (hab.1.trans_lt hbc)
    · exact .inr ⟨⟨hab.1.trans hbc.1, hbc.2.trans hab.2⟩, List.lt_trans hname hname'⟩

/-- Nodes with different names are comparable. -/
theorem ZNode.before_total [Std.Total (α := σ) (· ≤ ·)] (hname : a.name ≠ b.name) :
    a.Before b ∨ b.Before a := by
  unfold ZNode.Before
  rw [zless_iff, zless_iff]
  by_cases hab : a.score ≤ b.score
  · by_cases hba : b.score ≤ a.score
    · have hor : a.name < b.name ∨ b.name < a.name := by
        by_contra hcon
        rw [not_or] at hcon
        exact hname (List.le_antisymm hcon.2 hcon.1)
      exact hor.imp (fun h => .inr ⟨⟨hab, hba⟩, h⟩) fun h => .inr ⟨⟨hba, hab⟩, h⟩
    · exact .inl (.inl (lt_of_le_not_ge hab hba))
  · have hba := (Std.Total.total (r := (· ≤ ·)) a.score b.score).resolve_left hab
    exact .inr (.inl (lt_of_le_not_ge hba hab))

omit [Preorder σ] [DecidableLE σ] [DecidableLT σ] in
theorem hcmp_iff {z : ZSet σ} {p : ZPtr} {name : Bytes} :
    hcmp z p name = true ↔ (z.node p).name = name := by
  unfold hcmp
  by_cases h : (z.node p).name.length = name.length
  · simp [h, ← memcmp_eq_eq h]
  · have : (z.node p).name ≠ name := fun he => h (by rw [he])
    simp [h, this]

/-! ## Well-formed sets -/

/-- The nodes are sorted by `(score, name)`. -/
def Ascending (node : ZPtr → ZNode σ) (ps : List ZPtr) : Prop :=
  ps.Pairwise fun p q => (node p).Before (node q)

/-- The two indexes hold the same nodes, in the order of the tree `t`. -/
structure ZSet.WF (z : ZSet σ) (t : BinaryTree ZPtr) : Prop where
  tree : IsTree z.tree z.root t
  sorted : Ascending z.node t.inorder
  hmap : z.hmap.WF fun p => (z.node p).name
  refs : (z.hmap.nodes.map (·.ref)).Perm t.inorder
  hash : ∀ n ∈ z.hmap.nodes,
    n.hashCode = stringHash (z.node n.ref).name ∧ n.hashCode = (z.node n.ref).hashCode
  allocated : ∀ p ∈ t.inorder, p < z.next
  next_le : z.next ≤ addressSpace
  freed : z.freed.Nodup
  freed_lt : ∀ p ∈ z.freed, p < z.next ∧ p ∉ t.inorder

/-- The map from names to scores that a set stands for. -/
def ZSet.scoreOf (z : ZSet σ) : Bytes → Option σ :=
  valueOf (fun p => (z.node p).name) (fun p => (z.node p).score) (z.hmap.nodes.map (·.ref))

namespace ZSet.WF

variable {z : ZSet σ} {t : BinaryTree ZPtr} {p : ZPtr} {name : Bytes} {score : σ}

theorem empty [Inhabited σ] : (ZSet.empty : ZSet σ).WF nil where
  tree := ⟨trivial, rfl, trivial, .nil, Nat.zero_le _⟩
  sorted := .nil
  hmap := .empty _
  refs := .nil
  hash := by simp [ZSet.empty, HMap.nodes, HTable.nodes]
  allocated := by simp
  next_le := Nat.zero_le _
  freed := .nil
  freed_lt := by simp [ZSet.empty]

theorem mem_iff (h : z.WF t) : p ∈ t.inorder ↔ ∃ n ∈ z.hmap.nodes, n.ref = p := by
  rw [← h.refs.mem_iff, List.mem_map]

theorem names (h : z.WF t) : ((z.hmap.nodes.map (·.ref)).map fun p => (z.node p).name).Nodup := by
  rw [List.map_map]
  exact h.hmap.keys

theorem names_inorder (h : z.WF t) : (t.inorder.map fun p => (z.node p).name).Nodup :=
  (h.refs.map _).nodup_iff.mp h.names

theorem scoreOf_eq (h : z.WF t) : z.scoreOf =
    valueOf (fun p => (z.node p).name) (fun p => (z.node p).score) t.inorder :=
  valueOf_perm h.names h.refs

theorem scoreOf_eq_some (h : z.WF t) :
    z.scoreOf name = some score ↔
      ∃ p ∈ t.inorder, (z.node p).name = name ∧ (z.node p).score = score := by
  rw [h.scoreOf_eq, valueOf_eq_some h.names_inorder]

theorem scoreOf_eq_none (h : z.WF t) :
    z.scoreOf name = none ↔ ∀ p ∈ t.inorder, (z.node p).name ≠ name := by
  rw [h.scoreOf_eq, valueOf_eq_none]

/-- The root pointer is `NULL` exactly when the hash map is empty. -/
theorem root_eq_none (h : z.WF t) : z.root = none ↔ z.hmap.nodes = [] := by
  rw [h.tree.root, root?_eq_none]
  constructor
  · rintro rfl
    have := h.refs.length_eq
    simpa using this
  · intro he
    have := h.refs.length_eq
    rw [he] at this
    cases t with
    | nil => rfl
    | node a l r => simp at this

theorem numNodes_le (h : z.WF t) : t.numNodes ≤ z.next := by
  have hsub : t.inorder ⊆ List.range z.next := fun p hp => by
    simpa using h.allocated p hp
  simpa using (h.tree.nodup.subperm hsub).length_le

theorem searches (h : z.WF t) (name : Bytes) :
    z.hmap.Searches (fun p => (z.node p).name) { ref := name, hashCode := stringHash name }
      (hcmp z) where
  eq_iff p := hcmp_iff
  hashCode n hn hname := by rw [(h.hash n hn).1, hname]

/-- Reordering the hash map. -/
theorem of_hmap {hmap : HMap ZPtr} (h : z.WF t) (hwf : hmap.WF fun p => (z.node p).name)
    (hperm : hmap.nodes.Perm z.hmap.nodes) : ({ z with hmap } : ZSet σ).WF t where
  tree := h.tree
  sorted := h.sorted
  hmap := hwf
  refs := (hperm.map _).trans h.refs
  hash n hn := h.hash n (hperm.mem_iff.mp hn)
  allocated := h.allocated
  next_le := h.next_le
  freed := h.freed
  freed_lt := h.freed_lt

theorem scoreOf_of_hmap {hmap : HMap ZPtr} (h : z.WF t) (hperm : hmap.nodes.Perm z.hmap.nodes) :
    ({ z with hmap } : ZSet σ).scoreOf = z.scoreOf :=
  (valueOf_perm h.names (hperm.symm.map _)).symm

theorem lookup (h : z.WF t) (name : Bytes) :
    ∃ found hmap, zsetLookup z name = .ok (found, { z with hmap }) ∧
      ({ z with hmap } : ZSet σ).WF t ∧ hmap.nodes.Perm z.hmap.nodes ∧
      ∀ p, found = some p ↔ p ∈ t.inorder ∧ (z.node p).name = name := by
  by_cases hroot : z.root = none
  · have hrun : zsetLookup z name = .ok (none, z) := by simp [zsetLookup, hroot]
    refine ⟨none, z.hmap, hrun, h, .refl _, fun p => ?_⟩
    obtain rfl := root?_eq_none.mp (h.tree.root.symm.trans hroot)
    simp
  · obtain ⟨root, hroot⟩ := Option.ne_none_iff_exists'.mp hroot
    obtain ⟨found, hmap, hrun, hwf, hperm, hfound⟩ := h.hmap.hmLookup (h.searches name)
    refine ⟨found.map (·.ref), hmap, by simp [zsetLookup, hroot, hrun], h.of_hmap hwf hperm, hperm,
      fun p => ?_⟩
    rw [h.mem_iff, Option.map_eq_some_iff]
    constructor
    · rintro ⟨n, hn, rfl⟩
      obtain ⟨hmem, hname⟩ := (hfound n).mp hn
      exact ⟨⟨n, hmem, rfl⟩, hname⟩
    · rintro ⟨⟨n, hmem, rfl⟩, hname⟩
      exact ⟨n, (hfound n).mpr ⟨hmem, hname⟩, rfl⟩

end ZSet.WF

/-! ## Insertion into the tree -/

variable {z : ZSet σ} {t : BinaryTree ZPtr} {p : ZPtr} [Std.Total (α := σ) (· ≤ ·)]

theorem treeInsert_spec (ht : IsTree z.tree z.root t) (hsorted : Ascending z.node t.inorder)
    (hp : p ∉ t.inorder) (hfresh : z.tree p = { height := 1, cnt := 1 })
    (hnames : ∀ q ∈ t.inorder, (z.node q).name ≠ (z.node p).name)
    (hlen : t.numNodes < addressSpace) :
    ∃ root' tree' t', treeInsert z p = .ok { z with root := some root', tree := tree' } ∧
      IsTree tree' (some root') t' ∧ Ascending z.node t'.inorder ∧
      t'.inorder.Perm (p :: t.inorder) := by
  let goLeft parent := zless (z.node p) (z.node parent).score (z.node parent).name
  obtain ⟨root', tree', hrun, ht', -⟩ := ht.attach hp hfresh hlen goLeft
  -- What is behind a node that comes after `p` comes after `p` too.
  have hsplit : t.inorder.Pairwise fun a b => goLeft a → goLeft b :=
    hsorted.imp fun hab ha => ZNode.Before.trans ha hab
  obtain ⟨hbefore, hafter⟩ := descend_split hsplit []
  have hin : ((node p nil nil).rebuild (descend goLeft t [])).inorder =
      t.inorder.takeWhile (!goLeft ·) ++ p :: t.inorder.dropWhile (!goLeft ·) := by
    rw [inorder_rebuild, hbefore, hafter]
    simp [before, after]
  refine ⟨root', tree', _, by simp [treeInsert, goLeft, hrun], ht', ?_, ?_⟩
  · have hcut := hsorted
    rw [Ascending, ← List.takeWhile_append_dropWhile (p := (!goLeft ·)) (l := t.inorder),
      List.pairwise_append] at hcut
    obtain ⟨htake, hdrop, hcross⟩ := hcut
    rw [hin, Ascending, List.pairwise_append, List.pairwise_cons]
    refine ⟨htake, ⟨forall_mem_dropWhile hsplit, hdrop⟩, fun q hq r hr => ?_⟩
    rcases List.mem_cons.mp hr with rfl | hr
    · have hmem := List.takeWhile_subset _ hq
      have hnot : ¬ (z.node r).Before (z.node q) := by
        simpa [goLeft, ZNode.Before] using List.mem_takeWhile_imp hq
      exact (ZNode.before_total (hnames q hmem)).resolve_right hnot
    · exact hcross q hq r hr
  · rw [hin]
    refine List.perm_middle.trans ?_
    rw [List.takeWhile_append_dropWhile]

omit [Preorder σ] [DecidableLE σ] [DecidableLT σ] [Std.Total (α := σ) (· ≤ ·)] in
/-- `tree_dispose` frees each node of a subtree once and writes nothing. -/
theorem treeDispose_spec {parent : Option ZPtr} {fuel : Nat} (h : Rep z.tree parent t)
    (hfuel : t.height < fuel) :
    ∃ ps, treeDispose fuel z t.root? = .ok { z with freed := z.freed ++ ps } ∧
      ps.Perm t.inorder := by
  induction t generalizing z parent fuel with
  | nil =>
    obtain ⟨fuel, rfl⟩ := Nat.exists_eq_add_of_lt hfuel
    exact ⟨[], by simp [treeDispose], .nil⟩
  | node p l r ihl ihr =>
    obtain ⟨fuel, rfl⟩ : ∃ n, fuel = n + 1 := ⟨fuel - 1, by omega⟩
    obtain ⟨hp, hl, hr⟩ := h
    simp only [height] at hfuel
    have hlfuel : l.height < fuel := by omega
    have hrfuel : r.height < fuel := by omega
    obtain ⟨ps, hpsRun, hps⟩ := ihl hl hlfuel
    obtain ⟨qs, hqsRun, hqs⟩ := ihr (z := { z with freed := z.freed ++ ps }) hr hrfuel
    refine ⟨ps ++ qs ++ [p], ?_, ?_⟩
    · simp only [treeDispose, root?_node, hp, cell, hpsRun, ok_bind, hqsRun, znodeDel, pure_eq_ok,
        List.append_assoc]
    · rw [inorder_node, List.append_assoc]
      exact hps.append ((hqs.append_right _).trans (List.perm_append_singleton p _))

/-- The score of a member after `zset_insert`: an equal score is left as it is. -/
def overwritten (old : Option σ) (score : σ) : σ :=
  match old with
  | some s => if scoreEq s score then s else score
  | none => score

namespace ZSet.WF

variable {name : Bytes} {score : σ}

theorem update (h : z.WF t) (hp : p ∈ t.inorder) (score : σ) :
    ∃ z' t', zsetUpdate z p score = .ok z' ∧ z'.WF t' ∧ z'.freed = z.freed ∧
      t'.inorder.Perm t.inorder ∧
      z'.scoreOf = Function.update z.scoreOf (z.node p).name
        (some (overwritten (some (z.node p).score) score)) := by
  have hscore : z.scoreOf (z.node p).name = some (z.node p).score :=
    h.scoreOf_eq_some.mpr ⟨p, hp, rfl, rfl⟩
  by_cases heq : scoreEq (z.node p).score score = true
  · refine ⟨z, t, by simp [zsetUpdate, heq], h, rfl, .refl _, ?_⟩
    simp [overwritten, heq, ← hscore]
  obtain ⟨root₁, tree₁, t₁, hdel, ht₁, hin₁, -⟩ := h.tree.delete hp
  have hp₁ : p ∉ t₁.inorder := by
    rw [hin₁]
    exact h.tree.nodup.not_mem_erase
  have hsub₁ : t₁.inorder.Sublist t.inorder := hin₁ ▸ List.erase_sublist
  set node₁ := Function.update z.node p { z.node p with score } with hnode₁
  have hsame : ∀ q, (node₁ q).name = (z.node q).name ∧
      (node₁ q).hashCode = (z.node q).hashCode := fun q => by
    by_cases hq : q = p
    · subst hq
      simp [hnode₁]
    · simp [hnode₁, Function.update_of_ne hq]
  have hother : ∀ q ∈ t₁.inorder, node₁ q = z.node q := fun q hq =>
    Function.update_of_ne (ne_of_mem_of_not_mem hq hp₁) ..
  have hsorted₁ : Ascending node₁ t₁.inorder := by
    refine (List.Pairwise.sublist hsub₁ h.sorted).imp_of_mem fun hq hr hqr => ?_
    rwa [hother _ hq, hother _ hr]
  have hnames₁ : ∀ q ∈ t₁.inorder, (node₁ q).name ≠ (node₁ p).name := fun q hq he => by
    rw [(hsame q).1, (hsame p).1] at he
    exact hp₁ (List.inj_on_of_nodup_map h.names_inorder (hsub₁.subset hq) hp he ▸ hq)
  have hlen₁ : t₁.numNodes < addressSpace := by
    have hlen := congrArg List.length hin₁
    rw [List.length_erase_of_mem hp, length_inorder, length_inorder] at hlen
    have hpos := List.length_pos_of_mem hp
    rw [length_inorder] at hpos
    have := h.tree.numNodes_le
    omega
  obtain ⟨root', tree', t', hins, ht', hsorted', hperm'⟩ := treeInsert_spec
    (z := { z with root := root₁, tree := avlInit tree₁ p, node := node₁ }) (ht₁.init hp₁) hsorted₁
    hp₁ (AVLMem.store_self ..) hnames₁ hlen₁
  have hperm : t'.inorder.Perm t.inorder :=
    hperm'.trans (hin₁ ▸ (List.perm_cons_erase hp).symm)
  have hwf : ({ z with root := some root', tree := tree', node := node₁ } : ZSet σ).WF t' := by
    refine ⟨ht', hsorted', h.hmap.congr fun n _ => (hsame n.ref).1, h.refs.trans hperm.symm,
      fun n hn => ?_, fun q hq => h.allocated q (hperm.mem_iff.mp hq), h.next_le, h.freed,
      fun q hq => ⟨(h.freed_lt q hq).1, fun hq' => (h.freed_lt q hq).2 (hperm.mem_iff.mp hq')⟩⟩
    rw [(hsame n.ref).1, (hsame n.ref).2]
    exact h.hash n hn
  refine ⟨_, t', by simp [zsetUpdate, heq, hdel, ← hnode₁, hins], hwf, rfl, hperm, ?_⟩
  have hnode₁p : (node₁ p).score = overwritten (some (z.node p).score) score := by
    simp [hnode₁, overwritten, heq]
  have hkey : (fun q => (node₁ q).name) = fun q => (z.node q).name := funext fun q => (hsame q).1
  rw [hwf.scoreOf_eq, valueOf_perm hwf.names_inorder hperm, h.scoreOf_eq, ← hnode₁p, hkey]
  exact valueOf_set _ h.names_inorder hp fun q _ hq => by simp [hnode₁, Function.update_of_ne hq]

/-- A new member: the node `p` is allocated, stored in the hash map and attached to the tree. -/
theorem add {hmap : HMap ZPtr} {p : ZPtr} (h : z.WF t) (hp : p = z.next) (hnext : p < addressSpace)
    (hnew : ∀ q ∈ t.inorder, (z.node q).name ≠ name)
    (hmapWF : hmap.WF fun q =>
      (Function.update z.node p { hashCode := stringHash name, score, name } q).name)
    (hperm : hmap.nodes.Perm ({ ref := p, hashCode := stringHash name } :: z.hmap.nodes)) :
    ∃ z' t', treeInsert { z with hmap, next := p + 1, tree := avlInit z.tree p,
                                 node := Function.update z.node p
                                   { hashCode := stringHash name, score, name } } p = .ok z' ∧
      z'.WF t' ∧ z'.freed = z.freed ∧ t'.inorder.Perm (p :: t.inorder) ∧
      z'.scoreOf = Function.update z.scoreOf name (some score) := by
  have hpt : p ∉ t.inorder := fun hmem => Nat.lt_irrefl _ (hp ▸ h.allocated p hmem)
  set node₁ := Function.update z.node p { hashCode := stringHash name, score, name } with hnode₁
  have hp₁ : node₁ p = { hashCode := stringHash name, score, name } := Function.update_self ..
  have hother : ∀ q ∈ t.inorder, node₁ q = z.node q := fun q hq =>
    Function.update_of_ne (ne_of_mem_of_not_mem hq hpt) ..
  have hsorted₁ : Ascending node₁ t.inorder :=
    h.sorted.imp_of_mem fun hq hr hqr => by rwa [hother _ hq, hother _ hr]
  obtain ⟨root', tree', t', hins, ht', hsorted', hperm'⟩ := treeInsert_spec
    (z := { z with hmap, next := p + 1, tree := avlInit z.tree p, node := node₁ })
    (h.tree.init hpt) hsorted₁ hpt (AVLMem.store_self ..)
    (fun q hq => by simpa only [hother q hq, hp₁] using hnew q hq)
    (h.numNodes_le.trans_lt (hp ▸ hnext))
  have hrefs : (hmap.nodes.map (·.ref)).Perm t'.inorder :=
    (hperm.map _).trans ((h.refs.cons p).trans hperm'.symm)
  have hwf : ({ z with hmap, next := p + 1, root := some root', tree := tree', node := node₁ }
      : ZSet σ).WF t' := by
    refine ⟨ht', hsorted', hmapWF, hrefs, fun n hn => ?_, fun q hq => ?_, hnext, h.freed,
      fun q hq => ⟨?_, fun hq' => ?_⟩⟩
    · rcases List.mem_cons.mp (hperm.mem_iff.mp hn) with rfl | hn
      · simp [hp₁]
      · simp only [hother _ (h.mem_iff.mpr ⟨n, hn, rfl⟩)]
        exact h.hash n hn
    · rcases List.mem_cons.mp (hperm'.mem_iff.mp hq) with rfl | hq
      · exact Nat.lt_succ_self _
      · exact Nat.lt_succ_of_lt (hp ▸ h.allocated q hq)
    · exact Nat.lt_succ_of_lt (hp ▸ (h.freed_lt q hq).1)
    · rcases List.mem_cons.mp (hperm'.mem_iff.mp hq') with rfl | hq'
      · exact absurd (hp ▸ (h.freed_lt q hq).1) (Nat.lt_irrefl _)
      · exact (h.freed_lt q hq).2 hq'
  refine ⟨_, t', hins, hwf, rfl, hperm', ?_⟩
  rw [hwf.scoreOf_eq, valueOf_perm hwf.names_inorder hperm', valueOf_cons, h.scoreOf_eq]
  simp only [hp₁]
  refine congrArg (fun f : Bytes → Option σ => Function.update f name (some score)) ?_
  refine valueOf_congr ?_ h.names_inorder fun k b => ?_
  · rw [List.map_congr_left fun q hq => congrArg ZNode.name (hother q hq)]
    exact h.names_inorder
  · refine exists_congr fun q => and_congr_right fun hq => ?_
    rw [hother q hq]

/-- `zset_insert` adds or overwrites, unless an allocation or a resize fails. -/
theorem insert (h : z.WF t) (name : Bytes) (score : σ) :
    (∃ added z' t', zsetInsert z name score = .ok (added, z') ∧ z'.WF t' ∧ z'.freed = z.freed ∧
      (added = true ↔ z.scoreOf name = none) ∧
      z'.scoreOf = Function.update z.scoreOf name (some (overwritten (z.scoreOf name) score))) ∨
    zsetInsert z name score = .error (.assertion .hInitSize) ∨
    zsetInsert z name score = .error (.assertion .znodeNewNode) ∧ z.next = addressSpace := by
  obtain ⟨found, hmap, hlookup, hwf, hperm, hfound⟩ := h.lookup name
  have hsame : ({ z with hmap } : ZSet σ).scoreOf = z.scoreOf := h.scoreOf_of_hmap hperm
  cases found with
  | some p =>
    obtain ⟨hp, rfl⟩ := (hfound p).mp rfl
    obtain ⟨z', t', hrun, hwf', hfreed, -, hscore⟩ := hwf.update hp score
    have hold : z.scoreOf (z.node p).name = some (z.node p).score :=
      h.scoreOf_eq_some.mpr ⟨p, hp, rfl, rfl⟩
    refine .inl ⟨false, z', t', ?_, hwf', hfreed, by simp [hold], ?_⟩
    · simp [zsetInsert, hlookup, hrun]
    · rw [hscore, hsame, hold]
  | none =>
    have hnew : ∀ q ∈ t.inorder, (z.node q).name ≠ name := fun q hq hname => by
      cases (hfound q).mpr ⟨hq, hname⟩
    have hnone : z.scoreOf name = none := h.scoreOf_eq_none.mpr hnew
    by_cases hnext : z.next < addressSpace
    · have hstored : ∀ n ∈ hmap.nodes, n.ref ≠ z.next := fun n hn he =>
        Nat.lt_irrefl _ (he ▸ h.allocated n.ref (hwf.mem_iff.mpr ⟨n, hn, rfl⟩))
      have hwf₁ : hmap.WF fun q =>
          (Function.update z.node z.next { hashCode := stringHash name, score, name } q).name :=
        hwf.hmap.congr fun n hn => by rw [Function.update_of_ne (hstored n hn)]
      rcases hwf₁.hmInsert { ref := z.next, hashCode := stringHash name }
        (fun n hn => by
          rw [Function.update_self, Function.update_of_ne (hstored n hn)]
          exact hnew n.ref (hwf.mem_iff.mpr ⟨n, hn, rfl⟩)) with ⟨hmap', hrun, hwf', hperm'⟩ | hrun
      · obtain ⟨z', t', hins, hz', hfreed, -, hscore⟩ := hwf.add rfl hnext hnew hwf' hperm'
        refine .inl ⟨true, z', t', ?_, hz', hfreed, by simp [hnone], ?_⟩
        · simp [zsetInsert, hlookup, znodeNew, assert, hnext, hrun, hins]
        · rw [hscore, hsame, hnone]
          rfl
      · refine .inr (.inl ?_)
        simp [zsetInsert, hlookup, znodeNew, assert, hnext, hrun]
    · refine .inr (.inr ⟨?_, by have := h.next_le; omega⟩)
      simp [zsetInsert, hlookup, znodeNew, assert, hnext]

/-- What an insertion that returned has done. -/
theorem inserted {z' : ZSet σ} {name : Bytes} {score : σ} {added : Bool} (h : z.WF t)
    (hrun : zsetInsert z name score = .ok (added, z')) :
    (∃ t', z'.WF t') ∧ (added = true ↔ z.scoreOf name = none) := by
  rcases h.insert name score with ⟨_, _, t', hinsert, h', -, hadded, -⟩ | hfull | ⟨hfull, -⟩
  · cases hinsert.symm.trans hrun
    exact ⟨⟨t', h'⟩, hadded⟩
  · cases hfull.symm.trans hrun
  · cases hfull.symm.trans hrun

omit [Std.Total (α := σ) (· ≤ ·)] in
/-- `zset_delete` takes one node out of both indexes and frees it. -/
theorem delete (h : z.WF t) (hp : p ∈ t.inorder) :
    ∃ z' t', zsetDelete z p = .ok z' ∧ z'.WF t' ∧ t'.inorder = t.inorder.erase p ∧
      z'.freed = z.freed ++ [p] ∧ z'.node = z.node ∧
      z.hmap.nodes.Perm ({ ref := p, hashCode := (z.node p).hashCode } :: z'.hmap.nodes) ∧
      z'.scoreOf = Function.update z.scoreOf (z.node p).name none := by
  obtain ⟨n, hn, rfl⟩ := h.mem_iff.mp hp
  have hs := h.searches (z.node n.ref).name
  rw [← (h.hash n hn).1, (h.hash n hn).2] at hs
  obtain ⟨found, hmap, hdel, hwf, hfound, hsome, -⟩ := h.hmap.hmDelete hs
  obtain rfl := (hfound n).mpr ⟨hn, rfl⟩
  have hperm := hsome n rfl
  obtain ⟨root', tree', t', hrun, ht', hin, -⟩ := h.tree.delete hp
  have hsub : t'.inorder.Sublist t.inorder := hin ▸ List.erase_sublist
  have hrefs : (hmap.nodes.map (·.ref)).Perm t'.inorder := by
    have := ((hperm.map (·.ref)).symm.trans h.refs).erase n.ref
    rwa [List.map_cons, List.erase_cons_head, ← hin] at this
  have hz' : ({ z with hmap, root := root', tree := tree', freed := z.freed ++ [n.ref] }
      : ZSet σ).WF t' := by
    refine ⟨ht', List.Pairwise.sublist hsub h.sorted, hwf, hrefs,
      fun n' hn' => h.hash n' (hperm.mem_iff.mpr (List.mem_cons_of_mem _ hn')),
      fun q hq => h.allocated q (hsub.subset hq), h.next_le, ?_, fun q hq => ?_⟩
    · have hnot : n.ref ∉ z.freed := fun hmem => (h.freed_lt _ hmem).2 hp
      rw [← List.concat_eq_append]
      exact h.freed.concat hnot
    · rcases List.mem_append.mp hq with hq | hq
      · exact ⟨(h.freed_lt q hq).1, fun hq' => (h.freed_lt q hq).2 (hsub.subset hq')⟩
      · obtain rfl := List.mem_singleton.mp hq
        refine ⟨h.allocated _ hp, ?_⟩
        rw [hin]
        exact h.tree.nodup.not_mem_erase
  refine ⟨_, t', ?_, hz', hin, rfl, rfl, ?_, ?_⟩
  · simp [zsetDelete, hdel, assert, hrun, znodeDel]
  · rwa [← (h.hash n hn).2]
  · exact valueOf_of_perm_cons h.names (hperm.map (·.ref))

omit [Std.Total (α := σ) (· ≤ ·)] in
/-- `zset_clear` frees every node once. -/
theorem clear (h : z.WF t) :
    ∃ z' ps, zsetClear z = .ok z' ∧ z'.WF nil ∧ z'.freed = z.freed ++ ps ∧ ps.Perm t.inorder ∧
      z'.scoreOf = fun _ => none := by
  obtain ⟨ps, hrun, hps⟩ := treeDispose_spec (z := { z with hmap := {} }) h.tree.rep h.tree.height_lt
  rw [← h.tree.root] at hrun
  have hz' : ({ z with hmap := {}, root := none, freed := z.freed ++ ps } : ZSet σ).WF nil := by
    refine ⟨⟨trivial, rfl, trivial, .nil, Nat.zero_le _⟩, .nil, .empty _, .nil,
      by simp [HMap.nodes, HTable.nodes], by simp, h.next_le, ?_, fun q hq => ⟨?_, by simp⟩⟩
    · refine List.nodup_append.mpr ⟨h.freed, hps.nodup_iff.mpr h.tree.nodup, fun a ha b hb => ?_⟩
      rintro rfl
      exact (h.freed_lt a ha).2 (hps.mem_iff.mp hb)
    · rcases List.mem_append.mp hq with hq | hq
      · exact (h.freed_lt q hq).1
      · exact h.allocated q (hps.mem_iff.mp hq)
  refine ⟨_, ps, ?_, hz', rfl, hps, rfl⟩
  simp [zsetClear, hmClear, hrun]

end ZSet.WF

end

section
variable {σ : Type} [LinearOrder σ] {z : ZSet σ} {t : BinaryTree ZPtr}

theorem overwritten_eq (old : Option σ) (score : σ) : overwritten old score = score := by
  cases old with
  | none => rfl
  | some s =>
    by_cases h : scoreEq s score = true
    · have heq : s ≤ score ∧ score ≤ s := by simpa [scoreEq] using h
      simp [overwritten, le_antisymm heq.1 heq.2]
    · simp [overwritten, h]

/-- **Refinement.** The operations keep both indexes in agreement and act on the map from names to
scores: `zset_insert` adds or overwrites, unless a resize of the hash map or an allocation fails;
`zset_delete` erases one node from both indexes, without a failed assertion; `zset_lookup` reads, and
its early exit is taken exactly on the empty map; `zset_clear` frees every node once. -/
theorem ZSet.WF.refines_scoreOf (h : z.WF t) :
    (∀ name score, zsetInsert z name score ≠ .error (.assertion .hInitSize) →
      (∃ added z' t', zsetInsert z name score = .ok (added, z') ∧ z'.WF t' ∧
        (added = true ↔ z.scoreOf name = none) ∧
        z'.scoreOf = Function.update z.scoreOf name (some score)) ∨
      zsetInsert z name score = .error (.assertion .znodeNewNode) ∧ z.next = addressSpace) ∧
    (∀ p ∈ t.inorder, ∃ z' t', zsetDelete z p = .ok z' ∧ z'.WF t' ∧
      t'.inorder = t.inorder.erase p ∧
      z.hmap.nodes.Perm ({ ref := p, hashCode := (z.node p).hashCode } :: z'.hmap.nodes) ∧
      z'.freed = z.freed ++ [p] ∧
      z'.scoreOf = Function.update z.scoreOf (z.node p).name none) ∧
    (∀ name, ∃ found z', zsetLookup z name = .ok (found, z') ∧ z'.WF t ∧ z'.scoreOf = z.scoreOf ∧
      (∀ p, found = some p ↔ p ∈ t.inorder ∧ (z.node p).name = name) ∧
      found.map (fun p => (z.node p).score) = z.scoreOf name) ∧
    (z.root = none ↔ hmSize z.hmap = 0) ∧
    (∃ z' ps, zsetClear z = .ok z' ∧ z'.WF nil ∧ (z'.scoreOf = fun _ => none) ∧
      z'.freed = z.freed ++ ps ∧ ps.Perm t.inorder ∧ z'.freed.Nodup) := by
  refine ⟨fun name score hassert => ?_, fun p hp => ?_, fun name => ?_, ?_, ?_⟩
  · rcases h.insert name score with ⟨added, z', t', hrun, hz', -, hadded, hscore⟩ | hrun | hrun
    · refine .inl ⟨added, z', t', hrun, hz', hadded, ?_⟩
      rw [hscore, overwritten_eq]
    · exact absurd hrun hassert
    · exact .inr hrun
  · obtain ⟨z', t', hrun, hz', hin, hfreed, -, hperm, hscore⟩ := h.delete hp
    exact ⟨z', t', hrun, hz', hin, hperm, hfreed, hscore⟩
  · obtain ⟨found, hmap, hrun, hz', hperm, hfound⟩ := h.lookup name
    refine ⟨found, _, hrun, hz', h.scoreOf_of_hmap hperm, hfound, ?_⟩
    cases found with
    | none =>
      refine (h.scoreOf_eq_none.mpr fun p hp hname => ?_).symm
      cases (hfound p).mpr ⟨hp, hname⟩
    | some p =>
      obtain ⟨hp, hname⟩ := (hfound p).mp rfl
      exact (h.scoreOf_eq_some.mpr ⟨p, hp, hname, rfl⟩).symm
  · rw [h.root_eq_none, h.hmap.hmSize, List.length_eq_zero_iff]
  · obtain ⟨z', ps, hrun, hz', hfreed, hps, hscore⟩ := h.clear
    exact ⟨z', ps, hrun, hz', hscore, hfreed, hps, hz'.freed⟩

/-- A member is added and then overwritten. -/
theorem ZSet.WF.refines_scoreOf_overwrite :
    ∃ (z z' : ZSet Int) (t t' : BinaryTree ZPtr), z.WF t ∧ z.scoreOf [97] = some 5 ∧
      zsetInsert z [97] 3 = .ok (false, z') ∧ z'.WF t' ∧ z'.scoreOf [97] = some 3 := by
  have hempty : (ZSet.empty : ZSet Int).WF nil := .empty
  rcases hempty.refines_scoreOf.1 [97] 5 (by intro h; cases h) with ⟨_, z, t, hrun, hz, -, hscore⟩ | h
  · have hscore₁ : z.scoreOf [97] = some 5 := by rw [hscore, Function.update_self]
    have hassert : zsetInsert z [97] 3 ≠ .error (.assertion .hInitSize) := by
      cases hrun
      intro h
      cases h
    rcases hz.refines_scoreOf.1 [97] 3 hassert with ⟨added, z', t', hrun', hz', hadded, hscore'⟩ | h
    · obtain rfl : added = false := by simpa [hscore₁] using hadded
      exact ⟨z, z', t, t', hz, hscore₁, hrun', hz', by rw [hscore', Function.update_self]⟩
    · cases hrun
      cases h.1
  · cases h.1

end

/-! ## The bytes of a name -/

/-- The array of a stored node, or of a search key: exactly the bytes of the name. -/
def NameArray.holding (name : Bytes) : NameArray := { name, len := name.length }

@[simp] theorem NameArray.holding_name (name : Bytes) : (holding name).name = name := rfl
@[simp] theorem NameArray.holding_len (name : Bytes) : (holding name).len = name.length := rfl

/-- `znode_new` writes only into the bytes that were reserved for the name. -/
def WritesInBounds (name : Bytes) : Prop :=
  ∀ fresh : Bytes, fresh.length = name.length →
    ∃ znode, znodeNewName fresh (.holding name) = .ok znode

/-- The comparisons of a node with another node or a search key, on either side, and the output of its
name read only bytes of the names. -/
structure ReadsInBounds (σ : Type) [LE σ] [LT σ] [DecidableLE σ] [DecidableLT σ] (name : Bytes) :
    Prop where
  zless : ∀ (zlScore score : σ) (key : Bytes),
    zlessAt (.holding name) zlScore score (.holding key) =
      .ok (zless { hashCode := stringHash name, score := zlScore, name } score key)
  zlessKey : ∀ (zlScore score : σ) (key : Bytes),
    zlessAt (.holding key) zlScore score (.holding name) =
      .ok (MiniRedis.zless { hashCode := stringHash key, score := zlScore, name := key } score name)
  hcmp : ∀ key : Bytes, hcmpAt (.holding name) (.holding key) = .ok (name == key)
  outStr : ∀ resp : Bytes, outStrAt resp (.holding name) = .ok (outStr resp name)

section
variable {σ : Type} [LE σ] [LT σ] [DecidableLE σ] [DecidableLT σ]

theorem memcmpAt_eq {lhs rhs : Bytes} {n : Nat} (hl : n ≤ lhs.length) (hr : n ≤ rhs.length) :
    memcmpAt lhs rhs n = .ok (memcmp lhs rhs n) := if_pos ⟨hl, hr⟩

theorem zlessAt_holding (zlScore score : σ) (name key : Bytes) :
    zlessAt (.holding name) zlScore score (.holding key) =
      .ok (zless { hashCode := stringHash name, score := zlScore, name } score key) := by
  have hread : memcmpAt name key (min name.length key.length) =
      .ok (memcmp name key (min name.length key.length)) :=
    memcmpAt_eq (Nat.min_le_left ..) (Nat.min_le_right ..)
  simp only [zlessAt, NameArray.holding_name, NameArray.holding_len, zless, nameLess, hread, ok_bind]
  split
  · rfl
  · cases memcmp name key (min name.length key.length) <;> rfl

theorem hcmpAt_holding (name key : Bytes) :
    hcmpAt (.holding name) (.holding key) = .ok (name == key) := by
  unfold hcmpAt
  split
  · next hne =>
    have hdiff : (name == key) = false := beq_eq_false_iff_ne.mpr fun h => by simp [h] at hne
    rw [hdiff]
    rfl
  · next heq =>
    have hlen : name.length = key.length := by simpa using heq
    have hread : memcmpAt name key name.length = .ok (memcmp name key name.length) :=
      memcmpAt_eq (Nat.le_refl _) (Nat.le_of_eq hlen)
    have hsame : (memcmp name key name.length == .eq) = (name == key) := by
      rw [Bool.eq_iff_iff, beq_iff_eq, beq_iff_eq, memcmp_eq_eq hlen]
    simp only [NameArray.holding_name, NameArray.holding_len, hread, ok_bind, hsame]
    rfl

theorem outStrAt_holding (resp name : Bytes) :
    outStrAt resp (.holding name) = .ok (outStr resp name) := by
  simp only [outStrAt, NameArray.holding_name, NameArray.holding_len, Nat.le_refl, if_true, List.take_length]
  rfl

theorem readsInBounds (name : Bytes) : ReadsInBounds σ name where
  zless zlScore score := zlessAt_holding zlScore score name
  zlessKey zlScore score key := zlessAt_holding zlScore score key name
  hcmp := hcmpAt_holding name
  outStr resp := outStrAt_holding resp name

end

/-- The terminator goes behind the name. -/
theorem storeByte_ok_iff {dst : Bytes} {i : Nat} {c : UInt8} :
    (∃ array, storeByte dst i c = .ok array) ↔ i < dst.length := by
  unfold storeByte
  split
  · next hlt => exact ⟨fun _ => hlt, fun _ => ⟨_, rfl⟩⟩
  · next hge =>
    refine ⟨fun ⟨array, hrun⟩ => ?_, fun hlt => absurd hlt hge⟩
    cases hrun

/-- The name is copied to the beginning of the block. -/
theorem znodeNewName_of_le {fresh name : Bytes} (h : name.length ≤ fresh.length) :
    znodeNewName fresh (.holding name) =
      (storeByte (name ++ fresh.drop name.length) name.length 0).map fun array =>
        { name := array, len := name.length } := by
  cases name with
  | nil => cases fresh <;> rfl
  | cons c name =>
    have hcopy : memcpyTo fresh (c :: name) (c :: name).length =
        .ok (c :: name ++ fresh.drop (c :: name).length) := by
      rw [memcpyTo, if_pos ⟨h, Nat.le_refl _⟩, List.take_length]
      rfl
    have hpos : (c :: name).length > 0 := Nat.succ_pos _
    simp only [znodeNewName, NameArray.holding_name, NameArray.holding_len, hpos, if_true, hcopy, ok_bind]
    cases storeByte (c :: name ++ fresh.drop (c :: name).length) (c :: name).length 0 <;> rfl

/-- With a byte for the NUL, the block holds the name and the NUL. -/
theorem znodeNewName_eq {fresh name : Bytes} (h : name.length < fresh.length) :
    znodeNewName fresh (.holding name) =
      .ok { name := name ++ 0 :: fresh.drop (name.length + 1), len := name.length } := by
  have hset : (name ++ fresh.drop name.length).set name.length 0 =
      name ++ 0 :: fresh.drop (name.length + 1) := by
    rw [List.drop_eq_getElem_cons h, List.set_append_right _ _ (Nat.le_refl _), Nat.sub_self, List.set_cons_zero]
  have hlt : name.length < (name ++ fresh.drop name.length).length := by
    rw [List.length_append, List.length_drop]
    omega
  rw [znodeNewName_of_le (Nat.le_of_lt h), storeByte, if_pos hlt, hset]
  rfl

/-- The writes stay inside exactly if there is a byte for the NUL. -/
theorem znodeNewName_ok_iff {fresh name : Bytes} :
    (∃ znode, znodeNewName fresh (.holding name) = .ok znode) ↔ name.length < fresh.length := by
  refine ⟨fun ⟨znode, hrun⟩ => ?_, fun hlt => ⟨_, znodeNewName_eq hlt⟩⟩
  by_cases hle : name.length ≤ fresh.length
  · rw [znodeNewName_of_le hle] at hrun
    cases hstore : storeByte (name ++ fresh.drop name.length) name.length 0 with
    | error e =>
      rw [hstore] at hrun
      cases hrun
    | ok array =>
      have hlt := storeByte_ok_iff.mp ⟨array, hstore⟩
      rw [List.length_append, List.length_drop] at hlt
      omega
  · have hpos : 0 < name.length := by omega
    have hshort : ¬ (name.length ≤ fresh.length ∧ name.length ≤ name.length) := fun h => hle h.1
    simp only [znodeNewName, NameArray.holding_len, NameArray.holding_name, gt_iff_lt, hpos, if_true,
      memcpyTo, hshort, if_false] at hrun
    cases hrun

/-- The bytes that `znodeNew` keeps are those that `znodeNewName` leaves in a block with room for them. -/
theorem znodeNew_name {σ : Type} {z z' : ZSet σ} {p : ZPtr} {fresh name : Bytes} {score : σ}
    (hrun : znodeNew z name score = .ok (p, z')) (hfresh : name.length < fresh.length) :
    ∃ array, znodeNewName fresh (.holding name) = .ok { name := array, len := (z'.node p).name.length } ∧
      array.take (z'.node p).name.length = (z'.node p).name ∧ array[(z'.node p).name.length]? = some 0 := by
  obtain ⟨_, -, hret⟩ := bind_eq_ok.mp hrun
  cases hret
  refine ⟨name ++ 0 :: fresh.drop (name.length + 1), ?_, ?_, ?_⟩
  · simpa only [Function.update_self] using znodeNewName_eq hfresh
  · simp
  · simp

/-- No block has a byte for the NUL. -/
theorem not_writesInBounds (name : Bytes) : ¬ WritesInBounds name := by
  intro hwrites
  obtain ⟨znode, hrun⟩ := hwrites name rfl
  exact Nat.lt_irrefl _ (znodeNewName_ok_iff.mp ⟨znode, hrun⟩)

/-- **The bytes of a name.** All reads of names are inside of the bytes that were reserved for them, but
`znode_new` always writes its NUL behind them. -/
theorem names_in_bounds_never (name : Bytes) :
    ¬ (WritesInBounds name ∧ ReadsInBounds Double name) ∧ ReadsInBounds Double name :=
  ⟨fun h => not_writesInBounds name h.1, readsInBounds name⟩

/-- The empty name: no byte is reserved, and the NUL is written. -/
theorem znodeNewName_overrun :
    znodeNewName [] (.holding []) = .error .memory ∧
      ¬ (WritesInBounds [] ∧ ReadsInBounds Double []) :=
  ⟨rfl, fun ⟨hwrites, _⟩ => by
    obtain ⟨znode, hrun⟩ := hwrites [] rfl
    cases hrun⟩

end MiniRedis
