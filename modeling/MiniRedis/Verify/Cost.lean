import MiniRedis.Verify.Query
import MiniRedis.Verify.HeapOrder

/-! # How many turns the loops take

The loops of the model have fuel for as many turns as there are addresses or items. The walks in a tree and
the sifts in a heap take no more turns than a multiple of the logarithm of the size: with that much fuel
they have the same results. -/

namespace MiniRedis

open BinaryTree

/-! ## More turns -/

/-- `y` returns what `x` returns. -/
def Extends (x y : Result α) : Prop := ∀ r, x = .ok r → y = .ok r

theorem Extends.refl (x : Result α) : Extends x x := fun _ h => h

theorem Extends.bind {x y : Result α} {f g : α → Result β} (h : Extends x y)
    (hf : ∀ a, Extends (f a) (g a)) : Extends (x >>= f) (y >>= g) := by
  intro r hrun
  obtain ⟨a, hx, hrun⟩ := bind_eq_ok.mp hrun
  exact bind_eq_ok.mpr ⟨a, h a hx, hf a r hrun⟩

/-! ## Trees -/

open AVLMem

section
variable {ν : Type} {m : AVLMem ν} {root : Option ν} {t : BinaryTree ν} {k turns more : Nat}

theorem searchPlace_more (goLeft : ν → Bool) (h : turns ≤ more) (parent : Option ν) (link : AVLLink ν)
    (target : Option ν) :
    Extends (searchPlace m goLeft turns parent link target) (searchPlace m goLeft more parent link target) := by
  induction turns generalizing more parent link target with
  | zero =>
    intro r hrun
    cases hrun
  | succ turns ih =>
    obtain ⟨more, rfl⟩ : ∃ n, more = n + 1 := ⟨more - 1, by omega⟩
    cases target with
    | none => exact .refl _
    | some p =>
      simp only [searchPlace]
      split
      · exact ih (Nat.le_of_succ_le_succ h) _ _ _
      · exact ih (Nat.le_of_succ_le_succ h) _ _ _

theorem leftmost_more (h : turns ≤ more) (victim : ν) :
    Extends (leftmost m turns victim) (leftmost m more victim) := by
  induction turns generalizing more victim with
  | zero =>
    intro r hrun
    cases hrun
  | succ turns ih =>
    obtain ⟨more, rfl⟩ : ∃ n, more = n + 1 := ⟨more - 1, by omega⟩
    simp only [leftmost]
    split
    · exact ih (Nat.le_of_succ_le_succ h) _
    · exact .refl _

variable [DecidableEq ν]

theorem avlFixTreeLoop_more (h : turns ≤ more) (m : AVLMem ν) (p : ν) :
    Extends (avlFixTreeLoop turns m p) (avlFixTreeLoop more m p) := by
  induction turns generalizing more m p with
  | zero =>
    intro r hrun
    cases hrun
  | succ turns ih =>
    obtain ⟨more, rfl⟩ : ∃ n, more = n + 1 := ⟨more - 1, by omega⟩
    refine (Extends.refl _).bind fun fixed => ?_
    dsimp only
    split
    · exact .refl _
    · exact ih (Nat.le_of_succ_le_succ h) _ _

theorem avlAttachWithin_more (h : turns ≤ more) (p : ν) (goLeft : ν → Bool) :
    Extends (avlAttachWithin turns m root p goLeft) (avlAttachWithin more m root p goLeft) :=
  (searchPlace_more goLeft h none .var root).bind fun _ => avlFixTreeLoop_more h _ p

theorem avlDeleteOneChildWithin_more (h : turns ≤ more) (m : AVLMem ν) (p : ν) :
    Extends (avlDeleteOneChildWithin turns m p) (avlDeleteOneChildWithin more m p) := by
  refine (Extends.refl _).bind fun _ => ?_
  dsimp only
  split
  · exact .refl _
  · exact (avlFixTreeLoop_more h _ _).bind fun _ => .refl _

theorem avlDeleteWithin_more (h : turns ≤ more) (p : ν) :
    Extends (avlDeleteWithin turns m p) (avlDeleteWithin more m p) := by
  simp only [avlDeleteWithin]
  split
  · refine (leftmost_more h _).bind fun victim => ?_
    exact (avlDeleteOneChildWithin_more h m victim).bind fun _ => .refl _
  · exact avlDeleteOneChildWithin_more h m p

omit [DecidableEq ν] in
theorem IsTree.height_le (h : IsTree m root t) (hn : t.numNodes < 2 ^ k) : t.height ≤ 2 * k + 1 :=
  h.balanced.height_le hn

/-- The search for a place takes one turn for each level and one more, and so does the repair. -/
theorem IsTree.attach_turns {p : ν} (h : IsTree m root t) (hp : p ∉ t.inorder)
    (hfresh : m p = { height := 1, cnt := 1 }) (hlen : t.numNodes < addressSpace)
    (hturns : t.height < turns) (goLeft : ν → Bool) :
    avlAttachWithin turns m root p goLeft = avlAttach m root p goLeft := by
  obtain ⟨root', m', hrun, -⟩ := h.attachWithin hp hfresh hlen (Nat.lt_succ_self _) goLeft
  have hwithin := avlAttachWithin_more hturns p goLeft _ hrun
  have hall := avlAttachWithin_more h.height_lt p goLeft _ hrun
  rw [← avlAttachWithin_addressSpace, hwithin, hall]

/-- The search for the successor goes down the tree, and the repair goes up. -/
theorem IsTree.delete_turns {p : ν} (h : IsTree m root t) (hp : p ∈ t.inorder) (hturns : t.height < turns) :
    avlDeleteWithin turns m p = avlDelete m p := by
  obtain ⟨root', m', t', hrun, -⟩ := h.deleteWithin hp (Nat.lt_succ_self _)
  have hwithin := avlDeleteWithin_more hturns p _ hrun
  have hall := avlDeleteWithin_more h.height_lt p _ hrun
  rw [← avlDeleteWithin_addressSpace, hwithin, hall]

/-- The walk goes up once and down once. -/
theorem IsTree.avlOffset_turns {p : ν} (h : IsTree m root t) (hsmall : t.numNodes < 2 ^ 32)
    (hturns : 2 * t.height ≤ turns) (hp : p ∈ t.inorder) (offset : Int32) :
    avlOffsetLoop m offset.toInt turns p 0 = avlOffset m (some p) offset := by
  obtain ⟨l, r, path, rfl⟩ := exists_plug_of_mem hp
  have hpath := length_add_height_le (node p l r) path
  have hall := height_lt_of_balanced h.balanced h.numNodes_le
  have hwalk : ∀ turns, 2 * ((node p l r).plug path).height ≤ turns →
      avlOffsetLoop m offset.toInt turns p 0 = .ok (atRank ((node p l r).plug path).inorder
        ((before path).length + l.numNodes + (offset.toInt - 0))) := by
    intro turns hturns
    exact h.rep.offsetLoop_eq h.nodup hsmall (by omega)
  rw [avlOffset, hwalk turns hturns, hwalk addressSpace (by simp only [addressSpace]; omega)]

end

/-! ## Sorted sets -/

section
variable {σ : Type} [Preorder σ] [DecidableLE σ] [DecidableLT σ] {z : ZSet σ} {t : BinaryTree ZPtr}
  {k turns : Nat}

theorem ZSet.WF.numNodes_eq (h : z.WF t) : t.numNodes = hmSize z.hmap := by
  rw [h.hmap.hmSize, ← length_inorder, ← h.refs.length_eq, List.length_map]

/-- The search of a range query takes one turn for each level, and one more. -/
theorem ZSet.WF.seek_turns (h : z.WF t) (hturns : t.height < turns) (score : σ) (name : Bytes) :
    seekLoop z score name turns z.root none =
      .ok (t.inorder.find? fun q => !zless (z.node q) score name) := by
  rw [h.tree.root, seekLoop_eq h.tree.rep h.sorted hturns, Option.or_none]

/-- A new node is attached before the first member that comes after it. -/
theorem ZSet.WF.attach_turns {p : ZPtr} (h : z.WF t) (hp : p ∉ t.inorder) (hlen : t.numNodes < addressSpace)
    (hturns : t.height < turns) (new : ZNode σ) :
    let goLeft q := zless new (z.node q).score (z.node q).name
    ∃ root tree t', avlAttachWithin turns (avlInit z.tree p) z.root p goLeft = .ok (root, tree) ∧
      avlAttach (avlInit z.tree p) z.root p goLeft = .ok (root, tree) ∧ IsTree tree (some root) t' ∧
      t'.inorder = t.inorder.takeWhile (!goLeft ·) ++ p :: t.inorder.dropWhile (!goLeft ·) := by
  intro goLeft
  have hinit := h.tree.init hp
  have hfresh : avlInit z.tree p p = { height := 1, cnt := 1 } := AVLMem.store_self ..
  have hsame := hinit.attach_turns hp hfresh hlen hturns goLeft
  obtain ⟨root, tree, hrun, htree, -⟩ := hinit.attach hp hfresh hlen goLeft
  refine ⟨root, tree, _, hsame.trans hrun, hrun, htree, ?_⟩
  -- What is behind a member that comes after the new node comes after it too.
  have hsplit : t.inorder.Pairwise fun a b => goLeft a → goLeft b :=
    h.sorted.imp fun hab ha => ZNode.Before.trans ha hab
  obtain ⟨hbefore, hafter⟩ := descend_split hsplit []
  rw [inorder_rebuild, hbefore, hafter]
  simp [before, after]

/-- **Logarithmic walks.** In a set of less than `2 ^ k` members, each loop of `zset_seek_greater_equal`, of
`tree_insert` with the repair of the tree, and of `avl_delete` ends within `2 * k + 2` turns. The loop of
`avl_offset` ends within twice as many, from any member and however long the offset is. Each has the result
that it should have: the first member that is not before the key, a balanced tree with one node more or one
less in the order of the set, and the member at the distance `offset`. -/
theorem zset_walks_logarithmic (h : z.WF t) (hn : hmSize z.hmap < 2 ^ k) (hk : k ≤ 32)
    (hturns : 2 * k + 2 ≤ turns) :
    (∀ score name,
      seekLoop z score name turns z.root none = .ok (t.inorder.find? fun q => !zless (z.node q) score name) ∧
      zsetSeekGreaterEqual z score name = .ok (t.inorder.find? fun q => !zless (z.node q) score name)) ∧
    (∀ p, p ∉ t.inorder → ∀ new : ZNode σ,
      let goLeft q := zless new (z.node q).score (z.node q).name
      ∃ root tree t', avlAttachWithin turns (avlInit z.tree p) z.root p goLeft = .ok (root, tree) ∧
        avlAttach (avlInit z.tree p) z.root p goLeft = .ok (root, tree) ∧ IsTree tree (some root) t' ∧
        t'.inorder = t.inorder.takeWhile (!goLeft ·) ++ p :: t.inorder.dropWhile (!goLeft ·)) ∧
    (∀ p ∈ t.inorder, ∃ root tree t', avlDeleteWithin turns z.tree p = .ok (root, tree) ∧
      avlDelete z.tree p = .ok (root, tree) ∧ IsTree tree root t' ∧ t'.inorder = t.inorder.erase p) ∧
    ∀ (i : Nat) (p : ZPtr), t.inorder[i]? = some p → ∀ offset : Int32,
      avlOffsetLoop z.tree offset.toInt (2 * turns) p 0 = .ok (atRank t.inorder (i + offset.toInt)) ∧
      avlOffset z.tree (some p) offset = .ok (atRank t.inorder (i + offset.toInt)) := by
  rw [← h.numNodes_eq] at hn
  have hheight := h.tree.height_le hn
  have hsmall : t.numNodes < 2 ^ 32 := Nat.lt_of_lt_of_le hn (Nat.pow_le_pow_right Nat.two_pos hk)
  refine ⟨?_, ?_, ?_, ?_⟩
  · intro score name
    exact ⟨h.seek_turns (by omega) score name, h.seek_turns h.tree.height_lt score name⟩
  · intro p hp new
    exact h.attach_turns hp (by simp only [addressSpace]; omega) (by omega) new
  · intro p hp
    have hsame := h.tree.delete_turns hp (show t.height < turns by omega)
    obtain ⟨root, tree, t', hrun, htree, hin, -⟩ := h.tree.delete hp
    exact ⟨root, tree, t', hsame.trans hrun, hrun, htree, hin⟩
  · intro i p hp offset
    have hsame := h.tree.avlOffset_turns hsmall (show 2 * t.height ≤ 2 * turns by omega)
      (List.mem_of_getElem? hp) offset
    have hrun := h.tree.offset_eq hsmall hp offset
    exact ⟨hsame.trans hrun, hrun⟩

/-- Three members, the one with the lowest score last. -/
def threeMembers : Result (ZSet Int) := do
  let (_, z) ← zsetInsert ZSet.empty [97] 5
  let (_, z) ← zsetInsert z [98] 7
  let (_, z) ← zsetInsert z [99] 3
  return z

/-- Six turns are enough for three members, and twelve for the steps from one to another. -/
theorem zset_walks_logarithmic_three :
    ∃ (z : ZSet Int) (t : BinaryTree ZPtr), threeMembers = .ok z ∧ z.WF t ∧ t.numNodes = 3 ∧
      seekLoop z 4 [] 6 z.root none = .ok (some 0) ∧
      (∀ p ∈ t.inorder, ∃ root tree t', avlDeleteWithin 6 z.tree p = .ok (root, tree) ∧
        IsTree tree root t' ∧ t'.inorder = t.inorder.erase p) ∧
      ∀ (i : Nat) (p : ZPtr), t.inorder[i]? = some p →
        avlOffsetLoop z.tree (Int32.toInt (-1)) 12 p 0 = .ok (atRank t.inorder (i + Int32.toInt (-1))) := by
  obtain ⟨z, hz⟩ : ∃ z, threeMembers = .ok z := ⟨_, rfl⟩
  have hsize : hmSize z.hmap = 3 := eq_of_toOption_map (f := fun z => hmSize z.hmap) hz (by decide +kernel)
  have hseek : zsetSeekGreaterEqual z 4 [] = .ok (some 0) := by
    cases hz
    rfl
  obtain ⟨⟨_, z₁⟩, hrun₁, hz'⟩ := bind_eq_ok.mp hz
  obtain ⟨⟨_, z₂⟩, hrun₂, hz'⟩ := bind_eq_ok.mp hz'
  obtain ⟨⟨_, z₃⟩, hrun₃, hz'⟩ := bind_eq_ok.mp hz'
  obtain rfl : z₃ = z := Except.ok.inj hz'
  obtain ⟨⟨t₁, h₁⟩, -⟩ := ZSet.WF.empty.inserted hrun₁
  obtain ⟨⟨t₂, h₂⟩, -⟩ := h₁.inserted hrun₂
  obtain ⟨⟨t, h⟩, -⟩ := h₂.inserted hrun₃
  obtain ⟨hfirst, -, hdelete, hoffset⟩ :=
    zset_walks_logarithmic (k := 2) h (hsize ▸ by decide) (by decide) (Nat.le_refl 6)
  obtain ⟨hwithin, hall⟩ := hfirst 4 []
  refine ⟨z₃, t, hz, h, h.numNodes_eq.trans hsize, hwithin.trans (hall.symm.trans hseek), fun p hp => ?_,
    fun i p hp => (hoffset i p hp (-1)).1⟩
  obtain ⟨root, tree, t', hrun, -, htree, hin⟩ := hdelete p hp
  exact ⟨root, tree, t', hrun, htree, hin⟩

end

/-! ## Heaps -/

theorem bind_congr_of_ok {x : Result α} {f g : α → Result β} (h : ∀ a, x = .ok a → f a = g a) :
    x >>= f = x >>= g := by
  cases x with
  | error e => rfl
  | ok a => exact h a rfl

namespace Heap

variable {ρ : Type} {heap heap' : Heap ρ} {pos len child f g : Nat} {temp : HeapItem ρ}
  {smallest smallest' : Nat × UInt64}

/-- Moving up halves the position. -/
theorem upLoop_fuel [DecidableEq ρ] (hf : pos + 1 < 2 ^ f) (hg : pos + 1 < 2 ^ g) :
    upLoop temp f heap pos = upLoop temp g heap pos := by
  induction f generalizing g heap pos with
  | zero => omega
  | succ f ih =>
    cases g with
    | zero => omega
    | succ g =>
      simp only [upLoop]
      split
      · next hpos =>
        refine bind_congr fun up => ?_
        split
        · refine bind_congr fun heap' => ih ?_ ?_
          all_goals
            simp only [parent, Nat.pow_succ] at *
            omega
        · rfl
      · rfl

/-- Moving down doubles the position. -/
theorem downLoop_fuel [DecidableEq ρ] (hf : len < (pos + 1) * 2 ^ f) (hg : len < (pos + 1) * 2 ^ g) :
    downLoop temp len (f + 1) heap pos = downLoop temp len (g + 1) heap pos := by
  have hdouble : ∀ {pos c n}, 2 * (pos + 1) ≤ c + 1 → len < (pos + 1) * 2 ^ (n + 1) →
      len < (c + 1) * 2 ^ n := by
    intro pos c n hc hlt
    calc len < 2 * (pos + 1) * 2 ^ n := by rwa [Nat.mul_comm 2, Nat.mul_assoc, ← Nat.pow_succ']
      _ ≤ (c + 1) * 2 ^ n := Nat.mul_le_mul_right _ hc
  induction f generalizing g heap pos with
  | zero =>
    rw [downLoop, downLoop]
    refine bind_congr_of_ok fun left hleft => bind_congr_of_ok fun right hright => ?_
    rcases smallest_cases hleft hright with ⟨hsame, -⟩ | ⟨-, hchild, -⟩
    · rw [if_pos hsame, if_pos hsame]
    · have hdown := isHeapChild_iff.mp hchild
      omega
  | succ f ih =>
    rw [downLoop, downLoop]
    refine bind_congr_of_ok fun left hleft => bind_congr_of_ok fun right hright => ?_
    rcases smallest_cases hleft hright with ⟨hsame, -⟩ | ⟨hne, hchild, -⟩
    · rw [if_pos hsame, if_pos hsame]
    · rw [if_neg hne, if_neg hne]
      have hdown := isHeapChild_iff.mp hchild
      refine bind_congr fun item => bind_congr fun heap' => ?_
      cases g with
      | zero => omega
      | succ g => exact ih (hdouble (by omega) hf) (hdouble (by omega) hg)

end Heap

namespace Heap

variable {ρ : Type} [DecidableEq ρ] {heap : Heap ρ} {pos k fuel : Nat}

theorem heapUp_turns (hn : heap.items.length < 2 ^ k) (hfuel : k + 1 ≤ fuel) (hpos : pos < heap.items.length) :
    heap.heapUp pos = (do upLoop (← index heap.items pos) fuel heap pos) := by
  have hself : pos + 1 < 2 ^ (pos + 1) := Nat.lt_two_pow_self
  have hall : 2 ^ (k + 1) ≤ 2 ^ fuel := Nat.pow_le_pow_right Nat.two_pos hfuel
  rw [Nat.pow_succ] at hall
  exact bind_congr fun temp => upLoop_fuel hself (by omega)

theorem heapDown_turns (hn : heap.items.length < 2 ^ k) (hfuel : k + 1 ≤ fuel) :
    heap.heapDown pos heap.items.length =
      (do downLoop (← index heap.items pos) heap.items.length fuel heap pos) := by
  obtain ⟨fuel, rfl⟩ : ∃ n, fuel = n + 1 := ⟨fuel - 1, by omega⟩
  have hall : 2 ^ k ≤ 2 ^ fuel := Nat.pow_le_pow_right Nat.two_pos (by omega)
  have hmul : ∀ n, 2 ^ n ≤ (pos + 1) * 2 ^ n := fun n => Nat.le_mul_of_pos_left _ (Nat.succ_pos pos)
  have hself : heap.items.length < (pos + 1) * 2 ^ heap.items.length :=
    Nat.lt_of_lt_of_le Nat.lt_two_pow_self (hmul _)
  have hdown : heap.items.length < (pos + 1) * 2 ^ fuel :=
    Nat.lt_of_lt_of_le hn (Nat.le_trans hall (hmul _))
  exact bind_congr fun temp => downLoop_fuel hself hdown

end Heap

section
open Heap

/-- **Logarithmic sifts.** In a heap of less than `2 ^ k` items, the loops of `heap_up` and `heap_down` end
within `k + 1` turns from any position. They keep the items, and if the one at `pos` was too early or too late
for its place and all others were in order, the heap is in order afterwards. -/
theorem heap_sifts_logarithmic {ρ : Type} [DecidableEq ρ] {heap : Heap ρ} {pos k fuel : Nat}
    (hn : heap.items.length < 2 ^ k) (hfuel : k + 1 ≤ fuel) (hpos : pos < heap.items.length) :
    (∃ heap', heap.heapUp pos = .ok heap' ∧
      (do upLoop (← index heap.items pos) fuel heap pos) = .ok heap' ∧ heap'.items.Perm heap.items ∧
      (HeapHole (key heap.items) heap.items.length pos →
        (∀ c, IsHeapChild heap.items.length c pos → key heap.items pos ≤ key heap.items c) → heap'.Ordered)) ∧
    ∃ heap', heap.heapDown pos heap.items.length = .ok heap' ∧
      (do downLoop (← index heap.items pos) heap.items.length fuel heap pos) = .ok heap' ∧
      heap'.items.Perm heap.items ∧
      (HeapHole (key heap.items) heap.items.length pos →
        (0 < pos → key heap.items (heapParent pos) ≤ key heap.items pos) → heap'.Ordered) := by
  have hitem := List.getElem?_eq_getElem hpos
  have hkey := key_of_some hitem
  obtain ⟨up, hup, hupPerm⟩ := heapUp_perm hpos
  obtain ⟨down, hdown, hdownPerm⟩ := heapDown_perm hpos
  refine ⟨⟨up, hup, (heapUp_turns hn hfuel hpos).symm.trans hup, hupPerm, fun hhole hbelow => ?_⟩,
    down, hdown, (heapDown_turns hn hfuel).symm.trans hdown, hdownPerm, fun hhole habove => ?_⟩
  · rw [heapUp, index_eq_ok.mpr hitem, ok_bind] at hup
    exact upLoop_ordered hup hhole (hkey ▸ hbelow)
  · rw [heapDown, index_eq_ok.mpr hitem, ok_bind] at hdown
    exact downLoop_ordered hdown rfl hhole (hkey ▸ habove)

/-- Three turns are enough to take the earliest of three items to the top. -/
theorem heap_sifts_logarithmic_three :
    let heap : Heap Nat := { items := [⟨5, 0⟩, ⟨9, 1⟩, ⟨1, 2⟩], idx := fun ref => ref }
    ∃ heap', heap.heapUp 2 = .ok heap' ∧ (do Heap.upLoop (← index heap.items 2) 3 heap 2) = .ok heap' ∧
      heap'.items = [⟨1, 2⟩, ⟨9, 1⟩, ⟨5, 0⟩] ∧ heap'.items.Perm heap.items := by
  intro heap
  have hn : heap.items.length < 2 ^ 2 := by decide
  have hpos : 2 < heap.items.length := by decide
  obtain ⟨⟨heap', hup, hwithin, hperm, -⟩, -⟩ := heap_sifts_logarithmic hn (Nat.le_refl 3) hpos
  have hitems : heap'.items = [⟨1, 2⟩, ⟨9, 1⟩, ⟨5, 0⟩] :=
    eq_of_toOption_map (f := fun h => h.items) hup (by decide)
  exact ⟨heap', hup, hwithin, hitems, hperm⟩

end

end MiniRedis
