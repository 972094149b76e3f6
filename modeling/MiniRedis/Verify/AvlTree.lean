import MiniRedis.Verify.AvlRep

/-! # Insertion into and deletion from the pointer tree

The part of a tree around a subtree is described by its path: `PathRep` with exact statistics, and
`PathLinks` with statistics that may be stale while the repair loop is on its way up. The loop
computes `BinaryTree.rebuild`; insertion and deletion are that loop started at the place of the
change. -/

namespace MiniRedis

open BinaryTree AVLMem

section
variable {ν : Type} {m m' : AVLMem ν} {parent child : Option ν} {p q : ν} {t l r : BinaryTree ν}
  {c : Crumb ν} {path : List (Crumb ν)}

/-! ## The part of the tree around a subtree -/

/-- The parent of the root of a subtree at the end of a path. -/
def pathParent : List (Crumb ν) → Option ν
  | [] => none
  | c :: _ => some c.value

/-- The link to a subtree at the end of a path. -/
def pathLink : List (Crumb ν) → AVLLink ν
  | [] => .var
  | .left a _ :: _ => .left a
  | .right a _ :: _ => .right a

/-- The subtrees of a crumb's node once a subtree is put back. -/
def crumbLeft (t : BinaryTree ν) : Crumb ν → BinaryTree ν
  | .left _ _ => t
  | .right _ l => l

def crumbRight (t : BinaryTree ν) : Crumb ν → BinaryTree ν
  | .left _ r => r
  | .right _ _ => t

/-- The children of a crumb's node when the hole holds `child`. -/
def childLeft (child : Option ν) : Crumb ν → Option ν
  | .left _ _ => child
  | .right _ l => l.root?

def childRight (child : Option ν) : Crumb ν → Option ν
  | .left _ r => r.root?
  | .right _ _ => child

theorem crumb_plug (t : BinaryTree ν) (c : Crumb ν) :
    c.plug t = node c.value (crumbLeft t c) (crumbRight t c) := by
  cases c <;> rfl

theorem crumb_refit (t : BinaryTree ν) (c : Crumb ν) :
    c.refit t = rebalance c.value (crumbLeft t c) (crumbRight t c) := by
  cases c <;> rfl

/-- Exact links around a hole that holds `child`; the statistics of the nodes on the path may be
stale. -/
def PathLinks (m : AVLMem ν) : Option ν → List (Crumb ν) → Prop
  | _, [] => True
  | child, c :: path =>
    ((m c.value).parent = pathParent path ∧ (m c.value).left = childLeft child c ∧
      (m c.value).right = childRight child c) ∧
    Rep m (some c.value) c.sibling ∧ PathLinks m (some c.value) path

/-- Exact links and statistics around a hole that holds a tree with root `child`, height `h` and
`n` nodes. -/
def PathRep (m : AVLMem ν) : Option ν → (h n : Nat) → List (Crumb ν) → Prop
  | _, _, _, [] => True
  | child, h, n, c :: path =>
    m c.value = {
      parent := pathParent path, left := childLeft child c, right := childRight child c
      height := .ofNat (max h c.sibling.height + 1)
      cnt := .ofNat (n + c.sibling.numNodes + 1) } ∧
    Rep m (some c.value) c.sibling ∧
    PathRep m (some c.value) (max h c.sibling.height + 1) (n + c.sibling.numNodes + 1) path

theorem PathRep.links {h n : Nat} (hrep : PathRep m child h n path) : PathLinks m child path := by
  induction path generalizing child h n with
  | nil => trivial
  | cons c path ih =>
    obtain ⟨hc, hs, hpath⟩ := hrep
    exact ⟨⟨by rw [hc], by rw [hc], by rw [hc]⟩, hs, ih hpath⟩

/-- A represented tree splits at every subtree. -/
theorem rep_plug :
    Rep m none (t.plug path) ↔
      Rep m (pathParent path) t ∧ PathRep m t.root? t.height t.numNodes path := by
  induction path generalizing t with
  | nil => simp [plug, pathParent, PathRep]
  | cons c path ih =>
    rw [plug, ih]
    cases c with
    | left a r =>
      simp only [Crumb.plug, Rep, cell, PathRep, root?_node, pathParent, Crumb.value,
        Crumb.sibling, childLeft, childRight, height, numNodes]
      tauto
    | right a l =>
      simp only [Crumb.plug, Rep, cell, PathRep, root?_node, pathParent, Crumb.value,
        Crumb.sibling, childLeft, childRight, height, numNodes, max_comm l.height,
        Nat.add_comm l.numNodes]
      tauto

/-- The nodes of a path's crumbs. -/
theorem mem_crumb {x : ν} (hx : x = c.value ∨ x ∈ c.sibling.inorder) :
    x ∈ before (c :: path) ∨ x ∈ after (c :: path) := by
  cases c <;> simp only [before, after, Crumb.before, Crumb.after, Crumb.value, Crumb.sibling,
    List.mem_append, List.mem_cons] at * <;> tauto

theorem mem_path_cons {x : ν} (hx : x ∈ before path ∨ x ∈ after path) :
    x ∈ before (c :: path) ∨ x ∈ after (c :: path) := by
  simp only [before, after, List.mem_append]
  tauto

theorem PathLinks.congr (h : PathLinks m child path)
    (hm : ∀ x, x ∈ before path ∨ x ∈ after path → m' x = m x) : PathLinks m' child path := by
  induction path generalizing child with
  | nil => trivial
  | cons c path ih =>
    obtain ⟨hc, hs, hpath⟩ := h
    have hv := hm c.value (mem_crumb (.inl rfl))
    exact ⟨by rwa [hv], hs.congr fun x hx => hm x (mem_crumb (.inr hx)),
      ih hpath fun x hx => hm x (mem_path_cons hx)⟩

theorem PathRep.congr {h n : Nat} (hrep : PathRep m child h n path)
    (hm : ∀ x, x ∈ before path ∨ x ∈ after path → m' x = m x) : PathRep m' child h n path := by
  induction path generalizing child h n with
  | nil => trivial
  | cons c path ih =>
    obtain ⟨hc, hs, hpath⟩ := hrep
    have hv := hm c.value (mem_crumb (.inl rfl))
    exact ⟨by rw [hv, hc], hs.congr fun x hx => hm x (mem_crumb (.inr hx)),
      ih hpath fun x hx => hm x (mem_path_cons hx)⟩

theorem pathParent_mem {a : ν} (ha : pathParent path = some a) :
    a ∈ before path ∨ a ∈ after path := by
  cases path with
  | nil => cases ha
  | cons c path =>
    obtain rfl : c.value = a := Option.some.inj ha
    exact mem_crumb (.inl rfl)

/-- The nodes of a subtree and of the path above it are distinct. -/
theorem notMem_path (hnd : (t.plug path).inorder.Nodup) {x : ν} (hx : x ∈ t.inorder) :
    x ∉ before path ∧ x ∉ after path := by
  rw [inorder_plug] at hnd
  grind

theorem nodup_path (hnd : (t.plug path).inorder.Nodup) : (before path ++ after path).Nodup := by
  rw [inorder_plug] at hnd
  grind

theorem nodup_hole (hnd : (t.plug path).inorder.Nodup) : t.inorder.Nodup := by
  rw [inorder_plug] at hnd
  grind

/-- The crumb's node is neither in its sibling nor higher up the path. -/
theorem value_notMem (hnd : (before (c :: path) ++ after (c :: path)).Nodup) :
    c.value ∉ c.sibling.inorder ∧ c.value ∉ before path ∧ c.value ∉ after path := by
  cases c <;> simp only [before, after, Crumb.before, Crumb.after, Crumb.value,
    Crumb.sibling] at * <;> grind

variable [DecidableEq ν]

theorem pathLink_store_of_ne {v : Option ν} {x : ν} (hx : pathParent path ≠ some x) :
    (pathLink path).store m v x = m x := by
  match path with
  | [] => rfl
  | .left a r :: path => exact setLeft_of_ne (fun h => hx (by rw [h]; rfl)) _
  | .right a l :: path => exact setRight_of_ne (fun h => hx (by rw [h]; rfl)) _

/-- The link computed by comparing pointers is the link of the path. -/
theorem PathLinks.childLink_eq (h : PathLinks m (some p) path)
    (hp : p ∉ before path ∧ p ∉ after path) : childLink m (pathParent path) p = pathLink path := by
  match path with
  | [] => rfl
  | .left a r :: path =>
    have hleft : (m a).left = some p := h.1.2.1
    simp [childLink, pathParent, Crumb.value, hleft, pathLink]
  | .right a l :: path =>
    have hleft : (m a).left = l.root? := h.1.2.1
    have hne : l.root? ≠ some p := fun hroot => hp.1 (by
      simp [before, Crumb.before, root?_mem hroot])
    simp [childLink, pathParent, Crumb.value, hleft, hne, pathLink]

/-- What the stored link does to the crumb's node. -/
theorem pathLink_store_self
    (h : (m c.value).left = childLeft child c ∧ (m c.value).right = childRight child c)
    (path : List (Crumb ν)) (v : Option ν) :
    (pathLink (c :: path)).store m v c.value =
      { m c.value with left := childLeft v c, right := childRight v c } := by
  cases c with
  | left a r =>
    have hright : (m a).right = r.root? := h.2
    simp [pathLink, AVLLink.store, Crumb.value, childLeft, childRight, ← hright]
  | right a l =>
    have hleft : (m a).left = l.root? := h.1
    simp [pathLink, AVLLink.store, Crumb.value, childLeft, childRight, ← hleft]

theorem PathLinks.store (h : PathLinks m child path)
    (hnd : (before path ++ after path).Nodup) (v : Option ν) :
    PathLinks ((pathLink path).store m v) v path := by
  cases path with
  | nil => trivial
  | cons c path =>
    obtain ⟨⟨h1, h2⟩, hs, hpath⟩ := h
    obtain ⟨hv1, hv2⟩ := value_notMem hnd
    have hself := pathLink_store_self h2 path v
    have hother : ∀ x, x ≠ c.value → (pathLink (c :: path)).store m v x = m x := fun x hx =>
      pathLink_store_of_ne fun e => hx (Option.some.inj e).symm
    refine ⟨⟨by rw [hself, h1], by rw [hself], by rw [hself]⟩, hs.congr fun x hx => ?_,
      hpath.congr fun x hx => ?_⟩
    · exact hother x (ne_of_mem_of_not_mem hx hv1)
    · exact hother x (by grind)

theorem PathRep.store {h n : Nat} (hrep : PathRep m child h n path)
    (hnd : (before path ++ after path).Nodup) (v : Option ν) :
    PathRep ((pathLink path).store m v) v h n path := by
  cases path with
  | nil => trivial
  | cons c path =>
    obtain ⟨h1, hs, hpath⟩ := hrep
    obtain ⟨hv1, hv2⟩ := value_notMem hnd
    have h2 : (m c.value).left = childLeft child c ∧ (m c.value).right = childRight child c :=
      ⟨by rw [h1], by rw [h1]⟩
    have hself := pathLink_store_self h2 path v
    have hother : ∀ x, x ≠ c.value → (pathLink (c :: path)).store m v x = m x := fun x hx =>
      pathLink_store_of_ne fun e => hx (Option.some.inj e).symm
    refine ⟨by rw [hself, h1], hs.congr fun x hx => ?_, hpath.congr fun x hx => ?_⟩
    · exact hother x (ne_of_mem_of_not_mem hx hv1)
    · exact hother x (by grind)

omit [DecidableEq ν] in
theorem PathLinks.fork (h : PathLinks m t.root? (c :: path)) (ht : Rep m (some c.value) t) :
    Fork m (pathParent path) c.value (crumbLeft t c) (crumbRight t c) := by
  obtain ⟨⟨h1, h2, h3⟩, hs, -⟩ := h
  cases c with
  | left a r => exact ⟨h1, h2, h3, ht, hs⟩
  | right a l => exact ⟨h1, h2, h3, hs, ht⟩

omit [DecidableEq ν] in
theorem PathLinks.link_eq (h : PathLinks m (some p) path) (a : ν) (ha : pathParent path = some a) :
    (m a).left = some p ∨ (m a).right = some p := by
  match path with
  | [] => cases ha
  | .left b r :: path =>
    cases ha
    exact .inl h.1.2.1
  | .right b l :: path =>
    cases ha
    exact .inr h.1.2.2

/-! ## The repair loop -/

omit [DecidableEq ν] in
theorem height_lt_of_balanced (h : t.Balanced) (hlen : t.numNodes ≤ addressSpace) :
    t.height < 2 ^ 28 := by
  have := h.height_le (k := 65) (by simp only [addressSpace] at hlen; omega)
  omega

/-- One round of the loop, with the link described by the path. -/
theorem Fork.fixNode_path (hf : Fork m (pathParent path) p l r) (hpath : PathLinks m (some p) path)
    (hnd : ((node p l r).plug path).inorder.Nodup)
    (hlen : ((node p l r).plug path).numNodes ≤ addressSpace) (hl : l.Balanced)
    (hr : r.Balanced) :
    ∃ root m₁, avlFixNode m p = .ok (root, (pathLink path).store m₁ (some root)) ∧
      Turned m (pathParent path) (.node p l r) (rebalance p l r) root m₁ := by
  have hp : p ∈ (node p l r).inorder := by simp
  have hnum := numNodes_le_plug (node p l r) path
  simp only [numNodes] at hnum
  obtain ⟨root, m₁, hrun, ht⟩ := hf.fixNode_turned hpath.link_eq (fun a ha hmem => by
    have := notMem_path hnd hmem
    exact (pathParent_mem ha).elim this.1 this.2) (nodup_hole hnd)
    (height_lt_of_balanced hl (by omega)) (height_lt_of_balanced hr (by omega))
  rw [hpath.childLink_eq (notMem_path hnd hp)] at hrun
  exact ⟨root, m₁, hrun, ht⟩

/-- The loop started at a node whose subtrees are balanced and whose path belonged to a balanced
tree computes `rebuild`. The induction is on the path; at each node the part below is exact and the
part above has exact links and old statistics. -/
theorem Fork.fixTreeLoop_turned {h fuel : Nat} (hf : Fork m (pathParent path) p l r)
    (hpath : PathLinks m (some p) path) (hnd : ((node p l r).plug path).inorder.Nodup)
    (hlen : ((node p l r).plug path).numNodes ≤ addressSpace) (hl : l.Balanced) (hr : r.Balanced)
    (hlr : l.height ≤ r.height + 2) (hrl : r.height ≤ l.height + 2) (hb : PathBalanced h path)
    (hlo : h ≤ (rebalance p l r).height + 1) (hhi : (rebalance p l r).height ≤ h + 1)
    (hfuel : path.length < fuel) :
    ∃ root m', avlFixTreeLoop fuel m p = .ok (root, m') ∧
      Turned m none ((node p l r).plug path) ((rebalance p l r).rebuild path) root m' := by
  induction path generalizing m p l r h fuel with
  | nil =>
    obtain ⟨fuel, rfl⟩ := Nat.exists_eq_add_of_lt hfuel
    obtain ⟨root, m₁, hrun, ht⟩ := hf.fixNode_path hpath hnd hlen hl hr
    refine ⟨root, m₁, ?_, ht⟩
    simp [avlFixTreeLoop, hf.parent, hrun, pathParent, pathLink, AVLLink.store]
  | cons c path ih =>
    obtain ⟨fuel, rfl⟩ : ∃ n, fuel = n + 1 := ⟨fuel - 1, by simp at hfuel; omega⟩
    obtain ⟨root, m₁, hrun, ht⟩ := hf.fixNode_path hpath hnd hlen hl hr
    obtain ⟨hbal, -⟩ := hl.rebalance (a := p) hr hlr hrl
    obtain ⟨hc, h1, h2, hrest⟩ := hb
    obtain ⟨-, h3, h4⟩ := balanced_refit hbal hc h1 h2 hlo hhi
    generalize ht' : rebalance p l r = t at *
    have hinorder : t.inorder = (node p l r).inorder := by rw [← ht', inorder_rebalance]; rfl
    have hmem : ∀ x, x ∈ (node p l r).inorder → x ∉ before (c :: path) ∧ x ∉ after (c :: path) :=
      fun x hx => notMem_path hnd hx
    have hlinks : PathLinks ((pathLink (c :: path)).store m₁ (some root)) t.root? (c :: path) := by
      rw [ht.root]
      refine (hpath.congr fun x hx => ht.frame x fun hx' => ?_).store (nodup_path hnd) _
      exact hx.elim (hmem x hx').1 (hmem x hx').2
    have hrep : Rep ((pathLink (c :: path)).store m₁ (some root)) (some c.value) t := by
      refine ht.rep.congr fun x hx => pathLink_store_of_ne fun hx' => ?_
      exact (pathParent_mem hx').elim (hmem x (hinorder ▸ hx)).1 (hmem x (hinorder ▸ hx)).2
    have hplug : (node c.value (crumbLeft t c) (crumbRight t c)).plug path = t.plug (c :: path) := by
      rw [← crumb_plug, plug]
    have hsame : (t.plug (c :: path)).inorder = ((node p l r).plug (c :: path)).inorder := by
      rw [inorder_plug, inorder_plug, hinorder]
    obtain ⟨root', m', hrun', ht''⟩ := ih (hlinks.fork hrep) hlinks.2.2
      (by rw [hplug, hsame]; exact hnd)
      (by rw [hplug, ← length_inorder, hsame, length_inorder]; exact hlen)
      (by cases c <;> assumption) (by cases c <;> assumption)
      (by cases c <;> simp only [crumbLeft, crumbRight, Crumb.sibling] at * <;> omega)
      (by cases c <;> simp only [crumbLeft, crumbRight, Crumb.sibling] at * <;> omega)
      hrest (by rw [← crumb_refit]; exact h3) (by rw [← crumb_refit]; exact h4)
      (by simp at hfuel; omega)
    rw [hplug, ← crumb_refit] at ht''
    refine ⟨root', m', ?_, ht''.after (fun x hx => ?_) fun x hx => hsame ▸ hx⟩
    · simp [avlFixTreeLoop, hf.parent, hrun, pathParent, hrun']
    · rw [inorder_plug, List.mem_append, List.mem_append] at hx
      have hx₁ : pathParent (c :: path) ≠ some x := fun hx' => by
        have := pathParent_mem hx'
        tauto
      rw [pathLink_store_of_ne hx₁, ht.frame x (by tauto)]

/-! ## Insertion and deletion within a number of turns

The operations of the model, where each loop stops after `turns` turns. -/

def avlAttachWithin (turns : Nat) (m : AVLMem ν) (root : Option ν) (node : ν) (goLeft : ν → Bool) :
    Result (ν × AVLMem ν) := do
  let (parent, link) ← searchPlace m goLeft turns none .var root
  let m := link.store m (some node)
  avlFixTreeLoop turns (m.setParent node parent) node

def avlDeleteOneChildWithin (turns : Nat) (m : AVLMem ν) (node : ν) : Result (Option ν × AVLMem ν) := do
  assert ((m node).left.isNone || (m node).right.isNone) .avlDeleteOneChild
  let child := if (m node).left.isSome then (m node).left else (m node).right
  let parent := (m node).parent
  let m := m.reparent child parent
  match parent with
  | none => return (child, m)
  | some p =>
    let (root, m) ← avlFixTreeLoop turns ((childLink m parent node).store m child) p
    return (some root, m)

def avlDeleteWithin (turns : Nat) (m : AVLMem ν) (node : ν) : Result (Option ν × AVLMem ν) :=
  match (m node).left, (m node).right with
  | some _, some right => do
    let victim ← leftmost m turns right
    let (root, m) ← avlDeleteOneChildWithin turns m victim
    let m := m.store victim (m node)
    let m := m.reparent (m victim).left (some victim)
    let m := m.reparent (m victim).right (some victim)
    let link := childLink m (m node).parent node
    return (if link = .var then some victim else root, link.store m (some victim))
  | _, _ => avlDeleteOneChildWithin turns m node

theorem avlAttachWithin_addressSpace {root : Option ν} {goLeft : ν → Bool} :
    avlAttachWithin addressSpace m root p goLeft = avlAttach m root p goLeft := rfl

theorem avlDeleteWithin_addressSpace : avlDeleteWithin addressSpace m p = avlDelete m p := rfl

/-! ## Insertion -/

/-- A balanced tree of distinct nodes below the root pointer. -/
structure IsTree (m : AVLMem ν) (root : Option ν) (t : BinaryTree ν) : Prop where
  rep : Rep m none t
  root : root = t.root?
  balanced : t.Balanced
  nodup : t.inorder.Nodup
  numNodes_le : t.numNodes ≤ addressSpace

omit [DecidableEq ν] in
theorem IsTree.height_lt {root : Option ν} (h : IsTree m root t) : t.height < addressSpace := by
  have := height_lt_of_balanced h.balanced h.numNodes_le
  simp only [addressSpace]
  omega

omit [DecidableEq ν] in
theorem searchPlace_eq {goLeft : ν → Bool} {fuel : Nat} (path : List (Crumb ν))
    (h : Rep m parent t) (hfuel : t.height < fuel) :
    searchPlace m goLeft fuel (pathParent path) (pathLink path) t.root? =
      .ok (pathParent (descend goLeft t path), pathLink (descend goLeft t path)) := by
  induction t generalizing parent path fuel with
  | nil =>
    obtain ⟨fuel, rfl⟩ := Nat.exists_eq_add_of_lt hfuel
    simp [searchPlace, descend]
  | node p l r ihl ihr =>
    obtain ⟨fuel, rfl⟩ : ∃ n, fuel = n + 1 := ⟨fuel - 1, by omega⟩
    obtain ⟨hp, hl, hr⟩ := h
    simp only [height] at hfuel
    simp only [searchPlace, root?_node, descend, hp, cell]
    split
    · exact ihl (.left p r :: path) hl (by omega)
    · exact ihr (.right p l :: path) hr (by omega)

/-- `avlInit` on a node outside the tree. -/
theorem IsTree.init {root : Option ν} (h : IsTree m root t) (hp : p ∉ t.inorder) :
    IsTree (avlInit m p) root t where
  rep := h.rep.congr fun _ hx => store_of_ne (ne_of_mem_of_not_mem hx hp) _
  root := h.root
  balanced := h.balanced
  nodup := h.nodup
  numNodes_le := h.numNodes_le

/-- Attaching a fresh node and repairing the path above it. -/
theorem IsTree.attachWithin {root : Option ν} {turns : Nat} (h : IsTree m root t) (hp : p ∉ t.inorder)
    (hfresh : m p = { height := 1, cnt := 1 }) (hlen : t.numNodes < addressSpace)
    (hturns : t.height < turns) (goLeft : ν → Bool) :
    ∃ root' m', avlAttachWithin turns m root p goLeft = .ok (root', m') ∧
      IsTree m' (some root') ((node p nil nil).rebuild (descend goLeft t [])) ∧
      ∀ x, x ∉ t.inorder → x ≠ p → m' x = m x := by
  have hsearch : searchPlace m goLeft turns none .var t.root? =
      .ok (pathParent (descend goLeft t []), pathLink (descend goLeft t [])) :=
    searchPlace_eq [] h.rep hturns
  have hplug := plug_descend goLeft t []
  generalize descend goLeft t [] = path at *
  obtain rfl : nil.plug path = t := hplug
  have hnd : (before path ++ after path).Nodup := nodup_path h.nodup
  have hinorder : ((node p nil nil).plug path).inorder = before path ++ p :: after path := by
    simp [inorder_plug]
  have hold : (nil.plug path).inorder = before path ++ after path := by simp [inorder_plug]
  rw [hold] at hp
  have hpar : pathParent path ≠ some p := fun he => hp (by simpa using pathParent_mem he)
  have hnum : ((node p nil nil).plug path).numNodes = (nil.plug path).numNodes + 1 := by
    rw [← length_inorder, ← length_inorder, hinorder, hold]
    simp
    omega
  have hpb : PathBalanced 0 path := (balanced_plug.mp h.balanced).2
  set m₂ := ((pathLink path).store m (some p)).setParent p (pathParent path) with hm₂
  have hm₂p : m₂ p = { height := 1, cnt := 1, parent := pathParent path } := by
    rw [hm₂, setParent_self, pathLink_store_of_ne hpar, hfresh]
  have hlinks : PathLinks m₂ (some p) path := by
    refine ((rep_plug.mp h.rep).2.links.store hnd (some p)).congr fun x hx => setParent_of_ne ?_ _
    rintro rfl
    exact hp (by simpa using hx)
  have hfork : Fork m₂ (pathParent path) p nil nil := by
    refine ⟨?_, ?_, ?_, trivial, trivial⟩ <;> rw [hm₂p] <;> rfl
  have hleaf : rebalance p nil nil = node p nil nil := rfl
  have hfuel : path.length < turns := by
    have := length_add_height_le nil path
    omega
  obtain ⟨root', m', hrun, ht⟩ := hfork.fixTreeLoop_turned (h := 0) hlinks
    (by rw [hinorder]; grind) (by omega) trivial trivial (by simp) (by simp) hpb (by simp)
    (by simp [hleaf]) hfuel
  rw [hleaf] at ht
  refine ⟨root', m', ?_, ⟨ht.rep, ht.root.symm, ?_, ?_, ?_⟩, fun x hx hxp => ?_⟩
  · simp only [avlAttachWithin, h.root, hsearch, ok_bind]
    exact hrun
  · exact balanced_rebuild (by simp [BinaryTree.Balanced]) hpb (by simp) (by simp)
  · rw [inorder_rebuild, ← inorder_plug, hinorder]
    grind
  · rw [← length_inorder, inorder_rebuild, ← inorder_plug, length_inorder]
    omega
  · rw [hold] at hx
    rw [ht.frame x (by rw [hinorder]; grind), hm₂, setParent_of_ne hxp]
    exact pathLink_store_of_ne fun he => hx (by simpa using pathParent_mem he)

theorem IsTree.attach {root : Option ν} (h : IsTree m root t) (hp : p ∉ t.inorder)
    (hfresh : m p = { height := 1, cnt := 1 }) (hlen : t.numNodes < addressSpace)
    (goLeft : ν → Bool) :
    ∃ root' m', avlAttach m root p goLeft = .ok (root', m') ∧
      IsTree m' (some root') ((node p nil nil).rebuild (descend goLeft t [])) ∧
      ∀ x, x ∉ t.inorder → x ≠ p → m' x = m x := by
  rw [← avlAttachWithin_addressSpace]
  exact h.attachWithin hp hfresh hlen h.height_lt goLeft

/-! ## Deletion -/

/-- Detaching a node whose only subtree is `t`. -/
theorem IsTree.deleteOneChild {root : Option ν} {turns : Nat} (h : IsTree m root ((node p l r).plug path))
    (ht : l = t ∧ r = nil ∨ l = nil ∧ r = t) (hturns : ((node p l r).plug path).height < turns) :
    ∃ root' m', avlDeleteOneChildWithin turns m p = .ok (root', m') ∧ IsTree m' root' (t.rebuild path) ∧
      ∀ x, x ∉ ((node p l r).plug path).inorder → m' x = m x := by
  obtain ⟨hrep, hpath⟩ := rep_plug.mp h.rep
  obtain ⟨hbal, hpb⟩ := balanced_plug.mp h.balanced
  have hf := hrep.fork
  have hinorder : ((node p l r).plug path).inorder =
      before path ++ (l.inorder ++ p :: r.inorder) ++ after path := by
    rw [inorder_plug]
    rfl
  have hnd := h.nodup
  rw [hinorder] at hnd
  have hnum := h.numNodes_le
  rw [← length_inorder, hinorder] at hnum
  have hrept : Rep m (some p) t := by
    obtain ⟨rfl, rfl⟩ | ⟨rfl, rfl⟩ := ht
    · exact hf.repLeft
    · exact hf.repRight
  have htb : t.Balanced ∧ (node p l r).height = t.height + 1 := by
    obtain ⟨rfl, rfl⟩ | ⟨rfl, rfl⟩ := ht
    · exact ⟨hbal.1, by simp⟩
    · exact ⟨hbal.2.1, by simp⟩
  have hmem : ∀ x, x ∈ t.inorder → x ∈ l.inorder ++ p :: r.inorder := by
    obtain ⟨rfl, rfl⟩ | ⟨rfl, rfl⟩ := ht <;> simp_all
  have htnd : (before path ++ t.inorder ++ after path).Nodup := by
    obtain ⟨rfl, rfl⟩ | ⟨rfl, rfl⟩ := ht <;> simp only [inorder_nil] at hnd <;> grind
  have hdisj : ∀ x, x ∈ before path ∨ x ∈ after path → x ∉ t.inorder := by grind
  -- The subtree is moved below the parent.
  set m₁ := m.reparent t.root? (pathParent path) with hm₁
  have hframe₁ : ∀ x, x ∉ t.inorder → m₁ x = m x := fun x hx =>
    reparent_of_ne (fun he => hx (root?_mem he)) _
  have hrep₁ : Rep m₁ (pathParent path) t := hrept.reparent (by grind)
  have hlinks₁ : PathLinks m₁ (some p) path :=
    hpath.links.congr fun x hx => hframe₁ x (hdisj x hx)
  have hlen : (t.rebuild path).numNodes ≤ addressSpace := by
    rw [← length_inorder, inorder_rebuild]
    obtain ⟨rfl, rfl⟩ | ⟨rfl, rfl⟩ := ht <;> simp at hnum ⊢ <;> omega
  have hreb : (t.rebuild path).Balanced :=
    balanced_rebuild htb.1 hpb (by omega) (by omega)
  have hchild : (if (m p).left.isSome then (m p).left else (m p).right) = t.root? ∧
      ((m p).left.isNone || (m p).right.isNone) = true := by
    rw [hf.left, hf.right]
    obtain ⟨rfl, rfl⟩ | ⟨rfl, rfl⟩ := ht
    · cases l.root? <;> simp
    · simp
  simp only [avlDeleteOneChildWithin, hchild.2, hchild.1, hf.parent, assert, if_true, ok_bind, ← hm₁]
  cases path with
  | nil =>
    refine ⟨t.root?, m₁, rfl, ⟨hrep₁, rfl, hreb, by grind [rebuild], hlen⟩, fun x hx => ?_⟩
    exact hframe₁ x fun hx' => hx (hmem x hx')
  | cons c path =>
    have hp : p ∉ before (c :: path) ∧ p ∉ after (c :: path) := notMem_path h.nodup (by simp)
    rw [hlinks₁.childLink_eq hp]
    have hlinks₂ := hlinks₁.store (nodup_path h.nodup) t.root?
    set m₂ := (pathLink (c :: path)).store m₁ t.root? with hm₂
    have hframe₂ : ∀ x, x ∉ before (c :: path) ∧ x ∉ after (c :: path) → m₂ x = m₁ x :=
      fun x hx => pathLink_store_of_ne fun he => (pathParent_mem he).elim hx.1 hx.2
    have hrep₂ : Rep m₂ (some c.value) t := hrep₁.congr fun x hx => hframe₂ x (by grind)
    obtain ⟨hc, h1, h2, hrest⟩ := hpb
    obtain ⟨-, h3, h4⟩ := balanced_refit htb.1 hc h1 h2 (by omega) (by omega)
    have hplug : (node c.value (crumbLeft t c) (crumbRight t c)).plug path = t.plug (c :: path) := by
      rw [← crumb_plug, plug]
    have hsame : (t.plug (c :: path)).inorder = (t.rebuild (c :: path)).inorder := by
      rw [inorder_plug, inorder_rebuild]
    have hfuel : path.length < turns := by
      have hle := length_add_height_le (node p l r) (c :: path)
      rw [List.length_cons] at hle
      omega
    obtain ⟨root', m', hrun, ht'⟩ := (hlinks₂.fork hrep₂).fixTreeLoop_turned
      hlinks₂.2.2 (by rw [hplug, inorder_plug]; exact htnd)
      (by rw [hplug, ← length_inorder, hsame, length_inorder]; exact hlen)
      (by cases c <;> first | exact htb.1 | exact hc) (by cases c <;> first | exact htb.1 | exact hc)
      (by cases c <;> simp only [crumbLeft, crumbRight, Crumb.sibling] at * <;> omega)
      (by cases c <;> simp only [crumbLeft, crumbRight, Crumb.sibling] at * <;> omega)
      hrest (by rw [← crumb_refit]; exact h3) (by rw [← crumb_refit]; exact h4) hfuel
    rw [hplug, ← crumb_refit] at ht'
    refine ⟨some root', m', ?_, ⟨ht'.rep, ht'.root.symm, hreb, ?_, hlen⟩, fun x hx => ?_⟩
    · simp [pathParent, hrun]
    · rw [inorder_rebuild]
      exact htnd
    · rw [hinorder] at hx
      rw [ht'.frame x (by rw [inorder_plug]; grind), hframe₂ x (by grind), hframe₁ x (by grind)]

omit [DecidableEq ν] in
/-- The leftmost node of a tree has no left child and comes first. -/
theorem Rep.leftmost_eq {fuel : Nat} (h : Rep m parent (node p l r)) (hfuel : l.height < fuel) :
    ∃ v vr path, leftmost m fuel p = .ok v ∧ node p l r = (node v nil vr).plug path ∧
      before path = [] := by
  induction l generalizing parent p r fuel with
  | nil =>
    obtain ⟨fuel, rfl⟩ := Nat.exists_eq_add_of_lt hfuel
    exact ⟨p, r, [], by simp [leftmost, h.1, cell], rfl, rfl⟩
  | node q ll lr ihl _ =>
    obtain ⟨fuel, rfl⟩ : ∃ n, fuel = n + 1 := ⟨fuel - 1, by omega⟩
    simp only [height] at hfuel
    have hlt : ll.height < fuel := by omega
    obtain ⟨v, vr, path, hrun, heq, hbefore⟩ := ihl h.2.1 hlt
    refine ⟨v, vr, path ++ [.left p r], by simp [leftmost, h.1, cell, hrun], ?_, ?_⟩
    · rw [plug_append, ← heq]
      rfl
    · rw [before_append, hbefore]
      rfl

/-- A node outside the tree takes the place of a node of the tree. -/
theorem IsTree.replace {root : Option ν} {v : ν} {m₁ : AVLMem ν}
    (h : IsTree m root ((node p l r).plug path)) (hv : v ∉ ((node p l r).plug path).inorder)
    (hm₁ : m₁ = ((m.store v (m p)).reparent l.root? (some v)).reparent r.root? (some v)) :
    childLink m₁ (m₁ p).parent p = pathLink path ∧
      IsTree ((pathLink path).store m₁ (some v)) (if pathLink path = .var then some v else root)
        ((node v l r).plug path) ∧
      ∀ x, x ∉ ((node p l r).plug path).inorder → x ≠ v →
        (pathLink path).store m₁ (some v) x = m x := by
  obtain ⟨hrep, hpath⟩ := rep_plug.mp h.rep
  have hnd := h.nodup
  rw [inorder_plug, inorder_node] at hv hnd
  simp only [List.mem_append, List.mem_cons, not_or] at hv
  have hpv : p ≠ v := fun he => hv.1.2.2.1 he.symm
  have hl : ∀ x, x ∉ l.inorder → l.root? ≠ some x := fun x hx he => hx (root?_mem he)
  have hr : ∀ x, x ∉ r.inorder → r.root? ≠ some x := fun x hx he => hx (root?_mem he)
  have hpl : p ∉ l.inorder ∧ p ∉ r.inorder := by grind
  have hpp : p ∉ before path ∧ p ∉ after path := notMem_path h.nodup (by simp)
  have hlr : ∀ x ∈ l.inorder, x ∉ r.inorder := by grind
  have hout : ∀ x, x ∈ before path ∨ x ∈ after path → x ∉ l.inorder ∧ x ∉ r.inorder := by grind
  have hframe₁ : ∀ x, x ≠ v → x ∉ l.inorder → x ∉ r.inorder → m₁ x = m x := fun x hx hxl hxr => by
    rw [hm₁, reparent_of_ne (hr x hxr), reparent_of_ne (hl x hxl), store_of_ne hx]
  have hm₁v : m₁ v = cell (pathParent path) l r := by
    rw [hm₁, reparent_of_ne (hr v hv.1.2.2.2), reparent_of_ne (hl v hv.1.2.1), store_self, hrep.1]
  have hrepl : Rep m₁ (some v) l := by
    have hstore : Rep (m.store v (m p)) (some p) l := hrep.2.1.congr fun x hx =>
      store_of_ne (ne_of_mem_of_not_mem hx hv.1.2.1) _
    refine (hstore.reparent (by grind)).congr fun x hx => ?_
    rw [hm₁, reparent_of_ne (hr x (hlr x hx))]
  have hrepr : Rep m₁ (some v) r := by
    rw [hm₁]
    refine Rep.reparent (hrep.2.2.congr fun x hx => ?_) (by grind)
    rw [reparent_of_ne (hl x fun hx' => hlr x hx' hx),
      store_of_ne (ne_of_mem_of_not_mem hx hv.1.2.2.2)]
  have hpath₁ : PathRep m₁ (some p) (node p l r).height (node p l r).numNodes path :=
    hpath.congr fun x hx => hframe₁ x (by rintro rfl; tauto) (hout x hx).1 (hout x hx).2
  have hlink : childLink m₁ (m₁ p).parent p = pathLink path := by
    rw [hframe₁ p hpv hpl.1 hpl.2, hrep.1]
    exact hpath₁.links.childLink_eq hpp
  have hvpar : pathParent path ≠ some v := fun he => (pathParent_mem he).elim hv.1.1 hv.2
  have hframe₂ : ∀ x, x ∉ before path → x ∉ after path →
      (pathLink path).store m₁ (some v) x = m₁ x := fun x h1 h2 =>
    pathLink_store_of_ne fun he => (pathParent_mem he).elim h1 h2
  refine ⟨hlink, ⟨rep_plug.mpr ⟨⟨?_, ?_, ?_⟩, ?_⟩, ?_, ?_, ?_, ?_⟩, fun x hx hxv => ?_⟩
  · rw [pathLink_store_of_ne hvpar, hm₁v]
  · refine hrepl.congr fun x hx => hframe₂ x ?_ ?_ <;> grind
  · refine hrepr.congr fun x hx => hframe₂ x ?_ ?_ <;> grind
  · exact hpath₁.store (nodup_path h.nodup) (some v)
  · match path with
    | [] => rfl
    | .left a r' :: path => exact h.root.trans (root?_plug_cons _ _ _ _)
    | .right a l' :: path => exact h.root.trans (root?_plug_cons _ _ _ _)
  · obtain ⟨hb, hpb⟩ := balanced_plug.mp h.balanced
    exact balanced_plug.mpr ⟨hb, hpb⟩
  · rw [inorder_plug, inorder_node]
    grind
  · have := h.numNodes_le
    rw [← length_inorder, inorder_plug] at this ⊢
    simpa using this
  · rw [inorder_plug, inorder_node] at hx
    rw [hframe₂ x (by grind) (by grind), hframe₁ x hxv (by grind) (by grind)]

/-- A node with two children: its successor `v` is detached first, and wherever the node is after
that, the successor takes its place. -/
theorem IsTree.delete_between {root : Option ν} {a b v : ν} {vr : BinaryTree ν}
    {pr : List (Crumb ν)} {turns : Nat} (h : IsTree m root ((node p l r).plug path))
    (ha : l.root? = some a) (hb : r.root? = some b) (hv : leftmost m turns b = .ok v)
    (hr : r = (node v nil vr).plug pr) (hpr : before pr = [])
    (hturns : ((node p l r).plug path).height < turns) :
    ∃ root' m' t', avlDeleteWithin turns m p = .ok (root', m') ∧ IsTree m' root' t' ∧
      t'.inorder = before path ++ (l.inorder ++ r.inorder) ++ after path ∧
      ∀ x, x ∉ ((node p l r).plug path).inorder → m' x = m x := by
  have hf := (rep_plug.mp h.rep).1.fork
  have hmem : ∀ x, x ∈ ((node p l r).plug path).inorder ↔
      x ∈ before path ++ (l.inorder ++ p :: r.inorder) ++ after path := by
    simp [inorder_plug]
  have hnd := h.nodup
  have hrin : r.inorder = v :: (vr.inorder ++ after pr) := by simp [hr, inorder_plug, hpr]
  rw [inorder_plug, inorder_node, hrin] at hnd
  have hsame : (node p l r).plug path = (node v nil vr).plug (pr ++ .right p l :: path) := by
    rw [plug_append, hr]
    rfl
  rw [hsame] at h hturns
  obtain ⟨root₁, m₁, hrun₁, ht₁, hframe₁⟩ := h.deleteOneChild (.inr ⟨rfl, rfl⟩) hturns
  rw [← hsame] at hframe₁
  have hin₁ : (vr.rebuild (pr ++ .right p l :: path)).inorder =
      (before path ++ l.inorder) ++ p :: (vr.inorder ++ after pr ++ after path) := by
    simp [inorder_rebuild, before_append, after_append, hpr, before, after, Crumb.before,
      Crumb.after]
  generalize vr.rebuild (pr ++ .right p l :: path) = t₁ at *
  have hp₁ : p ∈ t₁.inorder := by simp [hin₁]
  obtain ⟨l₁, r₁, path₁, rfl⟩ := exists_plug_of_mem hp₁
  have hv₁ : v ∉ ((node p l₁ r₁).plug path₁).inorder := by
    rw [hin₁]
    grind
  -- The node occurs once, so the two descriptions of the order agree on both sides of it.
  obtain ⟨hbef, -, haft⟩ : before path ++ l.inorder = before path₁ ++ l₁.inorder ∧ p = p ∧
      vr.inorder ++ after pr ++ after path = r₁.inorder ++ after path₁ := by
    refine (List.append_cons_inj_of_notMem ?_ ?_).mp (hin₁.symm.trans ?_)
    · grind
    · grind
    · simp [inorder_plug]
  obtain ⟨hp₁', hfork₁⟩ := And.intro (rep_plug.mp ht₁.rep).1.1 (rep_plug.mp ht₁.rep).1.fork
  have hvl : l₁.root? ≠ some v := fun he => hv₁ (by simp [inorder_plug, root?_mem he])
  obtain ⟨hlink, ht₂, hframe₂⟩ := ht₁.replace hv₁ rfl
  refine ⟨_, _, _, ?_, ht₂, ?_, fun x hx => ?_⟩
  · have hl : (m₁.store v (m₁ p) v).left = l₁.root? := by rw [store_self, hfork₁.left]
    have hr : ((m₁.store v (m₁ p)).reparent l₁.root? (some v) v).right = r₁.root? := by
      rw [reparent_of_ne hvl, store_self, hfork₁.right]
    simp only [avlDeleteWithin, hf.left, hf.right, ha, hb, hv, hrun₁, ok_bind, hl, hr, hlink, pure_eq_ok]
  · rw [inorder_plug, inorder_node, hrin, ← List.append_assoc, ← hbef, List.append_assoc,
      List.cons_append, ← haft]
    simp
  · rw [hmem, hrin] at hx
    rw [hframe₂ x (by rw [hin₁]; grind) (by grind), hframe₁ x (by rw [hmem, hrin]; exact hx)]

/-- `avlDelete` removes the node and keeps the order of the others. -/
theorem IsTree.deleteWithin {root : Option ν} {turns : Nat} (h : IsTree m root t) (hp : p ∈ t.inorder)
    (hturns : t.height < turns) :
    ∃ root' m' t', avlDeleteWithin turns m p = .ok (root', m') ∧ IsTree m' root' t' ∧
      t'.inorder = t.inorder.erase p ∧ ∀ x, x ∉ t.inorder → m' x = m x := by
  obtain ⟨l, r, path, rfl⟩ := exists_plug_of_mem hp
  have hf := (rep_plug.mp h.rep).1.fork
  have hnd := h.nodup
  rw [inorder_plug, inorder_node] at hnd
  have herase : ((node p l r).plug path).inorder.erase p =
      before path ++ (l.inorder ++ r.inorder) ++ after path := by
    have hp' : p ∉ before path ++ l.inorder := by grind
    rw [inorder_plug, inorder_node, ← List.append_assoc, List.append_assoc,
      List.erase_append_right _ hp', List.cons_append, List.erase_cons_head]
    simp
  cases l with
  | nil =>
    obtain ⟨root', m', hrun, ht, hframe⟩ := h.deleteOneChild (.inr ⟨rfl, rfl⟩) hturns
    refine ⟨root', m', _, ?_, ht, ?_, hframe⟩
    · simpa [avlDeleteWithin, hf.left] using hrun
    · rw [inorder_rebuild, herase]
      rfl
  | node lp ll lr =>
    cases r with
    | nil =>
      obtain ⟨root', m', hrun, ht, hframe⟩ := h.deleteOneChild (.inl ⟨rfl, rfl⟩) hturns
      refine ⟨root', m', _, ?_, ht, ?_, hframe⟩
      · simpa [avlDeleteWithin, hf.right] using hrun
      · rw [inorder_rebuild, herase]
        simp
    | node rp rl rr =>
      have hfuel : rl.height < turns := by
        have hle := length_add_height_le (node p (node lp ll lr) (node rp rl rr)) path
        simp only [height] at hle
        omega
      obtain ⟨v, vr, pr, hleft, heq, hbefore⟩ := hf.repRight.leftmost_eq hfuel
      obtain ⟨root', m', t', hrun, ht, hin, hframe⟩ := h.delete_between rfl rfl hleft heq hbefore hturns
      exact ⟨root', m', t', hrun, ht, hin.trans herase.symm, hframe⟩

theorem IsTree.delete {root : Option ν} (h : IsTree m root t) (hp : p ∈ t.inorder) :
    ∃ root' m' t', avlDelete m p = .ok (root', m') ∧ IsTree m' root' t' ∧
      t'.inorder = t.inorder.erase p ∧ ∀ x, x ∉ t.inorder → m' x = m x := by
  rw [← avlDeleteWithin_addressSpace]
  exact h.deleteWithin hp h.height_lt

end

end MiniRedis
