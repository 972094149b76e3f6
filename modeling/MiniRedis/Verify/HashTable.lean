import MiniRedis.Theory.Buckets
import MiniRedis.Model.HashTable

/-! # Tables and maps at every stage of a migration

`HTable.WF` and `HMap.TablesWF` are the shape of the two tables, without reference to keys; every
operation of `hashtable.cpp` has one specification in terms of the stored nodes
(`HTable.nodes`, `HMap.nodes`). -/

namespace MiniRedis

/-- The nodes of a table in the order of `hForeach`. -/
def HTable.nodes (ht : HTable α) : List (HNode α) := (ht.tab.getD []).flatten

/-- The nodes of a map in the order of `hmForeach`. -/
def HMap.nodes (hmap : HMap α) : List (HNode α) := hmap.newer.nodes ++ hmap.older.nodes

/-- An allocated table has a power of two of slots, `mask` is one less, every node sits in the slot
of its hash code, and `size` counts the nodes. -/
structure HTable.WF (ht : HTable α) : Prop where
  slots : ∀ tab, ht.tab = some tab → tab.length.isPowerOfTwo ∧ ht.mask = tab.length - 1
  placed : ∀ tab, ht.tab = some tab → ∀ (i : Nat) chain, tab[i]? = some chain →
    ∀ n ∈ chain, n.hashCode.toNat &&& ht.mask = i
  size : ht.size = ht.nodes.length

/-- The two tables of a map: the slots of `older` below `migrationPos` have been emptied, and
`older` is allocated only together with `newer`. -/
structure HMap.TablesWF (hmap : HMap α) : Prop where
  newer : hmap.newer.WF
  older : hmap.older.WF
  migrated : ∀ tab, hmap.older.tab = some tab → ∀ i < hmap.migrationPos,
    ∀ chain, tab[i]? = some chain → chain = []
  alloc : hmap.older.tab.isSome → hmap.newer.tab.isSome

/-! ## One table -/

namespace HTable

variable {ht ht' : HTable α}

theorem nodes_eq {tab} (h : ht.tab = some tab) : ht.nodes = tab.flatten := by
  simp [nodes, h]

theorem WF.empty : ({} : HTable α).WF where
  slots := by simp
  placed := by simp
  size := by simp [nodes]

/-- A key's slot exists. -/
theorem WF.slot (h : ht.WF) {tab} (htab : ht.tab = some tab) (code : Nat) :
    ∃ chain, tab[code &&& ht.mask]? = some chain := by
  obtain ⟨hpow, hmask⟩ := h.slots tab htab
  have hlt := hpow.and_mask_lt code
  rw [← hmask] at hlt
  exact ⟨_, List.getElem?_eq_getElem hlt⟩

/-- Replacing a chain by one whose nodes belong to the same slot. -/
theorem WF.setChain (h : ht.WF) {tab} (htab : ht.tab = some tab) {i : Nat} {chain : List (HNode α)}
    {size : Nat} (hchain : ∀ n ∈ chain, n.hashCode.toNat &&& ht.mask = i)
    (hsize : size = (tab.set i chain).flatten.length) :
    ({ ht with tab := some (tab.set i chain), size := size } : HTable α).WF where
  slots := by
    rintro _ ⟨⟩
    simpa using h.slots tab htab
  placed := by
    rintro _ ⟨⟩ j chain' hj n hn
    by_cases hij : i = j
    · subst hij
      obtain ⟨-, rfl⟩ : i < tab.length ∧ chain' = chain := by
        simpa [List.getElem?_set, eq_comm] using hj
      exact hchain n hn
    · rw [List.getElem?_set_ne hij] at hj
      exact h.placed tab htab j chain' hj n hn
  size := hsize

/-- A table of `size` empty slots. -/
def ofSlots (size : Nat) : HTable α :=
  { tab := some (List.replicate size []), mask := size - 1, size := 0 }

theorem hInit_ok {size : Nat} (h : size.isPowerOfTwo) :
    hInit (α := α) size = .ok (ofSlots size) := by
  obtain ⟨hpos, hand⟩ := Nat.ne_zero_and_sub_one_eq_zero_iff_isPowerOfTwo.mpr h
  simp [hInit, assert, Nat.pos_of_ne_zero hpos, hand, ofSlots]

theorem hInit_error {size : Nat} (h : ¬ size.isPowerOfTwo) :
    hInit (α := α) size = .error (.assertion .hInitSize) := by
  have hn : ¬ (size ≠ 0 ∧ size &&& (size - 1) = 0) :=
    fun hand => h (Nat.ne_zero_and_sub_one_eq_zero_iff_isPowerOfTwo.mp hand)
  have : (0 < size && (size &&& (size - 1)) == 0) = false := by
    simp only [Bool.and_eq_false_iff, decide_eq_false_iff_not, beq_eq_false_iff_ne]
    omega
  simp [hInit, assert, this]

@[simp] theorem ofSlots_nodes (size : Nat) : (ofSlots size : HTable α).nodes = [] := by
  simp [nodes, ofSlots]

theorem WF.ofSlots {size : Nat} (h : size.isPowerOfTwo) : (ofSlots size : HTable α).WF where
  slots := by
    rintro _ ⟨⟩
    simpa [HTable.ofSlots] using h
  placed := by
    rintro _ ⟨⟩ i chain hi n hn
    obtain ⟨-, rfl⟩ : i < size ∧ [] = chain := by simpa [List.getElem?_replicate] using hi
    simp at hn
  size := by simp [HTable.ofSlots, nodes]

/-- What `hInsert` does to a table: one more node, in the same slots. -/
structure Inserted (node : HNode α) (ht ht' : HTable α) : Prop where
  wf : ht'.WF
  perm : ht'.nodes.Perm (node :: ht.nodes)
  size : ht'.size = ht.size + 1
  mask : ht'.mask = ht.mask
  slots : ht'.slots = ht.slots
  alloc : ht'.tab.isSome

theorem WF.hInsert (h : ht.WF) (hsome : ht.tab.isSome) (node : HNode α) :
    ∃ ht', hInsert ht node = .ok ht' ∧ Inserted node ht ht' := by
  obtain ⟨tab, htab⟩ := Option.isSome_iff_exists.mp hsome
  obtain ⟨chain, hchain⟩ := h.slot htab node.hashCode.toNat
  have hperm := List.flatten_set_cons_perm hchain node
  refine ⟨_, by simp [MiniRedis.hInsert, htab, index, hchain]; rfl, ?_⟩
  have hsize : ht.size + 1 =
      (tab.set (node.hashCode.toNat &&& ht.mask) (node :: chain)).flatten.length := by
    rw [hperm.length_eq, h.size, nodes_eq htab, List.length_cons]
  refine ⟨h.setChain htab (List.forall_mem_cons.mpr ⟨rfl, h.placed tab htab _ _ hchain⟩) hsize,
    ?_, rfl, rfl, by simp [HTable.slots, htab], rfl⟩
  rw [nodes_eq rfl, nodes_eq htab]
  exact hperm

/-- What `hDetach` does to a table: the node of the link is gone. -/
structure Detached (node : HNode α) (ht ht' : HTable α) : Prop where
  wf : ht'.WF
  perm : ht.nodes.Perm (node :: ht'.nodes)
  size : ht.size = ht'.size + 1
  mask : ht'.mask = ht.mask
  slots : ht'.slots = ht.slots
  alloc : ht'.tab.isSome

theorem load_eq_ok {link : HLink} {node : HNode α} (h : ht.load link = .ok node) :
    ∃ tab chain, ht.tab = some tab ∧ tab[link.pos]? = some chain ∧
      chain[link.idx]? = some node := by
  simp only [HTable.load, bind_eq_ok, deref_eq_ok, index_eq_ok] at h
  obtain ⟨tab, htab, chain, hchain, hnode⟩ := h
  exact ⟨tab, chain, htab, hchain, hnode⟩

theorem load_mem {link : HLink} {node : HNode α} (h : ht.load link = .ok node) :
    node ∈ ht.nodes := by
  obtain ⟨tab, chain, htab, hchain, hnode⟩ := load_eq_ok h
  rw [nodes_eq htab]
  exact List.mem_flatten_of_getElem? hchain (List.mem_of_getElem? hnode)

theorem WF.hDetach (h : ht.WF) {link : HLink} {node : HNode α} (hload : ht.load link = .ok node) :
    ∃ ht', hDetach ht link = .ok (node, ht') ∧ Detached node ht ht' ∧
      ∃ tab chain, ht.tab = some tab ∧ tab[link.pos]? = some chain ∧
        ht'.tab = some (tab.set link.pos (chain.eraseIdx link.idx)) := by
  obtain ⟨tab, chain, htab, hchain, hnode⟩ := load_eq_ok hload
  have hperm := List.flatten_set_eraseIdx_perm hchain hnode
  have hlen := hperm.length_eq
  rw [List.length_cons, ← nodes_eq htab, ← h.size] at hlen
  refine ⟨_, by simp [MiniRedis.hDetach, htab, index, hchain, hnode]; rfl, ?_,
    tab, chain, htab, hchain, rfl⟩
  have hslot : ∀ n ∈ chain.eraseIdx link.idx, n.hashCode.toNat &&& ht.mask = link.pos :=
    fun n hn => h.placed tab htab _ _ hchain n (List.mem_of_mem_eraseIdx hn)
  refine ⟨h.setChain htab hslot (by omega), ?_, by simp only; omega, rfl,
    by simp [HTable.slots, htab], rfl⟩
  rw [nodes_eq htab, nodes_eq rfl]
  exact hperm

/-- `hLookup` finds a node that matches the key, or there is none. -/
theorem WF.hLookup (h : ht.WF) (key : HNode κ) (eq : α → κ → Bool) :
    (∃ link node, hLookup ht key eq = .ok (some link) ∧ ht.load link = .ok node ∧
        node.hashCode = key.hashCode ∧ eq node.ref key.ref) ∨
    (hLookup ht key eq = .ok none ∧
      ∀ n ∈ ht.nodes, n.hashCode = key.hashCode → ¬ eq n.ref key.ref) := by
  cases htab : ht.tab with
  | none =>
    right
    simp [MiniRedis.hLookup, htab, nodes]
  | some tab =>
    obtain ⟨chain, hchain⟩ := h.slot htab key.hashCode.toNat
    set p : HNode α → Bool := fun curr => curr.hashCode == key.hashCode && eq curr.ref key.ref
      with hp
    have hrun : MiniRedis.hLookup ht key eq = .ok ((chain.findIdx? p).map
        fun idx => { pos := key.hashCode.toNat &&& ht.mask, idx }) := by
      simp [MiniRedis.hLookup, htab, index, hchain, hp]
    cases hfind : chain.findIdx? p with
    | some idx =>
      left
      rw [hfind] at hrun
      obtain ⟨hidx, hpi, -⟩ := List.findIdx?_eq_some_iff_getElem.mp hfind
      refine ⟨_, chain[idx], hrun, ?_, ?_⟩
      · simp [HTable.load, htab, index, hchain, hidx]
      · simpa [hp] using hpi
    | none =>
      right
      rw [hfind] at hrun
      refine ⟨hrun, fun n hn hcode heq => ?_⟩
      rw [nodes_eq htab] at hn
      obtain ⟨i, chain', hi, hn⟩ := List.exists_getElem?_of_mem_flatten hn
      have hslot := h.placed tab htab i chain' hi n hn
      rw [hcode] at hslot
      obtain rfl : chain' = chain := by
        rw [← hslot, hchain] at hi
        exact (Option.some.inj hi).symm
      simpa [hp, hcode, heq] using List.findIdx?_eq_none_iff.mp hfind n hn

/-- A callback that always answers `true` is run on every node of a chain. -/
theorem chainForeach_true (g : HNode α → σ → σ) (chain : List (HNode α)) (args : σ) :
    chainForeach (fun n s => (true, g n s)) chain args =
      (true, chain.foldl (fun s n => g n s) args) := by
  induction chain generalizing args with
  | nil => rfl
  | cons n chain ih => exact ih _

theorem slotsForeach_true (g : HNode α → σ → σ) {tab : List (List (HNode α))} {n i : Nat}
    (h : i + n = tab.length) (args : σ) :
    slotsForeach (fun n s => (true, g n s)) tab n i args =
      .ok (true, (tab.drop i).flatten.foldl (fun s n => g n s) args) := by
  induction n generalizing i args with
  | zero => simp [slotsForeach, List.drop_eq_nil_of_le (by omega : tab.length ≤ i)]
  | succ n ih =>
    have hi : i < tab.length := by omega
    rw [List.drop_eq_getElem_cons hi, List.flatten_cons, List.foldl_append]
    simp only [slotsForeach, index, List.getElem?_eq_getElem hi, deref_some, ok_bind,
      chainForeach_true]
    exact ih (by omega) _

theorem WF.hForeach (h : ht.WF) (g : HNode α → σ → σ) (args : σ) :
    hForeach ht (fun n s => (true, g n s)) args =
      .ok (true, ht.nodes.foldl (fun s n => g n s) args) := by
  cases htab : ht.tab with
  | none => simp [MiniRedis.hForeach, htab, nodes]
  | some tab =>
    obtain ⟨hpow, hmask⟩ := h.slots tab htab
    have hpos := Nat.pos_of_isPowerOfTwo hpow
    simp only [MiniRedis.hForeach, htab, nodes_eq htab]
    rw [slotsForeach_true g (by omega), List.drop_zero]

end HTable

/-! ## The two tables of a map -/

namespace HMap

variable {m m' : HMap α}

theorem TablesWF.empty : ({} : HMap α).TablesWF where
  newer := .empty
  older := .empty
  migrated := by simp
  alloc := by simp

theorem TablesWF.hmSize (h : m.TablesWF) : hmSize m = m.nodes.length := by
  simp [MiniRedis.hmSize, nodes, h.newer.size, h.older.size]

/-- What a migration of at most `n` nodes does: the stored nodes stay, and as many of them as
possible, up to `n`, have left `older`. -/
structure Migrated (n : Nat) (m m' : HMap α) : Prop where
  wf : m'.TablesWF
  perm : m'.nodes.Perm m.nodes
  olderSize : m'.older.size = m.older.size - n
  newerSize : m'.newer.size = m.newer.size + min n m.older.size
  mask : m'.newer.mask = m.newer.mask
  slots : m'.newer.slots = m.newer.slots
  newerAlloc : m'.newer.tab.isSome = m.newer.tab.isSome
  olderAlloc : m'.older.tab.isSome → m.older.tab.isSome
  moved : ∃ ns : List (HNode α), ns.length = min n m.older.size ∧
    m'.newer.nodes.Perm (ns ++ m.newer.nodes) ∧ m.older.nodes.Perm (ns ++ m'.older.nodes)

theorem Migrated.zero (h : m.TablesWF) (hn : n = 0 ∨ m.older.size = 0) : Migrated n m m where
  wf := h
  perm := .refl _
  olderSize := by omega
  newerSize := by omega
  mask := rfl
  slots := rfl
  newerAlloc := rfl
  olderAlloc := id
  moved := ⟨[], by rw [List.length_nil]; omega, .refl _, .refl _⟩

/-- While `older` holds a node, `migrationPos` is one of its slots. -/
theorem TablesWF.migrationPos_lt (h : m.TablesWF) (hsize : 0 < m.older.size) :
    ∃ tab chain, m.older.tab = some tab ∧ tab[m.migrationPos]? = some chain := by
  rw [h.older.size] at hsize
  obtain ⟨n, hn⟩ := List.exists_mem_of_length_pos hsize
  cases htab : m.older.tab with
  | none => simp [HTable.nodes, htab] at hn
  | some tab =>
    rw [HTable.nodes_eq htab] at hn
    obtain ⟨i, chain, hi, hn⟩ := List.exists_getElem?_of_mem_flatten hn
    have hle : m.migrationPos ≤ i := by
      by_contra hlt
      rw [h.migrated tab htab i (by omega) chain hi] at hn
      simp at hn
    obtain ⟨hlt, -⟩ := List.getElem?_eq_some_iff.mp hi
    exact ⟨tab, tab[m.migrationPos], rfl, List.getElem?_eq_getElem (by omega)⟩

/-- Skipping an empty slot. -/
theorem TablesWF.skip (h : m.TablesWF) {tab} (htab : m.older.tab = some tab)
    (hslot : tab[m.migrationPos]? = some []) :
    ({ m with migrationPos := m.migrationPos + 1 } : HMap α).TablesWF where
  newer := h.newer
  older := h.older
  migrated := by
    intro tab' htab' i hi chain hchain
    obtain rfl : tab = tab' := Option.some.inj (htab.symm.trans htab')
    rcases Nat.lt_succ_iff_lt_or_eq.mp hi with hi | rfl
    · exact h.migrated tab htab i hi chain hchain
    · exact Option.some.inj (hchain.symm.trans hslot)
  alloc := h.alloc

/-- Moving the first node of a chain of `older`. -/
theorem TablesWF.move (h : m.TablesWF) {tab} (htab : m.older.tab = some tab) {node rest}
    (hslot : tab[m.migrationPos]? = some (node :: rest)) :
    ∃ older newer, hDetach m.older { pos := m.migrationPos, idx := 0 } = .ok (node, older) ∧
      hInsert m.newer node = .ok newer ∧ older.slots = m.older.slots ∧
      Migrated 1 m { m with older, newer } := by
  have hload : m.older.load { pos := m.migrationPos, idx := 0 } = .ok node := by
    simp [HTable.load, htab, index, hslot]
  obtain ⟨older, hdetach, hd, tab', chain, htab', hchain, holder⟩ := h.older.hDetach hload
  obtain ⟨newer, hinsert, hi⟩ := h.newer.hInsert (h.alloc (by simp [htab])) node
  refine ⟨older, newer, hdetach, hinsert, hd.slots, ?_⟩
  have hsize := hd.size
  refine ⟨⟨hi.wf, hd.wf, ?_, fun _ => hi.alloc⟩, ?_, by simp only; omega, ?_, hi.mask, hi.slots, ?_,
    fun _ => by simp [htab], [node], ?_, hi.perm, hd.perm⟩
  · obtain rfl : tab = tab' := Option.some.inj (htab.symm.trans htab')
    intro tab₂ htab₂ i hlt chain₂ hchain₂
    obtain rfl : tab.set m.migrationPos (chain.eraseIdx 0) = tab₂ :=
      Option.some.inj (holder.symm.trans htab₂)
    have hne : m.migrationPos ≠ i := Nat.ne_of_gt hlt
    rw [List.getElem?_set_ne hne] at hchain₂
    exact h.migrated tab htab i hlt chain₂ hchain₂
  · calc newer.nodes ++ older.nodes
        |>.Perm (node :: (m.newer.nodes ++ older.nodes)) := hi.perm.append_right _
      _ |>.Perm (m.newer.nodes ++ node :: older.nodes) := List.perm_middle.symm
      _ |>.Perm m.nodes := hd.perm.symm.append_left _
  · have := hi.size
    simp only
    omega
  · have := h.alloc (by simp [htab])
    simp [hi.alloc, this]
  · rw [List.length_singleton]
    omega

theorem Migrated.succ {m₀ m₁ m₂ : HMap α} (h₁ : Migrated 1 m₀ m₁) (h₂ : Migrated n m₁ m₂) :
    Migrated (n + 1) m₀ m₂ where
  wf := h₂.wf
  perm := h₂.perm.trans h₁.perm
  olderSize := by rw [h₂.olderSize, h₁.olderSize]; omega
  newerSize := by rw [h₂.newerSize, h₁.newerSize, h₁.olderSize]; omega
  mask := h₂.mask.trans h₁.mask
  slots := h₂.slots.trans h₁.slots
  newerAlloc := h₂.newerAlloc.trans h₁.newerAlloc
  olderAlloc := h₁.olderAlloc ∘ h₂.olderAlloc
  moved := by
    obtain ⟨ns₁, hlen₁, hnewer₁, holder₁⟩ := h₁.moved
    obtain ⟨ns₂, hlen₂, hnewer₂, holder₂⟩ := h₂.moved
    refine ⟨ns₁ ++ ns₂, ?_, ?_, ?_⟩
    · rw [List.length_append, hlen₁, hlen₂, h₁.olderSize]
      omega
    · calc m₂.newer.nodes
          |>.Perm (ns₂ ++ m₁.newer.nodes) := hnewer₂
        _ |>.Perm (ns₂ ++ (ns₁ ++ m₀.newer.nodes)) := hnewer₁.append_left _
        _ |>.Perm (ns₁ ++ ns₂ ++ m₀.newer.nodes) := by
          rw [← List.append_assoc]
          exact List.perm_append_comm.append_right _
    · rw [List.append_assoc]
      exact holder₁.trans (holder₂.append_left _)

/-- The migration loop ends before its bound. The induction is on the bound, which exceeds the work
left plus the slots left. -/
theorem TablesWF.hmHelpRehashingLoop (h : m.TablesWF) {fuel : Nat} (work : Nat)
    (hfuel : (kRehashingWork - work) + (m.older.slots - m.migrationPos) < fuel) :
    ∃ m', hmHelpRehashingLoop fuel work m = .ok m' ∧
      Migrated (kRehashingWork - work) m m' := by
  induction fuel generalizing work m with
  | zero => omega
  | succ fuel ih =>
    by_cases hcond : work < kRehashingWork ∧ 0 < m.older.size
    · obtain ⟨tab, chain, htab, hslot⟩ := h.migrationPos_lt hcond.2
      have hpos : m.migrationPos < m.older.slots := by
        obtain ⟨hlt, -⟩ := List.getElem?_eq_some_iff.mp hslot
        simpa [HTable.slots, htab] using hlt
      cases chain with
      | nil =>
        obtain ⟨m', hrun, hm'⟩ := ih (h.skip htab hslot) work (by simp only; omega)
        refine ⟨m', ?_, ?_⟩
        · simp only [MiniRedis.hmHelpRehashingLoop, if_pos hcond, htab, index, hslot, deref_some,
            ok_bind]
          exact hrun
        · exact ⟨hm'.wf, hm'.perm, hm'.olderSize, hm'.newerSize, hm'.mask, hm'.slots,
            hm'.newerAlloc, hm'.olderAlloc, hm'.moved⟩
      | cons node rest =>
        obtain ⟨older, newer, hdetach, hinsert, hslots, hmove⟩ := h.move htab hslot
        obtain ⟨m', hrun, hm'⟩ := ih hmove.wf (work + 1) (by
          simp only [hslots]; omega)
        refine ⟨m', ?_, ?_⟩
        · simp only [MiniRedis.hmHelpRehashingLoop, if_pos hcond, htab, index, hslot, deref_some,
            ok_bind, hdetach, hinsert]
          exact hrun
        · have := hmove.succ hm'
          rwa [show kRehashingWork - (work + 1) + 1 = kRehashingWork - work by omega] at this
    · refine ⟨m, ?_, .zero h (by omega)⟩
      simp only [MiniRedis.hmHelpRehashingLoop, if_neg hcond, pure_eq_ok]

/-- Discarding an empty `older`. -/
theorem Migrated.discard {n : Nat} (h : Migrated n m m') (hsize : m'.older.size = 0) :
    Migrated n m { m' with older := {} } where
  wf := ⟨h.wf.newer, .empty, by simp, by simp⟩
  perm := by
    have hnil : m'.older.nodes = [] :=
      List.length_eq_zero_iff.mp (h.wf.older.size.symm.trans hsize)
    have hp := h.perm
    rw [nodes, hnil] at hp
    simpa [nodes, HTable.nodes] using hp
  olderSize := by simpa [hsize] using h.olderSize
  newerSize := h.newerSize
  mask := h.mask
  slots := h.slots
  newerAlloc := h.newerAlloc
  olderAlloc := by simp
  moved := by
    obtain ⟨ns, hlen, hnewer, holder⟩ := h.moved
    have hnil : m'.older.nodes = [] :=
      List.length_eq_zero_iff.mp (h.wf.older.size.symm.trans hsize)
    rw [hnil] at holder
    exact ⟨ns, hlen, hnewer, holder⟩

/-- `hmHelpRehashing` migrates `kRehashingWork` nodes, or all that are left, and keeps `older`
allocated exactly while it holds a node. -/
theorem TablesWF.hmHelpRehashing (h : m.TablesWF) :
    ∃ m', hmHelpRehashing m = .ok m' ∧ Migrated kRehashingWork m m' ∧
      (m'.older.tab.isNone ↔ m'.older.size = 0) := by
  have hfuel : kRehashingWork - 0 + (m.older.slots - m.migrationPos) <
      kRehashingWork + m.older.slots + 1 := by omega
  obtain ⟨m₁, hrun, hm₁⟩ := h.hmHelpRehashingLoop 0 hfuel
  simp only [MiniRedis.hmHelpRehashing, hrun, ok_bind, pure_eq_ok]
  by_cases hcond : m₁.older.size = 0 ∧ m₁.older.tab.isSome
  · exact ⟨_, by rw [if_pos hcond], hm₁.discard hcond.1, by simp⟩
  · refine ⟨m₁, by rw [if_neg hcond], hm₁, fun hnone => ?_, fun hzero => ?_⟩
    · rw [hm₁.wf.older.size]
      simp [HTable.nodes, Option.isNone_iff_eq_none.mp hnone]
    · simpa [hzero] using hcond

/-! ## The operations -/

/-- `hmLookup` answers a stored node that matches the key, or there is none. -/
theorem TablesWF.hmLookup (h : m.TablesWF) (key : HNode κ) (eq : α → κ → Bool) :
    ∃ found m', hmLookup m key eq = .ok (found, m') ∧ Migrated kRehashingWork m m' ∧
      (∀ n, found = some n → n ∈ m.nodes ∧ n.hashCode = key.hashCode ∧ eq n.ref key.ref) ∧
      (found = none → ∀ n ∈ m.nodes, n.hashCode = key.hashCode → ¬ eq n.ref key.ref) := by
  obtain ⟨m', hrun, hm', -⟩ := h.hmHelpRehashing
  have hmem : ∀ n, n ∈ m'.newer.nodes ∨ n ∈ m'.older.nodes ↔ n ∈ m.nodes := fun n => by
    rw [← hm'.perm.mem_iff, nodes, List.mem_append]
  rcases hm'.wf.newer.hLookup key eq with ⟨link, n, hl, hload, hn⟩ | ⟨hl, hnone⟩
  · refine ⟨some n, m', by simp [MiniRedis.hmLookup, hrun, hl, hload], hm', ?_, by simp⟩
    rintro _ ⟨⟩
    exact ⟨(hmem n).mp (.inl (HTable.load_mem hload)), hn⟩
  rcases hm'.wf.older.hLookup key eq with ⟨link, n, hl', hload, hn⟩ | ⟨hl', hnone'⟩
  · refine ⟨some n, m', by simp [MiniRedis.hmLookup, hrun, hl, hl', hload], hm', ?_, by simp⟩
    rintro _ ⟨⟩
    exact ⟨(hmem n).mp (.inr (HTable.load_mem hload)), hn⟩
  · refine ⟨none, m', by simp [MiniRedis.hmLookup, hrun, hl, hl'], hm', by simp, ?_⟩
    intro _ n hn
    rcases (hmem n).mpr hn with hn | hn
    · exact hnone n hn
    · exact hnone' n hn

/-- The newer table keeps its slots, and no migration has been started. -/
structure SameSlots (m m' : HMap α) : Prop where
  mask : m'.newer.mask = m.newer.mask
  newerAlloc : m'.newer.tab.isSome = m.newer.tab.isSome
  olderAlloc : m'.older.tab.isSome → m.older.tab.isSome

theorem Migrated.sameSlots (h : Migrated n m m') : SameSlots m m' :=
  ⟨h.mask, h.newerAlloc, h.olderAlloc⟩

/-- `hmDelete` unlinks and answers a stored node that matches the key, or there is none. -/
theorem TablesWF.hmDelete (h : m.TablesWF) (key : HNode κ) (eq : α → κ → Bool) :
    ∃ found m', hmDelete m key eq = .ok (found, m') ∧ m'.TablesWF ∧ SameSlots m m' ∧
      (∀ n, found = some n → m.nodes.Perm (n :: m'.nodes) ∧ n.hashCode = key.hashCode ∧
        eq n.ref key.ref) ∧
      (found = none → m'.nodes.Perm m.nodes ∧
        ∀ n ∈ m.nodes, n.hashCode = key.hashCode → ¬ eq n.ref key.ref) := by
  obtain ⟨m', hrun, hm', -⟩ := h.hmHelpRehashing
  rcases hm'.wf.newer.hLookup key eq with ⟨link, n, hl, hload, hn⟩ | ⟨hl, hnone⟩
  · obtain ⟨newer, hdetach, hd, -⟩ := hm'.wf.newer.hDetach hload
    refine ⟨some n, { m' with newer }, by simp [MiniRedis.hmDelete, hrun, hl, hdetach],
      ⟨hd.wf, hm'.wf.older, hm'.wf.migrated, fun _ => hd.alloc⟩,
      ⟨hd.mask.trans hm'.mask, ?_, hm'.olderAlloc⟩, ?_, by simp⟩
    · obtain ⟨tab, -, htab, -⟩ := HTable.load_eq_ok hload
      simp [hd.alloc, ← hm'.newerAlloc, htab]
    rintro _ ⟨⟩
    exact ⟨hm'.perm.symm.trans (hd.perm.append_right _), hn⟩
  rcases hm'.wf.older.hLookup key eq with ⟨link, n, hl', hload, hn⟩ | ⟨hl', hnone'⟩
  · obtain ⟨older, hdetach, hd, tab, chain, htab, hchain, holder⟩ := hm'.wf.older.hDetach hload
    refine ⟨some n, { m' with older }, by simp [MiniRedis.hmDelete, hrun, hl, hl', hdetach],
      ⟨hm'.wf.newer, hd.wf, ?_, fun _ => hm'.wf.alloc (by simp [htab])⟩,
      ⟨hm'.mask, hm'.newerAlloc, fun _ => hm'.olderAlloc (by simp [htab])⟩, ?_, by simp⟩
    · intro tab₂ htab₂ i hlt chain₂ hchain₂
      obtain rfl : tab.set link.pos (chain.eraseIdx link.idx) = tab₂ :=
        Option.some.inj (holder.symm.trans htab₂)
      -- The slot of the deleted node was empty already or is not below `migrationPos`.
      by_cases hpos : link.pos = i
      · subst hpos
        have hempty := hm'.wf.migrated tab htab link.pos hlt chain hchain
        obtain ⟨-, rfl⟩ : link.pos < tab.length ∧ chain₂ = chain.eraseIdx link.idx := by
          simpa [List.getElem?_set, eq_comm] using hchain₂
        simp [hempty]
      · rw [List.getElem?_set_ne hpos] at hchain₂
        exact hm'.wf.migrated tab htab i hlt chain₂ hchain₂
    · rintro _ ⟨⟩
      refine ⟨hm'.perm.symm.trans ?_, hn⟩
      exact (hd.perm.append_left _).trans List.perm_middle
  · refine ⟨none, m', by simp [MiniRedis.hmDelete, hrun, hl, hl'], hm'.wf, hm'.sameSlots,
      by simp, ?_⟩
    intro _
    refine ⟨hm'.perm, fun n hn => ?_⟩
    rw [← hm'.perm.mem_iff, nodes, List.mem_append] at hn
    rcases hn with hn | hn
    · exact hnone n hn
    · exact hnone' n hn

/-- The table that `hmInsert` puts its node into: the `newer` table, allocated on first use. -/
theorem TablesWF.newerTable (h : m.TablesWF) (node : HNode α) :
    ∃ newer newer', hmNewer m = .ok newer ∧ hInsert newer node = .ok newer' ∧
      HTable.Inserted node newer newer' ∧ newer.nodes = m.newer.nodes ∧
      newer.size = m.newer.size ∧
      newer.mask = if m.newer.tab.isNone then 3 else m.newer.mask := by
  cases htab : m.newer.tab with
  | none =>
    have hpow : Nat.isPowerOfTwo 4 := ⟨2, rfl⟩
    obtain ⟨newer', hins, hi⟩ := (HTable.WF.ofSlots (α := α) hpow).hInsert rfl node
    have hnil : m.newer.nodes = [] := by simp [HTable.nodes, htab]
    refine ⟨_, newer', by simpa [hmNewer, htab] using HTable.hInit_ok hpow, hins, hi, by simp [hnil], ?_, rfl⟩
    simp [h.newer.size, hnil, HTable.ofSlots]
  | some tab =>
    obtain ⟨newer', hins, hi⟩ := h.newer.hInsert (by simp [htab]) node
    exact ⟨m.newer, newer', by simp [hmNewer, htab], hins, hi, rfl, rfl, by simp⟩

/-- The insertion fills the newer table past the load factor while no migration is under way. -/
def Triggers (m : HMap α) : Prop :=
  m.older.tab = none ∧
    ((if m.newer.tab.isNone then 3 else m.newer.mask) + 1) * kMaxLoadFactor ≤ m.newer.size + 1

theorem TablesWF.hmInsert_of_not_triggers (h : m.TablesWF) (ht : ¬ m.Triggers) (node : HNode α) :
    ∃ m', hmInsert m node = .ok m' ∧ m'.TablesWF ∧ m'.nodes.Perm (node :: m.nodes) ∧
      m'.newer.mask = (if m.newer.tab.isNone then 3 else m.newer.mask) ∧
      (m'.older.tab.isSome → m.older.tab.isSome) := by
  obtain ⟨newer, newer', hnewer, hins, hi, hnodes, hsize, hmask⟩ := h.newerTable node
  have hwf : ({ m with newer := newer' } : HMap α).TablesWF :=
    ⟨hi.wf, h.older, h.migrated, fun _ => hi.alloc⟩
  have hcond : ¬ (m.older.tab.isNone ∧ (newer'.mask + 1) * kMaxLoadFactor ≤ newer'.size) := by
    rwa [hi.mask, hi.size, hsize, hmask, Option.isNone_iff_eq_none]
  obtain ⟨m', hm'run, hm', -⟩ := hwf.hmHelpRehashing
  refine ⟨m', ?_, hm'.wf, hm'.perm.trans ?_, ?_, hm'.olderAlloc⟩
  · simp only [MiniRedis.hmInsert, hnewer, hins, ok_bind]
    rw [hmCheckLoad, if_neg hcond]
    exact hm'run
  · have := hi.perm.append_right m.older.nodes
    rw [hnodes] at this
    exact this
  · rw [hm'.mask, hi.mask, hmask]

/-- An insertion that triggers hands `(size + 1) * 2` to `hInit`. -/
theorem TablesWF.hmInsert_of_triggers (h : m.TablesWF) (ht : m.Triggers) (node : HNode α) :
    ∃ newer', newer'.WF ∧ newer'.nodes.Perm (node :: m.nodes) ∧
      hmInsert m node = (hInit ((m.newer.size + 2) * 2) >>= fun newer =>
        MiniRedis.hmHelpRehashing ⟨newer', newer, 0⟩) := by
  obtain ⟨newer, newer', hnewer, hins, hi, hnodes, hsize, hmask⟩ := h.newerTable node
  have hcond : m.older.tab.isNone ∧ (newer'.mask + 1) * kMaxLoadFactor ≤ newer'.size := by
    rwa [hi.mask, hi.size, hsize, hmask, Option.isNone_iff_eq_none]
  have hnil : m.older.nodes = [] := by simp [HTable.nodes, ht.1]
  refine ⟨newer', hi.wf, by simpa [nodes, hnodes, hnil] using hi.perm, ?_⟩
  simp only [MiniRedis.hmInsert, hnewer, hins, ok_bind]
  rw [hmCheckLoad, if_pos hcond]
  simp [hmTriggerRehash, assert, ht.1, hi.size, hsize]

/-- `hmInsert` adds its node, unless it starts a migration to a table whose size `hInit` refuses. -/
theorem TablesWF.hmInsert (h : m.TablesWF) (node : HNode α) :
    (∃ m', hmInsert m node = .ok m' ∧ m'.TablesWF ∧ m'.nodes.Perm (node :: m.nodes)) ∨
      (m.Triggers ∧ ¬ ((m.newer.size + 2) * 2).isPowerOfTwo ∧
        hmInsert m node = .error (.assertion .hInitSize)) := by
  by_cases ht : m.Triggers
  · obtain ⟨newer', hwf', hperm, hrun⟩ := h.hmInsert_of_triggers ht node
    by_cases hpow : ((m.newer.size + 2) * 2).isPowerOfTwo
    · left
      have hwf : (⟨newer', .ofSlots ((m.newer.size + 2) * 2), 0⟩ : HMap α).TablesWF :=
        ⟨.ofSlots hpow, hwf', by simp, by simp [HTable.ofSlots]⟩
      obtain ⟨m', hm'run, hm', -⟩ := hwf.hmHelpRehashing
      refine ⟨m', ?_, hm'.wf, hm'.perm.trans (by simpa [nodes] using hperm)⟩
      rw [hrun, HTable.hInit_ok hpow]
      exact hm'run
    · right
      refine ⟨ht, hpow, ?_⟩
      rw [hrun, HTable.hInit_error hpow]
      rfl
  · obtain ⟨m', hm', hwf, hperm, -⟩ := h.hmInsert_of_not_triggers ht node
    exact .inl ⟨m', hm', hwf, hperm⟩

/-- A callback that always answers `true` is run once on each stored node. -/
theorem TablesWF.hmForeach (h : m.TablesWF) (g : HNode α → σ → σ) (args : σ) :
    hmForeach m (fun n s => (true, g n s)) args =
      .ok (m.nodes.foldl (fun s n => g n s) args) := by
  simp [MiniRedis.hmForeach, h.newer.hForeach, h.older.hForeach, nodes, List.foldl_append]

end HMap

end MiniRedis
