import Mathlib.Data.Set.Card
import MiniRedis.Theory.Run
import MiniRedis.Verify.HashTable

/-! # The hash map as a set of keyed nodes

`HMap.WF keyOf` adds to the shape of the tables that no node and no key is stored twice. Under it
the operations act on the set of stored nodes (`HMap.stored`), whatever part of a migration is
done. The second half follows runs from the empty map: the first migration asks `hInit` for a size
that is not a power of two, so a map never gets past its first table. -/

namespace MiniRedis

namespace HMap

variable {m m' : HMap α} {keyOf : α → κ}

/-- No node and no key is stored twice across the two tables. -/
structure WF (m : HMap α) (keyOf : α → κ) : Prop extends m.TablesWF where
  refs : (m.nodes.map (·.ref)).Nodup
  keys : (m.nodes.map fun n => keyOf n.ref).Nodup

/-- The abstract state: the set of nodes stored in either table. -/
def stored (m : HMap α) : Set (HNode α) := { n | n ∈ m.newer.nodes ∨ n ∈ m.older.nodes }

theorem mem_stored {n : HNode α} : n ∈ m.stored ↔ n ∈ m.nodes := by
  simp [stored, nodes]

theorem stored_congr (h : m'.nodes.Perm m.nodes) : m'.stored = m.stored := by
  ext n
  rw [mem_stored, mem_stored, h.mem_iff]

theorem WF.empty (keyOf : α → κ) : ({} : HMap α).WF keyOf where
  toTablesWF := .empty
  refs := by simp [nodes, HTable.nodes]
  keys := by simp [nodes, HTable.nodes]

/-- The parts about nodes only depend on the nodes up to order. -/
theorem WF.of_perm (h : m.WF keyOf) (hwf : m'.TablesWF) (hperm : m'.nodes.Perm m.nodes) :
    m'.WF keyOf :=
  ⟨hwf, (hperm.map _).nodup_iff.mpr h.refs, (hperm.map _).nodup_iff.mpr h.keys⟩

theorem WF.of_perm_cons {n : HNode α} (h : m.WF keyOf) (hwf : m'.TablesWF)
    (hperm : m.nodes.Perm (n :: m'.nodes)) : m'.WF keyOf := by
  have hrefs := (hperm.map (·.ref)).nodup_iff.mp h.refs
  have hkeys := (hperm.map fun n => keyOf n.ref).nodup_iff.mp h.keys
  exact ⟨hwf, (List.nodup_cons.mp hrefs).2, (List.nodup_cons.mp hkeys).2⟩

theorem WF.cons {n : HNode α} (h : m.WF keyOf) (hwf : m'.TablesWF)
    (hperm : m'.nodes.Perm (n :: m.nodes)) (hnew : ∀ n' ∈ m.nodes, keyOf n'.ref ≠ keyOf n.ref) :
    m'.WF keyOf := by
  refine ⟨hwf, (hperm.map _).nodup_iff.mpr ?_, (hperm.map _).nodup_iff.mpr ?_⟩
  · refine List.nodup_cons.mpr ⟨fun hmem => ?_, h.refs⟩
    obtain ⟨n', hn', href⟩ := List.mem_map.mp hmem
    exact hnew n' hn' (by rw [href])
  · refine List.nodup_cons.mpr ⟨fun hmem => ?_, h.keys⟩
    obtain ⟨n', hn', hkey⟩ := List.mem_map.mp hmem
    exact hnew n' hn' hkey

/-- Only the keys of the stored nodes matter. -/
theorem WF.congr {keyOf' : α → κ} (h : m.WF keyOf)
    (hkey : ∀ n ∈ m.nodes, keyOf' n.ref = keyOf n.ref) : m.WF keyOf' := by
  refine ⟨h.toTablesWF, h.refs, ?_⟩
  rw [List.map_congr_left hkey]
  exact h.keys

/-- Nodes can also be told apart by their addresses. -/
theorem WF.byRef (h : m.WF keyOf) : m.WF (id : α → α) := ⟨h.toTablesWF, h.refs, h.refs⟩

/-- A key fixes its node. -/
theorem WF.eq_of_key (h : m.WF keyOf) {n n' : HNode α} (hn : n ∈ m.nodes) (hn' : n' ∈ m.nodes)
    (hkey : keyOf n.ref = keyOf n'.ref) : n = n' :=
  List.inj_on_of_nodup_map h.keys hn hn' hkey

/-- A callback that compares keys, and a search key whose hash code is that of the stored node with
the same key, if there is one. -/
structure Searches (m : HMap α) (keyOf : α → κ) (key : HNode κ) (eq : α → κ → Bool) : Prop where
  eq_iff : ∀ a, eq a key.ref = true ↔ keyOf a = key.ref
  hashCode : ∀ n ∈ m.nodes, keyOf n.ref = key.ref → n.hashCode = key.hashCode

theorem WF.hmLookup {key : HNode κ} {eq : α → κ → Bool} (h : m.WF keyOf)
    (hs : m.Searches keyOf key eq) :
    ∃ found m', hmLookup m key eq = .ok (found, m') ∧ m'.WF keyOf ∧ m'.nodes.Perm m.nodes ∧
      ∀ n, found = some n ↔ n ∈ m.nodes ∧ keyOf n.ref = key.ref := by
  obtain ⟨found, m', hrun, hm', hsome, hnone⟩ := h.toTablesWF.hmLookup key eq
  refine ⟨found, m', hrun, h.of_perm hm'.wf hm'.perm, hm'.perm, fun n => ⟨fun hf => ?_, ?_⟩⟩
  · obtain ⟨hn, -, heq⟩ := hsome n hf
    exact ⟨hn, (hs.eq_iff _).mp heq⟩
  · rintro ⟨hn, hkey⟩
    cases found with
    | none => exact absurd ((hs.eq_iff _).mpr hkey) (hnone rfl n hn (hs.hashCode n hn hkey))
    | some n' =>
      obtain ⟨hn', -, heq⟩ := hsome n' rfl
      rw [h.eq_of_key hn' hn (((hs.eq_iff _).mp heq).trans hkey.symm)]

theorem WF.hmDelete {key : HNode κ} {eq : α → κ → Bool} (h : m.WF keyOf)
    (hs : m.Searches keyOf key eq) :
    ∃ found m', hmDelete m key eq = .ok (found, m') ∧ m'.WF keyOf ∧
      (∀ n, found = some n ↔ n ∈ m.nodes ∧ keyOf n.ref = key.ref) ∧
      (∀ n, found = some n → m.nodes.Perm (n :: m'.nodes)) ∧
      (found = none → m'.nodes.Perm m.nodes) := by
  obtain ⟨found, m', hrun, hwf, -, hsome, hnone⟩ := h.toTablesWF.hmDelete key eq
  cases found with
  | none =>
    obtain ⟨hperm, hno⟩ := hnone rfl
    refine ⟨none, m', hrun, h.of_perm hwf hperm, fun n => ⟨by simp, ?_⟩, by simp, fun _ => hperm⟩
    rintro ⟨hn, hkey⟩
    exact absurd ((hs.eq_iff _).mpr hkey) (hno n hn (hs.hashCode n hn hkey))
  | some n' =>
    obtain ⟨hperm, -, heq⟩ := hsome n' rfl
    have hn' : n' ∈ m.nodes := hperm.mem_iff.mpr List.mem_cons_self
    have hkey' := (hs.eq_iff _).mp heq
    refine ⟨some n', m', hrun, h.of_perm_cons hwf hperm, fun n => ⟨?_, ?_⟩, ?_, by simp⟩
    · rintro ⟨⟩
      exact ⟨hn', hkey'⟩
    · rintro ⟨hn, hkey⟩
      rw [h.eq_of_key hn' hn (hkey'.trans hkey.symm)]
    · rintro _ ⟨⟩
      exact hperm

theorem WF.hmInsert (h : m.WF keyOf) (node : HNode α)
    (hnew : ∀ n ∈ m.nodes, keyOf n.ref ≠ keyOf node.ref) :
    (∃ m', hmInsert m node = .ok m' ∧ m'.WF keyOf ∧ m'.nodes.Perm (node :: m.nodes)) ∨
      hmInsert m node = .error (.assertion .hInitSize) := by
  rcases h.toTablesWF.hmInsert node with ⟨m', hrun, hwf, hperm⟩ | ⟨-, -, hrun⟩
  · exact .inl ⟨m', hrun, h.cons hwf hperm hnew, hperm⟩
  · exact .inr hrun

/-- Any callback that always answers `true`. -/
theorem TablesWF.hmForeach_of_true {f : HNode α → σ → Bool × σ} (h : m.TablesWF)
    (hf : ∀ n s, (f n s).1 = true) (args : σ) :
    MiniRedis.hmForeach m f args = .ok (m.nodes.foldl (fun s n => (f n s).2) args) := by
  have : f = fun n s => (true, (f n s).2) := by
    funext n s
    rw [← hf n s]
  rw [this]
  exact h.hmForeach _ args

theorem WF.nodup (h : m.WF keyOf) : m.nodes.Nodup := List.Nodup.of_map _ h.refs

/-- **Refinement.** At every stage of a migration the operations act on the set of stored nodes:
lookup and deletion find the node with the key exactly when one is stored in either table, deletion
removes that node and nothing else, insertion adds its node unless `hInit` refuses the next size,
`hmSize` counts the nodes and `hmForeach` visits each of them once. -/
theorem WF.refines_stored (h : m.WF keyOf) {key : HNode κ} {eq : α → κ → Bool}
    (hs : m.Searches keyOf key eq) :
    (∃ found m', MiniRedis.hmLookup m key eq = .ok (found, m') ∧ m'.WF keyOf ∧
      m'.stored = m.stored ∧ ∀ n, found = some n ↔ n ∈ m.stored ∧ keyOf n.ref = key.ref) ∧
    (∃ found m', MiniRedis.hmDelete m key eq = .ok (found, m') ∧ m'.WF keyOf ∧
      (∀ n, found = some n ↔ n ∈ m.stored ∧ keyOf n.ref = key.ref) ∧
      m'.stored = m.stored \ { n | found = some n }) ∧
    (∀ node : HNode α, (∀ n ∈ m.stored, keyOf n.ref ≠ keyOf node.ref) →
      MiniRedis.hmInsert m node ≠ .error (.assertion .hInitSize) →
      ∃ m', MiniRedis.hmInsert m node = .ok m' ∧ m'.WF keyOf ∧ m'.stored = insert node m.stored) ∧
    (m.stored.Finite ∧ hmSize m = m.stored.ncard) ∧
    (∀ (σ : Type) (f : HNode α → σ → Bool × σ) (args : σ), (∀ n s, (f n s).1 = true) →
      ∃ visited : List (HNode α), visited.Nodup ∧ (∀ n, n ∈ visited ↔ n ∈ m.stored) ∧
        MiniRedis.hmForeach m f args = .ok (visited.foldl (fun s n => (f n s).2) args)) := by
  refine ⟨?_, ?_, fun node hnew hassert => ?_, ⟨?_, ?_⟩, fun σ f args hf => ?_⟩
  · obtain ⟨found, m', hrun, hwf, hperm, hfound⟩ := h.hmLookup hs
    exact ⟨found, m', hrun, hwf, stored_congr hperm, by simpa only [mem_stored] using hfound⟩
  · obtain ⟨found, m', hrun, hwf, hfound, hsome, hnone⟩ := h.hmDelete hs
    refine ⟨found, m', hrun, hwf, by simpa only [mem_stored] using hfound, ?_⟩
    cases found with
    | none => simpa using stored_congr (hnone rfl)
    | some n =>
      have hperm := hsome n rfl
      have hnot : n ∉ m'.nodes := (List.nodup_cons.mp (hperm.nodup_iff.mp h.nodup)).1
      ext n'
      simp only [Set.mem_sdiff, mem_stored, Set.mem_ofPred_eq, Option.some.injEq, hperm.mem_iff,
        List.mem_cons]
      grind
  · rcases h.hmInsert node (by simpa only [mem_stored] using hnew) with ⟨m', hrun, hwf, hperm⟩ | herr
    · refine ⟨m', hrun, hwf, ?_⟩
      ext n
      simp only [mem_stored, hperm.mem_iff, List.mem_cons, Set.mem_insert_iff]
    · exact absurd herr hassert
  · exact (List.finite_toSet m.nodes).subset fun n hn => mem_stored.mp hn
  · classical
    have hset : m.stored = (m.nodes.toFinset : Set (HNode α)) := by
      ext n
      simp [mem_stored]
    rw [hset, Set.ncard_coe_finset, List.toFinset_card_of_nodup h.nodup, h.toTablesWF.hmSize]
  · exact ⟨m.nodes, h.nodup, fun n => mem_stored.symm, h.toTablesWF.hmForeach_of_true hf args⟩

/-- One node moved, one node still to be moved. -/
def migrating : HMap Nat where
  older := { tab := some [[], [⟨3, 3⟩]], mask := 1, size := 1 }
  newer := { tab := some [[], [⟨1, 1⟩], [], []], mask := 3, size := 1 }
  migrationPos := 1

theorem migrating_wf : migrating.WF id where
  newer := ⟨by rintro _ ⟨⟩; exact ⟨⟨2, rfl⟩, rfl⟩, by
    rintro _ ⟨⟩ i chain hi n hn
    match i with
    | 0 | 2 | 3 => simp_all
    | 1 =>
      obtain rfl : [⟨1, 1⟩] = chain := Option.some.inj hi
      rw [List.mem_singleton.mp hn]
      rfl
    | i + 4 => simp at hi, rfl⟩
  older := ⟨by rintro _ ⟨⟩; exact ⟨⟨1, rfl⟩, rfl⟩, by
    rintro _ ⟨⟩ i chain hi n hn
    match i with
    | 0 => simp_all
    | 1 =>
      obtain rfl : [⟨3, 3⟩] = chain := Option.some.inj hi
      rw [List.mem_singleton.mp hn]
      rfl
    | i + 2 => simp at hi, rfl⟩
  migrated := by
    rintro _ ⟨⟩ i hi chain hchain
    obtain rfl : i = 0 := Nat.lt_one_iff.mp hi
    exact (Option.some.inj hchain).symm
  alloc := fun _ => rfl
  refs := by decide
  keys := by decide

theorem WF.refines_stored_migrating :
    ∃ found m', MiniRedis.hmLookup migrating ⟨3, 3⟩ (· == ·) = .ok (found, m') ∧
      m'.stored = migrating.stored ∧ found = some ⟨3, 3⟩ := by
  have hs : migrating.Searches id ⟨3, 3⟩ (· == ·) := ⟨by simp, by decide⟩
  obtain ⟨found, m', hrun, -, hstored, hfound⟩ := (migrating_wf.refines_stored hs).1
  exact ⟨found, m', hrun, hstored, (hfound _).mpr ⟨mem_stored.mpr (by decide), rfl⟩⟩

end HMap

/-! ## Runs from the empty map -/

/-- A call of the map's interface. -/
inductive HOp (α κ : Type) where
  | insert (node : HNode α)
  | lookup (key : HNode κ) (eq : α → κ → Bool)
  | delete (key : HNode κ) (eq : α → κ → Bool)
  | clear

def HOp.apply (m : HMap α) : HOp α κ → Result (HMap α)
  | .insert node => hmInsert m node
  | .lookup key eq => return (← hmLookup m key eq).2
  | .delete key eq => return (← hmDelete m key eq).2
  | .clear => return hmClear m

/-- An allocated table has a power of two of slots, and `mask` is one less. -/
def HTable.SlotsOK (ht : HTable α) : Prop :=
  ∀ tab, ht.tab = some tab → tab.length.isPowerOfTwo ∧ ht.mask = tab.length - 1

/-- No call of the run fails, and after every call the tables have their proper sizes. -/
def RunsSafely (ops : List (HOp α κ)) : Prop :=
  ∀ pre, pre <+: ops → ∃ m, runSteps HOp.apply {} pre = .ok m ∧ m.older.SlotsOK ∧ m.newer.SlotsOK

/-- Whenever the run inserts, fewer than `limit` nodes are stored. -/
def InsertsBelow (limit : Nat) (ops : List (HOp α κ)) : Prop :=
  ∀ pre node post, ops = pre ++ .insert node :: post →
    ∀ m, runSteps HOp.apply {} pre = .ok m → hmSize m < limit

/-- A map that has not outgrown its first table, of four slots. -/
structure HMap.FirstTable (m : HMap α) : Prop extends m.TablesWF where
  olderNone : m.older.tab = none
  mask : m.newer.tab.isSome → m.newer.mask = 3
  room : hmSize m < 32

namespace HMap.FirstTable

variable {m m' : HMap α}

theorem empty : ({} : HMap α).FirstTable where
  toTablesWF := .empty
  olderNone := rfl
  mask := by simp
  room := by simp [hmSize]

theorem slotsOK (h : m.FirstTable) : m.older.SlotsOK ∧ m.newer.SlotsOK :=
  ⟨h.older.slots, h.newer.slots⟩

theorem size_eq (h : m.FirstTable) : m.newer.size = hmSize m := by
  have : m.older.size = 0 := by
    rw [h.older.size]
    simp [HTable.nodes, h.olderNone]
  rw [hmSize, this, Nat.add_zero]

/-- Calls that keep the slots and do not add nodes. -/
theorem of_sameSlots (h : m.FirstTable) (hwf : m'.TablesWF) (hs : HMap.SameSlots m m')
    (hlen : m'.nodes.length ≤ m.nodes.length) : m'.FirstTable where
  toTablesWF := hwf
  olderNone := by
    have := mt hs.olderAlloc (by simp [h.olderNone])
    simpa using this
  mask hsome := by
    rw [hs.mask]
    exact h.mask (hs.newerAlloc ▸ hsome)
  room := by
    have := h.room
    rw [h.hmSize] at this
    rw [hwf.hmSize]
    omega

theorem mask_eq (h : m.FirstTable) : (if m.newer.tab.isNone then 3 else m.newer.mask) = 3 := by
  cases htab : m.newer.tab with
  | none => rfl
  | some tab => simpa using h.mask (by simp [htab])

/-- The 32nd node fills the first table to the load factor. -/
theorem triggers_iff (h : m.FirstTable) : m.Triggers ↔ 31 ≤ hmSize m := by
  rw [HMap.Triggers, h.mask_eq, h.size_eq]
  simp only [h.olderNone, kMaxLoadFactor, true_and]
  omega

theorem insert (h : m.FirstTable) (hsize : hmSize m < 31) (node : HNode α) :
    ∃ m', hmInsert m node = .ok m' ∧ m'.FirstTable := by
  have ht : ¬ m.Triggers := by
    rw [h.triggers_iff]
    omega
  obtain ⟨m', hrun, hwf, hperm, hmask, halloc⟩ := h.toTablesWF.hmInsert_of_not_triggers ht node
  refine ⟨m', hrun, hwf, ?_, fun _ => hmask.trans h.mask_eq, ?_⟩
  · simpa [h.olderNone] using halloc
  · rw [h.hmSize] at hsize
    rw [hwf.hmSize, hperm.length_eq, List.length_cons]
    omega

theorem insert_full (h : m.FirstTable) (hsize : ¬ hmSize m < 31) (node : HNode α) :
    hmInsert m node = .error (.assertion .hInitSize) := by
  have ht := h.triggers_iff.mpr (by omega)
  obtain ⟨newer', -, -, hrun⟩ := h.toTablesWF.hmInsert_of_triggers ht node
  have h31 : m.newer.size = 31 := by
    have := h.room
    have := h.size_eq
    omega
  rw [hrun, h31, HTable.hInit_error (by decide)]
  rfl

/-- The only call that can fail is an insertion as the 32nd node. -/
theorem step (h : m.FirstTable) (op : HOp α κ)
    (hop : ∀ node, op = .insert node → hmSize m < 31) :
    ∃ m', op.apply m = .ok m' ∧ m'.FirstTable := by
  cases op with
  | insert node => exact h.insert (hop node rfl) node
  | lookup key eq =>
    obtain ⟨found, m', hrun, hm', -⟩ := h.toTablesWF.hmLookup key eq
    refine ⟨m', by simp [HOp.apply, hrun], h.of_sameSlots hm'.wf hm'.sameSlots ?_⟩
    exact hm'.perm.length_eq.le
  | delete key eq =>
    obtain ⟨found, m', hrun, hwf, hs, hsome, hnone⟩ := h.toTablesWF.hmDelete key eq
    refine ⟨m', by simp [HOp.apply, hrun], h.of_sameSlots hwf hs ?_⟩
    cases found with
    | none => exact (hnone rfl).1.length_eq.le
    | some n => simp [(hsome n rfl).1.length_eq]
  | clear => exact ⟨{}, rfl, .empty⟩

/-- A call that returns leaves the map within its first table. -/
theorem step_of_ok (h : m.FirstTable) {op : HOp α κ} (hrun : op.apply m = .ok m') :
    m'.FirstTable := by
  by_cases hop : ∀ node, op = .insert node → hmSize m < 31
  · obtain ⟨m₁, hrun₁, hm₁⟩ := h.step op hop
    obtain rfl : m₁ = m' := Except.ok.inj (hrun₁.symm.trans hrun)
    exact hm₁
  · obtain ⟨node, rfl, hsize⟩ : ∃ node, op = .insert node ∧ ¬ hmSize m < 31 := by
      simpa using hop
    cases (h.insert_full hsize node).symm.trans hrun

end HMap.FirstTable

/-- Along a run that inserts below the limit the map stays within its first table. -/
theorem InsertsBelow.run {ops : List (HOp α κ)} (h : InsertsBelow 31 ops) {pre} (hpre : pre <+: ops) :
    ∃ m, runSteps HOp.apply {} pre = .ok m ∧ m.FirstTable := by
  induction pre using List.reverseRecOn with
  | nil => exact ⟨{}, rfl, .empty⟩
  | append_singleton pre op ih =>
    obtain ⟨m, hrun, hm⟩ := ih ((List.prefix_append _ _).trans hpre)
    obtain ⟨post, rfl⟩ := hpre
    obtain ⟨m', hop, hm'⟩ := hm.step op fun node hnode =>
      h pre node post (by simp [hnode]) m hrun
    exact ⟨m', runSteps_concat_ok hrun hop, hm'⟩

/-- **Runs from the empty map.** A run is free of failed assertions, with tables of the proper sizes
after every call, if and only if it inserts only while fewer than 31 nodes are stored. -/
theorem runsSafely_iff_insertsBelow (ops : List (HOp α κ)) :
    RunsSafely ops ↔ InsertsBelow 31 ops := by
  constructor
  · intro h pre node post hops m hrun
    have hm : m.FirstTable :=
      runSteps_invariant (fun _ _ hm _ hop => hm.step_of_ok hop) .empty hrun
    by_contra hsize
    have hpre : pre ++ [.insert node] <+: ops := ⟨post, by simp [hops]⟩
    obtain ⟨m', hrun', -⟩ := h _ hpre
    have hfail : (HOp.insert node : HOp α κ).apply m = .error (.assertion .hInitSize) :=
      hm.insert_full hsize node
    rw [runSteps_append_ok hrun, runSteps_cons_error hfail] at hrun'
    cases hrun'
  · intro h pre hpre
    obtain ⟨m, hrun, hm⟩ := h.run hpre
    exact ⟨m, hrun, hm.slotsOK⟩

/-- Insert `n` distinct nodes with one hash code. -/
def insertAll (n : Nat) : List (HOp Nat Nat) := (List.range n).map fun i => .insert ⟨i, 0⟩

theorem runs_abort_at_32 :
    (List.range 32).Nodup ∧
      runSteps HOp.apply {} (insertAll 32) = .error (.assertion .hInitSize) :=
  ⟨List.nodup_range, by rfl⟩

/-! ## Migrations come to an end -/

/-- An operation moves `kRehashingWork` nodes out of the older table, or all of them, and then the table
is discarded. -/
structure HMap.Drained (m m' : HMap α) : Prop where
  size : m'.older.size ≤ m.older.size - kRehashingWork
  gone : m.older.size ≤ kRehashingWork → m'.older.tab = none

namespace HMap

variable {m m' : HMap α}

theorem TablesWF.drained_help (h : m.TablesWF) (hrun : MiniRedis.hmHelpRehashing m = .ok m') : Drained m m' := by
  obtain ⟨m₁, hrun₁, hm₁, hnone⟩ := h.hmHelpRehashing
  obtain rfl : m₁ = m' := Except.ok.inj (hrun₁.symm.trans hrun)
  refine ⟨Nat.le_of_eq hm₁.olderSize, fun hle => Option.isNone_iff_eq_none.mp (hnone.mpr ?_)⟩
  rw [hm₁.olderSize]
  exact Nat.sub_eq_zero_of_le hle

theorem hmLookup_help {key : HNode κ} {eq : α → κ → Bool} {found : Option (HNode α)}
    (hrun : hmLookup m key eq = .ok (found, m')) : hmHelpRehashing m = .ok m' := by
  obtain ⟨m₁, hhelp, hrun⟩ := bind_eq_ok.mp hrun
  obtain ⟨link, -, hrun⟩ := bind_eq_ok.mp hrun
  cases link with
  | some link =>
    obtain ⟨n, -, hret⟩ := bind_eq_ok.mp hrun
    cases hret
    exact hhelp
  | none =>
    obtain ⟨link, -, hrun⟩ := bind_eq_ok.mp hrun
    cases link with
    | some link =>
      obtain ⟨n, -, hret⟩ := bind_eq_ok.mp hrun
      cases hret
      exact hhelp
    | none =>
      cases hrun
      exact hhelp

/-- A deletion helps first, and then it can only make the older table smaller. -/
theorem hmDelete_help {key : HNode κ} {eq : α → κ → Bool} {found : Option (HNode α)}
    (hrun : hmDelete m key eq = .ok (found, m')) :
    ∃ m₁, hmHelpRehashing m = .ok m₁ ∧ m'.older.size ≤ m₁.older.size ∧
      (m₁.older.tab = none → m'.older.tab = none) := by
  obtain ⟨m₁, hhelp, hrun⟩ := bind_eq_ok.mp hrun
  refine ⟨m₁, hhelp, ?_⟩
  obtain ⟨link, -, hrun⟩ := bind_eq_ok.mp hrun
  cases link with
  | some link =>
    obtain ⟨⟨n, newer⟩, -, hret⟩ := bind_eq_ok.mp hrun
    cases hret
    exact ⟨Nat.le_refl _, id⟩
  | none =>
    obtain ⟨link, -, hrun⟩ := bind_eq_ok.mp hrun
    cases link with
    | some link =>
      obtain ⟨⟨n, older⟩, hdetach, hret⟩ := bind_eq_ok.mp hrun
      cases hret
      obtain ⟨tab, htab, hdetach⟩ := bind_eq_ok.mp hdetach
      obtain ⟨chain, -, hdetach⟩ := bind_eq_ok.mp hdetach
      obtain ⟨target, -, hret⟩ := bind_eq_ok.mp hdetach
      cases hret
      refine ⟨Nat.sub_le _ _, fun hnone => ?_⟩
      rw [hnone] at htab
      cases htab
    | none =>
      cases hrun
      exact ⟨Nat.le_refl _, id⟩

theorem hmInsert_help {node : HNode α} (ht : ¬ m.Triggers) (h : m.TablesWF)
    (hrun : hmInsert m node = .ok m') : Drained m m' := by
  obtain ⟨newer, newer', hnewer, hins, hi, -, hsize, hmask⟩ := h.newerTable node
  have hwf : ({ m with newer := newer' } : HMap α).TablesWF :=
    ⟨hi.wf, h.older, h.migrated, fun _ => hi.alloc⟩
  have hcond : ¬ (m.older.tab.isNone ∧ (newer'.mask + 1) * kMaxLoadFactor ≤ newer'.size) := by
    rwa [hi.mask, hi.size, hsize, hmask, Option.isNone_iff_eq_none]
  simp only [hmInsert, hnewer, hins, ok_bind] at hrun
  rw [hmCheckLoad, if_neg hcond, pure_eq_ok, ok_bind] at hrun
  obtain ⟨hle, hgone⟩ := hwf.drained_help hrun
  exact ⟨hle, hgone⟩

/-- A call that starts no migration drains the older table. -/
theorem TablesWF.drain (h : m.TablesWF) (op : HOp α κ)
    (hop : ∀ node, op = .insert node → ¬ m.Triggers) :
    ∃ m', op.apply m = .ok m' ∧ m'.TablesWF ∧ Drained m m' := by
  cases op with
  | insert node =>
    obtain ⟨m', hrun, hwf, -⟩ := h.hmInsert_of_not_triggers (hop node rfl) node
    exact ⟨m', hrun, hwf, hmInsert_help (hop node rfl) h hrun⟩
  | lookup key eq =>
    obtain ⟨found, m', hrun, hm', -⟩ := h.hmLookup key eq
    exact ⟨m', by simp [HOp.apply, hrun], hm'.wf, h.drained_help (hmLookup_help hrun)⟩
  | delete key eq =>
    obtain ⟨found, m', hrun, hwf, -⟩ := h.hmDelete key eq
    obtain ⟨m₁, hhelp, hle, hnone⟩ := hmDelete_help hrun
    obtain ⟨hsize, hgone⟩ := h.drained_help hhelp
    exact ⟨m', by simp [HOp.apply, hrun], hwf, Nat.le_trans hle hsize, hnone ∘ hgone⟩
  | clear => exact ⟨{}, rfl, .empty, Nat.zero_le _, fun _ => rfl⟩

end HMap

/-- No insertion of the run starts a migration. -/
def NoTrigger (m : HMap α) (ops : List (HOp α κ)) : Prop :=
  ∀ pre node post, ops = pre ++ .insert node :: post →
    ∀ m', runSteps HOp.apply m pre = .ok m' → ¬ m'.Triggers

/-- After as many calls as it takes to move all nodes the older table is gone. -/
theorem HMap.TablesWF.drained_run {m : HMap α} {ops : List (HOp α κ)} (h : m.TablesWF)
    (hops : NoTrigger m ops) (hnil : ops = [] → m.older.tab = none)
    (hlen : m.older.size ≤ ops.length * kRehashingWork) :
    ∃ m', runSteps HOp.apply m ops = .ok m' ∧ m'.older.tab = none := by
  induction ops generalizing m with
  | nil => exact ⟨m, rfl, hnil rfl⟩
  | cons op ops ih =>
    obtain ⟨m₁, hrun₁, hwf₁, hsize, hgone⟩ := h.drain op fun node hnode =>
      hops [] node ops (by rw [hnode, List.nil_append]) m rfl
    have hops₁ : NoTrigger m₁ ops := fun pre node post hsplit m' hrun =>
      hops (op :: pre) node post (by rw [hsplit, List.cons_append]) m'
        (by rw [runSteps_cons_ok hrun₁, hrun])
    rw [List.length_cons, Nat.succ_mul] at hlen
    have hnil₁ : ops = [] → m₁.older.tab = none := fun hlast => by
      rw [hlast, List.length_nil, Nat.zero_mul, Nat.zero_add] at hlen
      exact hgone hlen
    obtain ⟨m', hrun, hm'⟩ := ih hwf₁ hops₁ hnil₁ (by omega)
    exact ⟨m', by rw [runSteps_cons_ok hrun₁, hrun], hm'⟩

theorem HTable.WF.mem_slot {ht : HTable α} (h : ht.WF) {n : HNode α} (hn : n ∈ ht.nodes) :
    ∃ tab chain, ht.tab = some tab ∧ tab[n.hashCode.toNat &&& ht.mask]? = some chain ∧ n ∈ chain := by
  cases htab : ht.tab with
  | none => simp [HTable.nodes, htab] at hn
  | some tab =>
    rw [HTable.nodes_eq htab] at hn
    obtain ⟨i, chain, hi, hn⟩ := List.exists_getElem?_of_mem_flatten hn
    have hslot := h.placed tab htab i chain hi n hn
    exact ⟨tab, chain, rfl, by rw [hslot]; exact hi, hn⟩

/-- **Incremental migration.** On well-formed tables `hm_help_rehashing` returns without an access outside of
a table. It moves as many nodes as it may or as there are, each to its slot, and discards the older table
exactly if nothing is left in it. So the older table is gone after as many calls as it takes to move all
its nodes, as long as no new migration starts. -/
theorem HMap.TablesWF.help_migrates {m : HMap α} (h : m.TablesWF) :
    (∀ tab, m.older.tab = some tab → tab.length = m.older.mask + 1) ∧
    (∃ m', MiniRedis.hmHelpRehashing m = .ok m' ∧ m'.TablesWF ∧ m'.nodes.Perm m.nodes ∧
      (∃ moved : List (HNode α), moved.length = min kRehashingWork m.older.size ∧
        m.older.nodes.Perm (moved ++ m'.older.nodes) ∧ m'.newer.nodes.Perm (moved ++ m.newer.nodes) ∧
        ∀ n ∈ moved, ∃ tab chain, m'.newer.tab = some tab ∧
          tab[n.hashCode.toNat &&& m.newer.mask]? = some chain ∧ n ∈ chain) ∧
      (∀ tab, m'.older.tab = some tab → ∀ i < m'.migrationPos, ∀ chain, tab[i]? = some chain →
        chain = []) ∧
      (m'.older.tab = none ↔ m'.older.nodes = [])) ∧
    ∀ ops : List (HOp α κ), NoTrigger m ops → (m.older.size = 0 → m.older.tab = none) →
      (m.older.size + kRehashingWork - 1) / kRehashingWork ≤ ops.length →
      ∃ m', runSteps HOp.apply m ops = .ok m' ∧ m'.older.tab = none := by
  refine ⟨fun tab htab => ?_, ?_, fun ops hops hzero hlen => ?_⟩
  · obtain ⟨⟨k, hk⟩, hmask⟩ := h.older.slots tab htab
    have := Nat.two_pow_pos k
    omega
  · obtain ⟨m', hrun, hm', hnone⟩ := h.hmHelpRehashing
    obtain ⟨moved, hlen, hnewer, holder⟩ := hm'.moved
    refine ⟨m', hrun, hm'.wf, hm'.perm, ⟨moved, hlen, holder, hnewer, fun n hn => ?_⟩,
      hm'.wf.migrated, ?_⟩
    · rw [← hm'.mask]
      exact hm'.wf.newer.mem_slot (hnewer.mem_iff.mpr (List.mem_append_left _ hn))
    · rw [← Option.isNone_iff_eq_none, hnone, hm'.wf.older.size, List.length_eq_zero_iff]
  · have hwork : kRehashingWork = 128 := rfl
    refine h.drained_run hops (fun hnil => hzero ?_) ?_
    · rw [hnil, List.length_nil, hwork] at hlen
      omega
    · rw [hwork] at hlen ⊢
      omega

/-- The node of `migrating` that is left is moved by the first call. -/
theorem HMap.TablesWF.help_migrates_migrating :
    (∃ m', MiniRedis.hmHelpRehashing migrating = .ok m' ∧ m'.older.tab = none) ∧
      ∃ m', runSteps HOp.apply migrating [HOp.lookup (κ := Nat) ⟨3, 3⟩ (· == ·)] = .ok m' ∧
        m'.older.tab = none := by
  obtain ⟨-, ⟨m', hrun, -, -, ⟨moved, hlen, holder, -⟩, -, hnone⟩, hrun'⟩ :=
    help_migrates (κ := Nat) migrating_wf.toTablesWF
  refine ⟨⟨m', hrun, hnone.mpr ?_⟩, hrun' _ (fun pre node post hsplit => ?_) (fun h => ?_) (by decide)⟩
  · have hperm := holder.length_eq
    rw [List.length_append, hlen] at hperm
    exact List.length_eq_zero_iff.mp (Nat.add_left_cancel (hperm.symm.trans rfl))
  · cases pre with
    | nil => cases hsplit
    | cons op pre => simp at hsplit
  · cases h

end MiniRedis
