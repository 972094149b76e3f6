import MiniRedis.Verify.Capacity
import MiniRedis.Verify.Serial

/-! # What is allocated

Every entry is in the database or was freed, every node of a set is a member of it or was freed, and every
descriptor that is open belongs to a connection: nothing is lost, and nothing is freed twice. No pointer to
a freed entry is left, and nothing is written to it. -/

namespace MiniRedis

/-! ## The nodes of a set -/

/-- A node that was allocated is a member, or was freed. -/
def ZSet.Accounted (z : ZSet σ) : Prop := hmSize z.hmap + z.freed.length = z.next

section
variable {σ : Type} {z z' : ZSet σ} {p : ZPtr}

theorem treeDispose_next {fuel : Nat} {node : Option ZPtr} (hrun : treeDispose fuel z node = .ok z') :
    z'.next = z.next := by
  induction fuel generalizing z z' node with
  | zero => cases hrun
  | succ fuel ih =>
    cases node with
    | none =>
      cases hrun
      rfl
    | some p =>
      obtain ⟨z₁, hleft, hrun⟩ := bind_eq_ok.mp hrun
      obtain ⟨z₂, hright, hret⟩ := bind_eq_ok.mp hrun
      cases hret
      exact (ih hright).trans (ih hleft)

theorem zsetClear_next (hrun : zsetClear z = .ok z') : z'.next = z.next := by
  obtain ⟨z₁, hdispose, hret⟩ := bind_eq_ok.mp hrun
  cases hret
  exact (treeDispose_next hdispose).trans rfl

theorem zsetDelete_next [LE σ] [LT σ] [DecidableLE σ] [DecidableLT σ] (hrun : zsetDelete z p = .ok z') :
    z'.next = z.next := by
  obtain ⟨⟨found, hmap⟩, -, hrun⟩ := bind_eq_ok.mp hrun
  obtain ⟨_, -, hrun⟩ := bind_eq_ok.mp hrun
  obtain ⟨⟨root, tree⟩, -, hret⟩ := bind_eq_ok.mp hrun
  cases hret
  rfl

variable [LE σ] [LT σ] [DecidableLE σ] [DecidableLT σ]

theorem treeInsert_freed (hrun : treeInsert z p = .ok z') : z'.freed = z.freed ∧ z'.next = z.next := by
  obtain ⟨⟨root, tree⟩, -, hret⟩ := bind_eq_ok.mp hrun
  cases hret
  exact ⟨rfl, rfl⟩

theorem zsetUpdate_freed {score : σ} (hrun : zsetUpdate z p score = .ok z') :
    z'.freed = z.freed ∧ z'.next = z.next := by
  unfold zsetUpdate at hrun
  split at hrun
  · cases hrun
    exact ⟨rfl, rfl⟩
  · obtain ⟨⟨root, tree⟩, -, hrun⟩ := bind_eq_ok.mp hrun
    exact treeInsert_freed (z := { z with root, tree := avlInit tree p, node := _ }) hrun

end

namespace ZSet.WF

variable {z z' : ZSet Double} {t : BinaryTree ZPtr} {name : Bytes} {score : Double}

theorem hmSize_eq (h : z.WF t) : hmSize z.hmap = t.inorder.length := by
  rw [h.hmap.toTablesWF.hmSize, ← h.refs.length_eq, List.length_map]

theorem lookup_accounted {found : Option ZPtr} (h : z.WF t) (hacc : z.Accounted)
    (hrun : zsetLookup z name = .ok (found, z')) :
    z'.WF t ∧ z'.Accounted ∧ z'.next = z.next ∧ ∀ p, found = some p → p ∈ t.inorder := by
  obtain ⟨found', hmap, hlookup, hwf, hperm, hfound⟩ := h.lookup name
  cases hlookup.symm.trans hrun
  refine ⟨hwf, ?_, rfl, fun p hp => ((hfound p).mp hp).1⟩
  have hsize : hmSize hmap = hmSize z.hmap := by
    rw [hwf.hmap.toTablesWF.hmSize, h.hmap.toTablesWF.hmSize, hperm.length_eq]
  exact (congrArg (· + z.freed.length) hsize).trans hacc

theorem insert_accounted {added : Bool} (h : z.WF t) (hacc : z.Accounted)
    (hrun : zsetInsert z name score = .ok (added, z')) : (∃ t', z'.WF t') ∧ z'.Accounted := by
  refine ⟨(h.inserted hrun).1, ?_⟩
  obtain ⟨⟨found, z₁⟩, hlookup, hrun⟩ := bind_eq_ok.mp hrun
  obtain ⟨h₁, hacc₁, -, -⟩ := h.lookup_accounted hacc hlookup
  cases found with
  | some p =>
    obtain ⟨z₂, hupdate, hret⟩ := bind_eq_ok.mp hrun
    cases hret
    obtain ⟨hfreed, hnext⟩ := zsetUpdate_freed hupdate
    rw [ZSet.Accounted, zsetUpdate_hmap hupdate, hfreed, hnext]
    exact hacc₁
  | none =>
    obtain ⟨⟨p, z₂⟩, hnew, hrun⟩ := bind_eq_ok.mp hrun
    obtain ⟨hmap, hinsert, hrun⟩ := bind_eq_ok.mp hrun
    obtain ⟨z₃, htree, hret⟩ := bind_eq_ok.mp hrun
    cases hret
    obtain ⟨_, -, hnew⟩ := bind_eq_ok.mp hnew
    cases hnew
    obtain ⟨hfreed, hnext⟩ := treeInsert_freed htree
    rw [ZSet.Accounted, treeInsert_hmap htree, hfreed, hnext]
    -- One node was allocated, and one was added to the map.
    rcases h₁.hmap.toTablesWF.hmInsert _ with ⟨m', hinsert', hm', hperm⟩ | ⟨-, -, hfull⟩
    · cases hinsert'.symm.trans hinsert
      have hsize : hmSize hmap = hmSize z₁.hmap + 1 := by
        rw [hm'.hmSize, h₁.hmap.toTablesWF.hmSize, hperm.length_eq, List.length_cons]
      have hsum : hmSize z₁.hmap + z₁.freed.length = z₁.next := hacc₁
      simp only [hsize]
      omega
    · cases hfull.symm.trans hinsert

theorem remove_accounted {p : ZPtr} (h : z.WF t) (hacc : z.Accounted) (hp : p ∈ t.inorder)
    (hrun : zsetDelete z p = .ok z') : (∃ t', z'.WF t') ∧ z'.Accounted := by
  obtain ⟨z₁, t', hdelete, h', -, hfreed, -, hperm, -⟩ := h.delete hp
  cases hdelete.symm.trans hrun
  refine ⟨⟨t', h'⟩, ?_⟩
  have hsize : hmSize z.hmap = hmSize z'.hmap + 1 := by
    rw [h'.hmap.toTablesWF.hmSize, h.hmap.toTablesWF.hmSize, hperm.length_eq, List.length_cons]
  have hsum : hmSize z.hmap + z.freed.length = z.next := hacc
  rw [ZSet.Accounted, hfreed, zsetDelete_next hrun, List.length_append, List.length_singleton]
  omega

theorem clear_accounted (h : z.WF t) (hacc : z.Accounted) (hrun : zsetClear z = .ok z') :
    z'.WF .nil ∧ z'.Accounted ∧ hmSize z'.hmap = 0 := by
  obtain ⟨z₁, ps, hclear, h', hfreed, hps, -⟩ := h.clear
  cases hclear.symm.trans hrun
  have hempty : hmSize z'.hmap = 0 := by
    rw [zsetClear_hmap hrun]
    rfl
  have hsum : hmSize z.hmap + z.freed.length = z.next := hacc
  have hsize := h.hmSize_eq
  refine ⟨h', ?_, hempty⟩
  rw [ZSet.Accounted, hempty, hfreed, zsetClear_next hrun, List.length_append, hps.length_eq]
  omega

/-- Members and freed nodes together are all that was allocated, each once. -/
theorem allocated_perm (h : z.WF t) (hacc : z.Accounted) :
    (z.hmap.nodes.map (·.ref) ++ z.freed).Perm (List.range z.next) := by
  have hnodup : (z.hmap.nodes.map (·.ref) ++ z.freed).Nodup := by
    refine List.nodup_append'.mpr ⟨h.refs.nodup_iff.mpr h.tree.nodup, h.freed, ?_⟩
    intro p hp hfreed
    exact (h.freed_lt p hfreed).2 (h.refs.mem_iff.mp hp)
  have hsub : z.hmap.nodes.map (·.ref) ++ z.freed ⊆ List.range z.next := by
    intro p hp
    rcases List.mem_append.mp hp with hp | hp
    · exact List.mem_range.mpr (h.allocated p (h.refs.mem_iff.mp hp))
    · exact List.mem_range.mpr (h.freed_lt p hp).1
  refine (hnodup.subperm hsub).perm_of_length_le ?_
  rw [List.length_append, List.length_map, List.length_range, ← h.hmap.toTablesWF.hmSize]
  exact Nat.le_of_eq hacc.symm

end ZSet.WF

/-- The calls of the handlers account for their nodes. -/
theorem ZOp.apply_accounted {z z' : ZSet Double} {t : BinaryTree ZPtr} {op : ZOp} (h : z.WF t)
    (hacc : z.Accounted) (hrun : op.apply z = .ok z') : (∃ t', z'.WF t') ∧ z'.Accounted := by
  cases op with
  | lookup name =>
    obtain ⟨⟨found, z₁⟩, hlookup, hret⟩ := bind_eq_ok.mp hrun
    cases hret
    obtain ⟨h₁, hacc₁, -⟩ := h.lookup_accounted hacc hlookup
    exact ⟨⟨t, h₁⟩, hacc₁⟩
  | insert name score =>
    obtain ⟨⟨added, z₁⟩, hinsert, hret⟩ := bind_eq_ok.mp hrun
    cases hret
    exact h.insert_accounted hacc hinsert
  | remove name =>
    obtain ⟨⟨found, z₁⟩, hlookup, hrun⟩ := bind_eq_ok.mp hrun
    obtain ⟨h₁, hacc₁, -, hfound⟩ := h.lookup_accounted hacc hlookup
    cases found with
    | none =>
      cases hrun
      exact ⟨⟨t, h₁⟩, hacc₁⟩
    | some p => exact h₁.remove_accounted hacc₁ (hfound p rfl) hrun

/-! ## The entries -/

/-- The set of an entry accounts for its nodes; an entry that is not a set has none. -/
structure Entry.Owns (e : Entry) : Prop where
  wf : ∃ t, e.zset.WF t
  accounted : e.zset.Accounted
  plain : e.type ≠ .zset → e.zset.next = 0

theorem Entry.Owns.empty (hashCode : UInt64) (key : Bytes) (type : ValueType) (value : Bytes) :
    Entry.Owns { hashCode, key, type, value, zset := .empty } :=
  ⟨⟨.nil, .empty⟩, rfl, fun _ => rfl⟩

/-- An entry without members has freed all its nodes. -/
theorem Entry.Owns.freed_perm {e : Entry} (h : e.Owns) (hempty : hmSize e.zset.hmap = 0) :
    e.zset.freed.Perm (List.range e.zset.next) := by
  obtain ⟨t, ht⟩ := h.wf
  have hperm := ht.allocated_perm h.accounted
  rw [ht.hmap.toTablesWF.hmSize] at hempty
  rwa [List.length_eq_zero_iff.mp hempty] at hperm

namespace ServerData

variable {s s₁ s' : ServerData} {now : UInt64} {p : EPtr} {key resp resp' : Bytes}

/-- The entries account for the nodes of their sets, also those that were freed. -/
def Owns (s : ServerData) : Prop := ∀ p, (s.entries p).Owns

theorem owns_update {entries : EPtr → Entry} {e : Entry} (h : ∀ q, (entries q).Owns) (he : e.Owns) :
    ∀ q, (Function.update entries p e q).Owns := by
  intro q
  rw [Function.update_apply]
  split
  · exact he
  · exact h q

theorem Owns.change {allowed : ZOp → Prop} (h : s.Owns) (hchange : Change allowed s s') : s'.Owns := by
  cases hchange with
  | db | heap | warn | enqueue => exact h
  | new hrun =>
    simp only [entryNew] at hrun
    split at hrun
    · cases hrun
      exact owns_update h (.empty ..)
    · cases hrun
  | value p value => exact owns_update h ⟨(h p).wf, (h p).accounted, (h p).plain⟩
  | zset p op _ htype hrun =>
    obtain ⟨t, ht⟩ := (h p).wf
    obtain ⟨hwf, hacc⟩ := op.apply_accounted ht (h p).accounted hrun
    exact owns_update h ⟨hwf, hacc, fun hplain => absurd htype hplain⟩
  | @free _ p _ hsmall hrun =>
    unfold entryDelSync at hrun
    split at hrun
    · next htype =>
      obtain ⟨zset, hclear, hret⟩ := bind_eq_ok.mp hrun
      cases hret
      obtain ⟨t, ht⟩ := (h p).wf
      obtain ⟨hwf, hacc, -⟩ := ht.clear_accounted (h p).accounted hclear
      exact owns_update h ⟨⟨_, hwf⟩, hacc, fun hplain => absurd htype hplain⟩
    · cases hrun
      exact h

theorem Owns.changes {allowed : ZOp → Prop} (h : s.Owns) (hs : s.ChangesBy allowed s') : s'.Owns :=
  Changes.keeps (fun _ _ => Owns.change) h hs

/-! ## What is written -/

/-- Only entries in the database and new ones are written to, and what is freed is empty. -/
structure Frames (s s' : ServerData) : Prop where
  entries : ∀ q, q < s.next → q ∉ s.refs → s'.entries q = s.entries q
  freed : ∀ q ∈ s'.freed, q ∈ s.freed ∨ hmSize (s'.entries q).zset.hmap = 0

theorem Frames.of_eq (hentries : s'.entries = s.entries) (hfreed : s'.freed = s.freed) : s.Frames s' :=
  ⟨fun q _ _ => congrFun hentries q, fun _ hq => .inl (hfreed ▸ hq)⟩

/-- Writing to one entry of the database. -/
theorem Frames.of_update {e : Entry} (hp : p ∈ s.refs) (hentries : s'.entries = Function.update s.entries p e)
    (hfreed : s'.freed = s.freed) : s.Frames s' := by
  refine ⟨fun q _ hq => ?_, fun q hq => .inl (hfreed ▸ hq)⟩
  have hne : q ≠ p := fun he => hq (he ▸ hp)
  rw [hentries, Function.update_of_ne hne]

theorem dbInsert_entries (hrun : dbInsert s p = .ok s') : s'.entries = s.entries ∧ s'.freed = s.freed := by
  obtain ⟨db, -, hret⟩ := bind_eq_ok.mp hrun
  cases hret
  exact ⟨rfl, rfl⟩

/-- Creating an entry, and then writing to it. -/
theorem Frames.of_new {type : ValueType} {value : Bytes} (hnew : entryNew s type key value = .ok (p, s₁))
    (hinsert : dbInsert s₁ p = .ok s') : s.Frames s' ∧ p = s.next := by
  obtain ⟨hentries, hfreed⟩ := dbInsert_entries hinsert
  simp only [entryNew] at hnew
  split at hnew
  · cases hnew
    refine ⟨⟨fun q hlt _ => ?_, fun q hq => .inl (hfreed ▸ hq)⟩, rfl⟩
    rw [hentries]
    exact Function.update_of_ne (Nat.ne_of_lt hlt) _ _
  · cases hnew

theorem entrySetTtl_entries {ttlMs : Int} (hrun : entrySetTtl now s p ttlMs = .ok s') :
    s'.entries = s.entries ∧ s'.freed = s.freed := by
  unfold entrySetTtl at hrun
  split at hrun
  · obtain ⟨heap, -, hret⟩ := bind_eq_ok.mp hrun
    cases hret
    exact ⟨rfl, rfl⟩
  · split at hrun
    · obtain ⟨heap, -, hret⟩ := bind_eq_ok.mp hrun
      cases hret
      exact ⟨rfl, rfl⟩
    · cases hrun
      exact ⟨rfl, rfl⟩

/-- `entry_del` writes to its entry only, and empties it before it is freed. -/
theorem Owns.entryDel (h : s.Owns) (hrun : entryDel now s p = .ok s') :
    (∀ q, q ≠ p → s'.entries q = s.entries q) ∧
      ∀ q ∈ s'.freed, q ∈ s.freed ∨ hmSize (s'.entries q).zset.hmap = 0 := by
  obtain ⟨s₁, httl, hrun⟩ := bind_eq_ok.mp hrun
  obtain ⟨hentries, hfreed⟩ := entrySetTtl_entries httl
  change (if s₁.containerSize p > kLargeContainerSize then _ else _) = _ at hrun
  split at hrun
  · cases hrun
    exact ⟨fun q _ => congrFun hentries q, fun q hq => .inl (hfreed ▸ hq)⟩
  · unfold entryDelSync at hrun
    split at hrun
    · obtain ⟨zset, hclear, hret⟩ := bind_eq_ok.mp hrun
      cases hret
      refine ⟨fun q hq => ?_, fun q hq => ?_⟩
      · rw [← hentries]
        exact Function.update_of_ne hq _ _
      · rcases List.mem_append.mp hq with hq | hq
        · exact .inl (hfreed ▸ hq)
        · obtain rfl := List.mem_singleton.mp hq
          right
          simp only [Function.update_self, zsetClear_hmap hclear]
          rfl
    · next htype =>
      cases hrun
      refine ⟨fun q _ => congrFun hentries q, fun q hq => ?_⟩
      rcases List.mem_append.mp hq with hq | hq
      · exact .inl (hfreed ▸ hq)
      · obtain rfl := List.mem_singleton.mp hq
        right
        rw [hentries] at htype ⊢
        have hnone := (h q).plain htype
        have hsum := (h q).accounted
        rw [ZSet.Accounted, hnone] at hsum
        exact Nat.eq_zero_of_add_eq_zero_right hsum

/-! ## The handlers -/

theorem WF.lookup_refs (h : s.WF) {found : Option EPtr} (hrun : dbLookup s key = .ok (found, s₁)) :
    s₁.entries = s.entries ∧ s₁.freed = s.freed ∧ s₁.next = s.next ∧ s₁.refs.Perm s.refs ∧
      ∀ p, found = some p → p ∈ s.refs := by
  obtain ⟨found', db, hlookup, -, hperm, hfound⟩ := h.db.hmLookup (h.searches key)
  simp only [dbLookup, hlookup, ok_bind, pure_eq_ok, Except.ok.injEq, Prod.mk.injEq] at hrun
  obtain ⟨rfl, rfl⟩ := hrun
  refine ⟨rfl, rfl, rfl, hperm.map _, fun p hp => ?_⟩
  obtain ⟨n, hn, rfl⟩ := Option.map_eq_some_iff.mp hp
  exact mem_refs.mpr ⟨n, ((hfound n).mp hn).1, rfl⟩

/-- What follows a lookup. -/
theorem WF.lookup_frames (h : s.WF) {found : Option EPtr} (hrun : dbLookup s key = .ok (found, s₁))
    (hframes : s₁.Frames s') : s.Frames s' := by
  obtain ⟨hentries, hfreed, hnext, hrefs, -⟩ := h.lookup_refs hrun
  refine ⟨fun q hlt hq => ?_, fun q hq => ?_⟩
  · rw [hframes.entries q (hnext ▸ hlt) fun hq' => hq (hrefs.mem_iff.mp hq'), hentries]
  · rw [← hfreed]
    exact hframes.freed q hq

theorem WF.setKey_frames {value : Bytes} (h : s.WF) (hrun : MiniRedis.setKey s key value resp = .ok (s', resp')) :
    s.Frames s' := by
  obtain ⟨⟨found, s₁⟩, hlookup, hrun⟩ := bind_eq_ok.mp hrun
  refine h.lookup_frames hlookup ?_
  obtain ⟨-, -, -, hrefs, hfound⟩ := h.lookup_refs hlookup
  cases found with
  | some p =>
    cases hrun
    exact .of_update (hrefs.mem_iff.mpr (hfound p rfl)) rfl rfl
  | none =>
    obtain ⟨⟨p, s₂⟩, hnew, hrun⟩ := bind_eq_ok.mp hrun
    obtain ⟨s₃, hinsert, hret⟩ := bind_eq_ok.mp hrun
    cases hret
    exact (Frames.of_new hnew hinsert).1

theorem WF.getKey_frames (h : s.WF) (hrun : MiniRedis.getKey s key resp = .ok (s', resp')) : s.Frames s' := by
  obtain ⟨⟨found, s₁⟩, hlookup, hrun⟩ := bind_eq_ok.mp hrun
  refine h.lookup_frames hlookup ?_
  cases found with
  | none =>
    cases hrun
    exact .of_eq rfl rfl
  | some p =>
    obtain ⟨_, -, hret⟩ := bind_eq_ok.mp hrun
    cases hret
    exact .of_eq rfl rfl

theorem WF.delKey_frames (h : s.WF) (howns : s.Owns) (hrun : MiniRedis.delKey now s key resp = .ok (s', resp')) :
    s.Frames s' := by
  obtain ⟨⟨node, db⟩, hdelete, hrun⟩ := bind_eq_ok.mp hrun
  cases node with
  | none =>
    cases hrun
    exact .of_eq rfl rfl
  | some node =>
    obtain ⟨s₁, hdel, hret⟩ := bind_eq_ok.mp hrun
    cases hret
    obtain ⟨found, db', hdelete', -, hfound, -⟩ := h.db.hmDelete (h.searches key)
    cases hdelete'.symm.trans hdelete
    have hp : node.ref ∈ s.refs := mem_refs.mpr ⟨node, ((hfound node).mp rfl).1, rfl⟩
    have howns' : ({ s with db } : ServerData).Owns := howns
    obtain ⟨hentries, hfreed⟩ := howns'.entryDel hdel
    refine ⟨fun q _ hq => ?_, hfreed⟩
    have hne : q ≠ node.ref := fun he => hq (he ▸ hp)
    exact hentries q hne

theorem WF.setTtlMs_frames {ttl : Bytes} (h : s.WF)
    (hrun : MiniRedis.setTtlMs now s key ttl resp = .ok (s', resp')) : s.Frames s' := by
  unfold MiniRedis.setTtlMs at hrun
  split at hrun
  · cases hrun
    exact .of_eq rfl rfl
  · obtain ⟨⟨found, s₁⟩, hlookup, hrun⟩ := bind_eq_ok.mp hrun
    refine h.lookup_frames hlookup ?_
    cases found with
    | none =>
      cases hrun
      exact .of_eq rfl rfl
    | some p =>
      obtain ⟨s₂, httl, hret⟩ := bind_eq_ok.mp hrun
      cases hret
      obtain ⟨hentries, hfreed⟩ := entrySetTtl_entries httl
      exact .of_eq hentries hfreed

theorem WF.getTtlMs_frames (h : s.WF) (hrun : MiniRedis.getTtlMs now s key resp = .ok (s', resp')) :
    s.Frames s' := by
  obtain ⟨⟨found, s₁⟩, hlookup, hrun⟩ := bind_eq_ok.mp hrun
  refine h.lookup_frames hlookup ?_
  cases found with
  | none =>
    cases hrun
    exact .of_eq rfl rfl
  | some p =>
    simp only at hrun
    split at hrun
    · cases hrun
      exact .of_eq rfl rfl
    · obtain ⟨item, -, hret⟩ := bind_eq_ok.mp hrun
      cases hret
      exact .of_eq rfl rfl

/-- The set that a command works on is in the database. -/
theorem WF.expectZset_frames (h : s.WF) {found : ExpectedZSet}
    (hrun : MiniRedis.expectZset s key = .ok (found, s₁)) :
    (s₁.Frames s' → s.Frames s') ∧ ∀ p, found = .entry p → p ∈ s₁.refs := by
  obtain ⟨⟨found, s₂⟩, hlookup, hrun⟩ := bind_eq_ok.mp hrun
  obtain ⟨-, -, -, hrefs, hfound⟩ := h.lookup_refs hlookup
  cases found with
  | none =>
    cases hrun
    exact ⟨h.lookup_frames hlookup, nofun⟩
  | some p =>
    cases hrun
    refine ⟨h.lookup_frames hlookup, ?_⟩
    intro q hq
    split at hq
    · cases hq
      exact hrefs.mem_iff.mpr (hfound p rfl)
    · cases hq

theorem WF.zcmdAdd_frames {score name : Bytes} (h : s.WF)
    (hrun : MiniRedis.zcmdAdd s key score name resp = .ok (s', resp')) : s.Frames s' := by
  unfold MiniRedis.zcmdAdd at hrun
  split at hrun
  · cases hrun
    exact .of_eq rfl rfl
  obtain ⟨⟨target, s₁⟩, hentry, hrun⟩ := bind_eq_ok.mp hrun
  obtain ⟨⟨found, s₂⟩, hlookup, hentry⟩ := bind_eq_ok.mp hentry
  refine h.lookup_frames hlookup ?_
  obtain ⟨-, -, -, hrefs, hfound⟩ := h.lookup_refs hlookup
  cases found with
  | none =>
    obtain ⟨⟨p, s₃⟩, hnew, hentry⟩ := bind_eq_ok.mp hentry
    obtain ⟨s₄, hinsert, hret⟩ := bind_eq_ok.mp hentry
    cases hret
    obtain ⟨⟨added, zset⟩, -, hret⟩ := bind_eq_ok.mp hrun
    cases hret
    -- The new entry is written to once more.
    obtain ⟨hframes, rfl⟩ := Frames.of_new hnew hinsert
    refine ⟨fun q hlt hq => ?_, fun q hq => ?_⟩
    · rw [← hframes.entries q hlt hq]
      exact Function.update_of_ne (Nat.ne_of_lt hlt) _ _
    · left
      obtain ⟨-, hfreed⟩ := dbInsert_entries hinsert
      simp only [entryNew] at hnew
      split at hnew
      · cases hnew
        exact hfreed ▸ hq
      · cases hnew
  | some p =>
    cases hentry
    have hp : p ∈ s₁.refs := hrefs.mem_iff.mpr (hfound p rfl)
    simp only at hrun
    by_cases htype : (s₁.entries p).type = .zset
    · rw [if_pos htype] at hrun
      obtain ⟨⟨added, zset⟩, -, hret⟩ := bind_eq_ok.mp hrun
      cases hret
      exact .of_update hp rfl rfl
    · rw [if_neg htype] at hrun
      cases hrun
      exact .of_eq rfl rfl

theorem WF.zcmdRemove_frames {name : Bytes} (h : s.WF)
    (hrun : MiniRedis.zcmdRemove s key name resp = .ok (s', resp')) : s.Frames s' := by
  obtain ⟨⟨found, s₁⟩, hexpect, hrun⟩ := bind_eq_ok.mp hrun
  obtain ⟨hframes, hfound⟩ := h.expectZset_frames hexpect
  refine hframes ?_
  cases found with
  | badType =>
    cases hrun
    exact .of_eq rfl rfl
  | missing =>
    obtain ⟨r, -, hret⟩ := bind_eq_ok.mp hrun
    cases hret
    exact .of_eq rfl rfl
  | entry p =>
    obtain ⟨⟨member, zset⟩, -, hrun⟩ := bind_eq_ok.mp hrun
    cases member with
    | none =>
      cases hrun
      exact .of_update (hfound p rfl) rfl rfl
    | some q =>
      obtain ⟨zset', -, hret⟩ := bind_eq_ok.mp hrun
      cases hret
      exact .of_update (hfound p rfl) rfl rfl

theorem WF.zcmdScore_frames {name : Bytes} (h : s.WF)
    (hrun : MiniRedis.zcmdScore s key name resp = .ok (s', resp')) : s.Frames s' := by
  obtain ⟨⟨found, s₁⟩, hexpect, hrun⟩ := bind_eq_ok.mp hrun
  obtain ⟨hframes, hfound⟩ := h.expectZset_frames hexpect
  refine hframes ?_
  cases found with
  | badType =>
    cases hrun
    exact .of_eq rfl rfl
  | missing =>
    obtain ⟨⟨member, zset⟩, -, hrun⟩ := bind_eq_ok.mp hrun
    cases member with
    | none | some =>
      cases hrun
      exact .of_eq rfl rfl
  | entry p =>
    obtain ⟨⟨member, zset⟩, -, hrun⟩ := bind_eq_ok.mp hrun
    cases member with
    | none | some =>
      cases hrun
      exact .of_update (hfound p rfl) rfl rfl

theorem WF.zcmdQuery_frames {score name offset limit : Bytes} (h : s.WF)
    (hrun : MiniRedis.zcmdQuery s key score name offset limit resp = .ok (s', resp')) : s.Frames s' := by
  unfold MiniRedis.zcmdQuery at hrun
  split at hrun
  · cases hrun
    exact .of_eq rfl rfl
  split at hrun
  · obtain ⟨⟨found, s₁⟩, hexpect, hrun⟩ := bind_eq_ok.mp hrun
    refine (h.expectZset_frames hexpect).1 ?_
    cases found with
    | badType =>
      cases hrun
      exact .of_eq rfl rfl
    | missing | entry =>
      obtain ⟨r, -, hret⟩ := bind_eq_ok.mp hrun
      cases hret
      exact .of_eq rfl rfl
  · cases hrun
    exact .of_eq rfl rfl

theorem WF.runRequest_frames {cmd : List Bytes} (h : s.WF) (howns : s.Owns)
    (hrun : MiniRedis.runRequest now s cmd resp = .ok (s', resp')) : s.Frames s' := by
  unfold MiniRedis.runRequest at hrun
  split at hrun
  · cases hrun
    exact .of_eq rfl rfl
  · exact h.getKey_frames hrun
  · exact h.setKey_frames hrun
  · exact h.delKey_frames howns hrun
  · obtain ⟨r, -, hret⟩ := bind_eq_ok.mp hrun
    cases hret
    exact .of_eq rfl rfl
  · exact h.zcmdAdd_frames hrun
  · exact h.zcmdRemove_frames hrun
  · exact h.zcmdScore_frames hrun
  · exact h.zcmdQuery_frames hrun
  · exact h.getTtlMs_frames hrun
  · exact h.setTtlMs_frames hrun
  · cases hrun
    exact .of_eq rfl rfl

/-! ## Whole runs -/

/-- Every entry is accounted for, and those that were freed are empty. -/
structure Tidy (s : ServerData) : Prop where
  wf : s.WF
  first : s.FirstTables
  owns : s.Owns
  empty : ∀ p ∈ s.freed, hmSize (s.entries p).zset.hmap = 0

theorem Tidy.init : ({} : ServerData).Tidy where
  wf := .empty
  first := .empty
  owns _ := .empty 0 [] .init []
  empty _ hp := nomatch hp

/-- A freed entry is not in the database. -/
theorem WF.freed_unlinked (h : s.WF) (hp : p ∈ s.freed) : p < s.next ∧ p ∉ s.refs := by
  have hmem : p ∈ s.freed ++ s.queue := List.mem_append_left _ hp
  refine ⟨?_, fun hrefs => ?_⟩
  · exact List.mem_range.mp (h.owners.mem_iff.mp (List.mem_append_right _ hmem))
  · have hnodup := h.owners.nodup_iff.mpr List.nodup_range
    exact (List.nodup_append'.mp hnodup).2.2 hrefs hmem

theorem Tidy.write {allowed : ZOp → Prop} (h : s.Tidy) (hwf : s'.WF) (hchanges : s.ChangesBy allowed s')
    (hframes : s.Frames s') :
    s'.Tidy where
  wf := hwf
  first := h.first.changes hchanges
  owns := h.owns.changes hchanges
  empty p hp := by
    rcases hframes.freed p hp with hold | hempty
    · obtain ⟨hlt, hrefs⟩ := h.wf.freed_unlinked hold
      rw [hframes.entries p hlt hrefs]
      exact h.empty p hold
    · exact hempty

/-- What was freed before stays freed, and is not written to. -/
def Untouched (s s' : ServerData) : Prop := ∀ p ∈ s.freed, p ∈ s'.freed ∧ s'.entries p = s.entries p

theorem Untouched.refl (s : ServerData) : s.Untouched s := fun _ hp => ⟨hp, rfl⟩

theorem Untouched.trans (h : s.Untouched s₁) (h' : s₁.Untouched s') : s.Untouched s' := by
  intro p hp
  obtain ⟨hp₁, hsame⟩ := h p hp
  obtain ⟨hp', hsame'⟩ := h' p hp₁
  exact ⟨hp', hsame'.trans hsame⟩

theorem WF.untouched (h : s.WF) (hlater : s.Later s') (hframes : s.Frames s') : s.Untouched s' := by
  intro p hp
  obtain ⟨hlt, hrefs⟩ := h.freed_unlinked hp
  exact ⟨hlater.freed.subset hp, hframes.entries p hlt hrefs⟩

theorem Tidy.respond {request response : Bytes} (h : s.Tidy)
    (hrun : respond now s request = .ok (s', response)) : s'.Tidy ∧ s.Untouched s' := by
  rcases respond_eq_ok hrun with ⟨-, rfl, -⟩ | ⟨cmd, value, -, hreq, -⟩
  · exact ⟨h, .refl s'⟩
  · obtain ⟨hwf, hlater, -⟩ := h.wf.runRequest_ok hreq
    have hframes := h.wf.runRequest_frames h.owns hreq
    exact ⟨h.write hwf (runRequest_changes hreq) hframes, h.wf.untouched hlater hframes⟩

theorem Tidy.expireLoop {works : Nat} (h : s.Tidy) (hrun : MiniRedis.expireLoop now works s = .ok s') :
    s'.Tidy ∧ s.Untouched s' := by
  induction works generalizing s with
  | zero =>
    cases hrun
    exact ⟨h, .refl s'⟩
  | succ works ih =>
    cases hitems : s.heap.items with
    | nil =>
      simp only [MiniRedis.expireLoop, hitems] at hrun
      cases hrun
      exact ⟨h, .refl s'⟩
    | cons top rest =>
      by_cases hdue : top.val ≤ now
      · have htop : s.heap.items[0]? = some top := by simp [hitems]
        obtain ⟨heap, node, db, s₁, hheap, hdel, href, hone, hexpires⟩ := h.wf.expireOne htop now
        have hturn : ∀ works, MiniRedis.expireLoop now (works + 1) s = MiniRedis.expireLoop now works s₁ := by
          intro works
          simp only [MiniRedis.expireLoop, hitems, hdue, if_true, hheap, ok_bind, hdel, href, hone]
        have hchanges : s.QuietChanges s₁ := expireLoop_changes (hturn 0)
        obtain ⟨hentries, hfreed⟩ := Owns.entryDel (s := { s with heap := _, db }) h.owns hone
        have hframes : s.Frames s₁ := by
          refine ⟨fun q _ hq => hentries q fun he => hq ?_, hfreed⟩
          exact he ▸ h.wf.heap.owned top (List.mem_of_getElem? htop)
        rw [hturn] at hrun
        obtain ⟨htidy, huntouched⟩ := ih (h.write hexpires.wf hchanges hframes) hrun
        exact ⟨htidy, (h.wf.untouched hexpires.later hframes).trans huntouched⟩
      · simp only [MiniRedis.expireLoop, hitems, hdue, if_false] at hrun
        cases hrun
        exact ⟨h, .refl s'⟩

end ServerData

open ServerData

/-- What is executed accounts for its memory, one request or call of `process_timers` after the other. -/
theorem Replay.tidy {s s' : ServerData} {log : List Executed} (h : s.Tidy) (hreplay : Replay s log s') :
    s'.Tidy ∧ s.Untouched s' := by
  induction log generalizing s with
  | nil =>
    cases hreplay
    exact ⟨h, .refl s'⟩
  | cons x log ih =>
    cases x with
    | request now q request response =>
      obtain ⟨s₁, hrun, hreplay⟩ := hreplay
      obtain ⟨h₁, huntouched₁⟩ := h.respond hrun
      obtain ⟨h', huntouched⟩ := ih h₁ hreplay
      exact ⟨h', huntouched₁.trans huntouched⟩
    | timers now =>
      obtain ⟨s₁, hrun, hreplay⟩ := hreplay
      obtain ⟨h₁, huntouched₁⟩ := h.expireLoop hrun
      obtain ⟨h', huntouched⟩ := ih h₁ hreplay
      exact ⟨h', huntouched₁.trans huntouched⟩

/-! ## The descriptors -/

/-- The open descriptors are the listening one and those of the connections, each once. -/
structure Server.Sockets (s : Server) (listenFd : Nat) : Prop where
  nodup : s.openFds.Nodup
  mem_iff : ∀ fd, fd ∈ s.openFds ↔ fd = listenFd ∨ s.Serves fd
  listening : ¬ s.Serves listenFd
  fresh : ∀ p conn, s.conns p = some conn → p < s.nextConn
  unshared : ∀ p q a b, s.conns p = some a → s.conns q = some b → a.socketFd = b.socketFd → p = q

namespace Server.Sockets

variable {s s' : Server} {p : CPtr} {listenFd fd : Nat} {now : UInt64}

theorem init (listenFd : Nat) : Server.Sockets { openFds := [listenFd] } listenFd := by
  have hnone : ∀ fd, ¬ ({ openFds := [listenFd] } : Server).Serves fd := by
    rintro fd ⟨p, conn, hconn, -⟩
    cases hconn
  refine ⟨List.nodup_singleton _, fun fd => ?_, hnone _, nofun, nofun⟩
  rw [List.mem_singleton]
  exact (or_iff_left (hnone fd)).symm

/-- Only the connections, their number and the descriptors matter. -/
theorem congr (h : s.Sockets listenFd) (hconns : s'.conns = s.conns) (hnext : s'.nextConn = s.nextConn)
    (hopen : s'.openFds = s.openFds) : s'.Sockets listenFd := by
  have hserves : ∀ fd, s'.Serves fd ↔ s.Serves fd := by
    intro fd
    simp only [Server.Serves, hconns]
  refine ⟨hopen ▸ h.nodup, fun fd => ?_, fun hl => h.listening ((hserves _).mp hl), ?_, ?_⟩
  · rw [hopen, hserves]
    exact h.mem_iff fd
  · rw [hconns, hnext]
    exact h.fresh
  · rw [hconns]
    exact h.unshared

theorem handleAccept {accepted : Option Nat} (h : s.Sockets listenFd)
    (hfd : ∀ fd, accepted = some fd → fd ∉ s.openFds)
    (hrun : handleAccept accepted now s = .ok s') : s'.Sockets listenFd := by
  cases accepted with
  | none =>
    cases hrun
    exact h
  | some fd =>
    obtain ⟨idle, -, hrun⟩ := bind_eq_ok.mp hrun
    obtain ⟨slot, -, hrun⟩ := bind_eq_ok.mp hrun
    obtain ⟨_, -, hrun⟩ := bind_eq_ok.mp hrun
    obtain ⟨fd2conn, -, hret⟩ := bind_eq_ok.mp hrun
    cases hret
    have hclosed : fd ∉ s.openFds := hfd fd rfl
    have hold : ∀ q conn, s.conns q = some conn → q ≠ s.nextConn := by
      intro q conn hconn he
      exact Nat.lt_irrefl _ (he ▸ h.fresh q conn hconn)
    have hother : ∀ q conn, s.conns q = some conn → conn.socketFd ≠ fd := by
      intro q conn hconn he
      exact hclosed ((h.mem_iff fd).mpr (.inr ⟨q, conn, hconn, he⟩))
    have hserves : ∀ fd', (∃ q conn, Function.update s.conns s.nextConn
        (some { socketFd := fd, wantRead := true, lastActivityMs := now }) q = some conn ∧
        conn.socketFd = fd') ↔ fd' = fd ∨ s.Serves fd' := by
      intro fd'
      constructor
      · rintro ⟨q, conn, hconn, hfd'⟩
        by_cases hq : q = s.nextConn
        · rw [hq, Function.update_self] at hconn
          cases hconn
          exact .inl hfd'.symm
        · rw [Function.update_of_ne hq] at hconn
          exact .inr ⟨q, conn, hconn, hfd'⟩
      · rintro (rfl | ⟨q, conn, hconn, hfd'⟩)
        · exact ⟨s.nextConn, _, Function.update_self .., rfl⟩
        · exact ⟨q, conn, (Function.update_of_ne (hold q conn hconn) ..).trans hconn, hfd'⟩
    refine ⟨List.nodup_cons.mpr ⟨hclosed, h.nodup⟩, fun fd' => ?_, fun hl => ?_, ?_, ?_⟩
    · refine List.mem_cons.trans ((or_congr_right (h.mem_iff fd')).trans ?_)
      refine or_left_comm.trans (or_congr_right (hserves fd').symm)
    · rcases (hserves listenFd).mp hl with he | hl
      · exact hclosed ((h.mem_iff fd).mpr (.inl he.symm))
      · exact h.listening hl
    · exact forall_update_some (fun q conn _ hconn => Nat.lt_succ_of_lt (h.fresh q conn hconn))
        fun _ _ => Nat.lt_succ_self _
    · intro q r a b ha hb hsame
      simp only at ha hb
      by_cases hq : q = s.nextConn
      · by_cases hr : r = s.nextConn
        · rw [hq, hr]
        · rw [Function.update_of_ne hr] at hb
          rw [hq, Function.update_self] at ha
          cases ha
          exact absurd hsame.symm (hother r b hb)
      · rw [Function.update_of_ne hq] at ha
        by_cases hr : r = s.nextConn
        · rw [hr, Function.update_self] at hb
          cases hb
          exact absurd hsame (hother q a ha)
        · rw [Function.update_of_ne hr] at hb
          exact h.unshared q r a b ha hb hsame

theorem handleDestroy (h : s.Sockets listenFd) (hrun : handleDestroy s p = .ok s') :
    s'.Sockets listenFd := by
  obtain ⟨conn, hconn, hrun⟩ := bind_eq_ok.mp hrun
  obtain ⟨fd2conn, -, hrun⟩ := bind_eq_ok.mp hrun
  obtain ⟨idle, -, hret⟩ := bind_eq_ok.mp hrun
  cases hret
  rw [deref_eq_ok] at hconn
  have hkept : ∀ q c, Function.update s.conns p none q = some c → q ≠ p ∧ s.conns q = some c := by
    intro q c hc
    by_cases hq : q = p
    · rw [hq, Function.update_self] at hc
      cases hc
    · rw [Function.update_of_ne hq] at hc
      exact ⟨hq, hc⟩
  refine ⟨h.nodup.filter _, fun fd => ?_, ?_, fun q c hc => h.fresh q c (hkept q c hc).2, ?_⟩
  · simp only [List.mem_filter, decide_eq_true_eq]
    constructor
    · rintro ⟨hopen, hne⟩
      rcases (h.mem_iff fd).mp hopen with rfl | ⟨q, c, hc, hfd⟩
      · exact .inl rfl
      · have hq : q ≠ p := by
          rintro rfl
          cases hconn.symm.trans hc
          exact hne hfd.symm
        exact .inr ⟨q, c, (Function.update_of_ne hq ..).trans hc, hfd⟩
    · rintro (rfl | ⟨q, c, hc, rfl⟩)
      · exact ⟨(h.mem_iff fd).mpr (.inl rfl), fun he => h.listening ⟨p, conn, hconn, he.symm⟩⟩
      · obtain ⟨hq, hc⟩ := hkept q c hc
        exact ⟨(h.mem_iff _).mpr (.inr ⟨q, c, hc, rfl⟩), fun he => hq (h.unshared q p c conn hc hconn he)⟩
  · rintro ⟨q, c, hc, hfd⟩
    exact h.listening ⟨q, c, (hkept q c hc).2, hfd⟩
  · intro q r a b ha hb
    exact h.unshared q r a b (hkept q a ha).2 (hkept r b hb).2

theorem closeIdle {fuel : Nat} (h : s.Sockets listenFd) (hrun : closeIdle now fuel s = .ok s') :
    s'.Sockets listenFd := by
  induction fuel generalizing s with
  | zero => cases hrun
  | succ fuel ih =>
    unfold MiniRedis.closeIdle at hrun
    split at hrun
    · cases hrun
      exact h
    · split at hrun
      · obtain ⟨conn, -, hrun⟩ := bind_eq_ok.mp hrun
        simp only at hrun
        split at hrun
        · cases hrun
          exact h
        · obtain ⟨s₁, hdestroy, hrun⟩ := bind_eq_ok.mp hrun
          exact ih (h.handleDestroy hdestroy) hrun
      · cases hrun

theorem processTimers (h : s.Sockets listenFd) (hrun : processTimers now s = .ok s') :
    s'.Sockets listenFd := by
  obtain ⟨s₁, hclose, hrun⟩ := bind_eq_ok.mp hrun
  obtain ⟨data, -, hret⟩ := bind_eq_ok.mp hrun
  cases hret
  exact (h.closeIdle hclose).congr rfl rfl rfl

/-- What happens on a connection does not change its descriptor. -/
theorem serve {client client' : ClientConn} (h : s.Sockets listenFd) (hclient : s.conns p = some client)
    (hfd : client'.socketFd = client.socketFd) (hconns : s'.conns = Function.update s.conns p (some client'))
    (hnext : s'.nextConn = s.nextConn) (hopen : s'.openFds = s.openFds) : s'.Sockets listenFd := by
  have hsame : ∀ q, (s'.conns q).map ClientConn.socketFd = (s.conns q).map ClientConn.socketFd := by
    intro q
    rw [hconns]
    by_cases hq : q = p
    · rw [hq, Function.update_self, hclient, Option.map_some, Option.map_some, hfd]
    · rw [Function.update_of_ne hq]
  have hold : ∀ q c, s'.conns q = some c → ∃ c₀, s.conns q = some c₀ ∧ c₀.socketFd = c.socketFd := by
    intro q c hc
    have hmap := (hsame q).symm
    rw [hc, Option.map_some] at hmap
    exact Option.map_eq_some_iff.mp hmap
  have hserves : ∀ fd, s'.Serves fd ↔ s.Serves fd := by
    intro fd
    constructor
    · rintro ⟨q, c, hc, rfl⟩
      obtain ⟨c₀, hc₀, hfd⟩ := hold q c hc
      exact ⟨q, c₀, hc₀, hfd⟩
    · rintro ⟨q, c, hc, rfl⟩
      have hmap := hsame q
      rw [hc, Option.map_some] at hmap
      obtain ⟨c', hc', hfd⟩ := Option.map_eq_some_iff.mp hmap
      exact ⟨q, c', hc', hfd⟩
  refine ⟨hopen ▸ h.nodup, fun fd => ?_, fun hl => h.listening ((hserves _).mp hl), fun q c hc => ?_, ?_⟩
  · rw [hopen, hserves]
    exact h.mem_iff fd
  · obtain ⟨c₀, hc₀, -⟩ := hold q c hc
    rw [hnext]
    exact h.fresh q c₀ hc₀
  · intro q r a b ha hb hshared
    obtain ⟨a₀, ha₀, hfda⟩ := hold q a ha
    obtain ⟨b₀, hb₀, hfdb⟩ := hold r b hb
    exact h.unshared q r a₀ b₀ ha₀ hb₀ (hfda.trans (hshared.trans hfdb.symm))

theorem handleEvent {e : Event} (h : s.Sockets listenFd) (hrun : handleEvent e fd s = .ok s') :
    s'.Sockets listenFd := by
  unfold MiniRedis.handleEvent at hrun
  split at hrun
  · cases hrun
    exact h
  obtain ⟨slot, -, hrun⟩ := bind_eq_ok.mp hrun
  obtain ⟨p, -, hrun⟩ := bind_eq_ok.mp hrun
  obtain ⟨client, hclient, hrun⟩ := bind_eq_ok.mp hrun
  obtain ⟨detached, -, hrun⟩ := bind_eq_ok.mp hrun
  obtain ⟨idle, -, hrun⟩ := bind_eq_ok.mp hrun
  obtain ⟨⟨data, conn₁⟩, -, hrun⟩ := bind_eq_ok.mp hrun
  obtain ⟨conn₂, -, hrun⟩ := bind_eq_ok.mp hrun
  rw [deref_eq_ok] at hclient
  let client' : ClientConn := { client with toConnection := conn₂, lastActivityMs := e.now }
  have hserved : Server.Sockets { s with
      data, idle, conns := Function.update s.conns p (some client') } listenFd :=
    h.serve hclient (show client'.socketFd = client.socketFd from rfl) rfl rfl rfl
  simp only at hrun
  split at hrun
  · exact hserved.handleDestroy hrun
  · cases hrun
    exact hserved

theorem run {l : Loop} (hrun : Relation.ReflTransGen Loop.Step (Loop.init listenFd) l) :
    l.server.Sockets listenFd := by
  induction hrun with
  | refl => exact .init listenFd
  | tail _ hstep ih =>
    cases hstep with
    | poll | interrupted | noAccept => exact ih
    | accept htime hfd hrun => exact ih.handleAccept hfd hrun
    | event htime hrun => exact ih.handleEvent hrun
    | timers htime hrun => exact ih.processTimers hrun

end Server.Sockets

/-! ## All of it -/

theorem Loop.tidy_run {listenFd : Nat} {l : Loop}
    (hrun : Relation.ReflTransGen Loop.Step (Loop.init listenFd) l) : l.server.data.Tidy := by
  obtain ⟨τ, htraced⟩ := Loop.exists_traced hrun
  obtain ⟨log, hlog⟩ := htraced.serialises
  exact (hlog.replay.tidy .init).1

/-- **Nothing leaks.** In every state that the loop reaches, every entry that was ever allocated is in the
database or was freed, and every node that was ever allocated for a set is a member of it or was freed: each
exactly once. The set of a freed entry has freed all its nodes, and no deadline is left for it. The open
descriptors are the listening one and those of the connections, and no two of these are the same. -/
theorem nothing_leaks {listenFd : Nat} {l : Loop}
    (hrun : Relation.ReflTransGen Loop.Step (Loop.init listenFd) l) :
    let s := l.server.data
    let members p := (s.entries p).zset.hmap.nodes.map (·.ref)
    (s.refs ++ s.freed).Perm (List.range s.next) ∧
      (∀ p ∈ s.refs, (members p ++ (s.entries p).zset.freed).Perm (List.range (s.entries p).zset.next)) ∧
      (∀ p ∈ s.freed, (s.entries p).zset.freed.Perm (List.range (s.entries p).zset.next) ∧
        ∀ item ∈ s.heap.items, item.ref ≠ p) ∧
      l.server.openFds.Nodup ∧ (∀ fd, fd ∈ l.server.openFds ↔ fd = listenFd ∨ l.server.Serves fd) ∧
      ¬ l.server.Serves listenFd ∧
      ∀ p q a b, l.server.conns p = some a → l.server.conns q = some b → a.socketFd = b.socketFd → p = q := by
  intro s members
  have htidy : s.Tidy := Loop.tidy_run hrun
  have hsockets := Server.Sockets.run hrun
  refine ⟨?_, fun p _ => ?_, fun p hp => ⟨(htidy.owns p).freed_perm (htidy.empty p hp), ?_⟩,
    hsockets.nodup, hsockets.mem_iff, hsockets.listening, hsockets.unshared⟩
  · have howners := htidy.wf.owners
    rwa [htidy.first.queue, List.append_nil] at howners
  · obtain ⟨t, ht⟩ := (htidy.owns p).wf
    exact ht.allocated_perm (htidy.owns p).accounted
  · rintro item hitem rfl
    exact (htidy.wf.freed_unlinked hp).2 (htidy.wf.heap.owned item hitem)

theorem nothing_leaks_longTtl : ∃ s, longTtlServer = .ok s ∧
    (s.data.refs ++ s.data.freed).Perm (List.range s.data.next) ∧
    (∀ fd, fd ∈ s.openFds ↔ fd = 3 ∨ s.Serves fd) ∧ ¬ s.Serves 3 := by
  obtain ⟨s, hs⟩ : ∃ s, longTtlServer = .ok s := ⟨_, rfl⟩
  obtain ⟨hentries, -, -, -, hfds, hlistening, -⟩ := nothing_leaks (reaches_longTtl hs)
  exact ⟨s, hs, hentries, hfds, hlistening⟩

/-- **No pointer to a freed entry is left.** An entry that was freed in a state of the loop is still freed in
every later state, where neither the database nor the heap of deadlines nor the queue of the thread pool
refers to it; and no request and no timer has written to it. -/
theorem freed_untouched {listenFd : Nat} {l₀ l : Loop}
    (hrun₀ : Relation.ReflTransGen Loop.Step (Loop.init listenFd) l₀)
    (hrun : Relation.ReflTransGen Loop.Step l₀ l) :
    ∀ p ∈ l₀.server.data.freed, p ∈ l.server.data.freed ∧ p ∉ l.server.data.refs ∧
      (∀ item ∈ l.server.data.heap.items, item.ref ≠ p) ∧ p ∉ l.server.data.queue ∧
      l.server.data.entries p = l₀.server.data.entries p := by
  obtain ⟨τ₀, htraced⟩ := Loop.exists_traced hrun₀
  obtain ⟨log, hlog⟩ := htraced.serialises
  obtain ⟨τ, hcontinues⟩ := Loop.exists_continues hrun τ₀
  obtain ⟨log', -, hreplay⟩ := hcontinues.serialises htraced hlog
  obtain ⟨htidy, huntouched⟩ := hreplay.tidy (Loop.tidy_run hrun₀)
  intro p hp
  obtain ⟨hfreed, hsame⟩ := huntouched p hp
  have hrefs := (htidy.wf.freed_unlinked hfreed).2
  refine ⟨hfreed, hrefs, ?_, ?_, hsame⟩
  · rintro item hitem rfl
    exact hrefs (htidy.wf.heap.owned item hitem)
  · rw [htidy.first.queue]
    exact List.not_mem_nil

/-- A client sets a key and deletes it. -/
def setDel : Event :=
  { longTtl with
    read := .data (frame (encodeRequest [ascii ['s', 'e', 't'], ascii ['k'], ascii ['v']]) ++
      frame (encodeRequest [ascii ['d', 'e', 'l'], ascii ['k']])) }

theorem freed_untouched_setDel : ∃ l₀ l : Loop,
    Relation.ReflTransGen Loop.Step (Loop.init 3) l₀ ∧ Relation.ReflTransGen Loop.Step l₀ l ∧
      l₀.server.data.freed = [0] ∧ 0 ∉ l.server.data.refs ∧
      l.server.data.entries 0 = l₀.server.data.entries 0 := by
  obtain ⟨s, h, hs⟩ := traced_accepted
  obtain ⟨s₁, hevent, s₂, htimers, hfreed⟩ : ∃ s₁, handleEvent setDel 4 s = .ok s₁ ∧
      ∃ s₂, processTimers 10 s₁ = .ok s₂ ∧ s₁.data.freed = [0] := by
    cases hs
    exact ⟨_, rfl, _, rfl, rfl⟩
  have hrun₀ := h.reaches.tail (.event (show (5 : UInt64) ≤ 10 by decide) hevent)
  have hrun := Relation.ReflTransGen.single (Loop.Step.timers (UInt64.le_refl _) htimers)
  obtain ⟨-, hrefs, -, -, hsame⟩ := freed_untouched hrun₀ hrun 0 (by simp [hfreed])
  exact ⟨_, _, hrun₀, hrun, hfreed, hrefs, hsame⟩

end MiniRedis
