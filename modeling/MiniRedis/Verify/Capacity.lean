import MiniRedis.Verify.Changes
import MiniRedis.Verify.Intents
import MiniRedis.Verify.NextTimer
import MiniRedis.Verify.Requests

/-! # How much the server can hold

A table cannot grow: the size that `hm_trigger_rehash` asks for is refused by `h_init`. So from the
empty server on, no hash map ever leaves its first table, nothing is ever given to the thread pool, and a
request stops the server exactly if it needs room that is not there. -/

namespace MiniRedis

/-- One node more makes the first table of a map grow. -/
def tableRoom : Nat := 4 * kMaxLoadFactor - 1

/-! ## Sets -/

section
variable {σ : Type} {z z' : ZSet σ} {p : ZPtr} {name : Bytes} {score : σ}

theorem zsetLookup_firstTable {found : Option ZPtr} (h : z.hmap.FirstTable)
    (hrun : zsetLookup z name = .ok (found, z')) : z'.hmap.FirstTable := by
  unfold zsetLookup at hrun
  split at hrun
  · cases hrun
    exact h
  · obtain ⟨⟨node, hmap⟩, hlookup, hret⟩ := bind_eq_ok.mp hrun
    cases hret
    have hrun' : (HOp.lookup { ref := name, hashCode := stringHash name } (hcmp z)).apply z.hmap =
        .ok hmap := by simp only [HOp.apply, hlookup, ok_bind, pure_eq_ok]
    exact h.step_of_ok hrun'

theorem zsetDelete_firstTable (h : z.hmap.FirstTable) (hrun : zsetDelete z p = .ok z') :
    z'.hmap.FirstTable := by
  obtain ⟨⟨found, hmap⟩, hdelete, hrun⟩ := bind_eq_ok.mp hrun
  obtain ⟨_, -, hrun⟩ := bind_eq_ok.mp hrun
  obtain ⟨r, -, hret⟩ := bind_eq_ok.mp hrun
  cases hret
  have hrun' : (HOp.delete { ref := (z.node p).name, hashCode := (z.node p).hashCode } (hcmp z)).apply
      z.hmap = .ok hmap := by simp only [HOp.apply, hdelete, ok_bind, pure_eq_ok]
  exact h.step_of_ok hrun'

theorem treeDispose_hmap {fuel : Nat} {node : Option ZPtr} (hrun : treeDispose fuel z node = .ok z') :
    z'.hmap = z.hmap := by
  induction fuel generalizing z z' node with
  | zero => cases hrun
  | succ fuel ih =>
    cases node with
    | none =>
      cases hrun
      rfl
    | some p =>
      obtain ⟨z₁, hleft, hrun⟩ := bind_eq_ok.mp hrun
      obtain ⟨z₂, hright, hret⟩ := bind_eq_ok.mp hrun
      cases hret
      exact (ih hright).trans (ih hleft)

theorem zsetClear_hmap (hrun : zsetClear z = .ok z') : z'.hmap = {} := by
  obtain ⟨z₁, hdispose, hret⟩ := bind_eq_ok.mp hrun
  cases hret
  exact treeDispose_hmap hdispose

variable [LE σ] [LT σ] [DecidableLE σ] [DecidableLT σ]

theorem treeInsert_hmap (hrun : treeInsert z p = .ok z') : z'.hmap = z.hmap := by
  obtain ⟨r, -, hret⟩ := bind_eq_ok.mp hrun
  cases hret
  rfl

theorem zsetUpdate_hmap (hrun : zsetUpdate z p score = .ok z') : z'.hmap = z.hmap := by
  unfold zsetUpdate at hrun
  split at hrun
  · cases hrun
    rfl
  · obtain ⟨⟨root, tree⟩, -, hrun⟩ := bind_eq_ok.mp hrun
    exact treeInsert_hmap (z := { z with root, tree := avlInit tree p, node := _ }) hrun

theorem zsetInsert_firstTable {added : Bool} (h : z.hmap.FirstTable)
    (hrun : zsetInsert z name score = .ok (added, z')) : z'.hmap.FirstTable := by
  obtain ⟨⟨found, z₁⟩, hlookup, hrun⟩ := bind_eq_ok.mp hrun
  have h₁ := zsetLookup_firstTable h hlookup
  cases found with
  | some p =>
    obtain ⟨z₂, hupdate, hret⟩ := bind_eq_ok.mp hrun
    cases hret
    rw [zsetUpdate_hmap hupdate]
    exact h₁
  | none =>
    obtain ⟨⟨p, z₂⟩, hnew, hrun⟩ := bind_eq_ok.mp hrun
    obtain ⟨hmap, hinsert, hrun⟩ := bind_eq_ok.mp hrun
    obtain ⟨z₃, htree, hret⟩ := bind_eq_ok.mp hrun
    cases hret
    obtain ⟨_, -, hnew⟩ := bind_eq_ok.mp hnew
    cases hnew
    rw [treeInsert_hmap htree]
    exact HMap.FirstTable.step_of_ok h₁ (show (HOp.insert _ : HOp ZPtr Bytes).apply _ = _ from hinsert)

end

theorem ZOp.apply_firstTable {z z' : ZSet Double} {op : ZOp} (h : z.hmap.FirstTable)
    (hrun : op.apply z = .ok z') : z'.hmap.FirstTable := by
  cases op with
  | lookup name =>
    obtain ⟨⟨found, z₁⟩, hlookup, hret⟩ := bind_eq_ok.mp hrun
    cases hret
    exact zsetLookup_firstTable h hlookup
  | insert name score =>
    obtain ⟨⟨added, z₁⟩, hinsert, hret⟩ := bind_eq_ok.mp hrun
    cases hret
    exact zsetInsert_firstTable h hinsert
  | remove name =>
    obtain ⟨⟨found, z₁⟩, hlookup, hrun⟩ := bind_eq_ok.mp hrun
    have h₁ := zsetLookup_firstTable h hlookup
    cases found with
    | none =>
      cases hrun
      exact h₁
    | some p => exact zsetDelete_firstTable h₁ hrun

/-! ## The server -/

namespace ServerData

/-- No hash map of the server has outgrown its first table, and nothing was given to the thread pool. -/
structure FirstTables (s : ServerData) : Prop where
  db : s.db.FirstTable
  zsets : ∀ p, (s.entries p).zset.hmap.FirstTable
  queue : s.queue = []

variable {s s' : ServerData} {now : UInt64} {key resp resp' : Bytes} {p : EPtr}

theorem FirstTables.empty : ({} : ServerData).FirstTables := ⟨.empty, fun _ => .empty, rfl⟩

/-- Replacing an entry by one whose set is within its first table. -/
theorem FirstTables.zsets_update {entries : EPtr → Entry} {e : Entry}
    (h : ∀ q, (entries q).zset.hmap.FirstTable) (he : e.zset.hmap.FirstTable) (q : EPtr) :
    (Function.update entries p e q).zset.hmap.FirstTable := by
  by_cases hq : q = p
  · subst hq
    rwa [Function.update_self]
  · rw [Function.update_of_ne hq]
    exact h q

/-- A set is never large enough for the thread pool. -/
theorem FirstTables.containerSize_le (h : s.FirstTables) (p : EPtr) :
    s.containerSize p ≤ kLargeContainerSize := by
  have hroom := (h.zsets p).room
  unfold containerSize
  split
  · exact Nat.le_trans (Nat.le_of_lt hroom) (by decide)
  · exact Nat.zero_le _

theorem FirstTables.change {allowed : ZOp → Prop} (h : s.FirstTables) (hchange : Change allowed s s') :
    s'.FirstTables := by
  cases hchange with
  | db op hrun => exact ⟨h.db.step_of_ok hrun, h.zsets, h.queue⟩
  | new hrun =>
    simp only [entryNew] at hrun
    split at hrun
    · cases hrun
      exact ⟨h.db, zsets_update h.zsets .empty, h.queue⟩
    · cases hrun
  | heap heap => exact ⟨h.db, h.zsets, h.queue⟩
  | value p value => exact ⟨h.db, zsets_update h.zsets (h.zsets p), h.queue⟩
  | zset p op _ _ hrun => exact ⟨h.db, zsets_update h.zsets (op.apply_firstTable (h.zsets p) hrun), h.queue⟩
  | warn w => exact ⟨h.db, h.zsets, h.queue⟩
  | @free _ p _ hsmall hrun =>
    unfold entryDelSync at hrun
    split at hrun
    · obtain ⟨zset, hclear, hret⟩ := bind_eq_ok.mp hrun
      cases hret
      refine ⟨h.db, zsets_update h.zsets ?_, h.queue⟩
      simp only [zsetClear_hmap hclear]
      exact .empty
    · cases hrun
      exact ⟨h.db, h.zsets, h.queue⟩
  | enqueue p hlarge => exact absurd hlarge (Nat.not_lt.mpr (h.containerSize_le p))

theorem FirstTables.changes {allowed : ZOp → Prop} (h : s.FirstTables) (hs : s.ChangesBy allowed s') :
    s'.FirstTables :=
  Changes.keeps (fun _ _ => change) h hs

end ServerData

/-! ## Requests that need room -/

/-- The number of keys. -/
noncomputable def numKeys (c : Bytes → Option Content) : Nat := {k | c k ≠ none}.ncard

noncomputable def Content.numMembers (x : Content) : Nat := {name | x.scores name ≠ none}.ncard

/-- There is no room for another key: the table would have to grow, or no address is left. -/
def ServerData.NoRoomForKey (s : ServerData) : Prop :=
  numKeys s.contents = tableRoom ∨ s.next = sizeMax

/-- There is no room for another member in the set of an entry. -/
def ServerData.NoRoomForMember (s : ServerData) (p : EPtr) : Prop :=
  (s.content p).numMembers = tableRoom ∨ (s.entries p).zset.next = addressSpace

/-- The request adds a key or a member for which there is no room. -/
def Request.LacksRoom (s : ServerData) : Request → Prop
  | .set key _ => s.contents key = none ∧ s.NoRoomForKey
  | .zadd key score name => (str2dbl score).isSome ∧
      (s.contents key = none ∧ s.NoRoomForKey ∨
        ∃ p ∈ s.refs, (s.entries p).key = key ∧ (s.content p).isZset = true ∧
          (s.content p).scores name = none ∧ s.NoRoomForMember p)
  | _ => False

/-- The faults of a table that cannot grow and of a failed allocation. -/
def Fault.IsNoRoom : Fault → Prop
  | .assertion .hInitSize | .assertion .znodeNewNode | .badAlloc => True
  | _ => False

/-- A call that stops the server exactly in the given case, for lack of room. -/
def StopsIff (stops : Prop) : Result α → Prop
  | .ok _ => ¬ stops
  | .error e => stops ∧ e.IsNoRoom

theorem StopsIff.of_ok {stops : Prop} {r : Result α} (hstops : ¬ stops) (h : ∃ a, r = .ok a) :
    StopsIff stops r := by
  obtain ⟨a, rfl⟩ := h
  exact hstops

theorem StopsIff.of_error {stops : Prop} {r : Result α} {e : Fault} (hstops : stops)
    (he : e.IsNoRoom) (h : r = .error e) : StopsIff stops r := by
  rw [h]
  exact ⟨hstops, he⟩

/-- What follows the call returns. -/
theorem StopsIff.bind {stops : Prop} {r : Result α} {f : α → Result β} (h : StopsIff stops r)
    (hf : ∀ a, ∃ b, f a = .ok b) : StopsIff stops (r >>= f) := by
  cases r with
  | error e => exact h
  | ok a => exact .of_ok h (hf a)

/-- Insertion into the first table: it fails on the node that fills it. -/
theorem HMap.FirstTable.insert_outcome {m : HMap α} (h : m.FirstTable) (node : HNode α) :
    hmSize m ≠ tableRoom ∧ (∃ m', hmInsert m node = .ok m') ∨
      hmSize m = tableRoom ∧ hmInsert m node = .error (.assertion .hInitSize) := by
  have hroom := h.room
  have hfull : tableRoom = 31 := rfl
  by_cases hsize : hmSize m < 31
  · obtain ⟨m', hrun, -⟩ := h.insert hsize node
    exact .inl ⟨by omega, m', hrun⟩
  · exact .inr ⟨by omega, h.insert_full hsize node⟩

/-- `zset_insert` on a set within its first table. -/
theorem ZSet.WF.insert_outcome {z : ZSet Double} {t : BinaryTree ZPtr} (h : z.WF t)
    (hfirst : z.hmap.FirstTable) (name : Bytes) (score : Double) :
    StopsIff (z.scoreOf name = none ∧ (hmSize z.hmap = tableRoom ∨ z.next = addressSpace))
      (zsetInsert z name score) := by
  obtain ⟨found, hmap, hlookup, hwf, hperm, hfound⟩ := h.lookup name
  have hfirst' : hmap.FirstTable := zsetLookup_firstTable hfirst hlookup
  have hsize : hmSize hmap = hmSize z.hmap := by
    rw [hwf.hmap.toTablesWF.hmSize, h.hmap.toTablesWF.hmSize, hperm.length_eq]
  cases found with
  | some p =>
    obtain ⟨hp, rfl⟩ := (hfound p).mp rfl
    obtain ⟨z', t', hrun, -⟩ := hwf.update hp score
    have hsome : z.scoreOf (z.node p).name = some (z.node p).score :=
      h.scoreOf_eq_some.mpr ⟨p, hp, rfl, rfl⟩
    refine .of_ok (fun hstops => ?_) ⟨(false, z'), by simp [zsetInsert, hlookup, hrun]⟩
    rw [hsome] at hstops
    cases hstops.1
  | none =>
    have hnew : ∀ q ∈ t.inorder, (z.node q).name ≠ name := fun q hq hname => by
      cases (hfound q).mpr ⟨hq, hname⟩
    have hnone : z.scoreOf name = none := h.scoreOf_eq_none.mpr hnew
    by_cases hnext : z.next < addressSpace
    · have hstored : ∀ n ∈ hmap.nodes, n.ref ≠ z.next := fun n hn he =>
        Nat.lt_irrefl _ (he ▸ h.allocated n.ref (hwf.mem_iff.mpr ⟨n, hn, rfl⟩))
      have hwf₁ : hmap.WF fun q =>
          (Function.update z.node z.next { hashCode := stringHash name, score, name } q).name :=
        hwf.hmap.congr fun n hn => by rw [Function.update_of_ne (hstored n hn)]
      rcases hfirst'.insert_outcome { ref := z.next, hashCode := stringHash name } with
        ⟨hroom, hmap', hrun⟩ | ⟨hfull, hrun⟩
      · rcases hwf₁.hmInsert { ref := z.next, hashCode := stringHash name }
          (fun n hn => by
            rw [Function.update_self, Function.update_of_ne (hstored n hn)]
            exact hnew n.ref (hwf.mem_iff.mpr ⟨n, hn, rfl⟩)) with ⟨hmap₁, hrun₁, hwf', hperm'⟩ | hrun₁
        · obtain ⟨z', t', hins, -⟩ := hwf.add rfl hnext hnew hwf' hperm'
          refine .of_ok (fun hstops => ?_) ⟨(true, z'), ?_⟩
          · rcases hstops.2 with hfull | hlast
            · exact hroom (hsize.trans hfull)
            · exact Nat.ne_of_lt hnext hlast
          · simp [zsetInsert, hlookup, znodeNew, assert, hnext, hrun₁, hins]
        · rw [hrun] at hrun₁
          cases hrun₁
      · refine .of_error ⟨hnone, .inl (hsize ▸ hfull)⟩ (e := .assertion .hInitSize) trivial ?_
        simp [zsetInsert, hlookup, znodeNew, assert, hnext, hrun]
    · have hlast : z.next = addressSpace := Nat.le_antisymm h.next_le (Nat.le_of_not_lt hnext)
      refine .of_error ⟨hnone, .inr hlast⟩ (e := .assertion .znodeNewNode) trivial ?_
      simp [zsetInsert, hlookup, znodeNew, assert, hnext]

namespace ServerData.WF

variable {s s' : ServerData} {now : UInt64} {key value resp : Bytes} {p : EPtr}

theorem numKeys_eq (h : s.WF) : numKeys s.contents = hmSize s.db := by
  rw [numKeys, contents, ncard_valueOf h.keys, refs, List.length_map, h.db.toTablesWF.hmSize]

theorem numMembers_eq (h : s.WF) (hp : p ∈ s.refs) :
    (s.content p).numMembers = hmSize (s.entries p).zset.hmap := by
  obtain ⟨t, ht⟩ := h.zsets p hp
  change {name | (s.entries p).zset.scoreOf name ≠ none}.ncard = _
  rw [ZSet.scoreOf, ncard_valueOf ht.names, List.length_map, ht.hmap.toTablesWF.hmSize]

/-- A missing key gets an entry if there is room for one. -/
theorem addEntry_outcome (h : s.WF) (hfirst : s.FirstTables) (hnew : s.contents key = none)
    (type : ValueType) (value : Bytes) :
    (¬ s.NoRoomForKey ∧ ∃ s₁ s₂, entryNew s type key value = .ok (s.next, s₁) ∧
      dbInsert s₁ s.next = .ok s₂ ∧ s₂.WF ∧ s.next ∈ s₂.refs ∧
      (s₂.entries s.next).zset = .empty) ∨
    s.NoRoomForKey ∧
      ((∃ s₁, entryNew s type key value = .ok (s.next, s₁) ∧
        dbInsert s₁ s.next = .error (.assertion .hInitSize)) ∨
      entryNew s type key value = .error .badAlloc) := by
  by_cases hnext : s.next < sizeMax
  · have hentry := h.addEntry hnew type value
    have hrun : ∃ s₁, entryNew s type key value = .ok (s.next, s₁) ∧ s₁.db = s.db :=
      ⟨_, if_pos hnext, rfl⟩
    obtain ⟨s₁, hrun, hdb⟩ := hrun
    have hinsert := hfirst.db.insert_outcome
      { ref := s.next, hashCode := (s₁.entries s.next).hashCode }
    rw [← hdb, ← h.numKeys_eq.trans (congrArg hmSize hdb.symm)] at hinsert
    rcases hinsert with ⟨hroom, db, hok⟩ | ⟨hfull, herr⟩
    · rcases hentry with ⟨s₂, hrun', ⟨s₃, hins, hs₃, -, hp, hentry, -⟩ | hins⟩ | hrun'
      · cases hrun.symm.trans hrun'
        refine .inl ⟨?_, s₁, s₃, hrun, hins, hs₃, hp, by rw [hentry]⟩
        rintro (hfull | hlast)
        · exact hroom hfull
        · exact Nat.ne_of_lt hnext hlast
      · cases hrun.symm.trans hrun'
        simp only [dbInsert, hok, ok_bind] at hins
        cases hins
      · cases hrun.symm.trans hrun'
    · exact .inr ⟨.inl hfull, .inl ⟨s₁, hrun, by simp only [dbInsert, herr, error_bind]⟩⟩
  · have hlast : s.next = sizeMax := Nat.le_antisymm h.next_le (Nat.le_of_not_lt hnext)
    exact .inr ⟨.inr hlast, .inr (if_neg hnext)⟩

/-- What a lookup in the database leaves as it was. -/
theorem lookup_room {found : Option EPtr} {s₁ : ServerData} (h : s.WF) (hfirst : s.FirstTables)
    (hrun : dbLookup s key = .ok (found, s₁)) :
    s₁.FirstTables ∧ s₁.entries = s.entries ∧ s₁.next = s.next ∧ s₁.heap = s.heap ∧
      s₁.refs.Perm s.refs := by
  obtain ⟨hentries, hperm⟩ := h.lookup_frame hrun
  refine ⟨hfirst.changes (dbLookup_changes hrun), hentries, ?_, ?_, hperm⟩
  · obtain ⟨r, -, hret⟩ := bind_eq_ok.mp hrun
    cases hret
    rfl
  · obtain ⟨r, -, hret⟩ := bind_eq_ok.mp hrun
    cases hret
    rfl

theorem setKey_outcome (h : s.WF) (hfirst : s.FirstTables) (key value resp : Bytes) :
    StopsIff ((Request.set key value).LacksRoom s) (MiniRedis.setKey s key value resp) := by
  rcases h.lookup key with ⟨p, s₁, hrun, -, -, -, -, -, hkey⟩ | ⟨s₁, hrun, h₁, -, hsame, hkey⟩
  · refine .of_ok (fun hstops => ?_) ⟨_, by simp only [MiniRedis.setKey, hrun, ok_bind, pure_eq_ok]; rfl⟩
    cases hkey.symm.trans hstops.1
  · obtain ⟨hfirst₁, -, hnext, -⟩ := h.lookup_room hfirst hrun
    have hroom : s₁.NoRoomForKey ↔ s.NoRoomForKey := by rw [NoRoomForKey, hsame, hnext, NoRoomForKey]
    rcases h₁.addEntry_outcome hfirst₁ (hsame ▸ hkey) .init value with
      ⟨hfree, s₂, s₃, hnew, hins, -⟩ | ⟨hfull, ⟨s₂, hnew, hins⟩ | hnew⟩
    · refine .of_ok (fun hstops => hfree (hroom.mpr hstops.2)) ⟨(s₃, outNil resp), ?_⟩
      simp only [MiniRedis.setKey, hrun, ok_bind, hnew, hins, pure_eq_ok]
    · refine .of_error ⟨hkey, hroom.mp hfull⟩ (e := .assertion .hInitSize) trivial ?_
      simp only [MiniRedis.setKey, hrun, ok_bind, hnew, hins, error_bind]
    · refine .of_error ⟨hkey, hroom.mp hfull⟩ (e := .badAlloc) trivial ?_
      simp only [MiniRedis.setKey, hrun, ok_bind, hnew, error_bind]

/-- The rest of `zadd` once the entry is there. -/
theorem zcmdAdd_of_entry {scoreText name : Bytes} {score : Double} {stops : Prop} {s₁ : ServerData}
    (hscore : str2dbl scoreText = some score) (hentry : MiniRedis.zaddEntry s key = .ok (some p, s₁))
    (hset : StopsIff stops (zsetInsert (s₁.entries p).zset name score)) :
    StopsIff stops (MiniRedis.zcmdAdd s key scoreText name resp) := by
  simp only [MiniRedis.zcmdAdd, hscore, hentry, ok_bind]
  exact hset.bind fun _ => ⟨_, rfl⟩

theorem zcmdAdd_outcome (h : s.WF) (hfirst : s.FirstTables) (key scoreText name resp : Bytes) :
    StopsIff ((Request.zadd key scoreText name).LacksRoom s) (MiniRedis.zcmdAdd s key scoreText name resp) := by
  cases hscore : str2dbl scoreText with
  | none =>
    refine .of_ok (fun hstops => ?_) ⟨_, by simp only [MiniRedis.zcmdAdd, hscore]; rfl⟩
    rw [Request.LacksRoom, hscore] at hstops
    cases hstops.1
  | some score =>
    simp only [Request.LacksRoom, hscore, Option.isSome_some, true_and]
    rcases h.lookup key with ⟨p, s₁, hrun, h₁, -, hsame, hp, hname, hkey⟩ |
      ⟨s₁, hrun, h₁, -, hsame, hkey⟩
    · obtain ⟨hfirst₁, hentries, -, hheap, hperm⟩ := h.lookup_room hfirst hrun
      have hcontent : s₁.content p = s.content p := by simp only [content, hentries, hheap]
      by_cases htype : (s₁.entries p).type = .zset
      · have hentry : MiniRedis.zaddEntry s key = .ok (some p, s₁) := by simp [MiniRedis.zaddEntry, hrun, htype]
        refine zcmdAdd_of_entry hscore hentry ?_
        obtain ⟨t, ht⟩ := h₁.zsets p hp
        have hset := ht.insert_outcome (hfirst₁.zsets p) name score
        have hiff : (s₁.entries p).zset.scoreOf name = none ∧
              (hmSize (s₁.entries p).zset.hmap = tableRoom ∨
                (s₁.entries p).zset.next = addressSpace) ↔
            s.contents key = none ∧ s.NoRoomForKey ∨
              ∃ q ∈ s.refs, (s.entries q).key = key ∧ (s.content q).isZset = true ∧
                (s.content q).scores name = none ∧ s.NoRoomForMember q := by
          rw [← h₁.numMembers_eq hp, hcontent, hentries]
          constructor
          · rintro ⟨hnone, hfull⟩
            refine .inr ⟨p, hperm.mem_iff.mp hp, hentries ▸ hname, ?_, hnone, hfull⟩
            rw [← hcontent]
            simp [content, htype]
          · rintro (⟨hnone, -⟩ | ⟨q, hq, hqkey, -, hnone, hfull⟩)
            · cases hkey.symm.trans hnone
            · obtain rfl : q = p :=
                List.inj_on_of_nodup_map h.keys hq (hperm.mem_iff.mp hp)
                  (hqkey.trans (hentries ▸ hname).symm)
              exact ⟨hnone, hfull⟩
        rwa [hiff] at hset
      · have hentry : MiniRedis.zaddEntry s key = .ok (none, s₁) := by simp [MiniRedis.zaddEntry, hrun, htype]
        refine .of_ok ?_ ⟨_, by simp only [MiniRedis.zcmdAdd, hscore, hentry, ok_bind]; rfl⟩
        rintro (⟨hnone, -⟩ | ⟨q, hq, hqkey, hz, -⟩)
        · cases hkey.symm.trans hnone
        · obtain rfl : q = p :=
            List.inj_on_of_nodup_map h.keys hq (hperm.mem_iff.mp hp)
              (hqkey.trans (hentries ▸ hname).symm)
          rw [← hcontent] at hz
          simp [content, htype] at hz
    · obtain ⟨hfirst₁, -, hnext, -⟩ := h.lookup_room hfirst hrun
      have hiff : s₁.NoRoomForKey ↔ s.contents key = none ∧ s.NoRoomForKey ∨
          ∃ q ∈ s.refs, (s.entries q).key = key ∧ (s.content q).isZset = true ∧
            (s.content q).scores name = none ∧ s.NoRoomForMember q := by
        rw [NoRoomForKey, hsame, hnext, ← NoRoomForKey]
        refine ⟨fun hfull => .inl ⟨hkey, hfull⟩, ?_⟩
        rintro (⟨-, hfull⟩ | ⟨q, hq, rfl, -⟩)
        · exact hfull
        · cases hkey.symm.trans (h.contents_of_mem hq)
      rw [← hiff]
      rcases h₁.addEntry_outcome hfirst₁ (hsame ▸ hkey) .zset [] with
        ⟨hfree, s₂, s₃, hnew, hins, h₃, hp, hzset⟩ | ⟨hfull, ⟨s₂, hnew, hins⟩ | hnew⟩
      · have hentry : MiniRedis.zaddEntry s key = .ok (some s₁.next, s₃) := by
          simp only [MiniRedis.zaddEntry, hrun, ok_bind, hnew, hins, pure_eq_ok]
        refine zcmdAdd_of_entry hscore hentry ?_
        -- A new set has room for its first member.
        have hset := ZSet.WF.empty.insert_outcome HMap.FirstTable.empty name score
        have hfits : ¬ ((ZSet.empty : ZSet Double).scoreOf name = none ∧
            (hmSize (ZSet.empty : ZSet Double).hmap = tableRoom ∨
              (ZSet.empty : ZSet Double).next = addressSpace)) := by
          rintro ⟨-, hfull | hlast⟩
          · cases hfull
          · cases hlast
        rw [hzset]
        rwa [iff_false_intro hfits, ← iff_false_intro hfree] at hset
      · refine .of_error hfull (e := .assertion .hInitSize) trivial ?_
        simp only [MiniRedis.zcmdAdd, hscore, MiniRedis.zaddEntry, hrun, ok_bind, hnew, hins, error_bind]
      · refine .of_error hfull (e := .badAlloc) trivial ?_
        simp only [MiniRedis.zcmdAdd, hscore, MiniRedis.zaddEntry, hrun, ok_bind, hnew, error_bind]

/-! ## The other requests -/

theorem getKey_total (h : s.WF) (hfit : StoredFit s.contents) (key resp : Bytes) :
    ∃ r, MiniRedis.getKey s key resp = .ok r := by
  obtain ⟨s₁, -, -, -, hrun⟩ := h.getKey_eq key resp
  rw [hrun]
  cases hkey : s.contents key with
  | none => exact ⟨_, rfl⟩
  | some x => exact ⟨_, if_pos (Nat.le_trans (Nat.le_add_right _ _) (hfit key x hkey).value)⟩

theorem delKey_total (h : s.WF) (now : UInt64) (key resp : Bytes) :
    ∃ r, MiniRedis.delKey now s key resp = .ok r := by
  obtain ⟨found, db, hrun, hdb, -, hsome, -⟩ := h.db.hmDelete (h.searches key)
  simp only [MiniRedis.delKey, hrun, ok_bind]
  cases found with
  | none => exact ⟨_, rfl⟩
  | some n =>
    obtain ⟨s', hdel, -⟩ := h.removeEntry (hsome n rfl) hdb now
    exact ⟨(s', outInt resp 1), by simp only [hdel, ok_bind, pure_eq_ok]⟩

theorem setTtlMs_total (h : s.WF) (now : UInt64) (key ttl resp : Bytes) :
    ∃ r, MiniRedis.setTtlMs now s key ttl resp = .ok r := by
  unfold MiniRedis.setTtlMs
  cases str2int ttl with
  | none => exact ⟨_, rfl⟩
  | some ttlMs =>
    rcases h.lookup key with ⟨p, s₁, hrun, h₁, -, -, hp, -, -⟩ | ⟨s₁, hrun, -⟩
    · simp only [hrun, ok_bind]
      by_cases hneg : ttlMs < 0
      · obtain ⟨heap, hclear, -⟩ := clearTtl h₁.heap hp now _ hneg
        exact ⟨_, by rw [hclear]; rfl⟩
      · obtain ⟨s', hset, -⟩ := h₁.setTtl hp now (Int.not_lt.mp hneg)
        exact ⟨_, by rw [hset]; rfl⟩
    · exact ⟨_, by rw [hrun]; rfl⟩

theorem allKeys_total (h : s.WF) (resp : Bytes) : ∃ r, MiniRedis.allKeys s resp = .ok r := by
  have hrun := h.db.toTablesWF.hmForeach_of_true (f := cbKeys s) (fun _ _ => rfl)
    (outArr resp (.ofNat (hmSize s.db)))
  exact ⟨_, by rw [MiniRedis.allKeys, hrun]; rfl⟩

theorem zcmdScore_total (h : s.WF) (key name resp : Bytes) :
    ∃ r, MiniRedis.zcmdScore s key name resp = .ok r := by
  rcases h.expectZset key with ⟨p, s₁, hrun, h₁, -, -, hp, -⟩ | ⟨s₁, hrun, -⟩ | ⟨s₁, hrun, -⟩
  · obtain ⟨found, zset, t, hlookup, -⟩ := h₁.lookupMember hp name
    simp only [MiniRedis.zcmdScore, hrun, ok_bind, hlookup]
    cases found with
    | none => exact ⟨_, rfl⟩
    | some q => exact ⟨_, rfl⟩
  · exact ⟨_, by rw [MiniRedis.zcmdScore, hrun]; rfl⟩
  · exact ⟨_, by rw [MiniRedis.zcmdScore, hrun]; rfl⟩

theorem zcmdRemove_total (h : s.WF) (key name resp : Bytes) :
    ∃ r, MiniRedis.zcmdRemove s key name resp = .ok r := by
  rcases h.expectZset key with ⟨p, s₁, hrun, h₁, -, -, hp, -⟩ | ⟨s₁, hrun, -⟩ | ⟨s₁, hrun, -⟩
  · obtain ⟨found, zset, t, hlookup, hz, hfound, -⟩ := h₁.lookupMember hp name
    simp only [MiniRedis.zcmdRemove, hrun, ok_bind, hlookup]
    cases found with
    | none => exact ⟨_, rfl⟩
    | some q =>
      obtain ⟨z', t', hdel, -⟩ := hz.delete ((hfound q).mp rfl).1
      exact ⟨(s₁.setZset p z', outInt resp 1), by simp only [hdel, ok_bind, pure_eq_ok]⟩
  · exact ⟨_, by rw [MiniRedis.zcmdRemove, hrun]; rfl⟩
  · exact ⟨_, by rw [MiniRedis.zcmdRemove, hrun]; rfl⟩

theorem zcmdQuery_total (h : s.WF) (hfirst : s.FirstTables)
    (key score name offset limit resp : Bytes) :
    ∃ r, MiniRedis.zcmdQuery s key score name offset limit resp = .ok r := by
  unfold MiniRedis.zcmdQuery
  cases str2dbl score with
  | none => exact ⟨_, rfl⟩
  | some score =>
    cases str2int offset with
    | none => exact ⟨_, rfl⟩
    | some offset =>
      cases str2int limit with
      | none => exact ⟨_, rfl⟩
      | some limit =>
        rcases h.expectZset key with ⟨p, s₁, hrun, h₁, -, -, hp, -, -, -, -, hentries⟩ |
          ⟨s₁, hrun, -⟩ | ⟨s₁, hrun, -⟩
        · obtain ⟨t, ht⟩ := h₁.zsets p hp
          have hn : t.numNodes < 2 ^ 32 := by
            rw [numNodes_eq ht, hentries]
            exact Nat.lt_trans (hfirst.zsets p).room (by decide)
          simp only [hrun, ok_bind, ht.queryZset hn, pure_eq_ok]
          exact ⟨_, rfl⟩
        · simp only [hrun, ok_bind, ZSet.WF.empty.queryZset (Nat.two_pow_pos 32), pure_eq_ok]
          exact ⟨_, rfl⟩
        · simp only [hrun, ok_bind, pure_eq_ok]
          exact ⟨_, rfl⟩

/-- A request stops the server exactly if it lacks room. -/
theorem runRequest_outcome (h : s.WF) (hfirst : s.FirstTables) (hfit : StoredFit s.contents)
    (now : UInt64) (cmd : List Bytes) (resp : Bytes) :
    StopsIff ((Request.ofCmd cmd).LacksRoom s) (MiniRedis.runRequest now s cmd resp) := by
  unfold MiniRedis.runRequest
  cases Request.ofCmd cmd with
  | ping | unknown => exact .of_ok id ⟨_, rfl⟩
  | get key => exact .of_ok id (h.getKey_total hfit key resp)
  | set key value => exact h.setKey_outcome hfirst key value resp
  | del key => exact .of_ok id (h.delKey_total now key resp)
  | keys => exact .of_ok id (h.allKeys_total resp)
  | zadd key score name => exact h.zcmdAdd_outcome hfirst key score name resp
  | zrem key name => exact .of_ok id (h.zcmdRemove_total key name resp)
  | zscore key name => exact .of_ok id (h.zcmdScore_total key name resp)
  | zquery key score name offset limit =>
    exact .of_ok id (h.zcmdQuery_total hfirst key score name offset limit resp)
  | pttl key =>
    obtain ⟨s₁, hrun, -⟩ := h.getTtlMs_eq now key resp
    exact .of_ok id ⟨_, hrun⟩
  | pexpire key ttl => exact .of_ok id (h.setTtlMs_total now key ttl resp)

end ServerData.WF

/-! ## Frames -/

/-- What the server never gives up. -/
structure ServerData.Within (s : ServerData) : Prop where
  wf : s.WF
  first : s.FirstTables
  fit : StoredFit s.contents

theorem ServerData.Within.empty : ({} : ServerData).Within :=
  ⟨.empty, .empty, by rintro k x ⟨⟩⟩

/-- The frame holds a request that lacks room. -/
def FrameOp.LacksRoom (s : ServerData) : FrameOp → Prop
  | .frame _ conn => ∃ request rest cmd, nextFrame? kMaxMsg conn.incoming = some (request, rest) ∧
      parseRequest request = some cmd ∧ (Request.ofCmd cmd).LacksRoom s
  | .timers _ => False

section
variable {s s' : ServerData} {conn conn' : Connection}

theorem FrameOp.apply_firstTables {op : FrameOp} (h : s.FirstTables) (hrun : op.apply s = .ok s') :
    s'.FirstTables := by
  cases op with
  | timers now => exact h.changes (ServerData.expireLoop_changes hrun)
  | frame now conn =>
    obtain ⟨⟨more, s₁, conn'⟩, hone, hret⟩ := bind_eq_ok.mp hrun
    cases hret
    refine handleOneRequest_invariant ?_ h hone
    intro now s cmd s' value h hreq
    exact h.changes (ServerData.runRequest_changes hreq)

theorem ServerData.Within.step {op : FrameOp} (h : s.Within) (hrun : op.apply s = .ok s') :
    s'.Within := by
  obtain ⟨hwf, hfit⟩ := StoredFit.step ⟨h.wf, h.fit⟩ hrun
  exact ⟨hwf, op.apply_firstTables h.first hrun, hfit⟩

theorem ServerData.Within.respond_outcome (h : s.Within) (now : UInt64) (request : Bytes) :
    StopsIff (∃ cmd, parseRequest request = some cmd ∧ (Request.ofCmd cmd).LacksRoom s)
      (respond now s request) := by
  unfold respond
  cases hparse : parseRequest request with
  | none => exact .of_ok (fun ⟨_, hnone, _⟩ => nomatch hnone) ⟨_, rfl⟩
  | some cmd =>
    have hsome : (∃ cmd', some cmd = some cmd' ∧ (Request.ofCmd cmd').LacksRoom s) ↔
        (Request.ofCmd cmd).LacksRoom s := by simp
    rw [hsome]
    exact (h.wf.runRequest_outcome h.first h.fit now cmd []).bind fun _ => ⟨_, rfl⟩

theorem FrameOp.apply_of_none (h : nextFrame? kMaxMsg conn.incoming = none) (now : UInt64) :
    (FrameOp.frame now conn).apply s = .ok s := by
  obtain ⟨wantClose, hone⟩ := handleOneRequest_of_none h now s
  rw [FrameOp.apply, hone]
  rfl

theorem FrameOp.apply_of_frame {request rest : Bytes}
    (h : nextFrame? kMaxMsg conn.incoming = some (request, rest)) (now : UInt64) :
    (FrameOp.frame now conn).apply s = (respond now s request).map Prod.fst := by
  rw [FrameOp.apply, handleOneRequest_of_frame h]
  cases respond now s request with
  | error e => rfl
  | ok r => rfl

theorem ServerData.Within.apply_outcome (h : s.Within) (op : FrameOp) :
    StopsIff (op.LacksRoom s) (op.apply s) := by
  cases op with
  | timers now =>
    obtain ⟨s', ks, hrun, -⟩ := h.wf.expireLoop now kMaxWorks
    exact .of_ok id ⟨s', hrun⟩
  | frame now conn =>
    cases hframe : nextFrame? kMaxMsg conn.incoming with
    | none =>
      refine .of_ok ?_ ⟨s, FrameOp.apply_of_none hframe now⟩
      rintro ⟨_, _, _, hsome, -⟩
      cases hframe.symm.trans hsome
    | some r =>
      obtain ⟨request, rest⟩ := r
      have hresp := h.respond_outcome now request
      have hsome : (FrameOp.frame now conn).LacksRoom s ↔
          ∃ cmd, parseRequest request = some cmd ∧ (Request.ofCmd cmd).LacksRoom s := by
        simp [FrameOp.LacksRoom, hframe]
      rw [hsome, FrameOp.apply_of_frame hframe]
      cases hrun : respond now s request with
      | error e =>
        rw [hrun] at hresp
        exact hresp
      | ok r =>
        rw [hrun] at hresp
        exact .of_ok hresp ⟨r.1, rfl⟩

theorem ServerData.Within.run {ops : List FrameOp} (h : s.Within)
    (hrun : runSteps FrameOp.apply s ops = .ok s') : s'.Within :=
  runSteps_invariant (motive := ServerData.Within) (fun _ _ h _ hstep => h.step hstep) h hrun

/-! ## A connection -/

/-- A frame with the request, and nothing else. -/
def framed (now : UInt64) (request : Bytes) : FrameOp :=
  .frame now { incoming := frame request }

/-- The frames that a call of `handle_read` executes. -/
def ReadResult.frames (clock : Nat → UInt64) (conn : Connection) : ReadResult → List FrameOp
  | .data chunk =>
    (splitFrames kMaxMsg (conn.incoming ++ chunk)).1.mapIdx fun i => framed (clock i)
  | .again | .failed | .eof => []

/-- The frames that are executed when a descriptor is ready. -/
def Event.frames (e : Event) (conn : Connection) : List FrameOp :=
  if e.revents &&& pollIn ≠ 0 ∧ conn.wantRead then e.read.frames e.clock conn else []

theorem apply_framed {request : Bytes} (hlen : request.length ≤ kMaxMsg) (now : UInt64)
    (s : ServerData) : (framed now request).apply s = (respond now s request).map Prod.fst := by
  have hframe : nextFrame? kMaxMsg (frame request) = some (request, []) :=
    (nextFrame?_eq_some kMaxMsg_lt).mpr ⟨(List.append_nil _).symm, hlen⟩
  exact FrameOp.apply_of_frame hframe now

/-- The loop over the requests executes the complete frames, one after another. -/
theorem handleRequests_frames {fuel : Nat} (conn : Connection) (hfuel : conn.incoming.length < fuel)
    (clock : Nat → UInt64) (s : ServerData) :
    (handleRequests fuel clock s conn).map Prod.fst = runSteps FrameOp.apply s
      ((splitFrames kMaxMsg conn.incoming).1.mapIdx fun i => framed (clock i)) := by
  induction fuel generalizing clock s conn with
  | zero => exact absurd hfuel (Nat.not_lt_zero _)
  | succ fuel ih =>
    unfold handleRequests
    cases hnext : nextFrame? kMaxMsg conn.incoming with
    | none =>
      obtain ⟨wantClose, hone⟩ := handleOneRequest_of_none hnext (clock 0) s
      rw [splitFrames_of_none hnext, hone]
      rfl
    | some r =>
      obtain ⟨request, rest⟩ := r
      have hlen := ((nextFrame?_eq_some kMaxMsg_lt).mp hnext).2
      have happly := apply_framed hlen (clock 0) s
      have hlt := nextFrame?_length hnext
      rw [splitFrames_of_some hnext, List.mapIdx_cons, handleOneRequest_of_frame hnext]
      cases hrespond : respond (clock 0) s request with
      | error e =>
        rw [hrespond] at happly
        rw [runSteps_cons_error happly]
        rfl
      | ok r =>
        rw [hrespond] at happly
        rw [runSteps_cons_ok happly]
        exact ih _ (Nat.lt_of_lt_of_le hlt (Nat.le_of_lt_succ hfuel)) (fun i => clock (i + 1)) r.1

theorem handleRead_frames (clock : Nat → UInt64) (s : ServerData) (conn : Connection) (rv : ReadResult)
    (write : Bytes → WriteResult) :
    (handleRead clock s conn rv write).map Prod.fst = runSteps FrameOp.apply s (rv.frames clock conn) := by
  cases rv with
  | again | failed | eof => rfl
  | data chunk =>
    rw [ReadResult.frames, ← handleRequests_frames { conn with incoming := conn.incoming ++ chunk }
      (Nat.lt_succ_self _) clock s]
    simp only [handleRead]
    cases handleRequests ((conn.incoming ++ chunk).length + 1) clock s
        { conn with incoming := conn.incoming ++ chunk } with
    | error e => rfl
    | ok r =>
      obtain ⟨s₁, conn₁⟩ := r
      simp only [ok_bind]
      split
      · next hsome =>
        obtain ⟨⟨conn₂, written⟩, hout⟩ := handleWrite_total
          { conn₁ with wantRead := false, wantWrite := true } (write conn₁.outgoing) (by simpa using hsome)
        simp only [hout, ok_bind]
        rfl
      · rfl

theorem handleReadReady_frames (e : Event) (s : ServerData) (conn : Connection) :
    (handleReadReady e s conn).map Prod.fst = runSteps FrameOp.apply s (e.frames conn) := by
  unfold handleReadReady Event.frames
  split
  · rw [← handleRead_frames e.clock s conn e.read e.writeAfterRead]
    cases handleRead e.clock s conn e.read e.writeAfterRead with
    | error fault => rfl
    | ok r => rfl
  · rfl

end

/-! ## The loop -/

/-- The calls for a descriptor that is ready execute its frames, and stop only where a frame does. -/
theorem Server.Registered.handleEvent_frames {s : Server} {ps : List CPtr} {e : Event} {p : CPtr}
    {conn : ClientConn} (h : s.Registered ps) (hrecent : s.Recent e.now) (hintents : s.IntentsMatch)
    (hconn : s.conns p = some conn) :
    (MiniRedis.handleEvent e conn.socketFd s).map Server.data =
      runSteps FrameOp.apply s.data (e.frames conn.toConnection) := by
  rw [← handleReadReady_frames]
  unfold MiniRedis.handleEvent
  split
  · next hquiet =>
    unfold handleReadReady
    rw [if_neg fun hready => hready.1 (by rw [hquiet, UInt32.zero_and])]
    rfl
  obtain ⟨as, bs, rfl⟩ := List.append_of_mem ((h.live p).mpr ⟨conn, hconn⟩)
  obtain ⟨detached, idle, hdetach, hinsert, hmoved⟩ := h.refresh (p := p) hrecent
  have hslot := (h.slots conn.socketFd p).mpr ⟨conn, hconn, rfl⟩
  simp only [index_eq_ok.mpr hslot, ok_bind, deref_some, hconn, hdetach, hinsert]
  cases hread : handleReadReady e s.data conn.toConnection with
  | error fault => rfl
  | ok r =>
    obtain ⟨data, conn₁⟩ := r
    obtain ⟨conn₂, hwrite, -⟩ := ((hintents p conn hconn).handleReadReady hread).handleWriteReady e
    simp only [hwrite, ok_bind]
    split
    · obtain ⟨s', hdestroy, -, -, hsame, -⟩ := (hmoved conn
        { conn with toConnection := conn₂, lastActivityMs := e.now } data hconn rfl rfl).handleDestroy
      rw [hdestroy]
      exact congrArg Except.ok hsame
    · rfl

/-- One step of the loop. -/
theorem Loop.Consistent.within_step {l l' : Loop} {ps : List CPtr} (h : l.Consistent ps)
    (hintents : l.server.IntentsMatch) (hdata : l.server.data.Within) (hstep : l.Step l') :
    l'.server.data.Within := by
  cases hstep with
  | poll hrun => exact hdata
  | interrupted => exact hdata
  | noAccept => exact hdata
  | @accept _ _ accepted s _ _ htime hfd hrun =>
    cases accepted with
    | none =>
      cases hrun
      exact hdata
    | some fd =>
      obtain ⟨s₁, conn, hok, -, -, -, -, hsame⟩ :=
        h.server.registered.handleAccept (h.recent.mono htime) (hfd fd rfl)
      cases hok.symm.trans hrun
      exact hsame ▸ hdata
  | @event t e fd s s' polled htime hrun =>
    obtain ⟨p, conn, hconn, rfl⟩ := h.serves fd List.mem_cons_self
    have hrun' := h.server.registered.handleEvent_frames (h.recent.mono htime) hintents hconn
    rw [hrun] at hrun'
    exact hdata.run hrun'.symm
  | @timers t now s s' htime hrun =>
    obtain ⟨s₁, hclose, hrun⟩ := bind_eq_ok.mp hrun
    obtain ⟨data, hexpire, hret⟩ := bind_eq_ok.mp hrun
    cases hret
    obtain ⟨s₂, as, bs, hclose', -, -, -, hsame, -⟩ := h.server.registered.closeIdle
      (Nat.lt_succ_of_le h.server.registered.length_le) now
    cases hclose'.symm.trans hclose
    rw [hsame] at hexpire
    have hrun' : (FrameOp.timers now).apply s.data = .ok data := hexpire
    exact hdata.step hrun'

theorem Loop.within_run {listenFd : Nat} {l : Loop}
    (hrun : Relation.ReflTransGen Loop.Step (Loop.init listenFd) l) : l.server.data.Within := by
  induction hrun with
  | refl => exact .empty
  | tail hrun hstep ih =>
    obtain ⟨ps, h⟩ := Loop.consistent_run hrun
    exact h.within_step (Loop.intentsMatch_run hrun) ih hstep

/-! ## What follows -/

/-- There is no deadline without a key. -/
theorem ServerData.FirstTables.items_le {s : ServerData} (hfirst : s.FirstTables) (h : s.WF) :
    s.heap.items.length ≤ tableRoom := by
  have hitems : s.heap.items.length ≤ hmSize s.db := by
    rw [h.db.toTablesWF.hmSize, ← List.length_map (f := HNode.ref), ← List.length_map (f := HeapItem.ref)]
    refine (List.subperm_of_subset h.heap.refs fun p hp => ?_).length_le
    obtain ⟨item, hitem, rfl⟩ := List.mem_map.mp hp
    exact h.heap.owned item hitem
  exact Nat.le_trans hitems (Nat.le_of_lt_succ hfirst.db.room)

/-- **Tables never grow.** In every state that the loop reaches there are at most 31 keys and at most 31
members in each set. No map has ever migrated a node, nothing was ever given to the thread pool, and one
call of `process_timers` leaves no expired key. -/
theorem tables_never_grow {listenFd : Nat} {l : Loop}
    (hrun : Relation.ReflTransGen Loop.Step (Loop.init listenFd) l) :
    numKeys l.server.data.contents ≤ tableRoom ∧
    (∀ key x, l.server.data.contents key = some x → x.numMembers ≤ tableRoom) ∧
    l.server.data.heap.items.length ≤ tableRoom ∧
    l.server.data.db.older.tab = none ∧
    (∀ p, (l.server.data.entries p).zset.hmap.older.tab = none) ∧
    l.server.data.queue = [] ∧
    ∀ now, ∃ s', processTimers now l.server = .ok s' ∧ s'.data.expired now = ∅ := by
  obtain ⟨ps, h⟩ := Loop.consistent_run hrun
  have hdata := Loop.within_run hrun
  have hkeys : hmSize l.server.data.db ≤ tableRoom := Nat.le_of_lt_succ hdata.first.db.room
  have hitems := hdata.first.items_le hdata.wf
  refine ⟨by rwa [hdata.wf.numKeys_eq], fun key x hx => ?_, hitems,
    hdata.first.db.olderNone, fun p => (hdata.first.zsets p).olderNone, hdata.first.queue,
    fun now => ?_⟩
  · obtain ⟨p, hp, -, rfl⟩ := (valueOf_eq_some hdata.wf.keys).mp hx
    rw [hdata.wf.numMembers_eq hp]
    exact Nat.le_of_lt_succ (hdata.first.zsets p).room
  · obtain ⟨s', ps', items, hcall, h', -, -, -, hdue⟩ := h.server.timers_dueItems now
    refine ⟨s', hcall, h'.data.expired_eq_empty ?_⟩
    have hcount : l.server.data.dueItems now ≤ l.server.data.heap.items.length :=
      List.countP_le_length
    rw [hdue, Nat.sub_eq_zero_iff_le]
    exact Nat.le_trans hcount (Nat.le_trans hitems (by decide))

/-- A key with a deadline, and a call after it. -/
theorem tables_never_grow_longTtl :
    ∃ s s', longTtlServer = .ok s ∧ s.data.refs = [0] ∧ numKeys s.data.contents ≤ 31 ∧
      s.data.queue = [] ∧ processTimers 4000000000 s = .ok s' ∧ s'.data.expired 4000000000 = ∅ := by
  obtain ⟨s, hs⟩ : ∃ s, longTtlServer = .ok s := ⟨_, rfl⟩
  have hrefs : s.data.refs = [0] := eq_of_toOption_map (f := fun s => s.data.refs) hs (by decide +kernel)
  obtain ⟨hkeys, -, -, -, -, hqueue, htimers⟩ := tables_never_grow (reaches_longTtl hs)
  obtain ⟨s', hs', hnone⟩ := htimers 4000000000
  exact ⟨s, s', hs, hrefs, hkeys, hqueue, hs', hnone⟩

end MiniRedis
