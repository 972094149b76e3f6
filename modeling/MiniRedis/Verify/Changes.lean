import Mathlib.Logic.Relation
import MiniRedis.Model.Commands
import MiniRedis.Verify.HashMap

/-! # What requests and timers write

A request and a call of `process_timers` are sequences of a few kinds of writes to the server data
(`ServerData.Change`). An invariant of the server data is proved for each kind, and then it holds after
every request and every call (`Changes.keeps`). All but `zadd` are quiet: they add nothing to a set. -/

namespace MiniRedis

/-- The calls that the handlers make on a set. -/
inductive ZOp where
  | lookup (name : Bytes)
  | insert (name : Bytes) (score : Double)
  | remove (name : Bytes)

def ZOp.apply (zset : ZSet Double) : ZOp → Result (ZSet Double)
  | .lookup name => return (← zsetLookup zset name).2
  | .insert name score => return (← zsetInsert zset name score).2
  | .remove name => do
    match ← zsetLookup zset name with
    | (some p, zset) => zsetDelete zset p
    | (none, zset) => return zset

/-- Adds no member to a set. -/
def ZOp.Quiet : ZOp → Prop
  | .insert _ _ => False
  | .lookup _ | .remove _ => True

namespace ServerData

/-- The number of members that `entry_del` looks at. -/
def containerSize (s : ServerData) (p : EPtr) : Nat :=
  if (s.entries p).type = .zset then hmSize (s.entries p).zset.hmap else 0

/-- One write, where only some calls on sets are allowed. -/
inductive Change (allowed : ZOp → Prop) : ServerData → ServerData → Prop where
  | db {κ : Type} {s : ServerData} {db : HMap EPtr} (op : HOp EPtr κ)
      (hrun : op.apply s.db = .ok db) : Change allowed s { s with db }
  | new (hrun : entryNew s type key value = .ok (p, s')) : Change allowed s s'
  | heap (heap : Heap EPtr) : Change allowed s { s with heap }
  | value (p : EPtr) (value : Bytes) :
      Change allowed s { s with entries := Function.update s.entries p { s.entries p with value } }
  | zset (p : EPtr) (op : ZOp) (hop : allowed op) (htype : (s.entries p).type = .zset)
      (hrun : op.apply (s.entries p).zset = .ok zset) : Change allowed s (s.setZset p zset)
  | warn (w : Warning) : Change allowed s { s with warnings := s.warnings ++ [w] }
  | free (hsmall : s.containerSize p ≤ kLargeContainerSize) (hrun : entryDelSync s p = .ok s') :
      Change allowed s s'
  | enqueue (p : EPtr) (hlarge : kLargeContainerSize < s.containerSize p) :
      Change allowed s { s with queue := s.queue ++ [p] }

/-- Any number of writes. -/
abbrev ChangesBy (allowed : ZOp → Prop) : ServerData → ServerData → Prop :=
  Relation.ReflTransGen (Change allowed)

abbrev Changes : ServerData → ServerData → Prop := ChangesBy fun _ => True

abbrev QuietChanges : ServerData → ServerData → Prop := ChangesBy ZOp.Quiet

variable {s s₁ s' : ServerData} {now : UInt64} {p : EPtr} {key resp resp' : Bytes}

theorem Change.of_quiet (h : Change ZOp.Quiet s s') : Change (fun _ => True) s s' := by
  cases h with
  | db op hrun => exact .db op hrun
  | new hrun => exact .new hrun
  | heap heap => exact .heap heap
  | value p value => exact .value p value
  | zset p op _ htype hrun => exact .zset p op trivial htype hrun
  | warn w => exact .warn w
  | free hsmall hrun => exact .free hsmall hrun
  | enqueue p hlarge => exact .enqueue p hlarge

theorem QuietChanges.changes (h : s.QuietChanges s') : s.Changes s' :=
  Relation.ReflTransGen.mono (fun _ _ => Change.of_quiet) _ _ h

/-! ## The functions that the handlers share -/

theorem dbLookup_changes {found : Option EPtr} (hrun : dbLookup s key = .ok (found, s')) :
    s.QuietChanges s' := by
  obtain ⟨⟨node, db⟩, hlookup, hret⟩ := bind_eq_ok.mp hrun
  cases hret
  refine .single (.db (.lookup { ref := key, hashCode := stringHash key } (entryEquals s)) ?_)
  simp only [HOp.apply, hlookup, ok_bind, pure_eq_ok]

theorem dbInsert_changes (hrun : dbInsert s p = .ok s') : s.QuietChanges s' := by
  obtain ⟨db, hinsert, hret⟩ := bind_eq_ok.mp hrun
  cases hret
  exact .single (.db (κ := Bytes) (.insert { ref := p, hashCode := (s.entries p).hashCode }) hinsert)

theorem entrySetTtl_changes {ttlMs : Int} (hrun : entrySetTtl now s p ttlMs = .ok s') :
    s.QuietChanges s' := by
  unfold entrySetTtl at hrun
  split at hrun
  · obtain ⟨heap, -, hret⟩ := bind_eq_ok.mp hrun
    cases hret
    exact .single (.heap _)
  · split at hrun
    · obtain ⟨heap, -, hret⟩ := bind_eq_ok.mp hrun
      cases hret
      exact .single (.heap heap)
    · cases hrun
      exact .refl

theorem entryDel_changes (hrun : entryDel now s p = .ok s') : s.QuietChanges s' := by
  obtain ⟨s₁, httl, hrun⟩ := bind_eq_ok.mp hrun
  refine (entrySetTtl_changes httl).trans ?_
  change (if s₁.containerSize p > kLargeContainerSize then _ else _) = _ at hrun
  split at hrun
  · next hlarge =>
    cases hrun
    exact .single (.enqueue p hlarge)
  · next hsmall => exact .single (.free (Nat.not_lt.mp hsmall) hrun)

/-- The creation of a missing entry. -/
theorem addEntry_changes {type : ValueType} {value : Bytes}
    (hnew : entryNew s type key value = .ok (p, s₁)) (hinsert : dbInsert s₁ p = .ok s') :
    s.QuietChanges s' :=
  (Relation.ReflTransGen.single (.new hnew)).trans (dbInsert_changes hinsert)

theorem expectZset_changes {found : ExpectedZSet} (hrun : expectZset s key = .ok (found, s')) :
    s.QuietChanges s' ∧ ∀ p, found = .entry p → (s'.entries p).type = .zset := by
  obtain ⟨⟨found, s₁⟩, hlookup, hrun⟩ := bind_eq_ok.mp hrun
  cases found with
  | none =>
    cases hrun
    exact ⟨dbLookup_changes hlookup, nofun⟩
  | some p =>
    cases hrun
    refine ⟨dbLookup_changes hlookup, ?_⟩
    intro q hq
    split at hq
    · next htype =>
      cases hq
      exact htype
    · cases hq

theorem zaddEntry_changes {found : Option EPtr} (hrun : zaddEntry s key = .ok (found, s')) :
    s.QuietChanges s' ∧ ∀ p, found = some p → (s'.entries p).type = .zset := by
  obtain ⟨⟨found, s₁⟩, hlookup, hrun⟩ := bind_eq_ok.mp hrun
  cases found with
  | none =>
    obtain ⟨⟨p, s₂⟩, hnew, hrun⟩ := bind_eq_ok.mp hrun
    obtain ⟨s₃, hinsert, hret⟩ := bind_eq_ok.mp hrun
    cases hret
    refine ⟨(dbLookup_changes hlookup).trans (addEntry_changes hnew hinsert), ?_⟩
    intro q hq
    cases hq
    obtain ⟨db, -, hret⟩ := bind_eq_ok.mp hinsert
    cases hret
    simp only [entryNew] at hnew
    split at hnew
    · cases hnew
      simp only [Function.update_self]
    · cases hnew
  | some p =>
    cases hrun
    refine ⟨dbLookup_changes hlookup, ?_⟩
    intro q hq
    split at hq
    · next htype =>
      cases hq
      exact htype
    · cases hq

/-! ## The handlers -/

theorem setKey_changes {value : Bytes} (hrun : setKey s key value resp = .ok (s', resp')) :
    s.QuietChanges s' := by
  obtain ⟨⟨found, s₁⟩, hlookup, hrun⟩ := bind_eq_ok.mp hrun
  refine (dbLookup_changes hlookup).trans ?_
  cases found with
  | some p =>
    cases hrun
    exact .single (.value p value)
  | none =>
    obtain ⟨⟨p, s₂⟩, hnew, hrun⟩ := bind_eq_ok.mp hrun
    obtain ⟨s₃, hinsert, hret⟩ := bind_eq_ok.mp hrun
    cases hret
    exact addEntry_changes hnew hinsert

theorem getKey_changes (hrun : getKey s key resp = .ok (s', resp')) : s.QuietChanges s' := by
  obtain ⟨⟨found, s₁⟩, hlookup, hrun⟩ := bind_eq_ok.mp hrun
  refine (dbLookup_changes hlookup).trans ?_
  cases found with
  | none =>
    cases hrun
    exact .refl
  | some p =>
    obtain ⟨_, -, hret⟩ := bind_eq_ok.mp hrun
    cases hret
    exact .refl

theorem delKey_changes (hrun : delKey now s key resp = .ok (s', resp')) : s.QuietChanges s' := by
  obtain ⟨⟨node, db⟩, hdelete, hrun⟩ := bind_eq_ok.mp hrun
  have hdb : Change ZOp.Quiet s { s with db } := by
    refine .db (.delete { ref := key, hashCode := stringHash key } (entryEquals s)) ?_
    simp only [HOp.apply, hdelete, ok_bind, pure_eq_ok]
  refine (Relation.ReflTransGen.single hdb).trans ?_
  cases node with
  | none =>
    cases hrun
    exact .refl
  | some node =>
    obtain ⟨s₁, hdel, hret⟩ := bind_eq_ok.mp hrun
    cases hret
    exact entryDel_changes hdel

theorem setTtlMs_changes {ttl : Bytes} (hrun : setTtlMs now s key ttl resp = .ok (s', resp')) :
    s.QuietChanges s' := by
  unfold setTtlMs at hrun
  split at hrun
  · cases hrun
    exact .refl
  · obtain ⟨⟨found, s₁⟩, hlookup, hrun⟩ := bind_eq_ok.mp hrun
    refine (dbLookup_changes hlookup).trans ?_
    cases found with
    | none =>
      cases hrun
      exact .refl
    | some p =>
      obtain ⟨s₂, httl, hret⟩ := bind_eq_ok.mp hrun
      cases hret
      exact entrySetTtl_changes httl

theorem getTtlMs_changes (hrun : getTtlMs now s key resp = .ok (s', resp')) : s.QuietChanges s' := by
  obtain ⟨⟨found, s₁⟩, hlookup, hrun⟩ := bind_eq_ok.mp hrun
  refine (dbLookup_changes hlookup).trans ?_
  cases found with
  | none =>
    cases hrun
    exact .refl
  | some p =>
    simp only at hrun
    split at hrun
    · cases hrun
      exact .refl
    · obtain ⟨item, -, hret⟩ := bind_eq_ok.mp hrun
      cases hret
      exact .refl

theorem allKeys_changes (hrun : allKeys s resp = .ok (s', resp')) : s.QuietChanges s' := by
  obtain ⟨r, -, hret⟩ := bind_eq_ok.mp hrun
  cases hret
  exact .refl

theorem zcmdAdd_changes {score name : Bytes} (hrun : zcmdAdd s key score name resp = .ok (s', resp')) :
    s.Changes s' := by
  unfold zcmdAdd at hrun
  split at hrun
  · cases hrun
    exact .refl
  · next score _ =>
    obtain ⟨⟨found, s₁⟩, hentry, hrun⟩ := bind_eq_ok.mp hrun
    obtain ⟨hchanges, htype⟩ := zaddEntry_changes hentry
    refine hchanges.changes.trans ?_
    cases found with
    | none =>
      cases hrun
      exact .refl
    | some p =>
      obtain ⟨⟨added, zset⟩, hinsert, hret⟩ := bind_eq_ok.mp hrun
      cases hret
      refine .single (.zset p (.insert name score) trivial (htype p rfl) ?_)
      simp only [ZOp.apply, hinsert, ok_bind, pure_eq_ok]

theorem zcmdRemove_changes {name : Bytes} (hrun : zcmdRemove s key name resp = .ok (s', resp')) :
    s.QuietChanges s' := by
  obtain ⟨⟨found, s₁⟩, hexpect, hrun⟩ := bind_eq_ok.mp hrun
  obtain ⟨hchanges, htype⟩ := expectZset_changes hexpect
  refine hchanges.trans ?_
  cases found with
  | badType =>
    cases hrun
    exact .refl
  | missing =>
    obtain ⟨r, -, hret⟩ := bind_eq_ok.mp hrun
    cases hret
    exact .refl
  | entry p =>
    obtain ⟨⟨found, zset⟩, hlookup, hrun⟩ := bind_eq_ok.mp hrun
    cases found with
    | none =>
      cases hrun
      refine .single (.zset p (.remove name) trivial (htype p rfl) ?_)
      simp only [ZOp.apply, hlookup, ok_bind, pure_eq_ok]
    | some q =>
      obtain ⟨zset', hdelete, hret⟩ := bind_eq_ok.mp hrun
      cases hret
      refine .single (.zset p (.remove name) trivial (htype p rfl) ?_)
      simp only [ZOp.apply, hlookup, ok_bind, hdelete]

theorem zcmdScore_changes {name : Bytes} (hrun : zcmdScore s key name resp = .ok (s', resp')) :
    s.QuietChanges s' := by
  obtain ⟨⟨found, s₁⟩, hexpect, hrun⟩ := bind_eq_ok.mp hrun
  obtain ⟨hchanges, htype⟩ := expectZset_changes hexpect
  refine hchanges.trans ?_
  cases found with
  | badType =>
    cases hrun
    exact .refl
  | missing =>
    obtain ⟨⟨found, zset⟩, -, hrun⟩ := bind_eq_ok.mp hrun
    cases found with
    | none =>
      cases hrun
      exact .refl
    | some q =>
      cases hrun
      exact .refl
  | entry p =>
    obtain ⟨⟨found, zset⟩, hlookup, hrun⟩ := bind_eq_ok.mp hrun
    have hzset : Change ZOp.Quiet s₁ (s₁.setZset p zset) := by
      refine .zset p (.lookup name) trivial (htype p rfl) ?_
      simp only [ZOp.apply, hlookup, ok_bind, pure_eq_ok]
    cases found with
    | none =>
      cases hrun
      exact .single hzset
    | some q =>
      cases hrun
      exact .single hzset

theorem zcmdQuery_changes {score name offset limit : Bytes}
    (hrun : zcmdQuery s key score name offset limit resp = .ok (s', resp')) : s.QuietChanges s' := by
  unfold zcmdQuery at hrun
  split at hrun
  · cases hrun
    exact .refl
  split at hrun
  · obtain ⟨⟨found, s₁⟩, hexpect, hrun⟩ := bind_eq_ok.mp hrun
    refine (expectZset_changes hexpect).1.trans ?_
    cases found with
    | badType =>
      cases hrun
      exact .refl
    | missing =>
      obtain ⟨r, -, hret⟩ := bind_eq_ok.mp hrun
      cases hret
      exact .refl
    | entry p =>
      obtain ⟨r, -, hret⟩ := bind_eq_ok.mp hrun
      cases hret
      exact .refl
  · cases hrun
    exact .refl

/-- Only `zadd` adds to a set. -/
theorem runRequest_quiet {cmd : List Bytes} (hzadd : ∀ key score name, Request.ofCmd cmd ≠ .zadd key score name)
    (hrun : runRequest now s cmd resp = .ok (s', resp')) : s.QuietChanges s' := by
  unfold runRequest at hrun
  split at hrun
  · cases hrun
    exact .refl
  · exact getKey_changes hrun
  · exact setKey_changes hrun
  · exact delKey_changes hrun
  · exact allKeys_changes hrun
  · next key score name hreq => exact absurd hreq (hzadd key score name)
  · exact zcmdRemove_changes hrun
  · exact zcmdScore_changes hrun
  · exact zcmdQuery_changes hrun
  · exact getTtlMs_changes hrun
  · exact setTtlMs_changes hrun
  · cases hrun
    exact .refl

theorem runRequest_changes {cmd : List Bytes} (hrun : runRequest now s cmd resp = .ok (s', resp')) :
    s.Changes s' := by
  by_cases hzadd : ∃ key score name, Request.ofCmd cmd = .zadd key score name
  · obtain ⟨key, score, name, hreq⟩ := hzadd
    rw [runRequest, hreq] at hrun
    exact zcmdAdd_changes hrun
  · exact (runRequest_quiet (fun key score name hreq => hzadd ⟨key, score, name, hreq⟩) hrun).changes

/-! ## The timers -/

/-- One turn of the loop of `process_timers`, and the turns after it. -/
theorem expireLoop_changes {works : Nat} (hrun : expireLoop now works s = .ok s') : s.QuietChanges s' := by
  induction works generalizing s with
  | zero =>
    cases hrun
    exact .refl
  | succ works ih =>
    unfold expireLoop at hrun
    split at hrun
    · cases hrun
      exact .refl
    · next top _ _ =>
      split at hrun
      · obtain ⟨heap, -, hrun⟩ := bind_eq_ok.mp hrun
        obtain ⟨⟨node, db⟩, hdelete, hrun⟩ := bind_eq_ok.mp hrun
        obtain ⟨s₁, hdel, hrun⟩ := bind_eq_ok.mp hrun
        have hheap : Change ZOp.Quiet s { s with heap := heap.setIdx top.ref sizeMax } := .heap _
        have hdb : Change ZOp.Quiet { s with heap := heap.setIdx top.ref sizeMax }
            { s with heap := heap.setIdx top.ref sizeMax, db } := by
          refine .db (.delete { ref := top.ref, hashCode := (s.entries top.ref).hashCode } hnodeSame) ?_
          simp only [HOp.apply, hdelete, ok_bind, pure_eq_ok]
        refine .trans ?_ (ih hrun)
        refine .trans ?_ (entryDel_changes hdel)
        cases node with
        | none => exact ((Relation.ReflTransGen.single hheap).tail hdb).tail (.warn _)
        | some node =>
          simp only
          split
          · exact (Relation.ReflTransGen.single hheap).tail hdb
          · exact ((Relation.ReflTransGen.single hheap).tail hdb).tail (.warn _)
      · cases hrun
        exact .refl

/-! ## Invariants -/

/-- The invariant rule for writes. -/
theorem Changes.keeps {allowed : ZOp → Prop} {motive : ServerData → Prop}
    (hchange : ∀ s s', motive s → Change allowed s s' → motive s') (h : motive s)
    (hs : s.ChangesBy allowed s') : motive s' := by
  induction hs with
  | refl => exact h
  | tail _ hstep ih => exact hchange _ _ ih hstep

end ServerData

end MiniRedis
