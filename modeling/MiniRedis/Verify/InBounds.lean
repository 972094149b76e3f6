import MiniRedis.Verify.Memory

/-! # Runs that stay in bounds

`znode_new` puts a NUL behind every name that it stores, one byte past the block that it allocated. What is
proved of the server after such a write holds of its source only as far as the allocator is lucky. Here is
exactly when a run gets along without: no request calls `znode_new`, and none lacks room for a key. -/

namespace MiniRedis

/-! ## The nodes of a set -/

section
variable {z z' : ZSet Double} {name : Bytes} {score : Double}

theorem zsetLookup_next {found : Option ZPtr} (hrun : zsetLookup z name = .ok (found, z')) :
    z'.next = z.next := by
  unfold zsetLookup at hrun
  split at hrun
  · cases hrun
    rfl
  · obtain ⟨r, -, hret⟩ := bind_eq_ok.mp hrun
    cases hret
    rfl

/-- A node is allocated for a new member only. -/
theorem zsetInsert_next {added : Bool} (hrun : zsetInsert z name score = .ok (added, z')) :
    z'.next = if added then z.next + 1 else z.next := by
  obtain ⟨⟨found, z₁⟩, hlookup, hrun⟩ := bind_eq_ok.mp hrun
  have hnext := zsetLookup_next hlookup
  cases found with
  | some p =>
    obtain ⟨z₂, hupdate, hret⟩ := bind_eq_ok.mp hrun
    cases hret
    exact (zsetUpdate_freed hupdate).2.trans hnext
  | none =>
    obtain ⟨⟨p, z₂⟩, hnew, hrun⟩ := bind_eq_ok.mp hrun
    obtain ⟨hmap, -, hrun⟩ := bind_eq_ok.mp hrun
    obtain ⟨z₃, htree, hret⟩ := bind_eq_ok.mp hrun
    cases hret
    obtain ⟨_, -, hnew⟩ := bind_eq_ok.mp hnew
    cases hnew
    exact (treeInsert_freed htree).2.trans (congrArg (· + 1) hnext)

theorem ZOp.next_le {op : ZOp} (hrun : op.apply z = .ok z') :
    z.next ≤ z'.next ∧ (op.Quiet → z'.next = z.next) := by
  cases op with
  | lookup name =>
    obtain ⟨r, hlookup, hret⟩ := bind_eq_ok.mp hrun
    cases hret
    have hnext := zsetLookup_next hlookup
    exact ⟨Nat.le_of_eq hnext.symm, fun _ => hnext⟩
  | insert name score =>
    obtain ⟨r, hinsert, hret⟩ := bind_eq_ok.mp hrun
    cases hret
    refine ⟨?_, False.elim⟩
    rw [zsetInsert_next hinsert]
    split
    · exact Nat.le_succ _
    · exact Nat.le_refl _
  | remove name =>
    obtain ⟨⟨found, z₁⟩, hlookup, hrun⟩ := bind_eq_ok.mp hrun
    have hnext : z'.next = z.next := by
      cases found with
      | none =>
        cases hrun
        exact zsetLookup_next hlookup
      | some p => exact (zsetDelete_next hrun).trans (zsetLookup_next hlookup)
    exact ⟨Nat.le_of_eq hnext.symm, fun _ => hnext⟩

end

namespace ServerData

variable {s s₁ s' : ServerData} {now : UInt64} {p : EPtr} {q : ZPtr}

/-! ## What is allocated between two states -/

/-- The node `q` of the entry `p` was allocated between two states. -/
def NewNode (s s' : ServerData) (p : EPtr) (q : ZPtr) : Prop :=
  p < s'.next ∧ q < (s'.entries p).zset.next ∧ (p < s.next → (s.entries p).zset.next ≤ q)

/-- What `znode_new` wrote between two states is inside of its blocks. -/
def InBounds (s s' : ServerData) : Prop :=
  ∀ p q, NewNode s s' p q → WritesInBounds ((s'.entries p).zset.node q).name

theorem inBounds_iff : InBounds s s' ↔ ∀ p q, ¬ NewNode s s' p q :=
  forall₂_congr fun _ _ => imp_congr_right fun _ => iff_false_intro (not_writesInBounds _)

/-- No address is forgotten. -/
structure Grows (s s' : ServerData) : Prop where
  next : s.next ≤ s'.next
  nodes : ∀ p < s.next, (s.entries p).zset.next ≤ (s'.entries p).zset.next

/-- No node is allocated. -/
structure SameNodes (s s' : ServerData) : Prop where
  next : s.next ≤ s'.next
  old : ∀ p < s.next, (s'.entries p).zset.next = (s.entries p).zset.next
  new : ∀ p, s.next ≤ p → p < s'.next → (s'.entries p).zset.next = 0

theorem Grows.refl (s : ServerData) : s.Grows s := ⟨Nat.le_refl _, fun _ _ => Nat.le_refl _⟩

theorem Grows.trans (h : s.Grows s₁) (h' : s₁.Grows s') : s.Grows s' where
  next := Nat.le_trans h.next h'.next
  nodes p hp := Nat.le_trans (h.nodes p hp) (h'.nodes p (Nat.lt_of_lt_of_le hp h.next))

theorem SameNodes.of_next (hnext : s'.next = s.next)
    (hnodes : ∀ p, (s'.entries p).zset.next = (s.entries p).zset.next) : s.SameNodes s' where
  next := Nat.le_of_eq hnext.symm
  old p _ := hnodes p
  new _ hge hlt := absurd (hnext ▸ hlt) (Nat.not_lt.mpr hge)

theorem SameNodes.refl (s : ServerData) : s.SameNodes s := .of_next rfl fun _ => rfl

theorem SameNodes.trans (h : s.SameNodes s₁) (h' : s₁.SameNodes s') : s.SameNodes s' where
  next := Nat.le_trans h.next h'.next
  old p hp := (h'.old p (Nat.lt_of_lt_of_le hp h.next)).trans (h.old p hp)
  new p hge hlt := by
    by_cases hp : p < s₁.next
    · exact (h'.old p hp).trans (h.new p hge hp)
    · exact h'.new p (Nat.le_of_not_lt hp) hlt

theorem SameNodes.grows (h : s.SameNodes s') : s.Grows s' :=
  ⟨h.next, fun p hp => Nat.le_of_eq (h.old p hp).symm⟩

theorem SameNodes.inBounds (h : s.SameNodes s') : s.InBounds s' := by
  refine inBounds_iff.mpr fun p q ⟨hp, hq, hold⟩ => ?_
  by_cases hlt : p < s.next
  · rw [h.old p hlt] at hq
    exact absurd hq (Nat.not_lt.mpr (hold hlt))
  · rw [h.new p (Nat.le_of_not_lt hlt) hp] at hq
    exact absurd hq (Nat.not_lt_zero q)

/-- A node that is new in the end was new before or after a state between. -/
theorem inBounds_trans (h : s.Grows s₁) (h' : s₁.Grows s') :
    InBounds s s' ↔ InBounds s s₁ ∧ InBounds s₁ s' := by
  simp only [inBounds_iff]
  constructor
  · intro hnone
    constructor
    · rintro p q ⟨hp, hq, hold⟩
      exact hnone p q ⟨Nat.lt_of_lt_of_le hp h'.next, Nat.lt_of_lt_of_le hq (h'.nodes p hp), hold⟩
    · rintro p q ⟨hp, hq, hold⟩
      refine hnone p q ⟨hp, hq, fun hlt => ?_⟩
      exact Nat.le_trans (h.nodes p hlt) (hold (Nat.lt_of_lt_of_le hlt h.next))
  · rintro ⟨hfirst, hrest⟩ p q ⟨hp, hq, hold⟩
    by_cases hbetween : p < s₁.next ∧ q < (s₁.entries p).zset.next
    · exact hfirst p q ⟨hbetween.1, hbetween.2, hold⟩
    · exact hrest p q ⟨hp, hq, fun hlt => Nat.le_of_not_lt fun hlt' => hbetween ⟨hlt, hlt'⟩⟩

/-! ## Writes -/

/-- An entry is written in place. -/
theorem SameNodes.update {e : Entry} (he : e.zset.next = (s.entries p).zset.next)
    (hentries : s'.entries = Function.update s.entries p e) (hnext : s'.next = s.next) : s.SameNodes s' := by
  refine .of_next hnext fun q => ?_
  rw [hentries]
  by_cases hq : q = p
  · rw [hq, Function.update_self, he]
  · rw [Function.update_of_ne hq]

theorem SameNodes.entryNew {type : ValueType} {key value : Bytes}
    (hrun : MiniRedis.entryNew s type key value = .ok (p, s')) : s.SameNodes s' := by
  simp only [MiniRedis.entryNew] at hrun
  split at hrun
  · cases hrun
    refine ⟨Nat.le_succ _, fun q hq => ?_, fun q hge hlt => ?_⟩
    · simp only [Function.update_of_ne (Nat.ne_of_lt hq)]
    · obtain rfl : q = s.next := Nat.le_antisymm (Nat.le_of_lt_succ hlt) hge
      simp only [Function.update_self]
      rfl
  · cases hrun

theorem SameNodes.entryDelSync (hrun : MiniRedis.entryDelSync s p = .ok s') : s.SameNodes s' := by
  unfold MiniRedis.entryDelSync at hrun
  split at hrun
  · obtain ⟨zset, hclear, hret⟩ := bind_eq_ok.mp hrun
    cases hret
    exact .update (zsetClear_next hclear) rfl rfl
  · cases hrun
    exact .of_next rfl fun _ => rfl

/-- One write allocates no node, or it is a call on one set. -/
theorem Change.nodes {allowed : ZOp → Prop} (hchange : Change allowed s s') :
    s.SameNodes s' ∨
      ∃ p op zset, allowed op ∧ op.apply (s.entries p).zset = .ok zset ∧ s' = s.setZset p zset := by
  cases hchange with
  | db | heap | warn | enqueue => exact .inl (.of_next rfl fun _ => rfl)
  | new hrun => exact .inl (.entryNew hrun)
  | value p value => exact .inl (.update (p := p) (e := { s.entries p with value }) rfl rfl rfl)
  | zset p op hop _ hrun => exact .inr ⟨p, op, _, hop, hrun, rfl⟩
  | free _ hrun => exact .inl (.entryDelSync hrun)

/-- Only the insertion of a member allocates a node. -/
theorem QuietChanges.sameNodes (hs : s.QuietChanges s') : s.SameNodes s' := by
  refine Changes.keeps (motive := s.SameNodes) (fun s₁ s₂ h hchange => h.trans ?_) (.refl s) hs
  rcases hchange.nodes with hsame | ⟨p, op, zset, hquiet, hrun, rfl⟩
  · exact hsame
  · exact .update ((ZOp.next_le hrun).2 hquiet) rfl rfl

theorem Changes.grows (hs : s.Changes s') : s.Grows s' := by
  refine Changes.keeps (motive := s.Grows) (fun s₁ s₂ h hchange => h.trans ?_) (.refl s) hs
  rcases hchange.nodes with hsame | ⟨p, op, zset, -, hrun, rfl⟩
  · exact hsame.grows
  · refine ⟨Nat.le_refl _, fun q _ => ?_⟩
    by_cases hq : q = p
    · subst hq
      simp only [setZset, Function.update_self]
      exact (ZOp.next_le hrun).1
    · simp only [setZset, Function.update_of_ne hq]
      exact Nat.le_refl _

end ServerData

/-! ## Requests -/

/-- The request adds a member to a set, or a set with one member. -/
def Request.AddsMember (s : ServerData) : Request → Prop
  | .zadd key score name => (str2dbl score).isSome ∧ ∃ x, zsetFor (s.contents key) = some x ∧ x.scores name = none
  | _ => False

/-- The faults of a request that adds a key for which there is no room. -/
def Fault.IsNoRoomForKey (e : Fault) : Prop := e = .assertion .hInitSize ∨ e = .badAlloc

theorem Request.LacksRoom.addsMember {s : ServerData} {key score name : Bytes} (h : s.WF)
    (hlacks : (Request.zadd key score name).LacksRoom s) : (Request.zadd key score name).AddsMember s := by
  obtain ⟨hscore, ⟨hkey, -⟩ | ⟨p, hp, rfl, hz, hnone, -⟩⟩ := hlacks
  · exact ⟨hscore, .emptySet, by rw [hkey, zsetFor], rfl⟩
  · exact ⟨hscore, s.content p, by rw [h.contents_of_mem hp, zsetFor, if_pos hz], hnone⟩

namespace ServerData

variable {s s' : ServerData} {now : UInt64} {key resp resp' : Bytes} {cmd : List Bytes}

namespace WF

/-- A member that is added makes `znode_new` write past its block. -/
theorem zcmdAdd_inBounds {score name : Bytes} (h : s.WF)
    (hrun : MiniRedis.zcmdAdd s key score name resp = .ok (s', resp')) :
    s.InBounds s' ↔ ¬ (Request.zadd key score name).AddsMember s := by
  unfold MiniRedis.zcmdAdd at hrun
  simp only [Request.AddsMember]
  cases hscore : str2dbl score with
  | none =>
    rw [hscore] at hrun
    cases hrun
    exact iff_of_true (SameNodes.refl s).inBounds fun hadds => nomatch hadds.1
  | some x =>
    rw [hscore] at hrun
    simp only [Option.isSome_some, true_and]
    rcases h.zaddEntry key with ⟨p, s₁, hentry, h₁, -, hp, -, hset, -⟩ | ⟨s₁, hentry, -, -, -, hset⟩ |
      ⟨e, hentry, -, -⟩
    · simp only [hentry, ok_bind] at hrun
      obtain ⟨⟨added, zset⟩, hinsert, hret⟩ := bind_eq_ok.mp hrun
      cases hret
      have hsame := QuietChanges.sameNodes (zaddEntry_changes hentry).1
      have hnext := zsetInsert_next hinsert
      obtain ⟨t, ht⟩ := h₁.zsets p hp
      have hadds : (∃ x, zsetFor (s.contents key) = some x ∧ x.scores name = none) ↔ added = true := by
        rw [hset, (ht.inserted hinsert).2]
        simp [content]
      rw [hadds]
      cases added with
      | false =>
        refine iff_of_true (hsame.trans ?_).inBounds Bool.false_ne_true
        exact .update hnext rfl rfl
      | true =>
        refine iff_of_false (fun hin => ?_) (not_not.mpr rfl)
        -- the node of the new member
        refine inBounds_iff.mp hin p (s₁.entries p).zset.next ⟨h₁.lt_next hp, ?_, fun hlt => ?_⟩
        · simp only [ServerData.setZset, Function.update_self, hnext]
          exact Nat.lt_succ_self _
        · exact hsame.grows.nodes p hlt
    · simp only [hentry, ok_bind] at hrun
      cases hrun
      refine iff_of_true (QuietChanges.sameNodes (zaddEntry_changes hentry).1).inBounds ?_
      rw [hset]
      rintro ⟨x, hx, -⟩
      cases hx
    · simp only [hentry, error_bind] at hrun
      cases hrun

theorem runRequest_inBounds (h : s.WF) (hrun : MiniRedis.runRequest now s cmd resp = .ok (s', resp')) :
    s.InBounds s' ↔ ¬ (Request.ofCmd cmd).AddsMember s := by
  by_cases hzadd : ∃ key score name, Request.ofCmd cmd = .zadd key score name
  · obtain ⟨key, score, name, hreq⟩ := hzadd
    rw [MiniRedis.runRequest, hreq] at hrun
    rw [hreq]
    exact h.zcmdAdd_inBounds hrun
  · have hquiet := runRequest_quiet (fun key score name hreq => hzadd ⟨key, score, name, hreq⟩) hrun
    refine iff_of_true hquiet.sameNodes.inBounds fun hadds => ?_
    cases hreq : Request.ofCmd cmd with
    | zadd key score name => exact hzadd ⟨key, score, name, hreq⟩
    | _ =>
      rw [hreq] at hadds
      exact hadds

/-- The faults of `set`. -/
theorem setKey_fault {value : Bytes} {e : Fault} (h : s.WF) (hfirst : s.FirstTables)
    (hrun : MiniRedis.setKey s key value resp = .error e) : e.IsNoRoomForKey := by
  rcases h.lookup key with ⟨p, s₁, hlookup, -⟩ | ⟨s₁, hlookup, h₁, -, hsame, hkey⟩
  · simp only [MiniRedis.setKey, hlookup, ok_bind] at hrun
    cases hrun
  · obtain ⟨hfirst₁, -⟩ := h.lookup_room hfirst hlookup
    rcases h₁.addEntry_outcome hfirst₁ (hsame ▸ hkey) .init value with
      ⟨-, s₂, s₃, hnew, hins, -⟩ | ⟨-, ⟨s₂, hnew, hins⟩ | hnew⟩
    · simp only [MiniRedis.setKey, hlookup, ok_bind, hnew, hins] at hrun
      cases hrun
    · simp only [MiniRedis.setKey, hlookup, ok_bind, hnew, hins, error_bind] at hrun
      cases hrun
      exact .inl rfl
    · simp only [MiniRedis.setKey, hlookup, ok_bind, hnew, error_bind] at hrun
      cases hrun
      exact .inr rfl

end WF

/-- Without a new member, a request that lacks room is `set`. -/
theorem Within.runRequest_fault {e : Fault} (h : s.Within) (hrun : MiniRedis.runRequest now s cmd resp = .error e)
    (hadds : ¬ (Request.ofCmd cmd).AddsMember s) : e.IsNoRoomForKey := by
  have hlacks := h.wf.runRequest_outcome h.first h.fit now cmd resp
  rw [hrun] at hlacks
  cases hreq : Request.ofCmd cmd with
  | set key value =>
    rw [MiniRedis.runRequest, hreq] at hrun
    exact h.wf.setKey_fault h.first hrun
  | zadd key score name =>
    rw [hreq] at hlacks hadds
    exact absurd (hlacks.1.addsMember h.wf) hadds
  | _ =>
    rw [hreq] at hlacks
    exact hlacks.1.elim

end ServerData

/-! ## Frames -/

/-- The frame holds a request that adds a member. -/
def FrameOp.AddsMember (s : ServerData) : FrameOp → Prop
  | .frame _ conn => ∃ request rest cmd, nextFrame? kMaxMsg conn.incoming = some (request, rest) ∧
      parseRequest request = some cmd ∧ (Request.ofCmd cmd).AddsMember s
  | .timers _ => False

namespace ServerData

variable {s s' : ServerData} {now : UInt64} {request : Bytes}

theorem WF.respond_inBounds {payload : Bytes} (h : s.WF)
    (hrun : MiniRedis.respond now s request = .ok (s', payload)) :
    s.InBounds s' ↔ ¬ ∃ cmd, parseRequest request = some cmd ∧ (Request.ofCmd cmd).AddsMember s := by
  unfold MiniRedis.respond at hrun
  cases hparse : parseRequest request with
  | none =>
    rw [hparse] at hrun
    cases hrun
    exact iff_of_true (SameNodes.refl s).inBounds fun ⟨_, hnone, _⟩ => nomatch hnone
  | some cmd =>
    rw [hparse] at hrun
    obtain ⟨⟨s₁, resp⟩, hrequest, hret⟩ := bind_eq_ok.mp hrun
    cases hret
    rw [h.runRequest_inBounds hrequest]
    simp

theorem Within.respond_fault {e : Fault} (h : s.Within) (hrun : respond now s request = .error e)
    (hadds : ¬ ∃ cmd, parseRequest request = some cmd ∧ (Request.ofCmd cmd).AddsMember s) :
    e.IsNoRoomForKey := by
  unfold respond at hrun
  cases hparse : parseRequest request with
  | none =>
    rw [hparse] at hrun
    cases hrun
  | some cmd =>
    cases hrequest : MiniRedis.runRequest now s cmd [] with
    | error e' =>
      simp only [hparse, hrequest, error_bind] at hrun
      cases hrun
      exact h.runRequest_fault hrequest fun hcmd => hadds ⟨cmd, hparse, hcmd⟩
    | ok r =>
      simp only [hparse, hrequest, ok_bind] at hrun
      cases hrun

/-- The request of a frame, if there is one. -/
theorem addsMember_frame {conn : Connection} {rest : Bytes}
    (h : nextFrame? kMaxMsg conn.incoming = some (request, rest)) :
    (FrameOp.frame now conn).AddsMember s ↔
      ∃ cmd, parseRequest request = some cmd ∧ (Request.ofCmd cmd).AddsMember s := by
  simp [FrameOp.AddsMember, h]

theorem WF.apply_inBounds {op : FrameOp} (h : s.WF) (hrun : op.apply s = .ok s') :
    s.InBounds s' ↔ ¬ op.AddsMember s := by
  cases op with
  | timers now => exact iff_of_true (QuietChanges.sameNodes (expireLoop_changes hrun)).inBounds id
  | frame now conn =>
    cases hframe : nextFrame? kMaxMsg conn.incoming with
    | none =>
      cases (FrameOp.apply_of_none hframe now).symm.trans hrun
      refine iff_of_true (SameNodes.refl s).inBounds ?_
      rintro ⟨_, _, _, hsome, -⟩
      cases hframe.symm.trans hsome
    | some r =>
      obtain ⟨request, rest⟩ := r
      rw [FrameOp.apply_of_frame hframe] at hrun
      rw [addsMember_frame hframe]
      cases hrespond : MiniRedis.respond now s request with
      | error e =>
        rw [hrespond] at hrun
        cases hrun
      | ok r =>
        rw [hrespond] at hrun
        cases hrun
        exact h.respond_inBounds hrespond

theorem Within.apply_fault {op : FrameOp} {e : Fault} (h : s.Within) (hrun : op.apply s = .error e)
    (hadds : ¬ op.AddsMember s) : e.IsNoRoomForKey := by
  have hlacks := h.apply_outcome op
  rw [hrun] at hlacks
  cases op with
  | timers now => exact hlacks.1.elim
  | frame now conn =>
    obtain ⟨request, rest, -, hframe, -⟩ := hlacks.1
    rw [FrameOp.apply_of_frame hframe] at hrun
    rw [addsMember_frame hframe] at hadds
    cases hrespond : respond now s request with
    | error e' =>
      rw [hrespond] at hrun
      cases hrun
      exact h.respond_fault hrespond hadds
    | ok r =>
      rw [hrespond] at hrun
      cases hrun

/-- One frame, or one call of `process_timers`. -/
theorem Within.apply_iff (h : s.Within) (op : FrameOp) :
    (∃ s', op.apply s = .ok s' ∧ s.InBounds s') ↔ ¬ op.LacksRoom s ∧ ¬ op.AddsMember s := by
  have houtcome := h.apply_outcome op
  cases hrun : op.apply s with
  | error e =>
    rw [hrun] at houtcome
    exact iff_of_false (fun ⟨_, hok, _⟩ => nomatch hok) fun hnot => hnot.1 houtcome.1
  | ok s' =>
    rw [hrun] at houtcome
    rw [← h.wf.apply_inBounds hrun]
    constructor
    · rintro ⟨s₁, hsame, hin⟩
      cases hsame
      exact ⟨houtcome, hin⟩
    · rintro ⟨-, hin⟩
      exact ⟨s', rfl, hin⟩

theorem apply_grows {op : FrameOp} (hrun : op.apply s = .ok s') : s.Grows s' := by
  cases op with
  | timers now => exact (QuietChanges.sameNodes (expireLoop_changes hrun)).grows
  | frame now conn =>
    obtain ⟨⟨more, s₁, conn'⟩, hone, hret⟩ := bind_eq_ok.mp hrun
    cases hret
    refine handleOneRequest_invariant (motive := s.Grows) ?_ (.refl s) hone
    intro now s₁ cmd s₂ value h hreq
    exact h.trans (Changes.grows (runRequest_changes hreq))

theorem run_grows {ops : List FrameOp} (hrun : runSteps FrameOp.apply s ops = .ok s') : s.Grows s' :=
  runSteps_invariant (motive := s.Grows) (fun _ _ h _ hstep => h.trans (apply_grows hstep)) (.refl s) hrun

/-- The run rule: every frame is handled in bounds exactly if none adds a member or lacks room. -/
theorem Within.run_iff (h : s.Within) (ops : List FrameOp) :
    (∃ s', runSteps FrameOp.apply s ops = .ok s' ∧ s.InBounds s') ↔
      ∀ pre op s₁, pre ++ [op] <+: ops → runSteps FrameOp.apply s pre = .ok s₁ →
        ¬ op.LacksRoom s₁ ∧ ¬ op.AddsMember s₁ :=
  runSteps_related_iff h (fun _ _ _ h hrun => h.step hrun) (fun _ op h => h.apply_iff op)
    (fun s => (SameNodes.refl s).inBounds)
    fun _ _ _ _ _ _ hstep hrun => inBounds_trans (apply_grows hstep) (run_grows hrun)

/-- Where no member is added, a run stops for a key without room only. -/
theorem Within.run_fault {ops : List FrameOp} {e : Fault} (h : s.Within)
    (hadds : ∀ pre op s₁, pre ++ [op] <+: ops → runSteps FrameOp.apply s pre = .ok s₁ → ¬ op.AddsMember s₁)
    (hrun : runSteps FrameOp.apply s ops = .error e) : e.IsNoRoomForKey := by
  obtain ⟨pre, op, s₁, hpre, hrun₁, happly⟩ := runSteps_eq_error.mp hrun
  exact (h.run hrun₁).apply_fault happly (hadds pre op s₁ hpre hrun₁)

end ServerData

/-! ## When the server goes on -/

/-- **When the server goes on.** Frames and calls of `process_timers`, one after another, are all handled
and no name is written past its block exactly if no request adds a member to a set and none asks for a key
for which there is no room. Where no request adds a member, the server stops for no other reason. -/
theorem frames_run_iff (ops : List FrameOp) :
    ((∃ s, runSteps FrameOp.apply {} ops = .ok s ∧ ServerData.InBounds {} s) ↔
      ∀ pre op s, pre ++ [op] <+: ops → runSteps FrameOp.apply {} pre = .ok s →
        ¬ op.LacksRoom s ∧ ¬ op.AddsMember s) ∧
    ((∀ pre op s, pre ++ [op] <+: ops → runSteps FrameOp.apply {} pre = .ok s → ¬ op.AddsMember s) →
      ∀ e, runSteps FrameOp.apply {} ops = .error e → e.IsNoRoomForKey) :=
  ⟨ServerData.Within.empty.run_iff ops, fun hadds _ hrun => ServerData.Within.empty.run_fault hadds hrun⟩

/-- **The loop goes on.** In every state that the loop reaches, with whatever results `poll()`, `read()` and
`write()` return for a descriptor, the calls for it return and write no name past its block exactly if none
of the frames that they execute adds a member or lacks room. -/
theorem event_returns_iff {listenFd : Nat} {l : Loop} {polled : List Nat} {e : Event} {p : CPtr}
    {conn : ClientConn} (hrun : Relation.ReflTransGen Loop.Step (Loop.init listenFd) l)
    (hconn : l.server.conns p = some conn) (hphase : l.phase = .serving (conn.socketFd :: polled))
    (htime : l.time ≤ e.now) :
    ((∃ l', l.Step l' ∧ handleEvent e conn.socketFd l.server = .ok l'.server ∧ l'.phase = .serving polled ∧
        l.server.data.InBounds l'.server.data) ↔
      ∀ pre op s, pre ++ [op] <+: e.frames conn.toConnection →
        runSteps FrameOp.apply l.server.data pre = .ok s → ¬ op.LacksRoom s ∧ ¬ op.AddsMember s) ∧
    ((∀ pre op s, pre ++ [op] <+: e.frames conn.toConnection →
        runSteps FrameOp.apply l.server.data pre = .ok s → ¬ op.AddsMember s) →
      ∀ fault, handleEvent e conn.socketFd l.server = .error fault → fault.IsNoRoomForKey) := by
  obtain ⟨ps, h⟩ := Loop.consistent_run hrun
  have hdata := Loop.within_run hrun
  have hframes := h.server.registered.handleEvent_frames (h.recent.mono htime)
    (Loop.intentsMatch_run hrun) hconn
  obtain ⟨phase, time, s⟩ := l
  obtain rfl : phase = .serving (conn.socketFd :: polled) := hphase
  refine ⟨?_, fun hadds fault herror => ?_⟩
  · rw [← hdata.run_iff]
    constructor
    · rintro ⟨l', -, hok, -, hin⟩
      rw [hok] at hframes
      exact ⟨l'.server.data, hframes.symm, hin⟩
    · rintro ⟨data, hok, hin⟩
      rw [hok] at hframes
      cases hevent : handleEvent e conn.socketFd s with
      | error fault =>
        rw [hevent] at hframes
        cases hframes
      | ok s' =>
        rw [hevent] at hframes
        cases hframes
        exact ⟨⟨.serving polled, e.now, s'⟩, .event htime hevent, rfl, rfl, hin⟩
  · rw [herror] at hframes
    exact hdata.run_fault hadds hframes.symm

/-- A key and its deadline in one chunk: two frames, and no node. -/
theorem event_returns_iff_longTtl :
    ∃ l l' conn, Relation.ReflTransGen Loop.Step (Loop.init 3) l ∧ l.server.conns 0 = some conn ∧
      (longTtl.frames conn.toConnection).length = 2 ∧ l.Step l' ∧
      handleEvent longTtl 4 l.server = .ok l'.server ∧ l.server.data.InBounds l'.server.data ∧
      ∀ pre op s, pre ++ [op] <+: longTtl.frames conn.toConnection →
        runSteps FrameOp.apply l.server.data pre = .ok s → ¬ op.LacksRoom s ∧ ¬ op.AddsMember s := by
  obtain ⟨s₁, haccept⟩ : ∃ s, handleAccept (some 4) 5 { openFds := [3] } = .ok s := ⟨_, rfl⟩
  obtain ⟨s₂, htimers⟩ : ∃ s, processTimers 5 s₁ = .ok s := by
    cases haccept
    exact ⟨_, rfl⟩
  obtain ⟨s₃, hevent, hnext, hnodes⟩ : ∃ s, handleEvent longTtl 4 s₂ = .ok s ∧ s.data.next = 1 ∧
      (s.data.entries 0).zset.next = 0 := by
    cases haccept
    cases htimers
    exact ⟨_, rfl, rfl, rfl⟩
  obtain ⟨hpoll, conn, hconn, hfd, hframes⟩ : pollArgs s₂ s₂.fd2conn = .ok [4] ∧
      ∃ conn, s₂.conns 0 = some conn ∧ conn.socketFd = 4 ∧ (longTtl.frames conn.toConnection).length = 2 := by
    cases haccept
    cases htimers
    exact ⟨rfl, _, rfl, rfl, by decide +kernel⟩
  have hsteps := (reaches_accept haccept).tail (.timers (UInt64.le_refl _) htimers)
  have hreach : Relation.ReflTransGen Loop.Step (Loop.init 3) ⟨.serving [4], 5, s₂⟩ :=
    (hsteps.tail (.poll hpoll)).tail .noAccept
  have hin : s₂.data.InBounds s₃.data := by
    refine ServerData.inBounds_iff.mpr fun p q ⟨hp, hq, _⟩ => ?_
    obtain rfl : p = 0 := Nat.lt_one_iff.mp (hnext ▸ hp)
    exact Nat.not_lt_zero q (hnodes ▸ hq)
  have hphase : Phase.serving [4] = .serving (conn.socketFd :: []) := by rw [hfd]
  have htime : (5 : UInt64) ≤ longTtl.now := by decide
  have hiff := (event_returns_iff hreach hconn hphase htime).1
  rw [hfd] at hiff
  have hstep : Loop.Step ⟨.serving [4], 5, s₂⟩ ⟨.serving [], 10, s₃⟩ := .event htime hevent
  exact ⟨_, _, conn, hreach, hconn, hframes, hstep, hevent, hin, hiff.mp ⟨_, hstep, hevent, rfl, hin⟩⟩

end MiniRedis
