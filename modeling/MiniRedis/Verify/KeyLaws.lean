import MiniRedis.Verify.History

/-! # Two laws about keys

Keys expire, and keys have a type. `get` looks at neither the deadline nor the type of an entry, so
both laws have an exception, and the exception is exact: a key that is due but not yet reaped, and a
key that holds a sorted set. -/

namespace MiniRedis

/-! ## Expired keys -/

/-- The deadlines of the keys after a request on the contents `c`. `pexpire` on an existing key sets
or removes a deadline; deleting a key or creating it anew removes it. -/
def Request.deadlines (now : UInt64) (c : Bytes → Option Content) (deadline : Bytes → Option UInt64) :
    Request → Bytes → Option UInt64
  | .pexpire key ttl =>
    match str2int ttl with
    | none => deadline
    | some ttlMs =>
      if (c key).isSome then
        Function.update deadline key (if ttlMs < 0 then none else some (now + .ofNat ttlMs.toNat))
      else deadline
  | .del key => Function.update deadline key none
  | .set key _ => if (c key).isSome then deadline else Function.update deadline key none
  | .zadd key score _ =>
    if (c key).isSome ∨ (str2dbl score).isNone then deadline
    else Function.update deadline key none
  | _ => deadline

/-- A step together with the deadlines that the history has given to the keys. A key that is reaped
does not lose its deadline. -/
def ServerOp.track : ServerData × (Bytes → Option UInt64) → ServerOp →
    Result (ServerData × (Bytes → Option UInt64))
  | (s, deadline), op => do
    let s' ← op.apply s
    match op with
    | .request now cmd => return (s', (Request.ofCmd cmd).deadlines now s.contents deadline)
    | .timers _ => return (s', deadline)

/-- The keys that exist have the deadlines that the history gave to them. -/
def Tracks (c : Bytes → Option Content) (deadline : Bytes → Option UInt64) : Prop :=
  ∀ k x, c k = some x → x.expiry = deadline k

section
variable {now : UInt64} {c c' : Bytes → Option Content} {deadline : Bytes → Option UInt64}

theorem Tracks.update {key : Bytes} {y : Option Content} {d : Option UInt64} (h : Tracks c deadline)
    (hy : ∀ x, y = some x → x.expiry = d) :
    Tracks (Function.update c key y) (Function.update deadline key d) := by
  refine forall_update_some (fun k x hk hx => ?_) fun x hx => ?_
  · rw [Function.update_of_ne hk]
    exact h k x hx
  · rw [Function.update_self]
    exact hy x hx

/-- A change that keeps the deadline. -/
theorem Tracks.update_same {key : Bytes} {y : Option Content} (h : Tracks c deadline)
    (hy : ∀ x, y = some x → x.expiry = deadline key) : Tracks (Function.update c key y) deadline :=
  forall_update_some (fun k x _ => h k x) hy

theorem Tracks.answers {req : Request} {v : Value} (h : Tracks c deadline)
    (ha : req.Answers now c v c') : Tracks c' (req.deadlines now c deadline) := by
  cases req with
  | ping | get _ => exact ha.2 ▸ h
  | keys | unknown | zquery _ _ _ _ _ => exact ha.1 ▸ h
  | pttl key => exact ha.2 ▸ h
  | set key value =>
    obtain ⟨-, rfl⟩ := ha
    simp only [Request.deadlines]
    cases hkey : c key with
    | none =>
      refine h.update ?_
      rintro x ⟨⟩
      rfl
    | some x =>
      refine h.update_same ?_
      rintro x' ⟨⟩
      exact h key x hkey
  | del key =>
    obtain ⟨-, rfl⟩ := ha
    exact h.update (by simp)
  | zscore key name =>
    simp only [Request.Answers] at ha
    split at ha <;> exact ha.2 ▸ h
  | zadd key score name =>
    simp only [Request.Answers, Request.deadlines] at ha ⊢
    cases hscore : str2dbl score with
    | none =>
      simp only [hscore] at ha
      simpa using ha.2 ▸ h
    | some score =>
      simp only [hscore] at ha
      cases hkey : c key with
      | none =>
        simp only [hkey, zsetFor] at ha
        obtain ⟨-, rfl⟩ := ha
        refine h.update ?_
        rintro x ⟨⟩
        rfl
      | some x =>
        cases hset : x.isZset with
        | false =>
          simp only [hkey, zsetFor, hset, Bool.false_eq_true, if_false] at ha
          simpa using ha.2 ▸ h
        | true =>
          simp only [hkey, zsetFor, hset, if_true] at ha
          obtain ⟨-, rfl⟩ := ha
          refine h.update_same ?_
          rintro x' ⟨⟩
          exact h key x hkey
  | zrem key name =>
    simp only [Request.Answers] at ha
    split at ha
    · exact ha.2 ▸ h
    · obtain ⟨-, rfl⟩ := ha
      refine h.update_same fun x hx => ?_
      obtain ⟨x', hx', rfl⟩ := Option.map_eq_some_iff.mp hx
      exact h key x' hx'
  | pexpire key ttl =>
    simp only [Request.Answers, Request.deadlines] at ha ⊢
    cases httl : str2int ttl with
    | none =>
      simp only [httl] at ha
      exact ha.2 ▸ h
    | some ttlMs =>
      simp only [httl] at ha
      obtain ⟨-, rfl⟩ := ha
      cases hkey : c key with
      | none =>
        refine h.update_same ?_
        simp
      | some x =>
        refine h.update ?_
        rintro x' ⟨⟩
        rfl

end

variable {s s' : ServerData} {deadline deadline' : Bytes → Option UInt64}

theorem Tracks.step {op : ServerOp} (h : s.WF ∧ Tracks s.contents deadline)
    (hrun : op.track (s, deadline) = .ok (s', deadline')) :
    s'.WF ∧ Tracks s'.contents deadline' := by
  obtain ⟨s₁, happly, hret⟩ := bind_eq_ok.mp hrun
  obtain ⟨hwf, -, ⟨now, ks, rfl, -, hcontents⟩ | ⟨now, cmd, rfl, hrequest⟩⟩ := h.1.apply_cases happly
  · cases hret
    exact ⟨hwf, forall_without_some hcontents h.2⟩
  · cases hret
    rcases hrequest with ⟨hquery, hsame⟩ | ⟨v, hanswers⟩
    · refine ⟨hwf, ?_⟩
      rw [hsame]
      cases hcmd : Request.ofCmd cmd with
      | zquery => exact h.2
      | _ => simp [hcmd, Request.IsQuery] at hquery
    · exact ⟨hwf, h.2.answers hanswers⟩

/-- The states of the histories with the deadlines that they give. -/
theorem Tracks.run {ops : List ServerOp}
    (hrun : runSteps ServerOp.track ({}, fun _ => none) ops = .ok (s, deadline)) :
    s.WF ∧ Tracks s.contents deadline :=
  runSteps_invariant (motive := fun sd : ServerData × _ => sd.1.WF ∧ Tracks sd.1.contents sd.2)
    (fun _ _ h _ hstep => Tracks.step h hstep) ⟨.empty, by rintro k x ⟨⟩⟩ hrun

/-- In a run, every `get` on a key whose deadline has passed answers nil. -/
def ExpiredHidden (ops : List ServerOp) : Prop :=
  ∀ pre now cmd key, pre ++ [.request now cmd] <+: ops → Request.ofCmd cmd = .get key →
    ∀ s deadline, runSteps ServerOp.track ({}, fun _ => none) pre = .ok (s, deadline) →
      ∀ d, deadline key = some d → d ≤ now →
        ∃ s', runRequest now s cmd [] = .ok (s', outNil [])

/-- In a run, no `get` is executed on a key that is due but still in the database. -/
def GetsReaped (ops : List ServerOp) : Prop :=
  ∀ pre now cmd key, pre ++ [.request now cmd] <+: ops → Request.ofCmd cmd = .get key →
    ∀ s deadline, runSteps ServerOp.track ({}, fun _ => none) pre = .ok (s, deadline) →
      ∀ p ∈ s.refs, (s.entries p).key = key → ∀ d, s.heap.deadline p = some d → now < d

theorem runRequest_get {now : UInt64} {cmd : List Bytes} {key : Bytes}
    (hcmd : Request.ofCmd cmd = .get key) : runRequest now s cmd [] = getKey s key [] := by
  simp only [runRequest, hcmd]

/-- The exception to the law: a run hides the expired keys exactly when each of them has been reaped
before a `get` asks for it. -/
theorem expiredHidden_iff (ops : List ServerOp) : ExpiredHidden ops ↔ GetsReaped ops := by
  constructor
  · intro hhidden pre now cmd key hpre hcmd s deadline hrun p hp hkey d hd
    by_contra hdue
    obtain ⟨h, htracks⟩ := Tracks.run hrun
    have hcontent : s.contents key = some (s.content p) := hkey ▸ h.contents_of_mem hp
    obtain ⟨s', hnil⟩ := hhidden pre now cmd key hpre hcmd s deadline hrun d
      ((htracks key _ hcontent).symm.trans hd) (UInt64.not_lt.mp hdue)
    -- The value of the entry is sent, or is too long to be sent.
    obtain ⟨s₁, -, -, -, hget⟩ := h.getKey_eq key []
    rw [runRequest_get hcmd, hget, hcontent] at hnil
    simp only at hnil
    split at hnil
    · simp [outStr, outNil, appendBufferU8, appendBufferU32, tagStr, tagNil] at hnil
    · cases hnil
  · intro hreaped pre now cmd key hpre hcmd s deadline hrun d hd hdue
    obtain ⟨h, htracks⟩ := Tracks.run hrun
    obtain ⟨s₁, -, -, -, hget⟩ := h.getKey_eq key []
    refine ⟨s₁, ?_⟩
    rw [runRequest_get hcmd, hget]
    cases hkey : s.contents key with
    | none => rfl
    | some x =>
      obtain ⟨p, hp, hname⟩ : ∃ p ∈ s.refs, (s.entries p).key = key := by
        by_contra hno
        simp only [not_exists, not_and] at hno
        rw [ServerData.WF.contents_eq_none.mpr hno] at hkey
        cases hkey
      have hcontent := h.contents_of_mem hp
      rw [hname] at hcontent
      have hlt := hreaped pre now cmd key hpre hcmd s deadline hrun p hp hname d
        ((htracks key _ hcontent).trans hd)
      exact absurd hlt (UInt64.not_lt.mpr hdue)

/-- A key that is due at once. -/
def dueKey : List ServerOp :=
  [.request 5 [ascii ['s', 'e', 't'], ascii ['k'], ascii ['v']],
    .request 5 [ascii ['p', 'e', 'x', 'p', 'i', 'r', 'e'], ascii ['k'], ascii ['0']]]

/-- A `get` that is served before the timers are processed. -/
theorem dueKey_visible :
    ¬ ExpiredHidden (dueKey ++ [.request 5 [ascii ['g', 'e', 't'], ascii ['k']]]) := by
  intro hhidden
  obtain ⟨⟨s, deadline⟩, hrun⟩ :
      ∃ sd, runSteps ServerOp.track ({}, fun _ => none) dueKey = .ok sd := ⟨_, rfl⟩
  have hdeadline : deadline (ascii ['k']) = some 5 :=
    eq_of_toOption_map (f := fun sd => sd.2 (ascii ['k'])) hrun (by decide +kernel)
  obtain ⟨s', hnil⟩ := hhidden dueKey 5 [ascii ['g', 'e', 't'], ascii ['k']] (ascii ['k'])
    List.prefix_rfl rfl s deadline hrun 5 hdeadline (UInt64.le_refl 5)
  have hvalue := eq_of_toOption_map (f := fun sd : ServerData × (Bytes → Option UInt64) =>
      (runRequest 5 sd.1 [ascii ['g', 'e', 't'], ascii ['k']] []).toOption.map (·.2))
    (b := some (outStr [] (ascii ['v']))) hrun (by decide +kernel)
  simp only [hnil] at hvalue
  cases hvalue

/-! ## The type of a key -/

/-- The words of a request are cut from a frame, which has at most `kMaxMsg` bytes. -/
def ServerOp.Framed : ServerOp → Prop
  | .request _ cmd => ∀ w ∈ cmd, w.length ≤ kMaxMsg
  | .timers _ => True

/-- Every value can be sent. -/
def ValuesFit (c : Bytes → Option Content) : Prop := ∀ k x, c k = some x → x.value.length ≤ kMaxMsg

theorem ValuesFit.update {c : Bytes → Option Content} {key : Bytes} {y : Option Content}
    (h : ValuesFit c) (hy : ∀ x, y = some x → x.value.length ≤ kMaxMsg) :
    ValuesFit (Function.update c key y) :=
  forall_update_some (fun k x _ => h k x) hy

theorem ValuesFit.answers {now : UInt64} {c c' : Bytes → Option Content} {req : Request} {v : Value}
    (h : ValuesFit c) (hset : ∀ key value, req = .set key value → value.length ≤ kMaxMsg)
    (ha : req.Answers now c v c') : ValuesFit c' := by
  rcases ha.cases with rfl | ⟨key, y, hw, rfl⟩
  · exact h
  · refine h.update fun x hx => ?_
    cases hw with
    | set =>
      cases hx
      cases c key <;> exact hset key _ rfl
    | del => cases hx
    | zadd hscore hz =>
      cases hx
      rcases zsetFor_eq_some hz with ⟨hkey, -⟩ | ⟨-, rfl⟩
      · have hlen := h key _ hkey
        exact hlen
      · exact Nat.zero_le _
    | zrem | pexpire =>
      obtain ⟨x', hx', rfl⟩ := Option.map_eq_some_iff.mp hx
      exact h key x' hx'

theorem Request.ofCmd_eq_set {cmd : List Bytes} {key value : Bytes}
    (h : Request.ofCmd cmd = .set key value) : value ∈ cmd := by
  unfold Request.ofCmd at h
  repeat' split at h
  all_goals simp_all

theorem ValuesFit.step {op : ServerOp} (h : s.WF ∧ ValuesFit s.contents) (hframed : op.Framed)
    (hrun : op.apply s = .ok s') : s'.WF ∧ ValuesFit s'.contents := by
  obtain ⟨hwf, -, ⟨now, ks, rfl, -, hcontents⟩ | ⟨now, cmd, rfl, hrequest⟩⟩ := h.1.apply_cases hrun
  · exact ⟨hwf, forall_without_some hcontents h.2⟩
  · rcases hrequest with ⟨-, hsame⟩ | ⟨v, hanswers⟩
    · exact ⟨hwf, hsame ▸ h.2⟩
    · exact ⟨hwf, h.2.answers (fun key value hset => hframed value (Request.ofCmd_eq_set hset))
        hanswers⟩

theorem ValuesFit.run {ops : List ServerOp} (hframed : ∀ op ∈ ops, op.Framed)
    (hrun : runSteps ServerOp.apply {} ops = .ok s) : s.WF ∧ ValuesFit s.contents := by
  refine runSteps_prefix_invariant (motive := fun s : ServerData => s.WF ∧ ValuesFit s.contents)
    ⟨.empty, by rintro k x ⟨⟩⟩ (fun pre op s₁ s₂ hpre _ h hstep => ?_) List.prefix_rfl hrun
  exact ValuesFit.step h (hframed op (hpre.subset (by simp))) hstep

/-- The server answers a command with the value `v`. -/
def ServerData.AnswersWith (s : ServerData) (now : UInt64) (cmd : List Bytes) (v : Value) : Prop :=
  ∃ s', runRequest now s cmd [] = .ok (s', v.encode)

/-- The commands on sorted sets, with valid numbers. -/
def Request.IsZCommand (k : Bytes) : Request → Prop
  | .zadd key score _ => key = k ∧ (str2dbl score).isSome
  | .zrem key _ | .zscore key _ => key = k
  | .zquery key score _ offset limit =>
    key = k ∧ (str2dbl score).isSome ∧ (str2int offset).isSome ∧ (str2int limit).isSome
  | _ => False

/-- `get` answers with a string, and every command on sorted sets with `ERR_BAD_TYP`. -/
structure StringKey (s : ServerData) (k : Bytes) : Prop where
  get : ∀ now cmd, Request.ofCmd cmd = .get k → ∃ val, s.AnswersWith now cmd (.str val)
  zcommand : ∀ now cmd, (Request.ofCmd cmd).IsZCommand k →
    ∃ msg, s.AnswersWith now cmd (.err errBadTyp msg)

/-- `get` answers with `ERR_BAD_TYP`, and no command on sorted sets does. -/
structure ZsetKey (s : ServerData) (k : Bytes) : Prop where
  get : ∀ now cmd, Request.ofCmd cmd = .get k → ∃ msg, s.AnswersWith now cmd (.err errBadTyp msg)
  zcommand : ∀ now cmd, (Request.ofCmd cmd).IsZCommand k →
    ∀ msg, ¬ s.AnswersWith now cmd (.err errBadTyp msg)

/-- The commands on sorted sets refuse a key of another type. -/
theorem ServerData.WF.zcommand_badTyp {now : UInt64} {cmd : List Bytes} {k : Bytes} (h : s.WF)
    (hkey : zsetFor (s.contents k) = none) (hcmd : (Request.ofCmd cmd).IsZCommand k) :
    s.AnswersWith now cmd .badTyp := by
  obtain ⟨s₁, hexpect⟩ := h.expectZset_badType hkey
  unfold AnswersWith MiniRedis.runRequest
  cases hreq : Request.ofCmd cmd with
  | zadd key score name =>
    rw [hreq] at hcmd
    obtain ⟨rfl, hscore⟩ := hcmd
    obtain ⟨x, hx⟩ := Option.isSome_iff_exists.mp hscore
    obtain ⟨s₂, hadd⟩ := h.zaddEntry_badType hkey
    exact ⟨s₂, by simp only [MiniRedis.zcmdAdd, hx, hadd, ok_bind, pure_eq_ok]; rfl⟩
  | zrem key name =>
    rw [hreq] at hcmd
    obtain rfl : key = k := hcmd
    exact ⟨s₁, by simp only [MiniRedis.zcmdRemove, hexpect, ok_bind, pure_eq_ok]; rfl⟩
  | zscore key name =>
    rw [hreq] at hcmd
    obtain rfl : key = k := hcmd
    exact ⟨s₁, by simp only [MiniRedis.zcmdScore, hexpect, ok_bind, pure_eq_ok]; rfl⟩
  | zquery key score name offset limit =>
    rw [hreq] at hcmd
    obtain ⟨rfl, hscore, hoffset, hlimit⟩ := hcmd
    obtain ⟨x, hx⟩ := Option.isSome_iff_exists.mp hscore
    obtain ⟨i, hi⟩ := Option.isSome_iff_exists.mp hoffset
    obtain ⟨n, hn⟩ := Option.isSome_iff_exists.mp hlimit
    exact ⟨s₁, by simp only [MiniRedis.zcmdQuery, hx, hi, hn, hexpect, ok_bind, pure_eq_ok]; rfl⟩
  | _ => simp [hreq, Request.IsZCommand] at hcmd

/-- `get` never answers with an error. -/
theorem ServerData.WF.not_get_err {now : UInt64} {cmd : List Bytes} {k msg : Bytes} {code : UInt32}
    (h : s.WF) (hcmd : Request.ofCmd cmd = .get k) : ¬ s.AnswersWith now cmd (.err code msg) := by
  rintro ⟨s', hrun⟩
  obtain ⟨s₁, -, -, -, hget⟩ := h.getKey_eq k []
  rw [runRequest_get hcmd, hget] at hrun
  split at hrun
  · simp [Value.encode, Value.write, outNil, outErr, appendBufferU8, appendBufferU32, tagNil,
      tagErr] at hrun
  · split at hrun
    · simp [Value.encode, Value.write, outStr, outErr, appendBufferU8, appendBufferU32, tagStr,
        tagErr] at hrun
    · cases hrun

/-- `zscore` on a sorted set never answers with an error. -/
theorem ServerData.WF.not_zscore_err {now : UInt64} {cmd : List Bytes} {k name msg : Bytes}
    {code : UInt32} {x : Content} (h : s.WF) (hcmd : Request.ofCmd cmd = .zscore k name)
    (hkey : zsetFor (s.contents k) = some x) : ¬ s.AnswersWith now cmd (.err code msg) := by
  rintro ⟨s', hrun⟩
  have hhandled : (Request.zscore k name).Handled now s [] (MiniRedis.zcmdScore s k name []) :=
    h.zcmdScore k name
  simp only [MiniRedis.runRequest, hcmd] at hrun
  rw [hrun] at hhandled
  obtain ⟨-, -, v, hv, hanswers⟩ := hhandled
  simp only [Request.Answers, hkey] at hanswers
  obtain ⟨rfl, -⟩ := hanswers
  cases hscore : x.scores name with
  | none =>
    simp [hscore, Value.encode, Value.write, outNil, outErr, appendBufferU8, appendBufferU32, tagNil,
      tagErr] at hv
  | some d =>
    simp [hscore, Value.encode, Value.write, outDbl, outErr, appendBufferU8, appendBufferU32,
      appendBufferF64, tagDbl, tagErr] at hv

/-- `get` serves every key, so a key never behaves as a sorted set should. -/
theorem ServerData.WF.not_zsetKey (h : s.WF) (k : Bytes) : ¬ ZsetKey s k := fun hz => by
  have hget : Request.ofCmd [ascii ['g', 'e', 't'], k] = .get k := rfl
  obtain ⟨msg, hmsg⟩ := hz.get 0 _ hget
  exact h.not_get_err hget hmsg

theorem ServerData.WF.not_stringKey {k : Bytes} {x : Content} (h : s.WF)
    (hkey : zsetFor (s.contents k) = some x) : ¬ StringKey s k := fun hs => by
  have hzscore : Request.ofCmd [ascii ['z', 's', 'c', 'o', 'r', 'e'], k, []] = .zscore k [] := rfl
  obtain ⟨msg, hmsg⟩ := hs.zcommand 0 _ (by rw [hzscore]; exact rfl)
  exact h.not_zscore_err hzscore hkey hmsg

theorem ServerData.WF.stringKey {k : Bytes} {x : Content} (h : s.WF) (hfit : ValuesFit s.contents)
    (hkey : s.contents k = some x) (hset : zsetFor (s.contents k) = none) : StringKey s k := by
  refine ⟨fun now cmd hcmd => ?_, fun now cmd hcmd => ⟨_, h.zcommand_badTyp hset hcmd⟩⟩
  obtain ⟨s₁, -, -, -, hrun⟩ := h.getKey_eq k []
  refine ⟨x.value, s₁, ?_⟩
  rw [runRequest_get hcmd, hrun, hkey]
  exact if_pos (hfit _ _ hkey)

theorem ServerData.WF.zsetFor_eq {p : EPtr} (h : s.WF) (hp : p ∈ s.refs) :
    zsetFor (s.contents (s.entries p).key) =
      if (s.entries p).type = .zset then some (s.content p) else none := by
  simp [h.contents_of_mem hp, zsetFor, ServerData.content]

/-- The exception to the law that a key has exactly one type: the law holds for the keys that are no
sorted sets, and for no other. -/
theorem typeLaw_iff {ops : List ServerOp} {p : EPtr} (hframed : ∀ op ∈ ops, op.Framed)
    (hrun : runSteps ServerOp.apply {} ops = .ok s) (hp : p ∈ s.refs) :
    Xor (StringKey s (s.entries p).key) (ZsetKey s (s.entries p).key) ↔
      (s.entries p).type ≠ .zset := by
  obtain ⟨h, hfit⟩ := ValuesFit.run hframed hrun
  have hset := h.zsetFor_eq hp
  have hzset := h.not_zsetKey (s.entries p).key
  by_cases htype : (s.entries p).type = .zset
  · have hstring := h.not_stringKey (hset.trans (if_pos htype))
    simp [Xor, hzset, hstring, htype]
  · have hstring := h.stringKey hfit (h.contents_of_mem hp) (hset.trans (if_neg htype))
    simp [Xor, hzset, hstring, htype]

theorem typeLaw_iff_set :
    ∃ s, runSteps ServerOp.apply {} [.request 0 [ascii ['s', 'e', 't'], ascii ['k'], ascii ['v']]] =
        .ok s ∧ 0 ∈ s.refs ∧ Xor (StringKey s (s.entries 0).key) (ZsetKey s (s.entries 0).key) := by
  obtain ⟨s, hs⟩ : ∃ s, runSteps ServerOp.apply {}
      [.request 0 [ascii ['s', 'e', 't'], ascii ['k'], ascii ['v']]] = .ok s := ⟨_, rfl⟩
  have hrefs : s.refs = [0] := eq_of_toOption_map hs (by decide +kernel)
  have htype : (s.entries 0).type = .init :=
    eq_of_toOption_map (f := fun s => (s.entries 0).type) hs (by decide +kernel)
  have hp : 0 ∈ s.refs := by simp [hrefs]
  refine ⟨s, hs, hp, (typeLaw_iff (fun op hop => ?_) hs hp).mpr (by simp [htype])⟩
  obtain rfl := List.mem_singleton.mp hop
  simp [ServerOp.Framed, ascii, kMaxMsg]

/-- A key that `zadd` creates obeys neither of the two laws. -/
theorem typeLaw_broken_by_zadd :
    ∃ s, runSteps ServerOp.apply {}
        [.request 0 [ascii ['z', 'a', 'd', 'd'], ascii ['k'], ascii ['1'], ascii ['m']]] = .ok s ∧
      0 ∈ s.refs ∧ ¬ Xor (StringKey s (s.entries 0).key) (ZsetKey s (s.entries 0).key) := by
  obtain ⟨s, hs⟩ : ∃ s, runSteps ServerOp.apply {}
      [.request 0 [ascii ['z', 'a', 'd', 'd'], ascii ['k'], ascii ['1'], ascii ['m']]] = .ok s :=
    ⟨_, rfl⟩
  have hrefs : s.refs = [0] := eq_of_toOption_map hs (by decide +kernel)
  have htype : (s.entries 0).type = .zset :=
    eq_of_toOption_map (f := fun s => (s.entries 0).type) hs (by decide +kernel)
  have hp : 0 ∈ s.refs := by simp [hrefs]
  obtain ⟨h, -⟩ := ServerData.WF.empty.run hs
  have hstring := h.not_stringKey ((h.zsetFor_eq hp).trans (if_pos htype))
  exact ⟨s, hs, hp, by simp [Xor, hstring, h.not_zsetKey]⟩

end MiniRedis
