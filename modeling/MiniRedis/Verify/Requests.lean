import MiniRedis.Verify.History
import MiniRedis.Verify.Netio
import MiniRedis.Verify.Protocol
import MiniRedis.Verify.RangeQuery

/-! # Whole requests

What a frame does to the contents of the server, from its bytes to the frame of the response. -/

namespace MiniRedis

/-- The requests that only read. -/
def Request.ReadOnly : Request → Prop
  | .get _ | .keys | .zscore .. | .zquery .. | .pttl _ | .ping => True
  | .set .. | .del _ | .zadd .. | .zrem .. | .pexpire .. | .unknown => False

/-- A request that writes is not one of those that only read, and its answer is short. -/
theorem Request.Writes.answer {now : UInt64} {c : Bytes → Option Content} {req : Request} {v : Value}
    {key : Bytes} {y : Option Content} (h : req.Writes now c v key y) :
    ¬ req.ReadOnly ∧ v.encode.length ≤ 9 ∧ v.encode.head? ≠ some tagErr := by
  cases h with
  | set => exact ⟨id, by decide, by decide⟩
  | del | zadd | zrem | pexpire =>
    exact ⟨id, by simp [Value.encode, Value.write, outInt, appendBufferU8, appendBufferI64],
      by simp [Value.encode, Value.write, outInt, appendBufferU8, appendBufferI64, tagInt, tagErr]⟩

/-- A request that returns changes nothing, or it is a write with a short answer. -/
theorem ServerData.WF.runRequest_unchanged {s s' : ServerData} {now : UInt64} {cmd : List Bytes}
    {value : Bytes} (h : s.WF) (hrun : MiniRedis.runRequest now s cmd [] = .ok (s', value)) :
    s'.WF ∧ (s'.contents = s.contents ∨
      ¬ (Request.ofCmd cmd).ReadOnly ∧ value.length ≤ 9 ∧ value.head? ≠ some tagErr) := by
  obtain ⟨hwf, -, ⟨-, hsame⟩ | ⟨v, rfl, hanswers⟩⟩ := h.runRequest_ok hrun
  · exact ⟨hwf, .inl hsame⟩
  · refine ⟨hwf, ?_⟩
    rcases hanswers.cases with hsame | ⟨key, y, hw, -⟩
    · exact .inl hsame
    · exact .inr hw.answer

/-- **Failed and read-only requests change nothing.** If the response to a frame is an error, or the
command is one of those that only read, the contents are the same after it: the keys, and the type,
the value, the scores and the deadline of each. A command whose response is too big, so that it is
replaced, has changed nothing. -/
theorem handleOneRequest_unchanged {s s' : ServerData} {now : UInt64} {conn conn' : Connection}
    {request rest : Bytes} (h : s.WF) (hframe : nextFrame? kMaxMsg conn.incoming = some (request, rest))
    (hrun : handleOneRequest now s conn = .ok (true, s', conn')) :
    ∃ payload, conn'.outgoing = conn.outgoing ++ frame payload ∧ s'.WF ∧
      (payload.head? = some tagErr → s'.contents = s.contents) ∧
      (∀ cmd, parseRequest request = some cmd → (Request.ofCmd cmd).ReadOnly →
        s'.contents = s.contents) ∧
      (∀ cmd s₁ value, parseRequest request = some cmd →
        runRequest now s cmd [] = .ok (s₁, value) → value.length > kMaxMsg →
        payload = outErr [] errTooBig tooBigText ∧ s'.contents = s.contents) := by
  obtain ⟨payload, hresp, rfl⟩ := handleOneRequest_answered hframe hrun
  refine ⟨payload, rfl, ?_⟩
  rcases respond_eq_ok hresp with ⟨hparse, rfl, rfl⟩ | ⟨cmd, value, hparse, hreq, rfl⟩
  · exact ⟨h, fun _ => rfl, by simp [hparse], by simp [hparse]⟩
  obtain ⟨hwf, hsame | ⟨hwrites, hshort, hhead⟩⟩ := h.runRequest_unchanged hreq
  · refine ⟨hwf, fun _ => hsame, fun _ _ _ => hsame, fun cmd' s₁ value' hparse' hreq' hbig => ?_⟩
    obtain rfl : cmd = cmd' := Option.some.inj (hparse.symm.trans hparse')
    cases hreq.symm.trans hreq'
    exact ⟨if_pos hbig, hsame⟩
  · have hfits : value.length ≤ kMaxMsg := Nat.le_trans hshort (by decide)
    have hcap : capResponse value = value := if_neg (Nat.not_lt.mpr hfits)
    refine ⟨hwf, fun herr => absurd (hcap ▸ herr) hhead, fun cmd' hparse' hread => ?_,
      fun cmd' s₁ value' hparse' hreq' hbig => ?_⟩
    · obtain rfl : cmd = cmd' := Option.some.inj (hparse.symm.trans hparse')
      exact absurd hread hwrites
    · obtain rfl : cmd = cmd' := Option.some.inj (hparse.symm.trans hparse')
      cases hreq.symm.trans hreq'
      exact absurd hbig (Nat.not_lt.mpr hfits)

def stringZadd : Bytes :=
  encodeRequest [ascii ['z', 'a', 'd', 'd'], ascii ['k'], ascii ['1'], ascii ['a']]

/-- The key holds a string: `zadd` fails, and the deadline of the key stays. -/
theorem handleOneRequest_unchanged_expiringKey :
    ∃ s s' conn', runSteps ServerOp.apply {} ServerData.expiringKey = .ok s ∧ s.heap.items.length = 1 ∧
      handleOneRequest 5 s { incoming := frame stringZadd } = .ok (true, s', conn') ∧
      (conn'.outgoing.drop 4).head? = some tagErr ∧ s'.contents = s.contents := by
  obtain ⟨s, hs⟩ : ∃ s, runSteps ServerOp.apply {} ServerData.expiringKey = .ok s := ⟨_, rfl⟩
  have hitems : s.heap.items.length = 1 :=
    eq_of_toOption_map (f := fun s => s.heap.items.length) hs (by decide +kernel)
  have heval : (runSteps ServerOp.apply {} ServerData.expiringKey >>= fun s =>
      handleOneRequest 5 s { incoming := frame stringZadd }).toOption.map
        (fun r => (r.1, (r.2.2.outgoing.drop 4).head?)) = some (true, some tagErr) := by decide +kernel
  rw [hs, ok_bind] at heval
  obtain ⟨⟨more, s', conn'⟩, hrun, hsent⟩ := exists_ok_of_toOption_map heval
  obtain ⟨rfl, herr⟩ := Prod.mk.inj hsent
  have hframe : nextFrame? kMaxMsg (frame stringZadd) = some (stringZadd, []) :=
    (nextFrame?_eq_some kMaxMsg_lt).mpr ⟨by simp, by decide⟩
  have hwf := (ServerData.WF.empty.run hs).1
  obtain ⟨payload, hout, -, hfailed, -⟩ := handleOneRequest_unchanged hwf hframe hrun
  refine ⟨s, s', conn', hs, hitems, hrun, herr, hfailed ?_⟩
  rw [← herr, hout]
  rfl

/-! ## What is stored can be sent -/

theorem length_encodeRequest (args : List Bytes) :
    (encodeRequest args).length = 4 + (args.map fun arg => 4 + arg.length).sum := by
  simp [encodeRequest, List.length_flatMap, length_frame]

theorem Request.cmd_of_set {cmd : List Bytes} {key value : Bytes}
    (h : Request.ofCmd cmd = .set key value) : cmd = [ascii ['s', 'e', 't'], key, value] := by
  unfold Request.ofCmd at h
  repeat' split at h
  all_goals simp_all

theorem Request.cmd_of_zadd {cmd : List Bytes} {key score name : Bytes}
    (h : Request.ofCmd cmd = .zadd key score name) :
    cmd = [ascii ['z', 'a', 'd', 'd'], key, score, name] := by
  unfold Request.ofCmd at h
  repeat' split at h
  all_goals simp_all

/-- The value and the names fit into a frame together with the smallest request that stores them. -/
structure Content.Fits (x : Content) : Prop where
  value : x.value.length + 19 ≤ kMaxMsg
  names : ∀ name, x.scores name ≠ none → name.length + 24 ≤ kMaxMsg

def StoredFit (c : Bytes → Option Content) : Prop := ∀ k x, c k = some x → x.Fits

theorem StoredFit.update {c : Bytes → Option Content} {key : Bytes} {y : Option Content}
    (h : StoredFit c) (hy : ∀ x, y = some x → x.Fits) : StoredFit (Function.update c key y) :=
  forall_update_some (fun k x _ => h k x) hy

theorem Content.Fits.withScores {x : Content} {scores : Bytes → Option Double} (h : x.Fits)
    (hscores : ∀ name, scores name ≠ none → x.scores name ≠ none ∨ name.length + 24 ≤ kMaxMsg) :
    ({ x with scores } : Content).Fits :=
  ⟨h.value, fun name hname => (hscores name hname).elim (h.names name) id⟩

theorem StoredFit.answers {now : UInt64} {c c' : Bytes → Option Content} {req : Request} {v : Value}
    (h : StoredFit c) (ha : req.Answers now c v c')
    (hset : ∀ key value, req = .set key value → value.length + 19 ≤ kMaxMsg)
    (hzadd : ∀ key score name, req = .zadd key score name → name.length + 24 ≤ kMaxMsg) :
    StoredFit c' := by
  rcases ha.cases with rfl | ⟨key, y, hw, rfl⟩
  · exact h
  · refine h.update fun x hx => ?_
    cases hw with
    | set =>
      cases hx
      cases hkey : c key with
      | none => exact ⟨hset key _ rfl, fun name hname => absurd rfl hname⟩
      | some x => exact ⟨hset key _ rfl, (h key x hkey).names⟩
    | del => cases hx
    | @zadd _ _ _ x name hscore hz =>
      cases hx
      have hfits : x.Fits := by
        rcases zsetFor_eq_some hz with ⟨hkey, -⟩ | ⟨-, rfl⟩
        · exact h key x hkey
        · exact ⟨by decide, fun name hname => absurd rfl hname⟩
      refine hfits.withScores fun name' hname' => ?_
      by_cases hn : name' = name
      · exact .inr (hn ▸ hzadd _ _ name rfl)
      · rw [Function.update_of_ne hn] at hname'
        exact .inl hname'
    | @zrem _ _ name hz =>
      obtain ⟨x', hx', rfl⟩ := Option.map_eq_some_iff.mp hx
      refine (h key x' hx').withScores fun name' hname' => .inl ?_
      by_cases hn : name' = name
      · rw [hn, Function.update_self] at hname'
        exact absurd rfl hname'
      · rwa [Function.update_of_ne hn] at hname'
    | pexpire =>
      obtain ⟨x', hx', rfl⟩ := Option.map_eq_some_iff.mp hx
      exact ⟨(h key x' hx').value, (h key x' hx').names⟩

/-- A call of `handle_one_request` for some connection, or of `process_timers`. -/
inductive FrameOp where
  | frame (now : UInt64) (conn : Connection)
  | timers (now : UInt64)

def FrameOp.apply (s : ServerData) : FrameOp → Result ServerData
  | .frame now conn => do
    let (_, s, _) ← handleOneRequest now s conn
    return s
  | .timers now => expireKeys now s

theorem StoredFit.step {s s' : ServerData} {op : FrameOp} (h : s.WF ∧ StoredFit s.contents)
    (hrun : op.apply s = .ok s') : s'.WF ∧ StoredFit s'.contents := by
  cases op with
  | timers now =>
    obtain ⟨s₁, ks, hloop, hwf, -, -, hcontents⟩ := h.1.expireLoop now kMaxWorks
    obtain rfl : s₁ = s' := Except.ok.inj (hloop.symm.trans hrun)
    exact ⟨hwf, forall_without_some hcontents h.2⟩
  | frame now conn =>
    obtain ⟨⟨b, s₁, conn'⟩, hone, hret⟩ := bind_eq_ok.mp hrun
    obtain rfl : s₁ = s' := Except.ok.inj hret
    rcases handleOneRequest_eq_ok hone with ⟨-, rfl⟩ | ⟨request, rest, payload, hframe, hresp, -⟩
    · exact h
    have hlen := ((nextFrame?_eq_some kMaxMsg_lt).mp hframe).2
    rcases respond_eq_ok hresp with ⟨-, rfl, -⟩ | ⟨cmd, value, hparse, hreq, -⟩
    · exact h
    obtain ⟨-, rfl⟩ := parseRequest_eq_some.mp hparse
    obtain ⟨hwf, -, ⟨-, hsame⟩ | ⟨v, -, hanswers⟩⟩ := h.1.runRequest_ok hreq
    · exact ⟨hwf, hsame ▸ h.2⟩
    · refine ⟨hwf, h.2.answers hanswers (fun key value hset => ?_) fun key score name hz => ?_⟩
      · rw [Request.cmd_of_set hset, length_encodeRequest] at hlen
        simp [ascii] at hlen
        omega
      · rw [Request.cmd_of_zadd hz, length_encodeRequest] at hlen
        simp [ascii] at hlen
        omega

theorem StoredFit.run {s : ServerData} {ops : List FrameOp}
    (hrun : runSteps FrameOp.apply {} ops = .ok s) : s.WF ∧ StoredFit s.contents :=
  runSteps_invariant (motive := fun s : ServerData => s.WF ∧ StoredFit s.contents)
    (fun _ _ h _ hstep => StoredFit.step h hstep) ⟨.empty, by rintro k x ⟨⟩⟩ hrun

/-- A frame whose request returns a payload that can be sent. -/
theorem handleOneRequest_of_run {s s' : ServerData} {now : UInt64} {conn : Connection}
    {request rest value : Bytes} {cmd : List Bytes}
    (hframe : nextFrame? kMaxMsg conn.incoming = some (request, rest))
    (hparse : parseRequest request = some cmd)
    (hreq : runRequest now s cmd [] = .ok (s', value)) (hfits : value.length ≤ kMaxMsg) :
    handleOneRequest now s conn = .ok (true, s',
      { conn with incoming := rest, outgoing := conn.outgoing ++ frame value }) := by
  have hcap : capResponse value = value := if_neg (Nat.not_lt.mpr hfits)
  rw [handleOneRequest_of_frame hframe, respond]
  simp only [hparse, hreq, ok_bind, pure_eq_ok, hcap]
  rfl

/-- A query of one pair from a member on, if it returns, answers with the member. -/
theorem ServerData.WF.zcmdQuery_member {s s' : ServerData} {x : Content} {score : Double}
    {key scoreText name offsetText limitText resp resp' : Bytes} (h : s.WF)
    (hkey : s.contents key = some x) (hz : x.isZset = true) (hmember : x.scores name = some score)
    (hscore : str2dbl scoreText = some score) (hoffset : str2int offsetText = some 0)
    (hlimit : str2int limitText = some 1)
    (hrun : MiniRedis.zcmdQuery s key scoreText name offsetText limitText resp = .ok (s', resp')) :
    resp' = (Value.arr [.str name, .dbl score.bits]).write resp := by
  have hset : zsetFor (s.contents key) = some x := by rw [hkey, zsetFor, if_pos hz]
  simp only [MiniRedis.zcmdQuery, hscore, hoffset, hlimit] at hrun
  rcases h.expectZset key with ⟨p, s₁, hexpect, h₁, -, -, hp, -, -, hx, -⟩ |
    ⟨s₁, -, -, -, -, hnone⟩ | ⟨s₁, -, -, -, -, hnone⟩
  · obtain rfl : x = s₁.content p := Option.some.inj (hset.symm.trans hx)
    obtain ⟨t, ht⟩ := h₁.zsets p hp
    obtain ⟨q, hq, rfl, rfl⟩ := ht.scoreOf_eq_some.mp hmember
    simp only [hexpect, ok_bind] at hrun
    obtain ⟨r, hquery, hret⟩ := bind_eq_ok.mp hrun
    cases hret
    exact ht.queryZset_self hq hquery
  · rw [hkey] at hnone
    cases hnone
  · rw [hset] at hnone
    cases hnone

/-- **What is stored can be read back.** In every run whose requests arrive in frames, `get` on a key
with a string answers with the string, whatever its size, and a `zquery` of one pair from a member on
is never answered with anything but the member. (It is answered if the set has fewer than `2 ^ 32`
members.) -/
theorem stored_readable {s : ServerData} {ops : List FrameOp} {key : Bytes} {x : Content}
    {conn : Connection} {request rest : Bytes} {cmd : List Bytes}
    (hrun : runSteps FrameOp.apply {} ops = .ok s) (hkey : s.contents key = some x)
    (hframe : nextFrame? kMaxMsg conn.incoming = some (request, rest))
    (hparse : parseRequest request = some cmd) (now : UInt64) :
    (x.isZset = false → Request.ofCmd cmd = .get key →
      ∃ s', handleOneRequest now s conn = .ok (true, s',
        { conn with incoming := rest, outgoing := conn.outgoing ++ frame (outStr [] x.value) })) ∧
    (∀ (name : Bytes) (score : Double) (scoreText offsetText limitText : Bytes), x.isZset = true →
      x.scores name = some score →
      Request.ofCmd cmd = .zquery key scoreText name offsetText limitText →
      str2dbl scoreText = some score → str2int offsetText = some 0 → str2int limitText = some 1 →
      (∀ more s' conn', handleOneRequest now s conn = .ok (more, s', conn') →
        conn' = { conn with
          incoming := rest
          outgoing := conn.outgoing ++ frame (Value.arr [.str name, .dbl score.bits]).encode }) ∧
      ∀ S, Listing x.scores S → S.length < 2 ^ 32 →
        ∃ more s' conn', handleOneRequest now s conn = .ok (more, s', conn')) := by
  obtain ⟨h, hstored⟩ := StoredFit.run hrun
  have hfits := hstored key x hkey
  refine ⟨fun _ hget => ?_, fun name score scoreText offsetText limitText hz hmember hquery hscore
    hoffset hlimit => ⟨fun more s' conn' hone => ?_, fun S hS hlen => ?_⟩⟩
  · obtain ⟨s', -, -, -, hgetKey⟩ := h.getKey_eq key []
    have hvalue := hfits.value
    rw [hkey] at hgetKey
    simp only [if_pos (by omega : x.value.length ≤ kMaxMsg)] at hgetKey
    refine ⟨s', handleOneRequest_of_run hframe hparse (by rw [runRequest, hget]; exact hgetKey) ?_⟩
    simp [outStr, appendBufferU8, appendBufferU32]
    omega
  · obtain ⟨payload, hresp, rfl⟩ := handleOneRequest_answered hframe hone
    rcases respond_eq_ok hresp with ⟨hparse', -⟩ | ⟨cmd', value, hparse', hreq, rfl⟩
    · rw [hparse] at hparse'
      cases hparse'
    obtain rfl : cmd = cmd' := Option.some.inj (hparse.symm.trans hparse')
    rw [runRequest, hquery] at hreq
    obtain rfl := h.zcmdQuery_member hkey hz hmember hscore hoffset hlimit hreq
    have hname := hfits.names name (by simp [hmember])
    have hcap : capResponse ((Value.arr [.str name, .dbl score.bits]).write []) =
        (Value.arr [.str name, .dbl score.bits]).encode := by
      refine if_neg (Nat.not_lt.mpr ?_)
      simp [Value.write, writeAll, outArr, outStr, outDbl, appendBufferU8, appendBufferU32,
        appendBufferF64]
      omega
    rw [hcap]
  · have hset : zsetFor (s.contents key) = some x := by rw [hkey, zsetFor, if_pos hz]
    obtain ⟨s', hreq, -⟩ := h.zcmdQuery_slice hset hS hlen hscore hoffset hlimit name []
    obtain ⟨payload, hresp⟩ : ∃ payload, respond now s request = .ok (s', payload) :=
      ⟨_, by simp only [respond, hparse, runRequest, hquery, hreq, ok_bind, pure_eq_ok]; rfl⟩
    exact ⟨true, s', _, by rw [handleOneRequest_of_frame hframe, hresp]; rfl⟩

/-- A string, stored and read in two frames. -/
theorem stored_readable_set :
    ∃ s s', runSteps FrameOp.apply {} [.frame 0 { incoming := frame (encodeRequest
        [ascii ['s', 'e', 't'], ascii ['k'], ascii ['v']]) }] = .ok s ∧
      handleOneRequest 1 s { incoming := frame (encodeRequest [ascii ['g', 'e', 't'], ascii ['k']]) } =
        .ok (true, s', { outgoing := frame (outStr [] (ascii ['v'])) }) := by
  obtain ⟨s, hs⟩ : ∃ s, runSteps FrameOp.apply {} [.frame 0 { incoming := frame (encodeRequest
      [ascii ['s', 'e', 't'], ascii ['k'], ascii ['v']]) }] = .ok s := ⟨_, rfl⟩
  have hrefs : s.refs = [0] := eq_of_toOption_map hs (by decide +kernel)
  have hentry : (s.entries 0).key = ascii ['k'] ∧ (s.entries 0).type = .init ∧
      (s.entries 0).value = ascii ['v'] :=
    ⟨eq_of_toOption_map (f := fun s => (s.entries 0).key) hs (by decide +kernel),
      eq_of_toOption_map (f := fun s => (s.entries 0).type) hs (by decide +kernel),
      eq_of_toOption_map (f := fun s => (s.entries 0).value) hs (by decide +kernel)⟩
  have hkey : s.contents (ascii ['k']) = some (s.content 0) :=
    hentry.1 ▸ (StoredFit.run hs).1.contents_of_mem (by simp [hrefs])
  have hframe : nextFrame? kMaxMsg (Connection.incoming { incoming := frame (encodeRequest
      [ascii ['g', 'e', 't'], ascii ['k']]) }) =
        some (encodeRequest [ascii ['g', 'e', 't'], ascii ['k']], []) :=
    (nextFrame?_eq_some kMaxMsg_lt).mpr ⟨by simp, by decide⟩
  have hparse : parseRequest (encodeRequest [ascii ['g', 'e', 't'], ascii ['k']]) =
      some [ascii ['g', 'e', 't'], ascii ['k']] := by decide
  obtain ⟨s', hget⟩ := (stored_readable hs hkey hframe hparse 1).1
    (by simp [ServerData.content, hentry.2.1]) (by decide)
  have hvalue : (s.content 0).value = ascii ['v'] := hentry.2.2
  rw [hvalue] at hget
  exact ⟨s, s', hs, hget⟩

end MiniRedis
