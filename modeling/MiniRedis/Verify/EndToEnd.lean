import MiniRedis.Verify.Client
import MiniRedis.Verify.Commands
import MiniRedis.Verify.Netio
import MiniRedis.Verify.Protocol
import MiniRedis.Verify.RangeQuery

/-! # From the server to the client

Every complete frame is answered with one frame that holds one value, and the client reads it. -/

namespace MiniRedis

variable {s : ServerData} {now : UInt64} {request : Bytes}

/-- The response to a frame is one value. -/
theorem ServerData.WF.respond (h : s.WF) (hsmall : s.Small) (now : UInt64) (request : Bytes) :
    (∃ e, respond now s request = .error e ∧ e.IsAbort) ∨
      ∃ s' v, respond now s request = .ok (s', Value.encode v) := by
  unfold MiniRedis.respond
  cases parseRequest request with
  | none => exact .inr ⟨s, .err errBadArg malformedText, rfl⟩
  | some cmd =>
    have hhandled := h.runRequest now cmd [] fun _ => hsmall
    cases hrun : MiniRedis.runRequest now s cmd [] with
    | error e =>
      rw [hrun] at hhandled
      exact .inl ⟨e, by simp only [hrun, error_bind], hhandled⟩
    | ok r =>
      rw [hrun] at hhandled
      obtain ⟨-, -, v, hv, -⟩ := hhandled
      refine .inr ⟨r.1, if r.2.length > kMaxMsg then .err errTooBig tooBigText else v, ?_⟩
      simp only [hrun, ok_bind, pure_eq_ok, capResponse]
      split
      · rfl
      · rw [hv]
        rfl

/-- **Every response is one that the client accepts.** A complete frame is answered by appending one
frame to the outgoing bytes, unless the execution is stopped by an assertion or a failed allocation.
The payload is the encoding of one value with exact lengths and counts; `print_response` consumes all
of it and `read_response` returns its length. A response that is too big is replaced by an error. -/
theorem handleOneRequest_accepted {conn : Connection} {rest : Bytes} (h : s.WF) (hsmall : s.Small)
    (hframe : nextFrame? kMaxMsg conn.incoming = some (request, rest)) (now : UInt64) :
    (∃ e, handleOneRequest now s conn = .error e ∧ e.IsAbort) ∨
    ∃ s' v, handleOneRequest now s conn = .ok (true, s',
        { conn with incoming := rest, outgoing := conn.outgoing ++ frame (Value.encode v) }) ∧
      v.encode.length ≤ kMaxMsg ∧ v.LengthsFit ∧
      (∃ rv out, printResponse (v.encode.length + 1) v.encode = .ok (rv, out) ∧
        rv.toInt = v.encode.length) ∧
      (∀ more, ∃ rv out, readResponse (frame v.encode ++ more) = .ok (rv, out) ∧
        rv.toInt = v.encode.length ∧ 0 < rv) ∧
      ∀ cmd s₁ payload, parseRequest request = some cmd →
        runRequest now s cmd [] = .ok (s₁, payload) →
        v.encode = if payload.length > kMaxMsg then outErr [] errTooBig tooBigText else payload := by
  have hone := handleOneRequest_of_frame hframe now s
  rcases h.respond hsmall now request with ⟨e, he, habort⟩ | ⟨s', v, hv⟩
  · rw [he] at hone
    exact .inl ⟨e, hone, habort⟩
  · rw [hv] at hone
    have hlen : v.encode.length ≤ kMaxMsg := respond_length hv
    have hlt : v.encode.length < 2 ^ 31 := Nat.lt_of_le_of_lt hlen (by decide)
    have hpos := length_encode_pos v
    have hrv : (Int32.ofNat v.encode.length).toInt = v.encode.length := Int32.toInt_ofNat_of_lt hlt
    refine .inr ⟨s', v, hone, hlen, v.lengthsFit (by omega), ⟨_, v.printed, ?_, hrv⟩,
      fun more => ⟨_, v.printed, readResponse_frame v more hlen, hrv, ?_⟩,
      fun cmd s₁ payload hparse hrun => ?_⟩
    · have hprint := printResponse_encode v [] (by simpa using hlen)
        (Nat.le_add_right v.encode.length 1)
      rwa [List.append_nil] at hprint
    · rw [Int32.lt_iff_toInt_lt, hrv, Int32.toInt_zero]
      omega
    · simp only [respond, hparse, hrun, ok_bind, pure_eq_ok] at hv
      exact (Prod.mk.inj (Except.ok.inj hv)).2.symm

def zqueryRequest : Bytes :=
  encodeRequest [ascii ['z', 'q', 'u', 'e', 'r', 'y'], ascii ['k'], ascii ['1'], ascii ['a'], ascii ['0'],
    ascii ['9']]

/-- Two members: an array of four elements. -/
theorem handleOneRequest_accepted_twoMembers :
    ∃ s s' v, runSteps ServerOp.apply {} QueryOn.twoMembers = .ok s ∧
      handleOneRequest 0 s { incoming := frame zqueryRequest } = .ok (true, s',
        { outgoing := frame (Value.encode v) }) ∧
      v.encode.take 5 = tagArr :: leEncode 4 4 ∧
      (∃ rv out, readResponse (frame v.encode) = .ok (rv, out) ∧ 0 < rv) := by
  obtain ⟨s, hs⟩ : ∃ s, runSteps ServerOp.apply {} QueryOn.twoMembers = .ok s := ⟨_, rfl⟩
  have hrefs : s.refs = [0] := eq_of_toOption_map hs (by decide +kernel)
  have hsizes : (hmSize s.db, hmSize (s.entries 0).zset.hmap) = (1, 2) :=
    eq_of_toOption_map (f := fun s => (hmSize s.db, hmSize (s.entries 0).zset.hmap)) hs (by decide +kernel)
  obtain ⟨hkeys, hmembers⟩ := Prod.mk.inj hsizes
  have hsmall : s.Small := by
    refine ⟨by rw [hkeys]; decide, fun p hp => ?_⟩
    rw [hrefs] at hp
    rw [List.mem_singleton.mp hp, hmembers]
    decide
  have heval : (runSteps ServerOp.apply {} QueryOn.twoMembers >>= fun s =>
      handleOneRequest 0 s { incoming := frame zqueryRequest }).toOption.map
        (fun r => (r.2.2.outgoing.drop 4).take 5) = some (tagArr :: leEncode 4 4) := by decide +kernel
  rw [hs, ok_bind] at heval
  have hframe : nextFrame? kMaxMsg (Connection.incoming { incoming := frame zqueryRequest }) =
      some (zqueryRequest, []) := (nextFrame?_eq_some kMaxMsg_lt).mpr ⟨by simp, by decide⟩
  have hwf := (ServerData.WF.empty.run hs).1
  rcases handleOneRequest_accepted hwf hsmall hframe 0 with
    ⟨e, he, -⟩ | ⟨s', v, hv, -, -, -, hread, -⟩
  · rw [he] at heval
    cases heval
  · obtain ⟨rv, out, hrv, -, hpos⟩ := hread []
    rw [List.append_nil] at hrv
    refine ⟨s, s', v, hs, hv, ?_, rv, out, hrv, hpos⟩
    rw [hv] at heval
    exact Option.some.inj heval

end MiniRedis
