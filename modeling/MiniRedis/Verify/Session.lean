import MiniRedis.Model.Session
import MiniRedis.Verify.Capacity
import MiniRedis.Verify.EndToEnd
import MiniRedis.Verify.Serial

/-! # A session

The client of `client.cpp` talks to the server, and other clients do what they like. The two ends are
coupled by the bytes alone: the server has read a first part of what the client wrote, and the client has
read a first part of what was written to its connection. Between the two there is one request at a time. -/

namespace MiniRedis

/-! ## What the client has said and read -/

/-- Where the client stands determines how far it is with the requests and the payloads of their
responses. -/
def ClientAt.Speaks (requests payloads : List Bytes) (wrote read : Bytes) : ClientAt → Prop
  | .prompt => requests.length = payloads.length ∧ wrote = (requests.map frame).flatten ∧
      read = (payloads.map frame).flatten
  | .writing rest => requests.length = payloads.length + 1 ∧ rest ≠ [] ∧
      wrote ++ rest = (requests.map frame).flatten ∧ read = (payloads.map frame).flatten
  | .header got => requests.length = payloads.length + 1 ∧ got.length < 4 ∧
      wrote = (requests.map frame).flatten ∧ read = (payloads.map frame).flatten ++ got
  | .payload len got => requests.length = payloads.length + 1 ∧ got.length < len.toNat ∧
      len.toNat ≤ kMaxMsg ∧ wrote = (requests.map frame).flatten ∧
      read = (payloads.map frame).flatten ++ (leEncode 4 len.toNat ++ got)
  | .closed why => requests.length ≤ payloads.length + 1 ∧ payloads.length ≤ requests.length ∧
      wrote <+: (requests.map frame).flatten ∧ (payloads.map frame).flatten <+: read ∧
      why ≠ .badResponseLength ∧ why ≠ .badResponse

/-- The client may leave its loop at any time. -/
theorem ClientAt.Speaks.close {requests payloads : List Bytes} {wrote read : Bytes} {phase : ClientAt}
    {why : ClientEnd} (h : phase.Speaks requests payloads wrote read)
    (hwhy : why ≠ .badResponseLength ∧ why ≠ .badResponse) :
    (closed why).Speaks requests payloads wrote read := by
  cases phase with
  | prompt =>
    obtain ⟨hturn, rfl, rfl⟩ := h
    exact ⟨by omega, by omega, List.prefix_rfl, List.prefix_rfl, hwhy⟩
  | writing rest =>
    obtain ⟨hturn, -, hwrote, rfl⟩ := h
    exact ⟨by omega, by omega, ⟨rest, hwrote⟩, List.prefix_rfl, hwhy⟩
  | header got =>
    obtain ⟨hturn, -, rfl, rfl⟩ := h
    exact ⟨by omega, by omega, List.prefix_rfl, List.prefix_append .., hwhy⟩
  | payload len got =>
    obtain ⟨hturn, -, -, rfl, rfl⟩ := h
    exact ⟨by omega, by omega, List.prefix_rfl, List.prefix_append .., hwhy⟩
  | closed why' =>
    obtain ⟨hturn, hturn', hwrote, hread, -⟩ := h
    exact ⟨hturn, hturn', hwrote, hread, hwhy⟩

/-- The client has asked its requests one after the other, and printed the values of their responses. -/
structure Client.Converses (c : Client) (values : List Value) : Prop where
  speaks : c.phase.Speaks (c.asked.map encodeRequest) (values.map Value.encode) c.wrote c.read
  printed : c.printed = values.map Value.printed
  asked : ∀ words ∈ c.asked, (encodeRequest words).length ≤ kMaxMsg
  length : ∀ v ∈ values, v.encode.length ≤ kMaxMsg

/-- The bytes that `read()` returns. -/
def ClientInput.bytes : ClientInput → Bytes
  | .read rv => rv.bytes
  | _ => []

/-- What is sent is the frame of the request, as long as its size fits into the header. -/
theorem sendRequest_frame {cmd : List Bytes} {bytes : Bytes} (hfit : (encodeRequest cmd).length < 2 ^ 32)
    (hsend : sendRequest cmd = some bytes) :
    (encodeRequest cmd).length ≤ kMaxMsg ∧ bytes = frame (encodeRequest cmd) := by
  have hwords : ∀ arg ∈ cmd, arg.length < 2 ^ 32 := by
    intro arg harg
    have hle : (frame arg).length ≤ (cmd.flatMap frame).length :=
      (List.sublist_flatten_of_mem (List.mem_map_of_mem harg)).length_le
    rw [encodeRequest, List.length_append] at hfit
    rw [length_frame] at hle
    omega
  have hcount := length_le_payloadSize cmd
  rw [payloadSize_eq hwords] at hcount
  have hpayload := requestPayload_eq (Nat.lt_of_le_of_lt hcount hfit) hwords
  rw [sendRequest_eq, payloadSize_eq hwords, Nat.mod_eq_of_lt hfit, hpayload] at hsend
  split at hsend
  · cases hsend
  · next hmax =>
    cases hsend
    exact ⟨Nat.not_lt.mp hmax, rfl⟩

namespace Client

variable {c c' : Client} {values : List Value} {input : ClientInput} {responses : List Bytes}

theorem Converses.init : Converses {} [] := ⟨⟨rfl, rfl, rfl⟩, rfl, by simp, by simp⟩

theorem Converses.close {why : ClientEnd} (h : c.Converses values)
    (hwhy : why ≠ .badResponseLength ∧ why ≠ .badResponse) :
    ({ c with phase := .closed why } : Client).Converses values :=
  ⟨h.speaks.close hwhy, h.printed, h.asked, h.length⟩

theorem Converses.handleLine (h : c.Converses values) (hphase : c.phase = .prompt) (line : Option Bytes)
    (hfit : ∀ words ∈ (c.handleLine line).asked, (encodeRequest words).length < 2 ^ 32) :
    (c.handleLine line).Converses values := by
  unfold Client.handleLine at hfit ⊢
  cases line with
  | none => exact h.close (by decide)
  | some line =>
    simp only at hfit ⊢
    cases hwords : tokenize line with
    | nil => exact h
    | cons word words =>
      simp only [hwords] at hfit ⊢
      split
      · exact h.close (by decide)
      · next hstay =>
        rw [if_neg hstay] at hfit
        cases hsend : sendRequest (word :: words) with
        | none => exact h.close (by decide)
        | some bytes =>
          simp only [hsend] at hfit ⊢
          obtain ⟨hmax, rfl⟩ := sendRequest_frame
            (hfit (word :: words) (List.mem_append_right _ List.mem_cons_self)) hsend
          have hspeaks := h.speaks
          rw [hphase] at hspeaks
          obtain ⟨hturn, hwrote, hread⟩ := hspeaks
          refine ⟨⟨?_, ?_, ?_, hread⟩, h.printed, ?_, h.length⟩
          · rw [List.map_append, List.length_append, hturn]
            rfl
          · exact List.ne_nil_of_length_pos (by rw [length_frame]; omega)
          · simp [hwrote]
          · intro w hw
            rcases List.mem_append.mp hw with hw | hw
            · exact h.asked w hw
            · obtain rfl := List.mem_singleton.mp hw
              exact hmax

theorem Converses.handleWrite {rest : Bytes} (h : c.Converses values) (hphase : c.phase = .writing rest)
    (rv : WriteResult) : (c.handleWrite rest rv).Converses values := by
  have hspeaks := h.speaks
  rw [hphase] at hspeaks
  obtain ⟨hturn, -, hwrote, hread⟩ := hspeaks
  cases rv with
  | again | failed => exact h.close (by decide)
  | accepted n =>
    cases n with
    | zero => exact h.close (by decide)
    | succ n =>
      have hsplit := List.take_append_drop (n + 1) rest
      rw [← hsplit, ← List.append_assoc] at hwrote
      simp only [Client.handleWrite]
      refine ⟨?_, h.printed, h.asked, h.length⟩
      simp only
      split
      · next hdone =>
        rw [List.isEmpty_iff.mp hdone, List.append_nil] at hwrote
        exact ⟨hturn, Nat.zero_lt_succ 3, hwrote, by rw [hread, List.append_nil]⟩
      · next hmore => exact ⟨hturn, by simpa using hmore, hwrote, hread⟩

/-! ### Reading -/

section
variable (h : c.Converses values) (hlen : ∀ r ∈ responses, r.length ≤ kMaxMsg)
include h hlen

/-- What was read after the printed responses belongs to the other ones. -/
theorem Converses.unread {more : Bytes}
    (hsocket : ((values.map Value.encode).map frame).flatten ++ more <+: (responses.map frame).flatten) :
    ∃ rs, responses = values.map Value.encode ++ rs ∧ more <+: (rs.map frame).flatten := by
  refine prefix_of_frames_prefix kMaxMsg_lt ?_ hlen hsocket
  intro r hr
  obtain ⟨v, hv, rfl⟩ := List.mem_map.mp hr
  exact h.length v hv

theorem Converses.handleHeader {got chunk : Bytes} (hvalues : ∀ r ∈ responses, ∃ v : Value, r = v.encode)
    (hphase : c.phase = .header got) (hchunk : 0 < chunk.length ∧ got.length + chunk.length ≤ 4)
    (hsocket : c.read ++ chunk <+: (responses.map frame).flatten) :
    ∃ c', Client.handleHeader (got ++ chunk) { c with read := c.read ++ chunk } = .ok c' ∧
      c'.Converses values := by
  have hspeaks := h.speaks
  rw [hphase] at hspeaks
  obtain ⟨hturn, hgot, hwrote, hread⟩ := hspeaks
  have hlength : (got ++ chunk).length = got.length + chunk.length := List.length_append
  rw [hread, List.append_assoc] at hsocket
  obtain ⟨rs, hrs, hmore⟩ := h.unread hlen hsocket
  unfold Client.handleHeader
  split
  · next hshort =>
    refine ⟨_, rfl, ⟨hturn, hshort, hwrote, ?_⟩, h.printed, h.asked, h.length⟩
    simp only [hread, List.append_assoc]
  · next hfull =>
    -- The four bytes are the header of the next response.
    cases rs with
    | nil =>
      have hnil : (got ++ chunk).length ≤ 0 := hmore.length_le
      omega
    | cons r rs =>
      have hr : r ∈ responses := hrs ▸ List.mem_append_right _ List.mem_cons_self
      have hheader : got ++ chunk = leEncode 4 r.length := by
        rw [List.map_cons, List.flatten_cons, frame, List.append_assoc] at hmore
        have htake := List.prefix_iff_eq_take.mp hmore
        have h4 : (got ++ chunk).length = (leEncode 4 r.length).length := by
          rw [length_leEncode]
          omega
        rwa [h4, List.take_left] at htake
      have hmax := hlen r hr
      have hdecode : leDecode (got ++ chunk) = r.length := by
        rw [hheader, leDecode_leEncode (Nat.lt_of_le_of_lt hmax kMaxMsg_lt)]
      have hpos : 0 < r.length := by
        obtain ⟨v, rfl⟩ := hvalues r hr
        exact length_encode_pos v
      simp only [hdecode, Client.handlePayload, toNat_ofNat_len hmax]
      rw [if_neg (Nat.not_lt.mpr hmax), if_pos (show ([] : Bytes).length < r.length from hpos)]
      refine ⟨_, rfl, ⟨hturn, ?_, ?_, hwrote, ?_⟩, h.printed, h.asked, h.length⟩
      · rwa [toNat_ofNat_len hmax]
      · rwa [toNat_ofNat_len hmax]
      · rw [toNat_ofNat_len hmax, List.append_nil, ← hheader, hread, List.append_assoc]

theorem Converses.handlePayload {len : UInt32} {got chunk : Bytes}
    (hvalues : ∀ r ∈ responses, ∃ v : Value, r = v.encode) (hphase : c.phase = .payload len got)
    (hchunk : 0 < chunk.length ∧ got.length + chunk.length ≤ len.toNat)
    (hsocket : c.read ++ chunk <+: (responses.map frame).flatten) :
    ∃ c' values', Client.handlePayload len (got ++ chunk) { c with read := c.read ++ chunk } = .ok c' ∧
      c'.Converses values' := by
  have hspeaks := h.speaks
  rw [hphase] at hspeaks
  obtain ⟨hturn, hgot, hmax, hwrote, hread⟩ := hspeaks
  have hlength : (got ++ chunk).length = got.length + chunk.length := List.length_append
  have hread' : c.read ++ chunk =
      ((values.map Value.encode).map frame).flatten ++ (leEncode 4 len.toNat ++ (got ++ chunk)) := by
    rw [hread, List.append_assoc, List.append_assoc]
  unfold Client.handlePayload
  split
  · next hshort =>
    exact ⟨_, values, rfl, ⟨hturn, hshort, hmax, hwrote, hread'⟩, h.printed, h.asked, h.length⟩
  · next hfull =>
    -- What was read is the frame of the next response, which is a value.
    have hlen' : len.toNat = (got ++ chunk).length := by omega
    have hframe : leEncode 4 len.toNat ++ (got ++ chunk) = frame (got ++ chunk) := by rw [frame, hlen']
    rw [hread', hframe] at hsocket
    obtain ⟨rs, hrs, hmore⟩ := h.unread hlen hsocket
    have hmem : got ++ chunk ∈ responses := by
      have hbound : ∀ p ∈ [got ++ chunk], p.length ≤ kMaxMsg := by
        intro p hp
        obtain rfl := List.mem_singleton.mp hp
        omega
      have hmore' : ([got ++ chunk].map frame).flatten ++ [] <+: (rs.map frame).flatten := by
        simpa using hmore
      obtain ⟨rs', hrs', -⟩ := prefix_of_frames_prefix kMaxMsg_lt hbound
        (fun r hr => hlen r (hrs ▸ List.mem_append_right _ hr)) hmore'
      rw [hrs, hrs']
      simp
    obtain ⟨v, hv⟩ := hvalues _ hmem
    have hprint := printResponse_encode v [] (by rw [List.append_nil, ← hv]; omega)
      (Nat.le_add_right v.encode.length 1)
    rw [List.append_nil, ← hv] at hprint
    have hlt : (got ++ chunk).length < 2 ^ 31 := by
      have : kMaxMsg < 2 ^ 31 := by decide
      omega
    have hrv : (Int32.ofNat (got ++ chunk).length).toInt = (got ++ chunk).length :=
      Int32.toInt_ofNat_of_lt hlt
    have hall : (Int32.ofNat (got ++ chunk).length).toUInt32 = len := by
      rw [Int32.toUInt32_ofNat', ← hlen', UInt32.ofNat_toNat]
    have hnonneg : ¬ Int32.ofNat (got ++ chunk).length < 0 := by
      rw [Int32.lt_iff_toInt_lt, hrv, Int32.toInt_zero]
      omega
    refine ⟨{ c with read := c.read ++ chunk, phase := .prompt, printed := c.printed ++ [v.printed] },
      values ++ [v], ?_, ⟨?_, ?_, ?_⟩, ?_, h.asked, ?_⟩
    · simp only [Client.finishResponse, hprint, ok_bind, hall, ne_eq, not_true_eq_false, and_false,
        if_false, hnonneg, pure_eq_ok]
    · simpa using hturn
    · exact hwrote
    · simp only [List.map_append, List.flatten_append, List.map_cons, List.map_nil, List.flatten_cons,
        List.flatten_nil, List.append_nil]
      rw [hread', hframe, hv]
    · rw [h.printed, List.map_append]
      rfl
    · intro w hw
      rcases List.mem_append.mp hw with hw | hw
      · exact h.length w hw
      · obtain rfl := List.mem_singleton.mp hw
        exact hv ▸ Nat.le_of_lt_succ (by omega)

end

/-! ### A step -/

theorem finishResponse_same {len : UInt32} {payload : Bytes} (hrun : c.finishResponse len payload = .ok c') :
    c'.asked = c.asked ∧ c'.wrote = c.wrote ∧ c'.read = c.read := by
  obtain ⟨⟨rv, out⟩, -, hrun⟩ := bind_eq_ok.mp hrun
  simp only at hrun
  split at hrun
  · cases hrun
    exact ⟨rfl, rfl, rfl⟩
  · split at hrun
    · cases hrun
      exact ⟨rfl, rfl, rfl⟩
    · cases hrun
      exact ⟨rfl, rfl, rfl⟩

theorem handlePayload_same {len : UInt32} {got : Bytes} (hrun : c.handlePayload len got = .ok c') :
    c'.asked = c.asked ∧ c'.wrote = c.wrote ∧ c'.read = c.read := by
  unfold Client.handlePayload at hrun
  split at hrun
  · cases hrun
    exact ⟨rfl, rfl, rfl⟩
  · exact finishResponse_same hrun

theorem handleHeader_same {got : Bytes} (hrun : c.handleHeader got = .ok c') :
    c'.asked = c.asked ∧ c'.wrote = c.wrote ∧ c'.read = c.read := by
  unfold Client.handleHeader at hrun
  split at hrun
  · cases hrun
    exact ⟨rfl, rfl, rfl⟩
  · simp only at hrun
    split at hrun
    · cases hrun
      exact ⟨rfl, rfl, rfl⟩
    · exact handlePayload_same hrun

theorem handleLine_grows (line : Option Bytes) : c.asked <+: (c.handleLine line).asked ∧
    (c.handleLine line).wrote = c.wrote ∧ (c.handleLine line).read = c.read := by
  unfold Client.handleLine
  split
  · exact ⟨List.prefix_rfl, rfl, rfl⟩
  · split
    · exact ⟨List.prefix_rfl, rfl, rfl⟩
    · split
      · exact ⟨List.prefix_rfl, rfl, rfl⟩
      · split
        · exact ⟨List.prefix_rfl, rfl, rfl⟩
        · exact ⟨List.prefix_append _ _, rfl, rfl⟩

theorem handleWrite_grows (rest : Bytes) (rv : WriteResult) : (c.handleWrite rest rv).asked = c.asked ∧
    c.wrote <+: (c.handleWrite rest rv).wrote ∧ (c.handleWrite rest rv).read = c.read := by
  unfold Client.handleWrite
  split
  · exact ⟨rfl, List.prefix_rfl, rfl⟩
  · exact ⟨rfl, List.prefix_rfl, rfl⟩
  · exact ⟨rfl, List.prefix_rfl, rfl⟩
  · exact ⟨rfl, List.prefix_append _ _, rfl⟩

/-- A step only adds to what was asked, written and read. -/
theorem step_grows (hallow : c.phase.Allows input) (hrun : c.step input = .ok c') :
    c.asked <+: c'.asked ∧ c.wrote <+: c'.wrote ∧ c'.read = c.read ++ input.bytes := by
  cases input with
  | line line =>
    cases hphase : c.phase with
    | prompt =>
      simp only [step, hphase] at hrun
      cases hrun
      obtain ⟨hasked, hwrote, hread⟩ := c.handleLine_grows line
      exact ⟨hasked, hwrote ▸ List.prefix_rfl, hread.trans (List.append_nil _).symm⟩
    | writing | header | payload | closed =>
      rw [hphase] at hallow
      cases hallow
  | write rv =>
    cases hphase : c.phase with
    | writing rest =>
      simp only [step, hphase] at hrun
      cases hrun
      obtain ⟨hasked, hwrote, hread⟩ := c.handleWrite_grows rest rv
      exact ⟨hasked ▸ List.prefix_rfl, hwrote, hread.trans (List.append_nil _).symm⟩
    | prompt | header | payload | closed =>
      rw [hphase] at hallow
      cases hallow
  | read rv =>
    cases hphase : c.phase with
    | prompt | writing | closed =>
      rw [hphase] at hallow
      cases hallow
    | header got =>
      cases rv with
      | data chunk =>
        simp only [step, hphase] at hrun
        obtain ⟨hasked, hwrote, hread⟩ := handleHeader_same hrun
        exact ⟨hasked ▸ List.prefix_rfl, hwrote ▸ List.prefix_rfl, hread⟩
      | again | failed | eof =>
        simp only [step, hphase] at hrun
        cases hrun
        exact ⟨List.prefix_rfl, List.prefix_rfl, (List.append_nil _).symm⟩
    | payload len got =>
      cases rv with
      | data chunk =>
        simp only [step, hphase] at hrun
        obtain ⟨hasked, hwrote, hread⟩ := handlePayload_same hrun
        exact ⟨hasked ▸ List.prefix_rfl, hwrote ▸ List.prefix_rfl, hread⟩
      | again | failed | eof =>
        simp only [step, hphase] at hrun
        cases hrun
        exact ⟨List.prefix_rfl, List.prefix_rfl, (List.append_nil _).symm⟩

/-- The client never stops, and keeps up the conversation as long as its requests are not too long. -/
theorem Converses.step (h : c.Converses values) (hlen : ∀ r ∈ responses, r.length ≤ kMaxMsg)
    (hvalues : ∀ r ∈ responses, ∃ v : Value, r = v.encode) (hallow : c.phase.Allows input)
    (hsocket : c.read ++ input.bytes <+: (responses.map frame).flatten) :
    ∃ c', c.step input = .ok c' ∧ ((∀ words ∈ c'.asked, (encodeRequest words).length < 2 ^ 32) →
      ∃ values', c'.Converses values') := by
  cases input with
  | line line =>
    cases hphase : c.phase with
    | prompt =>
      simp only [Client.step, hphase]
      exact ⟨_, rfl, fun hfit => ⟨values, h.handleLine hphase line hfit⟩⟩
    | writing | header | payload | closed =>
      rw [hphase] at hallow
      cases hallow
  | write rv =>
    cases hphase : c.phase with
    | writing rest =>
      simp only [Client.step, hphase]
      exact ⟨_, rfl, fun _ => ⟨values, h.handleWrite hphase rv⟩⟩
    | prompt | header | payload | closed =>
      rw [hphase] at hallow
      cases hallow
  | read rv =>
    cases hphase : c.phase with
    | prompt | writing | closed =>
      rw [hphase] at hallow
      cases hallow
    | header got =>
      cases rv with
      | data chunk =>
        rw [hphase] at hallow
        obtain ⟨c', hrun, h'⟩ := h.handleHeader hlen hvalues hphase hallow hsocket
        exact ⟨c', by simpa only [Client.step, hphase] using hrun, fun _ => ⟨values, h'⟩⟩
      | again | failed | eof =>
        simp only [Client.step, hphase]
        exact ⟨_, rfl, fun _ => ⟨values, h.close (by decide)⟩⟩
    | payload len got =>
      cases rv with
      | data chunk =>
        rw [hphase] at hallow
        obtain ⟨c', values', hrun, h'⟩ := h.handlePayload hlen hvalues hphase hallow hsocket
        exact ⟨c', by simpa only [Client.step, hphase] using hrun, fun _ => ⟨values', h'⟩⟩
      | again | failed | eof =>
        simp only [Client.step, hphase]
        exact ⟨_, rfl, fun _ => ⟨values, h.close (by decide)⟩⟩

end Client

/-! ## What the server answers -/

section
variable {s s' : ServerData} {log : List Executed} {now : UInt64} {p : CPtr}

/-- Tables that never grow are small. -/
theorem ServerData.FirstTables.small (h : s.FirstTables) : s.Small where
  keys := Nat.lt_trans h.db.room (by decide)
  members q _ := Nat.lt_trans (h.zsets q).room (by decide)

theorem ServerData.FirstTables.respond {request response : Bytes} (h : s.WF) (hfirst : s.FirstTables)
    (hrun : respond now s request = .ok (s', response)) :
    s'.WF ∧ s'.FirstTables ∧ ∃ v : Value, response = v.encode := by
  have hvalue : ∃ v : Value, response = v.encode := by
    rcases h.respond hfirst.small now request with ⟨e, herror, -⟩ | ⟨s₁, v, hok⟩
    · rw [herror] at hrun
      cases hrun
    · rw [hok] at hrun
      cases hrun
      exact ⟨v, rfl⟩
  rcases respond_eq_ok hrun with ⟨-, rfl, -⟩ | ⟨cmd, value, -, hreq, -⟩
  · exact ⟨h, hfirst, hvalue⟩
  · exact ⟨(h.runRequest_ok hreq).1, hfirst.changes (ServerData.runRequest_changes hreq), hvalue⟩

theorem exchanges_request (q : CPtr) (request response : Bytes) :
    exchanges p (.request now q request response :: log) =
      if q = p then (request, response) :: exchanges p log else exchanges p log := by
  by_cases hq : q = p
  · simp [exchanges, hq]
  · simp [exchanges, hq]

/-- Every response of a log is a value. -/
theorem Replay.values (h : s.WF) (hfirst : s.FirstTables) (hreplay : Replay s log s') :
    ∀ r ∈ (exchanges p log).map Prod.snd, ∃ v : Value, r = v.encode := by
  induction log generalizing s with
  | nil =>
    intro r hr
    cases hr
  | cons x log ih =>
    intro r hr
    cases x with
    | request now q request response =>
      obtain ⟨s₁, hrun, hreplay⟩ := hreplay
      obtain ⟨h₁, hfirst₁, hvalue⟩ := hfirst.respond h hrun
      rw [exchanges_request] at hr
      split at hr
      · rcases List.mem_cons.mp hr with rfl | hr
        · exact hvalue
        · exact ih h₁ hfirst₁ hreplay r hr
      · exact ih h₁ hfirst₁ hreplay r hr
    | timers now =>
      obtain ⟨s₁, hrun, hreplay⟩ := hreplay
      obtain ⟨s₂, ks, hrun', h₂, -⟩ := h.expireLoop now kMaxWorks
      obtain rfl : s₂ = s₁ := Except.ok.inj (hrun'.symm.trans hrun)
      exact ih h₂ (hfirst.changes (ServerData.expireLoop_changes hrun)) hreplay r hr

end

/-! ## The session -/

/-- The states that the server and a client at the other end of the connection `p` reach together. The
socket delivers bytes in order: the server reads a first part of what the client wrote, and the client
reads a first part of what the server wrote. The client may write before the connection is accepted. -/
inductive Session (listenFd : Nat) (p : CPtr) : Loop → Traffic → Client → Prop where
  | init : Session listenFd p (.init listenFd) {} {}
  | quiet (h : Session listenFd p l τ c) (hstep : l.Step l') (hphase : ∀ polled, l.phase ≠ .serving polled) :
      Session listenFd p l' τ c
  | event (h : Session listenFd p ⟨.serving (fd :: polled), t, s⟩ τ c) (htime : t ≤ e.now)
      (hrun : eventTraffic e fd s τ = .ok (s', τ')) (hsocket : τ'.received p <+: c.wrote) :
      Session listenFd p ⟨.serving polled, e.now, s'⟩ τ' c
  | timers (h : Session listenFd p ⟨.serving [], t, s⟩ τ c) (htime : t ≤ now)
      (hrun : processTimers now s = .ok s') : Session listenFd p ⟨.polling, now, s'⟩ (τ.tick now) c
  | client (h : Session listenFd p l τ c) (hallow : c.phase.Allows input)
      (hsocket : c.read ++ input.bytes <+: τ.sent p) (hrun : c.step input = .ok c') :
      Session listenFd p l τ c'

/-- What was written stays written. -/
theorem eventTraffic_sent {e : Event} {fd : Nat} {s s' : Server} {τ τ' : Traffic}
    (hrun : eventTraffic e fd s τ = .ok (s', τ')) (p : CPtr) : τ.sent p <+: τ'.sent p := by
  have hadd : ∀ q received written times, τ.sent p <+: (τ.add q received written times).sent p := by
    intro q received written times
    simp only [Traffic.add, Function.update_apply]
    split
    · next hq =>
      subst hq
      exact List.prefix_append _ _
    · exact List.prefix_rfl
  unfold eventTraffic at hrun
  split at hrun
  · cases hrun
    exact List.prefix_rfl
  obtain ⟨slot, -, hrun⟩ := bind_eq_ok.mp hrun
  obtain ⟨q, -, hrun⟩ := bind_eq_ok.mp hrun
  obtain ⟨client, -, hrun⟩ := bind_eq_ok.mp hrun
  obtain ⟨detached, -, hrun⟩ := bind_eq_ok.mp hrun
  obtain ⟨idle, -, hrun⟩ := bind_eq_ok.mp hrun
  obtain ⟨⟨data, conn₁, received, written⟩, -, hrun⟩ := bind_eq_ok.mp hrun
  obtain ⟨⟨conn₂, written'⟩, -, hrun⟩ := bind_eq_ok.mp hrun
  simp only at hrun
  split at hrun
  · obtain ⟨s₁, -, hret⟩ := bind_eq_ok.mp hrun
    cases hret
    exact hadd q received _ _
  · cases hrun
    exact hadd q received _ _

namespace Session

variable {listenFd : Nat} {p : CPtr} {l : Loop} {τ : Traffic} {c : Client}

theorem traced (h : Session listenFd p l τ c) : Loop.Traced listenFd l τ := by
  induction h with
  | init => exact .init
  | quiet _ hstep hphase ih => exact .quiet ih hstep hphase
  | event _ htime hrun _ ih => exact .event ih htime hrun
  | timers _ htime hrun ih => exact .timers ih htime hrun
  | client _ _ _ _ ih => exact ih

theorem sockets (h : Session listenFd p l τ c) : τ.received p <+: c.wrote ∧ c.read <+: τ.sent p := by
  induction h with
  | init => exact ⟨List.prefix_rfl, List.prefix_rfl⟩
  | quiet _ _ _ ih => exact ih
  | timers _ _ _ ih => exact ih
  | event _ _ hrun hsocket ih => exact ⟨hsocket, ih.2.trans (eventTraffic_sent hrun p)⟩
  | client _ hallow hsocket hrun ih =>
    obtain ⟨-, hwrote, hread⟩ := Client.step_grows hallow hrun
    exact ⟨ih.1.trans hwrote, hread ▸ hsocket⟩

/-- What the log says about the responses on the connection. -/
theorem responses (h : Session listenFd p l τ c) : ∃ log, l.server.Serialises τ log ∧
    (∀ r ∈ (exchanges p log).map Prod.snd, r.length ≤ kMaxMsg) ∧
    (∀ r ∈ (exchanges p log).map Prod.snd, ∃ v : Value, r = v.encode) ∧
    τ.sent p <+: (((exchanges p log).map Prod.snd).map frame).flatten := by
  obtain ⟨log, hlog⟩ := h.traced.serialises
  obtain ⟨incoming, outgoing, -, hsent, -⟩ := hlog.conn p
  refine ⟨log, hlog, ?_, hlog.replay.values .empty .empty, ⟨outgoing, hsent⟩⟩
  intro r hr
  obtain ⟨x, hx, rfl⟩ := List.mem_map.mp hr
  exact hlog.length p x hx

theorem converses (h : Session listenFd p l τ c)
    (hfit : ∀ words ∈ c.asked, (encodeRequest words).length < 2 ^ 32) :
    ∃ values, c.Converses values := by
  induction h with
  | init => exact ⟨[], .init⟩
  | quiet _ _ _ ih => exact ih hfit
  | event _ _ _ _ ih => exact ih hfit
  | timers _ _ _ ih => exact ih hfit
  | client h hallow hsocket hrun ih =>
    obtain ⟨hasked, -, -⟩ := Client.step_grows hallow hrun
    obtain ⟨values, hconv⟩ := ih fun words hwords => hfit words (hasked.subset hwords)
    obtain ⟨log, -, hlen, hvalues, hsent⟩ := h.responses
    obtain ⟨c₁, hrun₁, hnext⟩ := hconv.step hlen hvalues hallow (hsocket.trans hsent)
    cases hrun₁.symm.trans hrun
    exact hnext hfit

end Session

/-! ## In step -/

/-- The client waits for a response. -/
def ClientAt.Waits : ClientAt → Prop
  | .header _ | .payload _ _ => True
  | _ => False

theorem nextFrame?_incomplete {limit : Nat} {len : UInt32} {got : Bytes} (hgot : got.length < len.toNat) :
    nextFrame? limit (leEncode 4 len.toNat ++ got) = none := by
  have h4 : (leEncode 4 len.toNat).length = 4 := length_leEncode 4 _
  have hlen : frameLength (leEncode 4 len.toNat ++ got) = len.toNat := by
    rw [frameLength, List.take_left' h4, leDecode_leEncode len.toNat_lt]
  rw [nextFrame?, hlen, if_neg]
  rw [List.length_append, h4]
  omega

namespace Client.Converses

variable {c : Client} {values : List Value} {requests : List Bytes}

/-- The frames that were read are the printed responses. -/
theorem splitFrames_read (h : c.Converses values) (hopen : ∀ why, c.phase ≠ .closed why) :
    (splitFrames kMaxMsg c.read).1 = values.map Value.encode := by
  have hlen : ∀ r ∈ values.map Value.encode, r.length ≤ kMaxMsg := by
    intro r hr
    obtain ⟨v, hv, rfl⟩ := List.mem_map.mp hr
    exact h.length v hv
  have hrest : ∀ got, nextFrame? kMaxMsg got = none →
      (splitFrames kMaxMsg (((values.map Value.encode).map frame).flatten ++ got)).1 =
        values.map Value.encode := by
    intro got hgot
    rw [splitFrames_frames kMaxMsg_lt hlen, splitFrames_of_none hgot, List.append_nil]
  have hspeaks := h.speaks
  cases hphase : c.phase with
  | prompt =>
    rw [hphase] at hspeaks
    obtain ⟨-, -, hread⟩ := hspeaks
    rw [hread, splitFrames_map_frame kMaxMsg_lt hlen]
  | writing rest =>
    rw [hphase] at hspeaks
    obtain ⟨-, -, -, hread⟩ := hspeaks
    rw [hread, splitFrames_map_frame kMaxMsg_lt hlen]
  | header got =>
    rw [hphase] at hspeaks
    obtain ⟨-, hgot, -, hread⟩ := hspeaks
    rw [hread]
    exact hrest got (if_neg fun hframe => Nat.not_le.mpr hgot hframe.1)
  | payload len got =>
    rw [hphase] at hspeaks
    obtain ⟨-, hgot, -, -, hread⟩ := hspeaks
    rw [hread]
    exact hrest _ (nextFrame?_incomplete hgot)
  | closed why => exact absurd hphase (hopen why)

/-- What was written belongs to the requests. -/
theorem wrote_prefix (h : c.Converses values) :
    c.wrote <+: ((c.asked.map encodeRequest).map frame).flatten := by
  have hspeaks := h.speaks
  cases hphase : c.phase with
  | prompt =>
    rw [hphase] at hspeaks
    exact hspeaks.2.1 ▸ List.prefix_rfl
  | writing rest =>
    rw [hphase] at hspeaks
    exact ⟨rest, hspeaks.2.2.1⟩
  | header got =>
    rw [hphase] at hspeaks
    exact hspeaks.2.2.1 ▸ List.prefix_rfl
  | payload len got =>
    rw [hphase] at hspeaks
    exact hspeaks.2.2.2.1 ▸ List.prefix_rfl
  | closed why =>
    rw [hphase] at hspeaks
    exact hspeaks.2.2.1

theorem printed_read (h : c.Converses values) :
    ((values.map Value.encode).map frame).flatten <+: c.read := by
  have hspeaks := h.speaks
  cases hphase : c.phase with
  | prompt =>
    rw [hphase] at hspeaks
    exact hspeaks.2.2 ▸ List.prefix_rfl
  | writing rest =>
    rw [hphase] at hspeaks
    exact hspeaks.2.2.2 ▸ List.prefix_rfl
  | header got =>
    rw [hphase] at hspeaks
    exact hspeaks.2.2.2 ▸ List.prefix_append ..
  | payload len got =>
    rw [hphase] at hspeaks
    exact hspeaks.2.2.2.2 ▸ List.prefix_append ..
  | closed why =>
    rw [hphase] at hspeaks
    exact hspeaks.2.2.2.1

theorem requests_length (h : c.Converses values) :
    ∀ r ∈ c.asked.map encodeRequest, r.length ≤ kMaxMsg := by
  intro r hr
  obtain ⟨words, hwords, rfl⟩ := List.mem_map.mp hr
  exact h.asked words hwords

/-- Whoever has read a part of what the client wrote has some of its requests. -/
theorem requests_prefix (h : c.Converses values) {received : Bytes} (hreceived : received <+: c.wrote) :
    (splitFrames kMaxMsg received).1 <+: c.asked.map encodeRequest := by
  have hsplit : (splitFrames kMaxMsg _).1 <+: (splitFrames kMaxMsg _).1 :=
    splitFrames_prefix (hreceived.trans h.wrote_prefix)
  rwa [splitFrames_map_frame kMaxMsg_lt h.requests_length] at hsplit

/-- A client that waits has written all of its last request. -/
theorem waiting (h : c.Converses values) (hwaits : c.phase.Waits) :
    c.asked.length = values.length + 1 ∧
      c.wrote = ((c.asked.map encodeRequest).map frame).flatten := by
  have hspeaks := h.speaks
  cases hphase : c.phase with
  | prompt | writing | closed =>
    rw [hphase] at hwaits
    cases hwaits
  | header got =>
    rw [hphase] at hspeaks
    obtain ⟨hturn, -, hwrote, -⟩ := hspeaks
    rw [List.length_map, List.length_map] at hturn
    exact ⟨hturn, hwrote⟩
  | payload len got =>
    rw [hphase] at hspeaks
    obtain ⟨hturn, -, -, hwrote, -⟩ := hspeaks
    rw [List.length_map, List.length_map] at hturn
    exact ⟨hturn, hwrote⟩

/-- There is at most one request without a printed response. -/
theorem asked_le (h : c.Converses values) : c.asked.length ≤ values.length + 1 := by
  have hspeaks := h.speaks
  cases hphase : c.phase with
  | prompt | writing | header | payload | closed =>
    rw [hphase] at hspeaks
    have hturn := hspeaks.1
    rw [List.length_map, List.length_map] at hturn
    omega

end Client.Converses

/-- A list of encodings. -/
theorem exists_map_encode {rs : List Bytes} (h : ∀ r ∈ rs, ∃ v : Value, r = v.encode) :
    ∃ vs : List Value, rs = vs.map Value.encode := by
  induction rs with
  | nil => exact ⟨[], rfl⟩
  | cons r rs ih =>
    obtain ⟨v, rfl⟩ := h r List.mem_cons_self
    obtain ⟨vs, rfl⟩ := ih fun r hr => h r (List.mem_cons_of_mem _ hr)
    exact ⟨v :: vs, rfl⟩

section
variable {listenFd : Nat} {p : CPtr} {l : Loop} {τ : Traffic} {c : Client}

/-- The request and the response of a `ping`. -/
def pingEvent : Event where
  revents := pollIn
  now := 10
  clock := fun _ => 10
  read := .data (frame (encodeRequest [ascii ['p', 'i', 'n', 'g']]))
  writeAfterRead := fun bytes => .accepted bytes.length
  write := .again

def pong : Bytes := frame (outStr [] (ascii ['p', 'o', 'n', 'g']))

/-- The client writes a `ping`, the server answers it, and the client has read the header. -/
theorem reaches_pingHeader : ∃ l τ c conn, Session 3 0 l τ c ∧ c.asked = [[ascii ['p', 'i', 'n', 'g']]] ∧
    c.phase.Waits ∧ l.server.conns 0 = some conn := by
  obtain ⟨c₁, hline⟩ : ∃ c, Client.step {} (.line (some (ascii ['p', 'i', 'n', 'g']))) = .ok c := ⟨_, rfl⟩
  obtain ⟨c₂, hwrite⟩ : ∃ c, c₁.step (.write (.accepted 16)) = .ok c := by
    cases hline
    exact ⟨_, rfl⟩
  obtain ⟨s₁, haccept⟩ : ∃ s, handleAccept (some 4) 5 { openFds := [3] } = .ok s := ⟨_, rfl⟩
  obtain ⟨s₂, htimers⟩ : ∃ s, processTimers 5 s₁ = .ok s := by
    cases haccept
    exact ⟨_, rfl⟩
  have hpoll : pollArgs s₂ s₂.fd2conn = .ok [4] := by
    cases haccept
    cases htimers
    rfl
  obtain ⟨r, hevent, hreceived, hsent, hopen⟩ : ∃ r, eventTraffic pingEvent 4 s₂ { times := [5] } = .ok r ∧
      r.2.received 0 <+: c₂.wrote ∧ r.2.sent 0 = pong ∧ (r.1.conns 0).isSome := by
    cases hline
    cases hwrite
    cases haccept
    cases htimers
    exact ⟨_, rfl, List.prefix_rfl, rfl, rfl⟩
  obtain ⟨c₃, hread, hasked, hwaits⟩ : ∃ c, c₂.step (.read (.data (pong.take 4))) = .ok c ∧
      c.asked = [[ascii ['p', 'i', 'n', 'g']]] ∧ c.phase.Waits := by
    cases hline
    cases hwrite
    exact ⟨_, rfl, rfl, trivial⟩
  obtain ⟨conn, hconn⟩ := Option.isSome_iff_exists.mp hopen
  refine ⟨⟨.serving [], 10, r.1⟩, r.2, c₃, conn, ?_, hasked, hwaits, hconn⟩
  have hsession : Session 3 0 ⟨.serving [4], 5, s₂⟩ { times := [5] } c₂ := by
    have h₀ : Session 3 0 (.init 3) {} c₂ := by
      refine .client (.client .init ?_ List.prefix_rfl hline) ?_ ?_ hwrite
      · trivial
      · cases hline
        exact Nat.le_refl 16
      · cases hline
        exact List.prefix_rfl
    have h₁ := ((h₀.quiet (.poll rfl) nofun).quiet
      (.accept (UInt64.le_iff_toNat_le.mpr (Nat.zero_le _)) (by simp) haccept) nofun).timers
      (UInt64.le_refl _) htimers
    exact (h₁.quiet (.poll hpoll) nofun).quiet .noAccept nofun
  refine (hsession.event (show (5 : UInt64) ≤ 10 by decide) hevent hreceived).client ?_ ?_ hread
  · cases hline
    cases hwrite
    exact ⟨by decide, by decide⟩
  · rw [hsent]
    cases hline
    cases hwrite
    exact List.take_prefix 4 pong

/-- **The client and the server stay in step.** Whatever other clients do and however the bytes are cut,
in every state of a session there is a log that leads from the empty server to its data, in which the
requests of the connection are the first ones that the client asked, in order and each one once. Each of
them is answered with one value, and what the client printed are the first of these values. At most one
request is open. The client never fails, and never meets a bad response or a bad response length. -/
theorem session_in_step (h : Session listenFd p l τ c)
    (hfit : ∀ words ∈ c.asked, (encodeRequest words).length < 2 ^ 32) :
    ∃ (log : List Executed) (values : List Value), Replay {} log l.server.data ∧
      (exchanges p log).map Prod.fst <+: c.asked.map encodeRequest ∧
      (exchanges p log).map Prod.snd = values.map Value.encode ∧
      c.printed <+: values.map Value.printed ∧ c.asked.length ≤ c.printed.length + 1 ∧
      (∀ why, c.phase = .closed why → why ≠ .badResponseLength ∧ why ≠ .badResponse) ∧
      ∀ input, c.phase.Allows input → c.read ++ input.bytes <+: τ.sent p →
        ∃ c', c.step input = .ok c' := by
  obtain ⟨values, hconv⟩ := h.converses hfit
  obtain ⟨log, hlog, hlen, hvalues, hsent⟩ := h.responses
  obtain ⟨hreceived, hread⟩ := h.sockets
  obtain ⟨incoming, outgoing, hsplit, -⟩ := hlog.conn p
  have hrequests := hconv.requests_prefix hreceived
  rw [hsplit] at hrequests
  obtain ⟨rs, hrs, -⟩ := hconv.unread hlen
    (show _ ++ [] <+: _ from (List.append_nil _).symm ▸ hconv.printed_read.trans (hread.trans hsent))
  obtain ⟨vs, rfl⟩ := exists_map_encode fun r hr => hvalues r (hrs ▸ List.mem_append_right _ hr)
  refine ⟨log, values ++ vs, hlog.replay, hrequests, ?_, ?_, ?_, ?_, ?_⟩
  · rw [hrs, List.map_append]
  · rw [hconv.printed, List.map_append]
    exact List.prefix_append _ _
  · rw [hconv.printed, List.length_map]
    exact hconv.asked_le
  · intro why hphase
    have hspeaks := hconv.speaks
    rw [hphase] at hspeaks
    exact hspeaks.2.2.2.2
  · intro input hallow hsocket
    obtain ⟨c', hrun, -⟩ := hconv.step hlen hvalues hallow (hsocket.trans hsent)
    exact ⟨c', hrun⟩

theorem session_in_step_ping : ∃ l τ c, Session 3 0 l τ c ∧
    ∃ (log : List Executed) (values : List Value), Replay {} log l.server.data ∧
      (exchanges 0 log).map Prod.fst <+: [encodeRequest [ascii ['p', 'i', 'n', 'g']]] ∧
      (exchanges 0 log).map Prod.snd = values.map Value.encode := by
  obtain ⟨l, τ, c, conn, h, hasked, -, -⟩ := reaches_pingHeader
  obtain ⟨log, values, hreplay, hrequests, hresponses, -⟩ :=
    session_in_step h (by rw [hasked]; decide)
  rw [hasked] at hrequests
  exact ⟨l, τ, c, h, log, values, hreplay, hrequests, hresponses⟩

/-- **No deadlock.** As long as the connection is open: when the client is at the prompt, everything that
was asked has been executed, answered and printed, and nothing is on the way. When it waits for a response,
there are bytes for it to read, or the server wants to write and has something to write, or it wants to
read and there are bytes for it. -/
theorem session_never_stuck (h : Session listenFd p l τ c)
    (hfit : ∀ words ∈ c.asked, (encodeRequest words).length < 2 ^ 32) {conn : ClientConn}
    (hconn : l.server.conns p = some conn) :
    (c.phase = .prompt → c.printed.length = c.asked.length ∧ τ.received p = c.wrote ∧
      c.read = τ.sent p ∧ conn.incoming = [] ∧ conn.outgoing = []) ∧
    (c.phase.Waits → c.read ≠ τ.sent p ∨ (conn.wantWrite = true ∧ conn.outgoing ≠ []) ∨
      (conn.wantRead = true ∧ τ.received p ≠ c.wrote)) := by
  obtain ⟨values, hconv⟩ := h.converses hfit
  obtain ⟨log, hlog, hlen, -, -⟩ := h.responses
  obtain ⟨hreceived, hread⟩ := h.sockets
  obtain ⟨incoming, outgoing, hsplit, hsent, hbuffers⟩ := hlog.conn p
  obtain ⟨rfl, rfl⟩ := hbuffers conn hconn
  have hintents := Loop.intentsMatch_run h.traced.reaches p conn hconn
  have hcount : ((exchanges p log).map Prod.fst).length = ((exchanges p log).map Prod.snd).length := by
    rw [List.length_map, List.length_map]
  have hrequests := hconv.requests_prefix hreceived
  have hspeaks := hconv.speaks
  constructor
  · intro hphase
    rw [hphase] at hspeaks
    obtain ⟨hturn, hwrote, hprinted⟩ := hspeaks
    -- The requests that were executed are all that were asked, and their responses were all read.
    have hpays : ((values.map Value.encode).map frame).flatten ++ [] <+:
        (((exchanges p log).map Prod.snd).map frame).flatten := by
      rw [List.append_nil, ← hprinted, ← hsent]
      exact hread.trans (List.prefix_append _ _)
    obtain ⟨rs, hrs, -⟩ := hconv.unread hlen hpays
    rw [hsplit] at hrequests
    simp only at hrequests
    have hle := hrequests.length_le
    have hlength := congrArg List.length hrs
    rw [List.length_append] at hlength
    have hdone := hrequests.eq_of_length (by omega)
    have hnone : rs = [] := List.length_eq_zero_iff.mp (by omega)
    rw [hrs, hnone, List.append_nil, ← hprinted] at hsent
    have hflat := splitFrames_flatten kMaxMsg_lt (τ.received p)
    rw [hsplit, hdone, ← hwrote] at hflat
    simp only at hflat
    have hin : conn.incoming = [] := by
      have hle := hreceived.length_le
      rw [hflat, List.length_append] at hle
      exact List.length_eq_zero_iff.mp (by omega)
    have hout : conn.outgoing = [] := by
      have hle := hread.length_le
      rw [← hsent, List.length_append] at hle
      exact List.length_eq_zero_iff.mp (by omega)
    rw [hin, List.append_nil] at hflat
    rw [hout, List.append_nil] at hsent
    rw [List.length_map, List.length_map] at hturn
    exact ⟨by rw [hconv.printed, List.length_map, hturn], hflat, hsent.symm, hin, hout⟩
  · intro hwaits
    have hopen : ∀ why, c.phase ≠ .closed why := by
      intro why hphase
      rw [hphase] at hwaits
      cases hwaits
    have hresponses := hconv.splitFrames_read hopen
    by_cases hnil : conn.outgoing = []
    · have hwrite : conn.wantWrite = false := by
        rw [← Bool.not_eq_true, hintents.write]
        exact not_not_intro hnil
      by_cases hall : τ.received p = c.wrote
      · -- Everything was received, so there is a response that was not read.
        left
        intro hsame
        obtain ⟨hturn, hwrote⟩ := hconv.waiting hwaits
        rw [hall, hwrote, splitFrames_map_frame kMaxMsg_lt hconv.requests_length] at hsplit
        rw [hnil, List.append_nil, ← hsame] at hsent
        rw [hsent, splitFrames_map_frame kMaxMsg_lt hlen] at hresponses
        have hasked := congrArg List.length (Prod.mk.inj hsplit).1
        have hprinted := congrArg List.length hresponses
        simp only [List.length_map] at hasked hprinted
        omega
      · exact .inr (.inr ⟨by rw [hintents.one, hwrite]; rfl, hall⟩)
    · exact .inr (.inl ⟨hintents.write.mpr hnil, hnil⟩)

theorem session_never_stuck_ping : ∃ l τ c conn, Session 3 0 l τ c ∧ l.server.conns 0 = some conn ∧
    (c.read ≠ τ.sent 0 ∨ (conn.wantWrite = true ∧ conn.outgoing ≠ []) ∨
      (conn.wantRead = true ∧ τ.received 0 ≠ c.wrote)) := by
  obtain ⟨l, τ, c, conn, h, hasked, hwaits, hconn⟩ := reaches_pingHeader
  exact ⟨l, τ, c, conn, h, hconn, (session_never_stuck h (by rw [hasked]; decide) hconn).2 hwaits⟩

end

end MiniRedis
