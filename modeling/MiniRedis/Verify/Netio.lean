import MiniRedis.Theory.Framing
import MiniRedis.Theory.Run
import MiniRedis.Verify.Response

/-! # One connection

`handle_one_request` takes one frame off the incoming bytes and appends the frame of its response.
Over a whole connection, whatever the sizes of the chunks that the socket delivers and accepts, the
frames of the byte stream are executed once each and in order, and their responses are sent in the
same order. -/

namespace MiniRedis

/-- A response that is too big is replaced. -/
def capResponse (payload : Bytes) : Bytes :=
  if payload.length > kMaxMsg then outErr [] errTooBig tooBigText else payload

/-- Execute the payload of a frame: the payload of the response. -/
def respond (now : UInt64) (s : ServerData) (request : Bytes) : Result (ServerData × Bytes) :=
  match parseRequest request with
  | none => return (s, outErr [] errBadArg malformedText)
  | some cmd => do
    let (s, payload) ← runRequest now s cmd []
    return (s, capResponse payload)

theorem length_capResponse (payload : Bytes) : (capResponse payload).length ≤ kMaxMsg := by
  unfold capResponse
  split
  · decide
  · omega

theorem kMaxMsg_lt : kMaxMsg < 256 ^ 4 := by decide

theorem responseEnd_eq (out payload : Bytes) :
    responseEnd (out ++ leEncode 4 0 ++ payload) out.length = out ++ frame (capResponse payload) := by
  have hheader : (out ++ leEncode 4 0).length = out.length + 4 := by simp
  have hpatch : ∀ p : Bytes, p.length ≤ kMaxMsg →
      patchU32 (out ++ leEncode 4 0 ++ p) out.length
        (.ofNat (responseSize (out ++ leEncode 4 0 ++ p) out.length)) = out ++ frame p := by
    intro p hp
    have hsize : responseSize (out ++ leEncode 4 0 ++ p) out.length = p.length := by
      rw [responseSize, List.length_append, hheader]
      omega
    have hlt : p.length < 2 ^ 32 := Nat.lt_of_le_of_lt hp kMaxMsg_lt
    rw [patchU32, hsize, UInt32.toNat_ofNat_of_lt' hlt, List.drop_left' hheader,
      List.append_assoc out, List.take_left, frame, List.append_assoc]
  have hsize : responseSize (out ++ leEncode 4 0 ++ payload) out.length = payload.length := by
    rw [responseSize, List.length_append, hheader]
    omega
  simp only [responseEnd, hsize]
  unfold capResponse
  split
  · rw [List.take_left' hheader, ← List.append_nil (out ++ leEncode 4 0), outErr_append]
    exact hpatch _ (by decide)
  · exact hpatch _ (by omega)

theorem toNat_frameLen (bs : Bytes) : (UInt32.ofNat (leDecode (bs.take 4))).toNat = frameLength bs := by
  have hle : (bs.take 4).length ≤ 4 := by
    rw [List.length_take]
    omega
  exact UInt32.toNat_ofNat_of_lt'
    (Nat.lt_of_lt_of_le (leDecode_lt _) (Nat.pow_le_pow_right (by decide) hle))

variable {now : UInt64} {s : ServerData} {conn : Connection}

/-- A complete frame is executed and answered. -/
theorem handleOneRequest_of_frame {request rest : Bytes}
    (h : nextFrame? kMaxMsg conn.incoming = some (request, rest)) (now : UInt64) (s : ServerData) :
    handleOneRequest now s conn = (respond now s request).map fun r =>
      (true, r.1, { conn with incoming := rest, outgoing := conn.outgoing ++ frame r.2 }) := by
  unfold nextFrame? at h
  split at h
  · next hframe =>
    obtain ⟨h4, hle, hlen⟩ := hframe
    cases h
    simp only [handleOneRequest, toNat_frameLen, Nat.not_lt.mpr h4, Nat.not_lt.mpr hle,
      Nat.not_lt.mpr hlen, if_false, responseBegin, GT.gt]
    unfold respond
    cases parseRequest ((conn.incoming.drop 4).take (frameLength conn.incoming)) with
    | none =>
      have hout : outErr (appendBufferU32 conn.outgoing 0) errBadArg malformedText =
          conn.outgoing ++ leEncode 4 0 ++ outErr [] errBadArg malformedText := by
        rw [← outErr_append, List.append_nil]
        rfl
      simp only [hout, responseEnd_eq]
      rfl
    | some cmd =>
      have hout : runRequest now s cmd (appendBufferU32 conn.outgoing 0) =
          (runRequest now s cmd []).map (prepend (conn.outgoing ++ leEncode 4 0)) := by
        rw [← runRequest_append, List.append_nil]
        rfl
      simp only [hout]
      cases runRequest now s cmd [] with
      | error e => rfl
      | ok r =>
        simp only [Except.map, ok_bind, prepend, responseEnd_eq]
        rfl
  · cases h

/-- Without a complete frame nothing happens, except that a header may be refused. -/
theorem handleOneRequest_of_none (h : nextFrame? kMaxMsg conn.incoming = none) (now : UInt64)
    (s : ServerData) :
    ∃ wantClose, handleOneRequest now s conn = .ok (false, s, { conn with wantClose }) := by
  unfold nextFrame? at h
  split at h
  · cases h
  · next hframe =>
    simp only [handleOneRequest, toNat_frameLen]
    split
    · exact ⟨conn.wantClose, rfl⟩
    · split
      · exact ⟨true, rfl⟩
      · split
        · exact ⟨conn.wantClose, rfl⟩
        · omega

/-- The response to a frame that is malformed, or to a request that returns. -/
theorem respond_eq_ok {s' : ServerData} {request payload : Bytes}
    (h : respond now s request = .ok (s', payload)) :
    (parseRequest request = none ∧ s' = s ∧ payload = outErr [] errBadArg malformedText) ∨
    ∃ cmd value, parseRequest request = some cmd ∧ runRequest now s cmd [] = .ok (s', value) ∧
      payload = capResponse value := by
  unfold respond at h
  cases hparse : parseRequest request with
  | none =>
    simp only [hparse] at h
    cases h
    exact .inl ⟨rfl, rfl, rfl⟩
  | some cmd =>
    simp only [hparse] at h
    obtain ⟨⟨s₁, value⟩, hrun, hret⟩ := bind_eq_ok.mp h
    cases hret
    exact .inr ⟨cmd, value, rfl, hrun, rfl⟩

/-- A call that returns has answered a frame or left the server alone. -/
theorem handleOneRequest_eq_ok {s' : ServerData} {conn' : Connection} {more : Bool}
    (h : handleOneRequest now s conn = .ok (more, s', conn')) :
    (nextFrame? kMaxMsg conn.incoming = none ∧ s' = s) ∨
    ∃ request rest payload, nextFrame? kMaxMsg conn.incoming = some (request, rest) ∧
      respond now s request = .ok (s', payload) ∧
      conn' = { conn with incoming := rest, outgoing := conn.outgoing ++ frame payload } := by
  cases hframe : nextFrame? kMaxMsg conn.incoming with
  | none =>
    obtain ⟨wantClose, hnone⟩ := handleOneRequest_of_none hframe now s
    cases hnone.symm.trans h
    exact .inl ⟨rfl, rfl⟩
  | some r =>
    obtain ⟨request, rest⟩ := r
    rw [handleOneRequest_of_frame hframe] at h
    cases hrun : respond now s request with
    | error e =>
      rw [hrun] at h
      cases h
    | ok r =>
      rw [hrun] at h
      cases h
      exact .inr ⟨request, rest, r.2, rfl, hrun, rfl⟩

/-- A call that returns on a frame has answered this frame. -/
theorem handleOneRequest_answered {s' : ServerData} {conn' : Connection} {more : Bool}
    {request rest : Bytes} (hframe : nextFrame? kMaxMsg conn.incoming = some (request, rest))
    (h : handleOneRequest now s conn = .ok (more, s', conn')) :
    ∃ payload, respond now s request = .ok (s', payload) ∧
      conn' = { conn with incoming := rest, outgoing := conn.outgoing ++ frame payload } := by
  rcases handleOneRequest_eq_ok h with ⟨hnone, -⟩ | ⟨request', rest', payload, hframe', hresp, hconn⟩
  · rw [hframe] at hnone
    cases hnone
  · obtain ⟨rfl, rfl⟩ : request = request' ∧ rest = rest' := by simpa [hframe] using hframe'
    exact ⟨payload, hresp, hconn⟩

/-! ## What happens to the server -/

/-- A request of the connection with its response, or a change of the server by others. -/
inductive Happening where
  | served (request response : Bytes)
  | other (s : ServerData)

/-- A log of what happened leads from one state of the server to another. -/
def Explains : ServerData → List Happening → ServerData → Prop
  | s, [], s' => s' = s
  | s, .served request response :: log, s' =>
    ∃ now s₁, respond now s request = .ok (s₁, response) ∧ Explains s₁ log s'
  | _, .other s₁ :: log, s' => Explains s₁ log s'

def Happening.request? : Happening → Option Bytes
  | .served request _ => some request
  | .other _ => none

def Happening.response? : Happening → Option Bytes
  | .served _ response => some response
  | .other _ => none

def Happening.other? : Happening → Option ServerData
  | .served _ _ => none
  | .other s => some s

theorem Explains.append {s s₁ s' : ServerData} {log log' : List Happening} (h : Explains s log s₁)
    (h' : Explains s₁ log' s') : Explains s (log ++ log') s' := by
  induction log generalizing s with
  | nil =>
    obtain rfl : s₁ = s := h
    exact h'
  | cons x log ih =>
    cases x with
    | served request response =>
      obtain ⟨now, s₂, hrun, h⟩ := h
      exact ⟨now, s₂, hrun, ih h⟩
    | other s₂ => exact ih (s := s₂) h

/-- Requests are executed one after the other, at the readings of the clock, with the responses given. -/
def Serves : (Nat → UInt64) → ServerData → List (Bytes × Bytes) → ServerData → Prop
  | _, s, [], s' => s' = s
  | clock, s, x :: xs, s' =>
    ∃ s₁, respond (clock 0) s x.1 = .ok (s₁, x.2) ∧ Serves (fun i => clock (i + 1)) s₁ xs s'

/-- The log of what a connection executes by itself. -/
def servedLog (xs : List (Bytes × Bytes)) : List Happening := xs.map fun x => .served x.1 x.2

theorem requests_servedLog (xs : List (Bytes × Bytes)) :
    (servedLog xs).filterMap Happening.request? = xs.map Prod.fst := by
  simp [servedLog, List.filterMap_map, Function.comp_def, Happening.request?]

theorem responses_servedLog (xs : List (Bytes × Bytes)) :
    (servedLog xs).filterMap Happening.response? = xs.map Prod.snd := by
  simp [servedLog, List.filterMap_map, Function.comp_def, Happening.response?]

theorem others_servedLog (xs : List (Bytes × Bytes)) :
    (servedLog xs).filterMap Happening.other? = [] := by
  simp [servedLog, List.filterMap_map, Function.comp_def, Happening.other?]

theorem Serves.explains {clock : Nat → UInt64} {s s' : ServerData} {xs : List (Bytes × Bytes)}
    (h : Serves clock s xs s') : Explains s (servedLog xs) s' := by
  induction xs generalizing clock s with
  | nil => exact h
  | cons x xs ih =>
    obtain ⟨s₁, hrun, h⟩ := h
    exact ⟨clock 0, s₁, hrun, ih h⟩

theorem respond_length {s' : ServerData} {request response : Bytes}
    (h : respond now s request = .ok (s', response)) : response.length ≤ kMaxMsg := by
  unfold respond at h
  split at h
  · cases h
    decide
  · obtain ⟨⟨s₁, payload⟩, -, hret⟩ := bind_eq_ok.mp h
    cases hret
    exact length_capResponse payload

/-- The loop executes all complete frames of the buffer, in order. -/
theorem handleRequests_ok {fuel : Nat} {clock : Nat → UInt64} {s' : ServerData} {conn' : Connection}
    (hrun : handleRequests fuel clock s conn = .ok (s', conn')) :
    ∃ xs : List (Bytes × Bytes), Serves clock s xs s' ∧
      splitFrames kMaxMsg conn.incoming = (xs.map Prod.fst, conn'.incoming) ∧
      conn'.outgoing = conn.outgoing ++ ((xs.map Prod.snd).map frame).flatten ∧
      (∀ x ∈ xs, x.2.length ≤ kMaxMsg) ∧
      conn'.wantRead = conn.wantRead ∧ conn'.wantWrite = conn.wantWrite := by
  induction fuel generalizing clock s conn with
  | zero => cases hrun
  | succ fuel ih =>
    cases hnext : nextFrame? kMaxMsg conn.incoming with
    | none =>
      obtain ⟨wantClose, hone⟩ := handleOneRequest_of_none hnext (clock 0) s
      simp only [handleRequests, hone, ok_bind] at hrun
      cases hrun
      exact ⟨[], rfl, splitFrames_of_none hnext, by simp, by simp, rfl, rfl⟩
    | some r =>
      obtain ⟨request, rest⟩ := r
      have hone := handleOneRequest_of_frame hnext (clock 0) s
      obtain ⟨⟨b, s₁, conn₁⟩, hone', hrun⟩ := bind_eq_ok.mp hrun
      rw [hone] at hone'
      cases hrespond : respond (clock 0) s request with
      | error e =>
        rw [hrespond] at hone'
        cases hone'
      | ok r =>
        rw [hrespond] at hone'
        cases hone'
        obtain ⟨xs, hserves, hsplit, hout, hlen, hread, hwrite⟩ := ih hrun
        refine ⟨(request, r.2) :: xs, ⟨r.1, hrespond, hserves⟩, ?_, ?_, ?_, hread, hwrite⟩
        · rw [splitFrames_of_some hnext, hsplit]
          rfl
        · rw [hout]
          simp
        · simp only [List.mem_cons, forall_eq_or_imp]
          exact ⟨respond_length hrespond, hlen⟩

/-- What `read()` may return: chunks of at most 64 KiB. -/
def ReadResult.Valid : ReadResult → Prop
  | .data chunk => 0 < chunk.length ∧ chunk.length ≤ 64 * 1024
  | _ => True

instance (rv : ReadResult) : Decidable rv.Valid :=
  match rv with
  | .data chunk => inferInstanceAs (Decidable (0 < chunk.length ∧ chunk.length ≤ 64 * 1024))
  | .again | .failed | .eof => .isTrue trivial

/-- The bytes that `read()` delivers. -/
def ReadResult.bytes : ReadResult → Bytes
  | .data chunk => chunk
  | _ => []

/-- What `write()` may return: it accepts a non-empty part of the buffer it is given. -/
def WriteBehaviour : Type :=
  { write : Bytes → WriteResult // ∀ b n, write b = .accepted n → 0 < n ∧ n ≤ b.length }

/-- A connection, the server, and the bytes that went through the socket. -/
structure Link where
  conn : Connection
  server : ServerData
  delivered : Bytes
  sent : Bytes

inductive LinkOp where
  | read (clock : Nat → UInt64) (rv : { rv : ReadResult // rv.Valid }) (write : WriteBehaviour)
  | write (write : WriteBehaviour)
  | other (s : ServerData)

/-- A call that the event loop makes if the connection wants it, or something that others do. -/
def Link.step (l : Link) : LinkOp → Result Link
  | .read clock rv write =>
    if l.conn.wantRead then do
      let (server, conn, written) ← handleRead clock l.server l.conn rv.1 write.1
      return { conn, server, delivered := l.delivered ++ rv.1.bytes, sent := l.sent ++ written }
    else return l
  | .write write =>
    if l.conn.wantWrite then do
      let (conn, written) ← handleWrite l.conn (write.1 l.conn.outgoing)
      return { l with conn, sent := l.sent ++ written }
    else return l
  | .other s => return { l with server := s }

/-- An accepted connection. -/
def Link.accept (s : ServerData) : Link where
  conn := { wantRead := true }
  server := s
  delivered := []
  sent := []

def LinkOp.other? : LinkOp → Option ServerData
  | .other s => some s
  | _ => none

/-- The log `log` accounts for everything that the connection did since the server state `s₀`. -/
structure Link.Accounts (s₀ : ServerData) (l : Link) (log : List Happening) : Prop where
  explains : Explains s₀ log l.server
  requests : splitFrames kMaxMsg l.delivered = (log.filterMap Happening.request?, l.conn.incoming)
  responses : l.sent ++ l.conn.outgoing = ((log.filterMap Happening.response?).map frame).flatten
  length : ∀ r ∈ log.filterMap Happening.response?, r.length ≤ kMaxMsg
  wantWrite : l.conn.wantWrite = true → l.conn.outgoing ≠ []

theorem handleWrite_ok {rv : WriteResult} {conn' : Connection} {written : Bytes}
    (hrun : handleWrite conn rv = .ok (conn', written)) :
    conn'.incoming = conn.incoming ∧ written ++ conn'.outgoing = conn.outgoing ∧
      (conn'.wantWrite = true → conn'.outgoing ≠ []) := by
  obtain ⟨_, hassert, hrun⟩ := bind_eq_ok.mp hrun
  have hne : conn.outgoing ≠ [] := by simpa using hassert
  cases rv with
  | again =>
    cases hrun
    exact ⟨rfl, rfl, fun _ => hne⟩
  | failed =>
    cases hrun
    exact ⟨rfl, rfl, fun _ => hne⟩
  | accepted n =>
    by_cases hlen : (consumeBuffer conn.outgoing n).length = 0
    · simp only [hlen, if_true] at hrun
      cases hrun
      exact ⟨rfl, List.take_append_drop .., by simp⟩
    · simp only [hlen, if_false] at hrun
      cases hrun
      refine ⟨rfl, List.take_append_drop .., fun _ hnil => hlen ?_⟩
      exact congrArg List.length hnil

theorem handleWrite_total (conn : Connection) (rv : WriteResult) (h : conn.outgoing ≠ []) :
    ∃ r, handleWrite conn rv = .ok r := by
  have hassert : assert (!conn.outgoing.isEmpty) .handleWriteOutgoing = .ok () := by simpa using h
  simp only [handleWrite, hassert, ok_bind]
  cases rv with
  | again | failed => exact ⟨_, rfl⟩
  | accepted n =>
    simp only
    split <;> exact ⟨_, rfl⟩

/-- A call of `handle_read` on a connection that has no complete frame in its buffer. -/
theorem handleRead_ok {clock : Nat → UInt64} {rv : ReadResult} {write : Bytes → WriteResult}
    {s' : ServerData} {conn' : Connection} {written : Bytes}
    (hdone : nextFrame? kMaxMsg conn.incoming = none)
    (hwant : conn.wantWrite = true → conn.outgoing ≠ [])
    (hrun : handleRead clock s conn rv write = .ok (s', conn', written)) :
    ∃ xs : List (Bytes × Bytes), Serves clock s xs s' ∧
      splitFrames kMaxMsg (conn.incoming ++ rv.bytes) = (xs.map Prod.fst, conn'.incoming) ∧
      written ++ conn'.outgoing = conn.outgoing ++ ((xs.map Prod.snd).map frame).flatten ∧
      (∀ x ∈ xs, x.2.length ≤ kMaxMsg) ∧ (conn'.wantWrite = true → conn'.outgoing ≠ []) := by
  have hidle : splitFrames kMaxMsg (conn.incoming ++ []) = ([], conn.incoming) := by
    rw [List.append_nil, splitFrames_of_none hdone]
  cases rv with
  | again | failed | eof =>
    cases hrun
    exact ⟨[], rfl, hidle, by simp, by simp, hwant⟩
  | data chunk =>
    obtain ⟨⟨s₁, conn₁⟩, hreqs, hrun⟩ := bind_eq_ok.mp hrun
    obtain ⟨xs, hserves, hsplit, hout, hlen, -, hwrite⟩ := handleRequests_ok hreqs
    by_cases hempty : conn₁.outgoing = []
    · simp only [hempty, List.isEmpty_nil, Bool.not_true, Bool.false_eq_true, if_false] at hrun
      cases hrun
      refine ⟨xs, hserves, hsplit, hout, hlen, fun hw => ?_⟩
      -- Nothing was appended, so the buffer was empty before.
      rw [hempty] at hout
      exact absurd (List.append_eq_nil_iff.mp hout.symm).1 (hwant (hwrite ▸ hw))
    · have hne : (!conn₁.outgoing.isEmpty) = true := by simpa using hempty
      simp only [hne, if_true] at hrun
      obtain ⟨⟨conn₂, written'⟩, hw, hret⟩ := bind_eq_ok.mp hrun
      cases hret
      obtain ⟨hincoming, hbytes, hwant'⟩ := handleWrite_ok hw
      exact ⟨xs, hserves, hincoming ▸ hsplit, hbytes.trans hout, hlen, hwant'⟩

/-! ## Invariants of the server data

A predicate that every request keeps is kept by all that a connection does. -/

section Invariant

variable {motive : ServerData → Prop} {s' : ServerData} {conn' : Connection}
  (hstep : ∀ now s cmd s' value, motive s → runRequest now s cmd [] = .ok (s', value) → motive s')
include hstep

theorem handleOneRequest_invariant {more : Bool} (h : motive s)
    (hrun : handleOneRequest now s conn = .ok (more, s', conn')) : motive s' := by
  rcases handleOneRequest_eq_ok hrun with ⟨-, rfl⟩ | ⟨request, rest, payload, -, hresp, -⟩
  · exact h
  · rcases respond_eq_ok hresp with ⟨-, rfl, -⟩ | ⟨cmd, value, -, hreq, -⟩
    · exact h
    · exact hstep now s cmd s' value h hreq

theorem handleRequests_invariant {fuel : Nat} {clock : Nat → UInt64} (h : motive s)
    (hrun : handleRequests fuel clock s conn = .ok (s', conn')) : motive s' := by
  induction fuel generalizing clock s conn with
  | zero => cases hrun
  | succ fuel ih =>
    obtain ⟨⟨more, s₁, conn₁⟩, hone, hrun⟩ := bind_eq_ok.mp hrun
    have h₁ := handleOneRequest_invariant hstep h hone
    cases more with
    | true => exact ih h₁ hrun
    | false =>
      cases hrun
      exact h₁

theorem handleRead_invariant {clock : Nat → UInt64} {rv : ReadResult} {write : Bytes → WriteResult}
    {written : Bytes} (h : motive s)
    (hrun : handleRead clock s conn rv write = .ok (s', conn', written)) : motive s' := by
  cases rv with
  | again | failed | eof =>
    cases hrun
    exact h
  | data chunk =>
    obtain ⟨⟨s₁, conn₁⟩, hreqs, hrun⟩ := bind_eq_ok.mp hrun
    have h₁ := handleRequests_invariant hstep h hreqs
    simp only at hrun
    split at hrun
    · obtain ⟨r, -, hret⟩ := bind_eq_ok.mp hrun
      cases hret
      exact h₁
    · cases hrun
      exact h₁

end Invariant

/-- One call, or one thing that others do. -/
theorem Link.Accounts.step {s₀ : ServerData} {l l' : Link} {log : List Happening} {op : LinkOp}
    (h : l.Accounts s₀ log) (hrun : l.step op = .ok l') :
    ∃ log' : List Happening, l'.Accounts s₀ (log ++ log') ∧
      log'.filterMap Happening.other? = op.other?.toList := by
  have hdone : nextFrame? kMaxMsg l.conn.incoming = none := by
    have hrest := nextFrame?_splitFrames kMaxMsg l.delivered
    rwa [h.requests] at hrest
  cases op with
  | read clock rv write =>
    by_cases hwant : l.conn.wantRead = true
    · simp only [Link.step, hwant, if_true] at hrun
      obtain ⟨⟨s', conn', written⟩, hread, hret⟩ := bind_eq_ok.mp hrun
      cases hret
      obtain ⟨xs, hserves, hsplit, hbytes, hlen, hwrite⟩ := handleRead_ok hdone h.wantWrite hread
      refine ⟨servedLog xs, ⟨h.explains.append hserves.explains, ?_, ?_, fun r hr => ?_, hwrite⟩,
        others_servedLog xs⟩
      · rw [splitFrames_append, h.requests, hsplit, List.filterMap_append, requests_servedLog]
      · simp only [List.append_assoc, hbytes, List.filterMap_append, List.map_append,
          List.flatten_append, responses_servedLog]
        rw [← List.append_assoc, h.responses]
      · rw [List.filterMap_append, responses_servedLog] at hr
        rcases List.mem_append.mp hr with hr | hr
        · exact h.length r hr
        · obtain ⟨x, hx, rfl⟩ := List.mem_map.mp hr
          exact hlen x hx
    · simp only [Link.step, hwant] at hrun
      cases hrun
      exact ⟨[], by simpa using h, rfl⟩
  | write write =>
    by_cases hwant : l.conn.wantWrite = true
    · simp only [Link.step, hwant, if_true] at hrun
      obtain ⟨⟨conn', written⟩, hwrite, hret⟩ := bind_eq_ok.mp hrun
      cases hret
      obtain ⟨hincoming, hbytes, hwant'⟩ := handleWrite_ok hwrite
      refine ⟨[], ⟨?_, ?_, ?_, ?_, hwant'⟩, rfl⟩
      · simpa using h.explains
      · simpa [hincoming] using h.requests
      · simpa [hbytes] using h.responses
      · simpa using h.length
    · simp only [Link.step, hwant] at hrun
      cases hrun
      exact ⟨[], by simpa using h, rfl⟩
  | other s =>
    cases hrun
    have hreqs : (log ++ [Happening.other s]).filterMap Happening.request? =
        log.filterMap Happening.request? :=
      (List.filterMap_append ..).trans (List.append_nil _)
    have hresps : (log ++ [Happening.other s]).filterMap Happening.response? =
        log.filterMap Happening.response? :=
      (List.filterMap_append ..).trans (List.append_nil _)
    refine ⟨[.other s], ⟨h.explains.append rfl, hreqs ▸ h.requests, hresps ▸ h.responses,
      hresps ▸ h.length, h.wantWrite⟩, rfl⟩

theorem Link.Accounts.accept (s₀ : ServerData) : (Link.accept s₀).Accounts s₀ [] where
  explains := rfl
  requests := splitFrames_of_none (by simp [Link.accept, nextFrame?])
  responses := rfl
  length := by simp
  wantWrite := by simp [Link.accept]

theorem Link.Accounts.run {s₀ : ServerData} {l l' : Link} {log : List Happening} {ops : List LinkOp}
    (h : l.Accounts s₀ log) (hrun : runSteps Link.step l ops = .ok l') :
    ∃ log' : List Happening, l'.Accounts s₀ (log ++ log') ∧
      log'.filterMap Happening.other? = ops.filterMap LinkOp.other? := by
  induction ops generalizing l log with
  | nil =>
    cases hrun
    exact ⟨[], by simpa using h, rfl⟩
  | cons op ops ih =>
    cases hop : l.step op with
    | error e =>
      rw [runSteps_cons_error hop] at hrun
      cases hrun
    | ok l₁ =>
      rw [runSteps_cons_ok hop] at hrun
      obtain ⟨log₁, h₁, hother₁⟩ := h.step hop
      obtain ⟨log₂, h₂, hother₂⟩ := ih h₁ hrun
      refine ⟨log₁ ++ log₂, by simpa using h₂, ?_⟩
      rw [List.filterMap_append, hother₁, hother₂, List.filterMap_cons]
      cases op.other? <;> rfl

/-- The payload of a `ping`. -/
def pingRequest : Bytes := leEncode 4 1 ++ leEncode 4 4 ++ ascii ['p', 'i', 'n', 'g']

end MiniRedis
