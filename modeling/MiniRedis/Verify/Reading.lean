import MiniRedis.Verify.Session

/-! # Responses in pieces

The client reads a response in as many pieces as `read()` makes of it. What it has become after some bytes
depends on the bytes alone, not on how they were cut, whatever the server sends. -/

namespace MiniRedis

namespace Client

/-- What the client is after it has read `bytes` in pieces. -/
inductive Reads (c : Client) : Bytes → Client → Prop where
  | refl : Reads c [] c
  | chunk (h : Reads c bytes c₁) (hallow : c₁.phase.Allows (.read (.data chunk)))
      (hrun : c₁.step (.read (.data chunk)) = .ok c₂) : Reads c (bytes ++ chunk) c₂

variable {c c₁ c' : Client} {bytes chunk : Bytes}

/-- What a client that waits for a response is after it has read `bytes`, no more than the response. -/
def after (c : Client) (bytes : Bytes) : Result Client :=
  let c' := { c with read := c.read ++ bytes }
  if bytes.length < 4 then return { c' with phase := .header bytes }
  else
    let len : UInt32 := .ofNat (leDecode (bytes.take 4))
    if len.toNat > kMaxMsg then return { c' with phase := .closed .badResponseLength }
    else if bytes.length < 4 + len.toNat then return { c' with phase := .payload len (bytes.drop 4) }
    else c'.finishResponse len (bytes.drop 4)

/-! ## One piece -/

/-- With the last byte of a response the client stops to read. -/
theorem finishResponse_phase {len : UInt32} {payload : Bytes} (hrun : c.finishResponse len payload = .ok c') :
    c'.phase = .prompt ∨ c'.phase = .closed .badResponse := by
  obtain ⟨⟨rv, out⟩, -, hrun⟩ := bind_eq_ok.mp hrun
  simp only at hrun
  split at hrun
  · cases hrun
    exact .inr rfl
  · split at hrun
    · cases hrun
      exact .inr rfl
    · cases hrun
      exact .inl rfl

/-- One piece more. -/
theorem after_step (hafter : c.after bytes = .ok c₁) (hallow : c₁.phase.Allows (.read (.data chunk))) :
    c₁.step (.read (.data chunk)) = c.after (bytes ++ chunk) := by
  have hlength : (bytes ++ chunk).length = bytes.length + chunk.length := List.length_append
  simp only [after] at hafter
  split at hafter
  · next hshort =>
    cases hafter
    obtain ⟨-, hroom⟩ := hallow
    simp only [Client.step, Client.handleHeader, after, List.append_assoc]
    split
    · rfl
    · next hfull =>
      -- The four bytes are the header, and nothing of the payload has been read.
      have h4 : (bytes ++ chunk).length = 4 := by omega
      rw [List.take_of_length_le (by omega), List.drop_eq_nil_of_le (by omega), h4]
      split
      · rfl
      · simp only [Client.handlePayload, List.length_nil, Nat.lt_add_right_iff_pos]
        rfl
  · next hheader =>
    split at hafter
    · cases hafter
      exact hallow.elim
    · next hmax =>
      split at hafter
      · next hmore =>
        cases hafter
        obtain ⟨-, hroom⟩ := hallow
        have h4 : ¬ (bytes ++ chunk).length < 4 := by omega
        have htake : (bytes ++ chunk).take 4 = bytes.take 4 := List.take_append_of_le_length (by omega)
        have hdrop : (bytes ++ chunk).drop 4 = bytes.drop 4 ++ chunk := List.drop_append_of_le_length (by omega)
        simp only [Client.step, Client.handlePayload, after, List.append_assoc, htake, hdrop]
        have hmore' : (bytes.drop 4 ++ chunk).length < (UInt32.ofNat (leDecode (bytes.take 4))).toNat ↔
            (bytes ++ chunk).length < 4 + (UInt32.ofNat (leDecode (bytes.take 4))).toNat := by
          rw [List.length_append, List.length_drop]
          omega
        simp only [h4, hmax, hmore', if_false]
        rfl
      · rcases finishResponse_phase hafter with hphase | hphase
        · rw [hphase] at hallow
          exact hallow.elim
        · rw [hphase] at hallow
          exact hallow.elim

/-- All pieces. -/
theorem Reads.after (h : c.Reads bytes c') (hphase : c.phase = .header []) : c.after bytes = .ok c' := by
  induction h with
  | refl =>
    rw [Client.after, List.append_nil, ← hphase]
    rfl
  | chunk _ hallow hrun ih => exact (after_step ih hallow).symm.trans hrun

/-- The client never asks for more than the response. -/
theorem fits_step (hafter : c.after bytes = .ok c₁) (hallow : c₁.phase.Allows (.read (.data chunk)))
    (h4 : 4 ≤ (bytes ++ chunk).length) : (bytes ++ chunk).length ≤ 4 + frameLength (bytes ++ chunk) := by
  have hlength : (bytes ++ chunk).length = bytes.length + chunk.length := List.length_append
  simp only [after] at hafter
  split at hafter
  · cases hafter
    obtain ⟨-, hroom⟩ := hallow
    omega
  · next hheader =>
    split at hafter
    · cases hafter
      exact hallow.elim
    · split at hafter
      · cases hafter
        obtain ⟨-, hroom⟩ := hallow
        rw [toNat_frameLen, List.length_drop] at hroom
        rw [frameLength_append (Nat.le_of_not_lt hheader)]
        omega
      · rcases finishResponse_phase hafter with hphase | hphase
        · rw [hphase] at hallow
          exact hallow.elim
        · rw [hphase] at hallow
          exact hallow.elim

/-! ## The stream -/

theorem readAll_append {n : Nat} (h : n ≤ bytes.length) (more : Bytes) :
    readAll (bytes ++ more) n = some (bytes.take n, bytes.drop n ++ more) := by
  rw [readAll, List.length_append, if_neg (by omega), List.take_append_of_le_length h,
    List.drop_append_of_le_length h]

/-- A complete response is handled as in the stream, whatever follows it there. -/
theorem finishResponse_eq (h4 : 4 ≤ bytes.length) (hmax : frameLength bytes ≤ kMaxMsg)
    (hfull : bytes.length = 4 + frameLength bytes) (more : Bytes) :
    c.finishResponse (.ofNat (leDecode (bytes.take 4))) (bytes.drop 4) =
      (readResponse (bytes ++ more)).map fun r =>
        { c with phase := if r.1 < 0 then .closed .badResponse else .prompt, printed := c.printed ++ [r.2] } := by
  have hpayload : readAll (bytes.drop 4 ++ more) (frameLength bytes) = some (bytes.drop 4, more) := by
    have hlen : (bytes.drop 4).length = frameLength bytes := by
      rw [List.length_drop]
      omega
    rw [readAll_append (Nat.le_of_eq hlen.symm), List.take_of_length_le (Nat.le_of_eq hlen),
      List.drop_eq_nil_of_le (Nat.le_of_eq hlen), List.nil_append]
  simp only [readResponse, readAll_append h4, toNat_frameLen, gt_iff_lt, Nat.not_lt.mpr hmax, if_false, hpayload,
    finishResponse]
  cases printResponse ((bytes.drop 4).length + 1) (bytes.drop 4) with
  | error e => rfl
  | ok r =>
    obtain ⟨rv, out⟩ := r
    simp only [ok_bind]
    split
    · rfl
    · split
      · next hneg => simp [Except.map, hneg, pure_eq_ok]
      · next hneg => simp [Except.map, hneg, pure_eq_ok]

/-- There is no response yet: the header is not complete, or the payload is not that it announces. -/
def TooShort (stream : Bytes) : Prop :=
  stream.length < 4 ∨ frameLength stream ≤ kMaxMsg ∧ stream.length < 4 + frameLength stream

/-- What the client makes of some bytes, and what it would make of the stream. -/
theorem after_response (hfits : 4 ≤ bytes.length → bytes.length ≤ 4 + frameLength bytes) :
    (∃ c', c.after bytes = .ok c' ∧ c'.phase.Waits ∧ c'.printed = c.printed ∧ TooShort bytes ∧
        readResponse bytes = .ok (-1, [if bytes.length < 4 then .unexpectedEof else .readError])) ∨
      (∃ c', c.after bytes = .ok c' ∧ c'.phase = .closed .badResponseLength ∧ c'.printed = c.printed ∧
        4 ≤ bytes.length ∧ kMaxMsg < frameLength bytes ∧
        ∀ more, readResponse (bytes ++ more) = .ok (-1, [.badResponseLength])) ∨
      frameLength bytes ≤ kMaxMsg ∧ bytes.length = 4 + frameLength bytes ∧
      ∀ more, c.after bytes = (readResponse (bytes ++ more)).map fun r =>
        { c with
          read := c.read ++ bytes
          phase := if r.1 < 0 then .closed .badResponse else .prompt
          printed := c.printed ++ [r.2] } := by
  simp only [after, toNat_frameLen]
  split
  · next hshort =>
    refine .inl ⟨_, rfl, trivial, rfl, .inl hshort, ?_⟩
    simp [readResponse, readAll, hshort, pure_eq_ok]
  · next hheader =>
    have h4 : 4 ≤ bytes.length := Nat.le_of_not_lt hheader
    split
    · next hover =>
      refine .inr (.inl ⟨_, rfl, rfl, rfl, h4, hover, fun more => ?_⟩)
      simp only [readResponse, readAll_append h4, toNat_frameLen, hover, if_true]
      rfl
    · next hmax =>
      split
      · next hmore =>
        refine .inl ⟨_, rfl, trivial, rfl, .inr ⟨Nat.le_of_not_lt hmax, hmore⟩, ?_⟩
        have hread : readAll bytes 4 = some (bytes.take 4, bytes.drop 4) := if_neg hheader
        have hnone : readAll (bytes.drop 4) (frameLength bytes) = none := by
          rw [readAll, List.length_drop, if_pos (by omega)]
        simp only [readResponse, hread, toNat_frameLen, hmax, if_false, hnone]
        rfl
      · next hmore =>
        have hfull : bytes.length = 4 + frameLength bytes := by
          have := hfits h4
          omega
        refine .inr (.inr ⟨Nat.le_of_not_lt hmax, hfull, fun more => ?_⟩)
        exact finishResponse_eq h4 (Nat.le_of_not_lt hmax) hfull more

end Client

/-- **Responses in pieces.** A client that waits for a response has become the same whichever way the bytes
that it read were cut, whatever the server sent. With the next piece it still waits, having printed nothing,
and the stream so far is too short for a response, as `read_response` would say at its end; or it refuses the
header, which announces too much, as it would in every stream that begins with these bytes; or it has read
exactly one response, and printed, closed or failed as `read_response` does in every stream that begins with
it. -/
theorem client_reads_response {c c₁ : Client} {bytes : Bytes} (h : c.Reads bytes c₁)
    (hphase : c.phase = .header []) :
    (∀ c₂, c.Reads bytes c₂ → c₂ = c₁) ∧
      ∀ chunk, c₁.phase.Allows (.read (.data chunk)) →
        (∃ c', c₁.step (.read (.data chunk)) = .ok c' ∧ c'.phase.Waits ∧ c'.printed = c.printed ∧
            Client.TooShort (bytes ++ chunk) ∧ readResponse (bytes ++ chunk) =
              .ok (-1, [if (bytes ++ chunk).length < 4 then .unexpectedEof else .readError])) ∨
          (∃ c', c₁.step (.read (.data chunk)) = .ok c' ∧ c'.phase = .closed .badResponseLength ∧
            c'.printed = c.printed ∧ 4 ≤ (bytes ++ chunk).length ∧ kMaxMsg < frameLength (bytes ++ chunk) ∧
            ∀ more, readResponse (bytes ++ chunk ++ more) = .ok (-1, [.badResponseLength])) ∨
          frameLength (bytes ++ chunk) ≤ kMaxMsg ∧ (bytes ++ chunk).length = 4 + frameLength (bytes ++ chunk) ∧
          ∀ more, c₁.step (.read (.data chunk)) = (readResponse (bytes ++ chunk ++ more)).map fun r =>
            { c with
              read := c.read ++ (bytes ++ chunk)
              phase := if r.1 < 0 then .closed .badResponse else .prompt
              printed := c.printed ++ [r.2] } := by
  have hafter := h.after hphase
  refine ⟨fun c₂ h₂ => ?_, fun chunk hallow => ?_⟩
  · exact Except.ok.inj ((h₂.after hphase).symm.trans hafter)
  · rw [Client.after_step hafter hallow]
    exact Client.after_response (Client.fits_step hafter hallow)

/-- The first three bytes of a response, in two pieces, and with the fourth the client still waits. -/
theorem client_reads_response_pong :
    ∃ c₁ c', Client.Reads { phase := .header [] } (pong.take 3) c₁ ∧
      (∀ c₂, Client.Reads { phase := .header [] } (pong.take 3) c₂ → c₂ = c₁) ∧
      c₁.step (.read (.data ((pong.drop 3).take 1))) = .ok c' ∧ c'.phase.Waits ∧
      Client.TooShort (pong.take 4) ∧ readResponse (pong.take 4) = .ok (-1, [.readError]) := by
  obtain ⟨c₁, h, hallow⟩ : ∃ c₁,
      Client.Reads { phase := .header [] } ([] ++ pong.take 1 ++ (pong.drop 1).take 2) c₁ ∧
      c₁.phase.Allows (.read (.data ((pong.drop 3).take 1))) :=
    ⟨_, .chunk (.chunk .refl ⟨by decide, by decide⟩ rfl) ⟨by decide, by decide⟩ rfl, by decide, by decide⟩
  obtain ⟨hsame, hnext⟩ := client_reads_response h rfl
  rcases hnext _ hallow with ⟨c', hrun, hwaits, -, hshort, hread⟩ | ⟨-, -, -, -, -, hover, -⟩ | ⟨-, hfull, -⟩
  · exact ⟨c₁, c', h, hsame, hrun, hwaits, hshort, hread⟩
  · exact absurd hover (by decide)
  · exact absurd hfull (by decide)

end MiniRedis
