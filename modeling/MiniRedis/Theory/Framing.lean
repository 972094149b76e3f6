import Mathlib.Data.List.Basic
import MiniRedis.Theory.LittleEndian

/-! # Length-prefixed frames

A frame is a payload after its length in four bytes. A receiver that only knows the bytes delivered so
far takes frames off their front until the next frame is incomplete or longer than a limit; what it
takes does not depend on how the bytes were cut into chunks. -/

/-- A payload with its header. -/
def frame (payload : List UInt8) : List UInt8 := leEncode 4 payload.length ++ payload

/-- The payload length that a header announces. -/
def frameLength (bs : List UInt8) : Nat := leDecode (bs.take 4)

/-- The first frame of a byte string and the bytes after it, if the frame is complete and its length
is within the limit. -/
def nextFrame? (limit : Nat) (bs : List UInt8) : Option (List UInt8 × List UInt8) :=
  if 4 ≤ bs.length ∧ frameLength bs ≤ limit ∧ 4 + frameLength bs ≤ bs.length then
    some ((bs.drop 4).take (frameLength bs), bs.drop (4 + frameLength bs))
  else none

section
variable {limit : Nat} {bs cs payload rest : List UInt8}

theorem length_frame (payload : List UInt8) : (frame payload).length = 4 + payload.length := by
  simp [frame]

/-- Frames of short payloads. -/
theorem length_frames_le {n : Nat} {payloads : List (List UInt8)} (h : ∀ p ∈ payloads, p.length ≤ n) :
    (payloads.map frame).flatten.length ≤ payloads.length * (4 + n) := by
  induction payloads with
  | nil => exact Nat.zero_le _
  | cons p payloads ih =>
    have hp := h p List.mem_cons_self
    have hrest := ih fun q hq => h q (List.mem_cons_of_mem _ hq)
    rw [List.map_cons, List.flatten_cons, List.length_append, length_frame, List.length_cons, Nat.succ_mul]
    omega

theorem frameLength_append (h : 4 ≤ bs.length) : frameLength (bs ++ cs) = frameLength bs := by
  rw [frameLength, frameLength, List.take_append_of_le_length h]

theorem frameLength_frame (h : payload.length < 256 ^ 4) :
    frameLength (frame payload ++ rest) = payload.length := by
  have htake : (frame payload ++ rest).take 4 = leEncode 4 payload.length := by
    rw [frame, List.append_assoc, List.take_left' (length_leEncode 4 _)]
  rw [frameLength, htake, leDecode_leEncode h]

theorem nextFrame?_eq_some (hlimit : limit < 256 ^ 4) :
    nextFrame? limit bs = some (payload, rest) ↔
      bs = frame payload ++ rest ∧ payload.length ≤ limit := by
  constructor
  · intro h
    unfold nextFrame? at h
    split at h
    · next hframe =>
      obtain ⟨h4, hle, hlen⟩ := hframe
      cases h
      have hpayload : ((bs.drop 4).take (frameLength bs)).length = frameLength bs := by
        rw [List.length_take, List.length_drop]
        omega
      refine ⟨?_, Nat.le_trans (Nat.le_of_eq hpayload) hle⟩
      have hheader : leEncode 4 (frameLength bs) = bs.take 4 :=
        leEncode_leDecode_of_length (by rw [List.length_take]; omega)
      rw [frame, hpayload, hheader, List.append_assoc, ← List.drop_drop, List.take_append_drop,
        List.take_append_drop]
    · cases h
  · rintro ⟨rfl, hle⟩
    have hlength : frameLength (frame payload ++ rest) = payload.length :=
      frameLength_frame (Nat.lt_of_le_of_lt hle hlimit)
    have hframe : frame payload ++ rest = leEncode 4 payload.length ++ (payload ++ rest) := by
      rw [frame, List.append_assoc]
    have h4 : (leEncode 4 payload.length).length = 4 := length_leEncode 4 _
    rw [nextFrame?, hlength, if_pos (by rw [List.length_append, length_frame]; omega),
      ← List.drop_drop, hframe, List.drop_left' h4, List.take_left, List.drop_left]

theorem nextFrame?_append (h : nextFrame? limit bs = some (payload, rest)) :
    nextFrame? limit (bs ++ cs) = some (payload, rest ++ cs) := by
  unfold nextFrame? at h ⊢
  split at h
  · next hframe =>
    obtain ⟨h4, hle, hlen⟩ := hframe
    cases h
    rw [frameLength_append h4, if_pos (by rw [List.length_append]; omega),
      List.drop_append_of_le_length h4, List.drop_append_of_le_length hlen,
      List.take_append_of_le_length (by rw [List.length_drop]; omega)]
  · cases h

theorem length_of_nextFrame? (h : nextFrame? limit bs = some (payload, rest)) :
    4 + payload.length + rest.length = bs.length := by
  unfold nextFrame? at h
  split at h
  · next hframe =>
    obtain ⟨h4, hle, hlen⟩ := hframe
    cases h
    rw [List.length_take, List.length_drop, List.length_drop]
    omega
  · cases h

theorem nextFrame?_length (h : nextFrame? limit bs = some (payload, rest)) :
    rest.length < bs.length := by
  have hlen := length_of_nextFrame? h
  omega

end

/-- The frames at the front of a byte string, and the bytes that are left. -/
def splitFrames (limit : Nat) (bs : List UInt8) : List (List UInt8) × List UInt8 :=
  match _h : nextFrame? limit bs with
  | none => ([], bs)
  | some (payload, rest) =>
    let (payloads, rest') := splitFrames limit rest
    (payload :: payloads, rest')
termination_by bs.length
decreasing_by exact nextFrame?_length ‹_›

section
variable {limit : Nat} {bs cs payload rest : List UInt8}

theorem splitFrames_of_none (h : nextFrame? limit bs = none) : splitFrames limit bs = ([], bs) := by
  rw [splitFrames]
  split
  · rfl
  · next h' => simp [h] at h'

theorem splitFrames_of_some (h : nextFrame? limit bs = some (payload, rest)) :
    splitFrames limit bs = (payload :: (splitFrames limit rest).1, (splitFrames limit rest).2) := by
  rw [splitFrames]
  split
  · next h' => simp [h] at h'
  · next h' =>
    rw [h] at h'
    cases h'
    rfl

/-- The rule of induction along the frames. -/
theorem splitFrames_induction (limit : Nat) {motive : List UInt8 → Prop} (bs : List UInt8)
    (none : ∀ bs, nextFrame? limit bs = none → motive bs)
    (some : ∀ bs payload rest, nextFrame? limit bs = some (payload, rest) → motive rest → motive bs) :
    motive bs := by
  induction hn : bs.length using Nat.strongRecOn generalizing bs with
  | ind n ih =>
    cases h : nextFrame? limit bs with
    | none => exact none bs h
    | some r => exact some bs r.1 r.2 h (ih _ (hn ▸ nextFrame?_length h) r.2 rfl)

theorem nextFrame?_splitFrames (limit : Nat) (bs : List UInt8) :
    nextFrame? limit (splitFrames limit bs).2 = none := by
  induction bs using splitFrames_induction limit with
  | none bs h => rw [splitFrames_of_none h, h]
  | some bs payload rest h ih => rwa [splitFrames_of_some h]

/-- The frames and what is left are all of the bytes. -/
theorem splitFrames_flatten (hlimit : limit < 256 ^ 4) (bs : List UInt8) :
    bs = ((splitFrames limit bs).1.map frame).flatten ++ (splitFrames limit bs).2 := by
  induction bs using splitFrames_induction limit with
  | none bs h => simp [splitFrames_of_none h]
  | some bs payload rest h ih =>
    rw [splitFrames_of_some h, List.map_cons, List.flatten_cons, List.append_assoc, ← ih]
    exact ((nextFrame?_eq_some hlimit).mp h).1

/-- No payload is longer than the limit. -/
theorem length_le_of_mem_splitFrames (hlimit : limit < 256 ^ 4) {payload : List UInt8} (bs : List UInt8)
    (h : payload ∈ (splitFrames limit bs).1) : payload.length ≤ limit := by
  induction bs using splitFrames_induction limit with
  | none bs hnone =>
    rw [splitFrames_of_none hnone] at h
    cases h
  | some bs first rest hsome ih =>
    rw [splitFrames_of_some hsome] at h
    rcases List.mem_cons.mp h with rfl | h
    · exact ((nextFrame?_eq_some hlimit).mp hsome).2
    · exact ih h

/-- Splitting goes on where it stopped when more bytes arrive. -/
theorem splitFrames_append (bs cs : List UInt8) :
    splitFrames limit (bs ++ cs) =
      ((splitFrames limit bs).1 ++ (splitFrames limit ((splitFrames limit bs).2 ++ cs)).1,
        (splitFrames limit ((splitFrames limit bs).2 ++ cs)).2) := by
  induction bs using splitFrames_induction limit with
  | none bs h => simp [splitFrames_of_none h]
  | some bs payload rest h ih =>
    rw [splitFrames_of_some h, splitFrames_of_some (nextFrame?_append h), ih]
    rfl

/-- Every frame has a header. -/
theorem length_splitFrames_le (limit : Nat) (bs : List UInt8) :
    4 * (splitFrames limit bs).1.length ≤ bs.length := by
  induction bs using splitFrames_induction limit with
  | none bs h =>
    rw [splitFrames_of_none h]
    exact Nat.zero_le _
  | some bs payload rest h ih =>
    have hlen := length_of_nextFrame? h
    rw [splitFrames_of_some h, List.length_cons]
    omega

/-- The first frame that is completed by new bytes takes one of them, and each of the others takes its
header. -/
theorem length_splitFrames_append_le (h : nextFrame? limit bs = none) (cs : List UInt8) :
    4 * (splitFrames limit (bs ++ cs)).1.length ≤ cs.length + 3 := by
  cases hnext : nextFrame? limit (bs ++ cs) with
  | none =>
    rw [splitFrames_of_none hnext]
    exact Nat.zero_le _
  | some r =>
    obtain ⟨payload, rest⟩ := r
    have hrest : rest.length < cs.length := by
      by_contra hlong
      refine absurd h ?_
      have hlen := length_of_nextFrame? hnext
      unfold nextFrame? at hnext ⊢
      split at hnext
      · next hframe =>
        obtain ⟨h4, hle, hlen⟩ := hframe
        cases hnext
        rw [List.length_append] at *
        rw [List.length_drop, List.length_append] at hlong
        have h4' : 4 ≤ bs.length := by omega
        rw [frameLength_append h4'] at *
        rw [if_pos ⟨h4', hle, by omega⟩]
        nofun
      · cases hnext
    have hothers := length_splitFrames_le limit rest
    rw [splitFrames_of_some hnext, List.length_cons]
    omega

/-- What cannot be split is shorter than a frame of the greatest length, unless it announces too much. -/
theorem length_lt_of_none (h : nextFrame? limit bs = none) (hfits : 4 ≤ bs.length → frameLength bs ≤ limit) :
    bs.length < 4 + limit := by
  by_contra hlong
  have h4 : 4 ≤ bs.length := by omega
  have hle := hfits h4
  rw [nextFrame?, if_pos ⟨h4, hle, by omega⟩] at h
  cases h

/-- Frames within the limit are split off again. -/
theorem splitFrames_frames (hlimit : limit < 256 ^ 4) {payloads : List (List UInt8)}
    (hle : ∀ p ∈ payloads, p.length ≤ limit) (rest : List UInt8) :
    splitFrames limit ((payloads.map frame).flatten ++ rest) =
      (payloads ++ (splitFrames limit rest).1, (splitFrames limit rest).2) := by
  induction payloads with
  | nil => rfl
  | cons p payloads ih =>
    have hnext : nextFrame? limit (((p :: payloads).map frame).flatten ++ rest) =
        some (p, (payloads.map frame).flatten ++ rest) :=
      (nextFrame?_eq_some hlimit).mpr ⟨by simp, hle p List.mem_cons_self⟩
    rw [splitFrames_of_some hnext, ih fun q hq => hle q (List.mem_cons_of_mem _ hq)]
    rfl

theorem splitFrames_nil (limit : Nat) : splitFrames limit [] = ([], []) :=
  splitFrames_of_none (by simp [nextFrame?])

theorem splitFrames_map_frame (hlimit : limit < 256 ^ 4) {payloads : List (List UInt8)}
    (hle : ∀ p ∈ payloads, p.length ≤ limit) :
    splitFrames limit (payloads.map frame).flatten = (payloads, []) := by
  have hframes := splitFrames_frames hlimit hle []
  rwa [List.append_nil, splitFrames_nil, List.append_nil] at hframes

/-- What has arrived of a byte string holds the first of its frames. -/
theorem splitFrames_prefix (h : bs <+: cs) : (splitFrames limit bs).1 <+: (splitFrames limit cs).1 := by
  obtain ⟨more, rfl⟩ := h
  rw [splitFrames_append]
  exact List.prefix_append _ _

/-- After the frames that have arrived completely come the other ones. -/
theorem prefix_of_frames_prefix (hlimit : limit < 256 ^ 4) {ps rs : List (List UInt8)}
    (hps : ∀ p ∈ ps, p.length ≤ limit) (hrs : ∀ r ∈ rs, r.length ≤ limit)
    (h : (ps.map frame).flatten ++ bs <+: (rs.map frame).flatten) :
    ∃ rs', rs = ps ++ rs' ∧ bs <+: (rs'.map frame).flatten := by
  have hsplit : (splitFrames limit _).1 <+: (splitFrames limit _).1 := splitFrames_prefix h
  rw [splitFrames_frames hlimit hps, splitFrames_map_frame hlimit hrs] at hsplit
  obtain ⟨rs', rfl⟩ := (List.prefix_append _ _).trans hsplit
  rw [List.map_append, List.flatten_append] at h
  exact ⟨rs', rfl, (List.prefix_append_right_inj _).mp h⟩

end
