import MiniRedis.Model.Client
import MiniRedis.Model.Netio
import MiniRedis.Theory.Framing

/-! # The grammar of requests

A request is the number of its words and then every word as a frame. `parse_request` accepts exactly
these byte strings, and it inverts `send_request`. -/

namespace MiniRedis

/-- The bytes of a request. -/
def encodeRequest (args : List Bytes) : Bytes := leEncode 4 args.length ++ args.flatMap frame

/-- The requests that have an encoding which is accepted. -/
structure Encodable (args : List Bytes) : Prop where
  count : args.length ≤ kMaxArgs
  words : ∀ arg ∈ args, arg.length < 2 ^ 32

theorem readHeader_eq_some {cursor rest : Bytes} {n : UInt32} :
    readHeader cursor = some (n, rest) ↔ cursor = leEncode 4 n.toNat ++ rest := by
  unfold readHeader
  constructor
  · intro h
    split at h
    · cases h
    · next hlen =>
      cases h
      have h4 : (cursor.take 4).length = 4 := by
        rw [List.length_take]
        omega
      have hlt : leDecode (cursor.take 4) < 2 ^ 32 := by
        have := leDecode_lt (cursor.take 4)
        rw [h4] at this
        exact this
      rw [UInt32.toNat_ofNat_of_lt' hlt, leEncode_leDecode_of_length h4, List.take_append_drop]
  · rintro rfl
    have hdecode : leDecode (leEncode 4 n.toNat) = n.toNat := leDecode_leEncode n.toNat_lt
    rw [if_neg (by simp), List.take_left' (length_leEncode 4 _), List.drop_left' (length_leEncode 4 _),
      hdecode, UInt32.ofNat_toNat]

theorem readString_eq_some {cursor word rest : Bytes} {len : UInt32} :
    readString cursor len = some (word, rest) ↔ cursor = word ++ rest ∧ word.length = len.toNat := by
  unfold readString
  constructor
  · intro h
    split at h
    · cases h
    · cases h
      rw [List.take_append_drop, List.length_take]
      exact ⟨rfl, by omega⟩
  · rintro ⟨rfl, hlen⟩
    rw [if_neg (by simp [hlen]), ← hlen, List.take_left, List.drop_left]

/-- A word and its length. -/
theorem readWord_eq_some {cursor word rest : Bytes} :
    (∃ len mid, readHeader cursor = some (len, mid) ∧ readString mid len = some (word, rest)) ↔
      cursor = frame word ++ rest ∧ word.length < 2 ^ 32 := by
  simp only [readHeader_eq_some, readString_eq_some]
  constructor
  · rintro ⟨len, mid, rfl, rfl, hlen⟩
    rw [frame, hlen, List.append_assoc]
    exact ⟨rfl, len.toNat_lt⟩
  · rintro ⟨rfl, hlt⟩
    have hlen : (UInt32.ofNat word.length).toNat = word.length := UInt32.toNat_ofNat_of_lt' hlt
    exact ⟨.ofNat word.length, word ++ rest, by rw [hlen, frame, List.append_assoc], rfl, hlen.symm⟩

theorem parseWords_eq_some {n : Nat} {cursor rest : Bytes} {words : List Bytes} :
    parseWords n cursor = some (words, rest) ↔
      words.length = n ∧ (∀ word ∈ words, word.length < 2 ^ 32) ∧
        cursor = words.flatMap frame ++ rest := by
  induction n generalizing cursor words with
  | zero =>
    simp only [parseWords, Option.some.injEq, Prod.mk.injEq, List.length_eq_zero_iff]
    constructor
    · rintro ⟨rfl, rfl⟩
      simp
    · rintro ⟨rfl, -, rfl⟩
      simp
  | succ n ih =>
    simp only [parseWords, Option.bind_eq_bind, Option.bind_eq_some_iff, Prod.exists, Option.pure_def,
      Option.some.injEq, Prod.mk.injEq]
    constructor
    · rintro ⟨len, mid, hheader, word, mid', hword, words', rest', hwords, rfl, rfl⟩
      obtain ⟨rfl, hlt⟩ := readWord_eq_some.mp ⟨len, mid, hheader, hword⟩
      obtain ⟨rfl, hall, rfl⟩ := ih.mp hwords
      refine ⟨rfl, fun w hw => ?_, by simp⟩
      rcases List.mem_cons.mp hw with rfl | hw
      · exact hlt
      · exact hall w hw
    · rintro ⟨hlen, hall, rfl⟩
      cases words with
      | nil => simp at hlen
      | cons word words =>
        obtain ⟨len, mid, hheader, hword⟩ := readWord_eq_some.mpr
          ⟨(rfl : frame word ++ (words.flatMap frame ++ rest) = _), hall word List.mem_cons_self⟩
        refine ⟨len, mid, by simpa using hheader, word, _, hword, words, rest, ih.mpr
          ⟨by simpa using hlen, fun w hw => hall w (List.mem_cons_of_mem _ hw), rfl⟩, rfl, rfl⟩

/-- The accepted byte strings are the encodings. -/
theorem parseRequest_eq_some {bytes : Bytes} {args : List Bytes} :
    parseRequest bytes = some args ↔ Encodable args ∧ bytes = encodeRequest args := by
  simp only [parseRequest, Option.bind_eq_bind, Option.bind_eq_some_iff, Prod.exists]
  constructor
  · rintro ⟨n, mid, hheader, h⟩
    obtain rfl := readHeader_eq_some.mp hheader
    split at h
    · cases h
    · next hmax =>
      obtain ⟨⟨words, rest⟩, hwords, hend⟩ := Option.bind_eq_some_iff.mp h
      obtain ⟨hlen, hall, rfl⟩ := parseWords_eq_some.mp hwords
      split at hend
      · next hrest =>
        cases hend
        obtain rfl : rest = [] := by simpa using hrest
        exact ⟨⟨hlen ▸ Nat.not_lt.mp hmax, hall⟩, by rw [encodeRequest, hlen, List.append_nil]⟩
      · cases hend
  · rintro ⟨⟨hcount, hall⟩, rfl⟩
    have hlen : (UInt32.ofNat args.length).toNat = args.length :=
      UInt32.toNat_ofNat_of_lt' (Nat.lt_of_le_of_lt hcount (by decide))
    refine ⟨.ofNat args.length, args.flatMap frame, readHeader_eq_some.mpr (by rw [hlen]; rfl), ?_⟩
    rw [hlen, if_neg (by omega), Option.bind_eq_some_iff]
    exact ⟨(args, []), parseWords_eq_some.mpr ⟨rfl, hall, by simp⟩, rfl⟩

/-! ## The client's payload -/

theorem appendArg_eq {payload arg : Bytes} (h : arg.length < 2 ^ 32) :
    appendArg payload arg = payload ++ frame arg := by
  have hlen : (UInt32.ofNat arg.length).toNat = arg.length := UInt32.toNat_ofNat_of_lt' h
  simp only [appendArg, appendBufferU32, hlen, List.take_length, frame]
  split
  · rw [List.append_assoc]
  · next hzero =>
    have hnil : arg = [] := by
      rw [not_not] at hzero
      rw [← List.length_eq_zero_iff, ← hlen, hzero]
      rfl
    simp [hnil]

theorem requestPayload_eq {args : List Bytes} (hcount : args.length < 2 ^ 32)
    (hwords : ∀ arg ∈ args, arg.length < 2 ^ 32) : requestPayload args = encodeRequest args := by
  have hfold : ∀ payload : Bytes, (∀ arg ∈ args, arg.length < 2 ^ 32) →
      args.foldl appendArg payload = payload ++ args.flatMap frame := by
    clear hcount hwords
    induction args with
    | nil => simp
    | cons arg args ih =>
      intro payload hall
      rw [List.foldl_cons, ih _ fun a ha => hall a (List.mem_cons_of_mem _ ha),
        appendArg_eq (hall arg List.mem_cons_self), List.flatMap_cons, List.append_assoc]
  have hlen : (UInt32.ofNat args.length).toNat = args.length := UInt32.toNat_ofNat_of_lt' hcount
  rw [requestPayload, hfold _ hwords, appendBufferU32, hlen, encodeRequest, List.nil_append]

theorem Encodable.requestPayload {args : List Bytes} (h : Encodable args) :
    requestPayload args = encodeRequest args :=
  requestPayload_eq (Nat.lt_of_le_of_lt h.count (by decide)) h.words

/-! ## The reads -/

/-- A memory in which only the given bytes can be read. -/
def Memory.holding (data : Nat) (bytes : Bytes) : Memory := fun addr =>
  if addr < data then none else bytes[addr - data]?

section
variable {data : Nat} {bytes : Bytes} {i n : Nat}

theorem copy_holding (h : i + n ≤ bytes.length) :
    (Memory.holding data bytes).copy (data + i) n = .ok ((bytes.drop i).take n) := by
  induction n generalizing i with
  | zero => simp [Memory.copy]
  | succ n ih =>
    have hi : i < bytes.length := by omega
    have hread : Memory.holding data bytes (data + i) = some bytes[i] := by
      simp [Memory.holding, hi]
    rw [Memory.copy, hread, deref_some, ok_bind, Nat.add_assoc, ih (by omega), ok_bind,
      List.drop_eq_getElem_cons hi, List.take_succ_cons]
    rfl

theorem readHeaderAt_holding (data : Nat) (h : i ≤ bytes.length) :
    readHeaderAt (Memory.holding data bytes) (data + i) (data + bytes.length) =
      .ok ((readHeader (bytes.drop i)).map fun r => (r.1, data + (i + 4))) := by
  unfold readHeaderAt readHeader
  rw [List.length_drop]
  by_cases hlen : bytes.length - i < 4
  · rw [if_pos (by omega), if_pos hlen]
    rfl
  · rw [if_neg (by omega), if_neg hlen, copy_holding (by omega), ok_bind]
    rfl

theorem readStringAt_holding (h : i ≤ bytes.length) (len : UInt32) :
    readStringAt (Memory.holding data bytes) (data + i) (data + bytes.length) len =
      .ok ((readString (bytes.drop i) len).map fun r => (r.1, data + (i + len.toNat))) := by
  unfold readStringAt readString
  rw [List.length_drop]
  by_cases hlen : bytes.length - i < len.toNat
  · rw [if_pos (by omega), if_pos hlen]
    rfl
  · rw [if_neg (by omega), if_neg hlen, copy_holding (by omega), ok_bind]
    simp [Nat.add_assoc]

theorem readHeader_some_drop {mid : Bytes} {len : UInt32} (h : readHeader (bytes.drop i) = some (len, mid)) :
    mid = bytes.drop (i + 4) ∧ i + 4 ≤ bytes.length := by
  unfold readHeader at h
  split at h
  · cases h
  · next hlen =>
    rw [List.length_drop] at hlen
    cases h
    exact ⟨List.drop_drop, by omega⟩

theorem readString_some_drop {word rest : Bytes} {len : UInt32}
    (h : readString (bytes.drop i) len = some (word, rest)) (hi : i ≤ bytes.length) :
    rest = bytes.drop (i + len.toNat) ∧ i + len.toNat ≤ bytes.length := by
  unfold readString at h
  split at h
  · cases h
  · next hlen =>
    rw [List.length_drop] at hlen
    cases h
    exact ⟨List.drop_drop, by omega⟩

/-- A run that returns the words, or `-1` if there are none. -/
def ParsesTo (run : Result (Int32 × List Bytes)) (cmd : List Bytes) : Option (List Bytes) → Prop
  | some words => run = .ok (0, cmd ++ words)
  | none => ∃ cmd', run = .ok (-1, cmd')

/-- The loop returns the words if they are all there and nothing follows. -/
theorem parseWordsAt_holding (h : i ≤ bytes.length) (cmd : List Bytes) :
    ParsesTo (parseWordsAt (Memory.holding data bytes) (data + bytes.length) n (data + i) cmd) cmd
      ((parseWords n (bytes.drop i)).bind fun r => if r.2.isEmpty then some r.1 else none) := by
  induction n generalizing i cmd with
  | zero =>
    simp only [parseWordsAt, parseWords, Option.bind_some, List.isEmpty_iff, List.drop_eq_nil_iff]
    by_cases hend : bytes.length ≤ i
    · obtain rfl : i = bytes.length := by omega
      simp [ParsesTo]
    · rw [if_neg hend, if_pos (by omega)]
      exact ⟨cmd, rfl⟩
  | succ n ih =>
    simp only [parseWordsAt, parseWords, Option.bind_eq_bind, readHeaderAt_holding data h, ok_bind]
    cases hheader : readHeader (bytes.drop i) with
    | none => exact ⟨cmd, rfl⟩
    | some r =>
      obtain ⟨len, mid⟩ := r
      obtain ⟨rfl, hi⟩ := readHeader_some_drop hheader
      simp only [Option.map_some, Option.bind_some, readStringAt_holding hi, ok_bind]
      cases hword : readString (bytes.drop (i + 4)) len with
      | none => exact ⟨cmd ++ [[]], rfl⟩
      | some r =>
        obtain ⟨word, rest⟩ := r
        obtain ⟨rfl, hi'⟩ := readString_some_drop hword hi
        have hrec := ih hi' (cmd ++ [word])
        simp only [Option.map_some, Option.bind_some]
        cases hwords : parseWords n (bytes.drop (i + 4 + len.toNat)) with
        | none =>
          rw [hwords] at hrec
          exact hrec
        | some r =>
          rw [hwords] at hrec
          simp only [Option.bind_some, Option.pure_def] at hrec ⊢
          split
          · next hend =>
            rw [if_pos hend, ParsesTo, List.append_assoc] at hrec
            exact hrec
          · next hend =>
            rw [if_neg hend] at hrec
            exact hrec

/-- `parse_request` in a memory that holds only its bytes does not fault, and agrees with the parser
on byte strings. -/
theorem parseRequestAt_holding (data : Nat) (bytes : Bytes) :
    ParsesTo (parseRequestAt (Memory.holding data bytes) data bytes.length []) []
      (parseRequest bytes) := by
  have hread := readHeaderAt_holding data (Nat.zero_le bytes.length)
  rw [Nat.add_zero, List.drop_zero] at hread
  simp only [parseRequestAt, parseRequest, Option.bind_eq_bind, hread, ok_bind]
  cases hheader : readHeader bytes with
  | none => exact ⟨[], rfl⟩
  | some r =>
    obtain ⟨numArgs, cursor⟩ := r
    obtain ⟨rfl, hi⟩ := readHeader_some_drop (i := 0) hheader
    simp only [Option.map_some, Option.bind_some, Nat.zero_add] at hi ⊢
    by_cases hmax : numArgs.toNat > kMaxArgs
    · rw [if_pos hmax, if_pos hmax]
      exact ⟨[], rfl⟩
    · rw [if_neg hmax, if_neg hmax]
      exact parseWordsAt_holding hi []

end

/-- **Requests.** Called on any byte string, `parse_request` reads nothing outside of it. It returns
`0` with the words `args` exactly if the string is the payload that `send_request` builds for `args`,
which have at most `k_max_args` elements of less than `2 ^ 32` bytes, and `-1` if there are no such
words. The payload is the number of words followed by every word after its length, and no other words
have it. -/
theorem parseRequestAt_iff (data : Nat) (bytes : Bytes) :
    (∀ args, parseRequestAt (Memory.holding data bytes) data bytes.length [] = .ok (0, args) ↔
      Encodable args ∧ bytes = requestPayload args) ∧
    ((∀ args, Encodable args → bytes ≠ requestPayload args) →
      ∃ cmd, parseRequestAt (Memory.holding data bytes) data bytes.length [] = .ok (-1, cmd)) ∧
    (∀ args, Encodable args → requestPayload args =
      leEncode 4 args.length ++ args.flatMap fun arg => leEncode 4 arg.length ++ arg) ∧
    (∀ args args', Encodable args → Encodable args' → requestPayload args = requestPayload args' →
      args = args') := by
  have hparses := parseRequestAt_holding data bytes
  have hgrammar : ∀ bytes args, parseRequest bytes = some args ↔
      Encodable args ∧ bytes = requestPayload args := fun bytes args =>
    parseRequest_eq_some.trans (and_congr_right fun h => by rw [h.requestPayload])
  refine ⟨fun args => ?_, fun hnone => ?_, fun args h => h.requestPayload, fun args args' h h' he => ?_⟩
  · rw [← hgrammar]
    cases hrun : parseRequest bytes with
    | none =>
      rw [hrun] at hparses
      obtain ⟨cmd, hparses⟩ := hparses
      simp [hparses]
    | some words =>
      rw [hrun, ParsesTo, List.nil_append] at hparses
      simp [hparses]
  · cases hrun : parseRequest bytes with
    | none =>
      rw [hrun] at hparses
      exact hparses
    | some args =>
      obtain ⟨h, hbytes⟩ := (hgrammar bytes args).mp hrun
      exact absurd hbytes (hnone args h)
  · have hargs := (hgrammar _ args).mpr ⟨h, rfl⟩
    have hargs' := (hgrammar _ args').mpr ⟨h', he⟩
    exact Option.some.inj (hargs.symm.trans hargs')

/-! ## What the client sends -/

/-- The number of payload bytes that `send_request` gathers: of an argument it takes as many bytes as
the `uint32_t` of its length says. -/
def payloadSize : (cmd : List Bytes) → Nat
  | [] => 4
  | arg :: cmd => 4 + arg.length % 2 ^ 32 + payloadSize cmd

theorem length_appendArg (payload arg : Bytes) :
    (appendArg payload arg).length = payload.length + (4 + arg.length % 2 ^ 32) := by
  have hlen : (UInt32.ofNat arg.length).toNat = arg.length % 2 ^ 32 := UInt32.toNat_ofNat'
  have hle := Nat.mod_le arg.length (2 ^ 32)
  simp only [appendArg]
  split
  · rw [appendBufferU32, List.length_append, List.length_append, length_leEncode,
      List.length_take_of_le (by omega)]
    omega
  · next hzero =>
    have hmod : arg.length % 2 ^ 32 = 0 := by
      rw [← hlen, not_not.mp hzero]
      rfl
    rw [appendBufferU32, List.length_append, length_leEncode]
    omega

theorem length_requestPayload (cmd : List Bytes) : (requestPayload cmd).length = payloadSize cmd := by
  have hfold : ∀ payload : Bytes, (cmd.foldl appendArg payload).length + 4 =
      payload.length + payloadSize cmd := by
    induction cmd with
    | nil => exact fun _ => rfl
    | cons arg cmd ih =>
      intro payload
      rw [List.foldl_cons, ih, length_appendArg, payloadSize, Nat.add_assoc]
  have hcount : (appendBufferU32 [] (.ofNat cmd.length)).length = 4 := by
    rw [appendBufferU32, List.nil_append, length_leEncode]
  have hlength := hfold (appendBufferU32 [] (.ofNat cmd.length))
  rw [requestPayload]
  omega

theorem length_le_payloadSize (cmd : List Bytes) : cmd.length ≤ payloadSize cmd := by
  induction cmd with
  | nil => exact Nat.zero_le _
  | cons arg cmd ih =>
    rw [payloadSize, List.length_cons]
    omega

/-- A header, the number of arguments and then every argument after its length. All the fields hold what
they should: the number of payload bytes, of arguments and of bytes of an argument. -/
def ConsistentFrame (cmd : List Bytes) (bytes : Bytes) : Prop :=
  ∃ (header count : UInt32) (lens : List UInt32) (payload : Bytes),
    bytes = leEncode 4 header.toNat ++ payload ∧
    payload = leEncode 4 count.toNat ++ (lens.zip cmd).flatMap (fun p => leEncode 4 p.1.toNat ++ p.2) ∧
    header.toNat = payload.length ∧ header.toNat ≤ kMaxMsg ∧
    count.toNat = cmd.length ∧ lens.map UInt32.toNat = cmd.map List.length

theorem flatMap_zip {lens : List UInt32} {cmd : List Bytes}
    (h : lens.map UInt32.toNat = cmd.map List.length) :
    (lens.zip cmd).flatMap (fun p => leEncode 4 p.1.toNat ++ p.2) = cmd.flatMap frame := by
  induction cmd generalizing lens with
  | nil => simp
  | cons arg cmd ih =>
    cases lens with
    | nil => cases h
    | cons len lens =>
      obtain ⟨hlen, hlens⟩ := List.cons.inj h
      rw [List.zip_cons_cons, List.flatMap_cons, List.flatMap_cons, ih hlens, hlen, frame]

theorem payloadSize_eq {cmd : List Bytes} (hwords : ∀ arg ∈ cmd, arg.length < 2 ^ 32) :
    payloadSize cmd = (encodeRequest cmd).length := by
  rw [encodeRequest, List.length_append, length_leEncode]
  induction cmd with
  | nil => rfl
  | cons arg cmd ih =>
    rw [payloadSize, ih fun a ha => hwords a (List.mem_cons_of_mem _ ha), List.flatMap_cons,
      List.length_append, length_frame, Nat.mod_eq_of_lt (hwords arg List.mem_cons_self)]
    omega

/-- The fields of a consistent frame, as numbers. -/
theorem consistentFrame_iff {cmd : List Bytes} {bytes : Bytes} : ConsistentFrame cmd bytes ↔
    (∀ arg ∈ cmd, arg.length < 2 ^ 32) ∧ (encodeRequest cmd).length ≤ kMaxMsg ∧
      bytes = frame (encodeRequest cmd) := by
  constructor
  · rintro ⟨header, count, lens, payload, rfl, hpayload, hheader, hmax, hcount, hlens⟩
    have hwords : ∀ arg ∈ cmd, arg.length < 2 ^ 32 := fun arg harg => by
      have hmem : arg.length ∈ lens.map UInt32.toNat := hlens ▸ List.mem_map_of_mem harg
      obtain ⟨len, -, hlen⟩ := List.mem_map.mp hmem
      exact hlen ▸ len.toNat_lt
    have hrequest : payload = encodeRequest cmd := by
      rw [hpayload, hcount, flatMap_zip hlens, encodeRequest]
    rw [← hrequest, frame, ← hheader]
    exact ⟨hwords, hmax, rfl⟩
  · rintro ⟨hwords, hmax, rfl⟩
    have hlt : (encodeRequest cmd).length < 2 ^ 32 := Nat.lt_of_le_of_lt hmax (by decide)
    have hcount : cmd.length < 2 ^ 32 := by
      have hle := length_le_payloadSize cmd
      rw [payloadSize_eq hwords] at hle
      omega
    have hlens : (cmd.map fun arg => UInt32.ofNat arg.length).map UInt32.toNat = cmd.map List.length := by
      rw [List.map_map]
      exact List.map_congr_left fun arg harg => UInt32.toNat_ofNat_of_lt' (hwords arg harg)
    have hheader : (UInt32.ofNat (encodeRequest cmd).length).toNat = (encodeRequest cmd).length :=
      UInt32.toNat_ofNat_of_lt' hlt
    have hn : (UInt32.ofNat cmd.length).toNat = cmd.length := UInt32.toNat_ofNat_of_lt' hcount
    refine ⟨.ofNat (encodeRequest cmd).length, .ofNat cmd.length, _, encodeRequest cmd, ?_, ?_, hheader,
      by rw [hheader]; exact hmax, hn, hlens⟩
    · rw [hheader, frame]
    · rw [hn, flatMap_zip hlens, encodeRequest]

theorem sendRequest_eq (cmd : List Bytes) : sendRequest cmd =
    if kMaxMsg < payloadSize cmd % 2 ^ 32 then none
    else some (leEncode 4 (payloadSize cmd % 2 ^ 32) ++ requestPayload cmd) := by
  have hlen : (UInt32.ofNat (requestPayload cmd).length).toNat = payloadSize cmd % 2 ^ 32 := by
    rw [length_requestPayload]
    exact UInt32.toNat_ofNat'
  rw [sendRequest, appendBufferU32, hlen]
  rfl

/-- **The client's frames.** `send_request` sends nothing or a consistent frame if and only if what it
gathers is refused for its size, or all sizes are below `2 ^ 32`. -/
theorem sendRequest_consistent_iff (cmd : List Bytes) :
    (∀ bytes, sendRequest cmd = some bytes → ConsistentFrame cmd bytes) ↔
      kMaxMsg < payloadSize cmd % 2 ^ 32 ∨
        payloadSize cmd < 2 ^ 32 ∧ ∀ arg ∈ cmd, arg.length < 2 ^ 32 := by
  rw [sendRequest_eq]
  by_cases hmax : kMaxMsg < payloadSize cmd % 2 ^ 32
  · rw [if_pos hmax]
    exact ⟨fun _ => .inl hmax, fun _ bytes h => nomatch h⟩
  · rw [if_neg hmax]
    constructor
    · intro hsent
      obtain ⟨hwords, hsize, -⟩ := consistentFrame_iff.mp (hsent _ rfl)
      rw [payloadSize_eq hwords]
      exact .inr ⟨Nat.lt_of_le_of_lt hsize (by decide), hwords⟩
    · rintro (hbig | ⟨hlt, hwords⟩) bytes hbytes
      · exact absurd hbig hmax
      · cases hbytes
        rw [Nat.mod_eq_of_lt hlt] at hmax ⊢
        have hcount := Nat.lt_of_le_of_lt (length_le_payloadSize cmd) hlt
        rw [requestPayload_eq hcount hwords]
        rw [payloadSize_eq hwords] at hmax ⊢
        exact consistentFrame_iff.mpr ⟨hwords, Nat.not_lt.mp hmax, rfl⟩

/-- An argument of `2 ^ 32` bytes is announced as an empty one and left out. -/
theorem sendRequest_wraps {arg : Bytes} (h : arg.length = 2 ^ 32) :
    ∃ bytes, sendRequest [arg] = some bytes ∧ ¬ ConsistentFrame [arg] bytes := by
  have hsize : payloadSize [arg] = 8 := by
    simp only [payloadSize, h, Nat.mod_self, Nat.reduceAdd]
  refine ⟨_, (sendRequest_eq _).trans (if_neg (by rw [hsize]; decide)), fun h' => ?_⟩
  obtain ⟨hwords, -⟩ := consistentFrame_iff.mp h'
  exact absurd (hwords arg List.mem_cons_self) (h ▸ Nat.lt_irrefl _)

theorem sendRequest_inconsistent :
    ∃ bytes, sendRequest [List.replicate (2 ^ 32) 0] = some bytes ∧
      ¬ ConsistentFrame [List.replicate (2 ^ 32) 0] bytes :=
  sendRequest_wraps List.length_replicate

end MiniRedis
