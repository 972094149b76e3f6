import MiniRedis.Theory.Framing
import MiniRedis.Model.Client
import MiniRedis.Verify.Format

/-! # The client reads what the server writes

`print_response` on the encoding of a value consumes exactly the encoding, as long as the payload has
at most `kMaxMsg` bytes: then no length wraps around. -/

namespace MiniRedis

/-- The part of a text that `%.*s` prints. -/
def printedText (s : Bytes) : Bytes := s.takeWhile (· ≠ 0)

mutual

/-- What the client prints for a value. -/
def Value.printed : Value → List Printed
  | .nil => [.nil]
  | .err code msg => [.error code.toInt32 (printedText msg)]
  | .str s => [.str (printedText s)]
  | .int val => [.int val]
  | .dbl bits => [.dbl bits]
  | .bool val => [.bool val]
  | .arr children => .arrayLength (.ofNat children.length) :: printedAll children ++ [.arrayEnd]
  | .map children => printedAll children ++ [.mapEnd]

def printedAll : List Value → List Printed
  | [] => []
  | v :: vs => v.printed ++ printedAll vs

end

/-! ## Encodings -/

theorem encode_err (code : UInt32) (msg : Bytes) : (Value.err code msg).encode =
    tagErr :: (leEncode 4 code.toNat ++ (leEncode 4 (UInt32.ofNat msg.length).toNat ++ msg)) := by
  simp [Value.encode, Value.write, outErr, appendBufferU8, appendBufferU32]

theorem encode_str (s : Bytes) : (Value.str s).encode =
    tagStr :: (leEncode 4 (UInt32.ofNat s.length).toNat ++ s) := by
  simp [Value.encode, Value.write, outStr, appendBufferU8, appendBufferU32]

theorem encode_int (val : Int64) :
    (Value.int val).encode = tagInt :: leEncode 8 val.toUInt64.toNat := by
  simp [Value.encode, Value.write, outInt, appendBufferU8, appendBufferI64]

theorem encode_dbl (bits : UInt64) : (Value.dbl bits).encode = tagDbl :: leEncode 8 bits.toNat := by
  simp [Value.encode, Value.write, outDbl, appendBufferU8, appendBufferF64]

theorem encode_bool (val : Bool) : (Value.bool val).encode = [tagBool, if val then 1 else 0] := by
  simp [Value.encode, Value.write, outBool, appendBufferU8, appendBufferBool]

theorem encode_arr (children : List Value) : (Value.arr children).encode =
    tagArr :: (leEncode 4 (UInt32.ofNat children.length).toNat ++ writeAll [] children) := by
  rw [Value.encode, Value.write, writeAll_eq]
  simp [outArr, appendBufferU8, appendBufferU32]

theorem encode_map (children : List Value) : (Value.map children).encode =
    tagMap :: (leEncode 4 (UInt32.ofNat children.length).toNat ++ writeAll [] children) := by
  rw [Value.encode, Value.write, writeAll_eq]
  simp [outMap, appendBufferU8, appendBufferU32]

theorem writeAll_cons (v : Value) (vs : List Value) :
    writeAll [] (v :: vs) = v.encode ++ writeAll [] vs := by
  rw [writeAll, writeAll_eq, Value.encode]

/-- Every value starts with its tag. -/
theorem length_encode_pos (v : Value) : 0 < v.encode.length := by
  cases v with
  | nil => decide
  | err code msg => simp [encode_err]
  | str s => simp [encode_str]
  | int val => simp [encode_int]
  | dbl val => simp [encode_dbl]
  | bool val => simp [encode_bool]
  | arr children => simp [encode_arr]
  | map children => simp [encode_map]

theorem length_le_writeAll (vs : List Value) : vs.length ≤ (writeAll [] vs).length := by
  induction vs with
  | nil => simp
  | cons v vs ih =>
    have := length_encode_pos v
    rw [writeAll_cons, List.length_append, List.length_cons]
    omega

theorem length_encode_le_writeAll {v : Value} {vs : List Value} (hv : v ∈ vs) :
    v.encode.length ≤ (writeAll [] vs).length := by
  induction vs with
  | nil => cases hv
  | cons u vs ih =>
    rw [writeAll_cons, List.length_append]
    rcases List.mem_cons.mp hv with rfl | hv
    · omega
    · exact Nat.le_trans (ih hv) (Nat.le_add_left ..)

/-! ## Reading numbers and texts -/

theorem copyFrom_eq {data before bytes rest : Bytes} (h : data = before ++ (bytes ++ rest)) :
    copyFrom data before.length bytes.length = .ok bytes := by
  subst h
  rw [copyFrom, if_pos (by simp only [List.length_append]; omega), List.drop_left, List.take_left]
  rfl

theorem copyU32_eq {data rest : Bytes} {n : UInt32} (before : Bytes)
    (h : data = before ++ (leEncode 4 n.toNat ++ rest)) : copyU32 data before.length = .ok n := by
  have hcopy := copyFrom_eq h
  rw [length_leEncode] at hcopy
  simp only [copyU32, hcopy, ok_bind, pure_eq_ok]
  rw [leDecode_leEncode n.toNat_lt, UInt32.ofNat_toNat]

theorem copyU64_eq {data rest : Bytes} {n : UInt64} (before : Bytes)
    (h : data = before ++ (leEncode 8 n.toNat ++ rest)) : copyU64 data before.length = .ok n := by
  have hcopy := copyFrom_eq h
  rw [length_leEncode] at hcopy
  simp only [copyU64, hcopy, ok_bind, pure_eq_ok]
  rw [leDecode_leEncode n.toNat_lt, UInt64.ofNat_toNat]

theorem formatText_eq (s rest : Bytes) : formatText (some s.length) (s ++ rest) = .ok (printedText s) := by
  induction s with
  | nil => simp [formatText, printedText]
  | cons c s ih =>
    simp only [List.length_cons, List.cons_append, formatText, Option.map_some, Nat.add_sub_cancel, ih]
    by_cases hc : c = 0
    · simp [hc, printedText]
    · simp [hc, printedText]

/-! ## Values -/

theorem toInt_len {n : Nat} (hn : n ≤ kMaxMsg) : (Int32.ofNat n).toInt = n :=
  Int32.toInt_ofNat_of_lt (Nat.lt_of_le_of_lt hn (by decide))

/-- A loop over values that are printed one by one. -/
theorem printElements_eq {print : Bytes → Result (Int32 × List Printed)} {data rest : Bytes} {pos : Nat}
    {vs : List Value}
    (hprint : ∀ v ∈ vs, ∀ rest : Bytes, (v.encode ++ rest).length ≤ kMaxMsg →
      print (v.encode ++ rest) = .ok (.ofNat v.encode.length, v.printed))
    (hlen : data.length ≤ kMaxMsg) (hdata : data.drop pos = writeAll [] vs ++ rest) :
    printElements print data vs.length pos =
      .ok (some (pos + (writeAll [] vs).length), printedAll vs) := by
  induction vs generalizing pos with
  | nil => simp [printElements, writeAll, printedAll]
  | cons v vs ih =>
    rw [writeAll_cons, List.append_assoc] at hdata
    have hfit : (v.encode ++ (writeAll [] vs ++ rest)).length ≤ kMaxMsg := by
      rw [← hdata, List.length_drop]
      omega
    have hpos := length_encode_pos v
    have hv : (Int32.ofNat v.encode.length).toInt = v.encode.length := by
      rw [List.length_append] at hfit
      exact toInt_len (by omega)
    have hgood : ¬ Int32.ofNat v.encode.length ≤ 0 := by
      rw [Int32.le_iff_toInt_le, hv, Int32.toInt_zero]
      omega
    have hnext : data.drop (pos + v.encode.length) = writeAll [] vs ++ rest := by
      rw [← List.drop_drop, hdata, List.drop_left]
    simp only [List.length_cons, printElements, hdata, hprint v List.mem_cons_self _ hfit, ok_bind, hgood,
      if_false, hv, Int.toNat_natCast, ih (fun u hu => hprint u (List.mem_cons_of_mem _ hu)) hnext,
      pure_eq_ok, writeAll_cons, List.length_append, printedAll, Nat.add_assoc]

theorem toNat_ofNat_len {n : Nat} (hn : n ≤ kMaxMsg) : (UInt32.ofNat n).toNat = n := by
  have hlt : n < 2 ^ 32 := Nat.lt_of_le_of_lt hn (by decide)
  exact UInt32.toNat_ofNat_of_lt' hlt

theorem toNat_len {k : UInt32} {n : Nat} (hk : k.toNat < 16) (hn : n ≤ kMaxMsg) :
    (k + UInt32.ofNat n).toNat = k.toNat + n := by
  rw [UInt32.toNat_add, toNat_ofNat_len hn]
  simp only [kMaxMsg] at hn
  omega

theorem textPrecision_eq {n : Nat} (hn : n ≤ kMaxMsg) : textPrecision (.ofNat n) = some n := by
  have hlt : n < 2 ^ 31 := Nat.lt_of_le_of_lt hn (by decide)
  have hnonneg : ¬ (UInt32.ofNat n).toInt32 < 0 := by
    rw [UInt32.toInt32_ofNat', Int32.lt_iff_toInt_lt, Int32.toInt_ofNat_of_lt hlt, Int32.toInt_zero]
    omega
  rw [textPrecision, if_neg hnonneg, toNat_ofNat_len hn]

theorem toInt32_len {k : UInt32} {n : Nat} :
    (k + UInt32.ofNat n).toInt32 = Int32.ofNat (k.toNat + n) := by
  rw [← UInt32.toInt32_ofNat', UInt32.ofNat_add, UInt32.ofNat_toNat]

/-- The branch for a string, once its length has been read. -/
theorem printResponse_strHeader {fuel : Nat} (len : UInt32) (rest : Bytes) :
    printResponse (fuel + 1) (tagStr :: (leEncode 4 len.toNat ++ rest)) =
      if 5 + rest.length < (1 + 4 + len).toNat then .ok (-1, [.badResponse])
      else do
        let s ← formatText (textPrecision len) rest
        return ((1 + 4 + len).toInt32, [.str s]) := by
  have htag : ¬ tagStr = tagNil ∧ ¬ tagStr = tagErr := by decide
  have hcopy : copyU32 (tagStr :: (leEncode 4 len.toNat ++ rest)) 1 = .ok len :=
    copyU32_eq [tagStr] rfl
  have htext : (tagStr :: (leEncode 4 len.toNat ++ rest)).drop (1 + 4) = rest :=
    List.drop_left' (by simp)
  have hlength : (tagStr :: (leEncode 4 len.toNat ++ rest)).length = 5 + rest.length := by
    simp only [List.length_cons, List.length_append, length_leEncode]
    omega
  simp only [printResponse, htag, if_false, if_true, hcopy, ok_bind, htext, hlength, pure_eq_ok]
  rw [if_neg (by omega)]

/-- The branch for an error, once its code and the length of its message have been read. -/
theorem printResponse_errHeader {fuel : Nat} (code len : UInt32) (rest : Bytes) :
    printResponse (fuel + 1) (tagErr :: (leEncode 4 code.toNat ++ (leEncode 4 len.toNat ++ rest))) =
      if 9 + rest.length < (1 + 8 + len).toNat then .ok (-1, [.badResponse])
      else do
        let msg ← formatText (textPrecision len) rest
        return ((1 + 8 + len).toInt32, [.error code.toInt32 msg]) := by
  have htag : ¬ tagErr = tagNil := by decide
  have hcode : copyU32 (tagErr :: (leEncode 4 code.toNat ++ (leEncode 4 len.toNat ++ rest))) 1 =
      .ok code := copyU32_eq [tagErr] rfl
  have hcopy : copyU32 (tagErr :: (leEncode 4 code.toNat ++ (leEncode 4 len.toNat ++ rest)))
      (1 + 4) = .ok len := by
    have hbefore : (tagErr :: leEncode 4 code.toNat).length = 1 + 4 := by simp
    exact hbefore ▸ copyU32_eq _ rfl
  have htext : (tagErr :: (leEncode 4 code.toNat ++ (leEncode 4 len.toNat ++ rest))).drop (1 + 8) =
      rest := by
    rw [← List.append_assoc]
    exact List.drop_left' (by simp)
  have hlength : (tagErr :: (leEncode 4 code.toNat ++ (leEncode 4 len.toNat ++ rest))).length =
      9 + rest.length := by
    simp only [List.length_cons, List.length_append, length_leEncode]
    omega
  simp only [printResponse, htag, if_false, if_true, hcode, hcopy, ok_bind, htext, hlength, pure_eq_ok]
  rw [if_neg (by omega)]

theorem printResponse_str {fuel : Nat} (s rest : Bytes)
    (hlen : ((Value.str s).encode ++ rest).length ≤ kMaxMsg) :
    printResponse (fuel + 1) ((Value.str s).encode ++ rest) =
      .ok (.ofNat (Value.str s).encode.length, (Value.str s).printed) := by
  have htotal : (Value.str s).encode.length = 5 + s.length := by
    simp only [encode_str, List.length_cons, List.length_append, length_leEncode]
    omega
  rw [List.length_append, htotal] at hlen
  have hs : s.length ≤ kMaxMsg := by omega
  have hsize : (1 + 4 + UInt32.ofNat s.length).toNat = 5 + s.length := toNat_len (by decide) hs
  rw [htotal, encode_str, List.cons_append, List.append_assoc, printResponse_strHeader, hsize,
    List.length_append, if_neg (by omega), textPrecision_eq hs, formatText_eq, ok_bind, toInt32_len]
  rfl

theorem printResponse_err {fuel : Nat} (code : UInt32) (msg rest : Bytes)
    (hlen : ((Value.err code msg).encode ++ rest).length ≤ kMaxMsg) :
    printResponse (fuel + 1) ((Value.err code msg).encode ++ rest) =
      .ok (.ofNat (Value.err code msg).encode.length, (Value.err code msg).printed) := by
  have htotal : (Value.err code msg).encode.length = 9 + msg.length := by
    simp only [encode_err, List.length_cons, List.length_append, length_leEncode]
    omega
  rw [List.length_append, htotal] at hlen
  have hmsg : msg.length ≤ kMaxMsg := by omega
  have hsize : (1 + 8 + UInt32.ofNat msg.length).toNat = 9 + msg.length := toNat_len (by decide) hmsg
  rw [htotal, encode_err, List.cons_append, List.append_assoc, List.append_assoc,
    printResponse_errHeader, hsize, List.length_append, if_neg (by omega), textPrecision_eq hmsg,
    formatText_eq, ok_bind, toInt32_len]
  rfl

theorem printResponse_int {fuel : Nat} (val : Int64) (rest : Bytes) :
    printResponse (fuel + 1) ((Value.int val).encode ++ rest) =
      .ok (.ofNat (Value.int val).encode.length, (Value.int val).printed) := by
  have hcopy : copyU64 (tagInt :: (leEncode 8 val.toUInt64.toNat ++ rest)) 1 = .ok val.toUInt64 :=
    copyU64_eq [tagInt] rfl
  have hlength : (tagInt :: (leEncode 8 val.toUInt64.toNat ++ rest)).length = 9 + rest.length := by
    simp only [List.length_cons, List.length_append, length_leEncode]
    omega
  have htag : ¬ tagInt = tagNil ∧ ¬ tagInt = tagErr ∧ ¬ tagInt = tagStr := by decide
  rw [encode_int, List.cons_append]
  simp only [printResponse, htag.1, htag.2.1, htag.2.2, if_false, if_true, hcopy, ok_bind, hlength]
  rw [if_neg (by omega)]
  simp only [List.length_cons, length_leEncode, Value.printed, pure_eq_ok]
  rfl

theorem printResponse_dbl {fuel : Nat} (bits : UInt64) (rest : Bytes) :
    printResponse (fuel + 1) ((Value.dbl bits).encode ++ rest) =
      .ok (.ofNat (Value.dbl bits).encode.length, (Value.dbl bits).printed) := by
  have hcopy : copyU64 (tagDbl :: (leEncode 8 bits.toNat ++ rest)) 1 = .ok bits :=
    copyU64_eq [tagDbl] rfl
  have hlength : (tagDbl :: (leEncode 8 bits.toNat ++ rest)).length = 9 + rest.length := by
    simp only [List.length_cons, List.length_append, length_leEncode]
    omega
  have htag : ¬ tagDbl = tagNil ∧ ¬ tagDbl = tagErr ∧ ¬ tagDbl = tagStr ∧ ¬ tagDbl = tagInt := by decide
  rw [encode_dbl, List.cons_append]
  simp only [printResponse, htag.1, htag.2.1, htag.2.2.1, htag.2.2.2, if_false, if_true, hcopy, ok_bind,
    hlength]
  rw [if_neg (by omega)]
  simp only [List.length_cons, length_leEncode, Value.printed, pure_eq_ok]
  rfl

theorem printResponse_bool {fuel : Nat} (val : Bool) (rest : Bytes) :
    printResponse (fuel + 1) ((Value.bool val).encode ++ rest) =
      .ok (.ofNat (Value.bool val).encode.length, (Value.bool val).printed) := by
  rw [encode_bool]
  cases val <;> rfl

/-- The children of an array or a map. -/
theorem printElements_children {fuel : Nat} {tag : UInt8} {children : List Value} {rest : Bytes}
    (ih : ∀ (v : Value) (rest : Bytes), (v.encode ++ rest).length ≤ kMaxMsg →
      v.encode.length ≤ fuel →
      printResponse fuel (v.encode ++ rest) = .ok (.ofNat v.encode.length, v.printed))
    (hlen : (tag :: (leEncode 4 (UInt32.ofNat children.length).toNat ++
      (writeAll [] children ++ rest))).length ≤ kMaxMsg)
    (hfuel : (writeAll [] children).length ≤ fuel) :
    printElements (printResponse fuel)
        (tag :: (leEncode 4 (UInt32.ofNat children.length).toNat ++ (writeAll [] children ++ rest)))
        (UInt32.ofNat children.length).toNat (1 + 4) =
      .ok (some (5 + (writeAll [] children).length), printedAll children) := by
  have hcount : (UInt32.ofNat children.length).toNat = children.length := by
    have := length_le_writeAll children
    simp only [List.length_cons, List.length_append] at hlen
    exact toNat_ofNat_len (by omega)
  rw [hcount]
  rw [hcount] at hlen
  refine printElements_eq (fun v hv rest' hlen' => ih v rest' hlen' ?_) hlen
    (List.drop_left' (by simp))
  exact Nat.le_trans (length_encode_le_writeAll hv) hfuel

theorem length_encode_children {tag : UInt8} (children : List Value) :
    (tag :: (leEncode 4 (UInt32.ofNat children.length).toNat ++ writeAll [] children)).length =
      5 + (writeAll [] children).length := by
  simp only [List.length_cons, List.length_append, length_leEncode]
  omega

/-- **The client accepts what the server encodes.** -/
theorem printResponse_encode {fuel : Nat} (v : Value) (rest : Bytes)
    (hlen : (v.encode ++ rest).length ≤ kMaxMsg) (hfuel : v.encode.length ≤ fuel) :
    printResponse fuel (v.encode ++ rest) = .ok (.ofNat v.encode.length, v.printed) := by
  induction fuel generalizing v rest with
  | zero =>
    have := length_encode_pos v
    omega
  | succ fuel ih =>
    cases v with
    | nil => rfl
    | err code msg => exact printResponse_err code msg rest hlen
    | str s => exact printResponse_str s rest hlen
    | int val => exact printResponse_int val rest
    | dbl bits => exact printResponse_dbl bits rest
    | bool val => exact printResponse_bool val rest
    | arr children =>
      rw [encode_arr, length_encode_children] at *
      rw [List.cons_append, List.append_assoc] at *
      have hcopy : copyU32 (tagArr :: (leEncode 4 (UInt32.ofNat children.length).toNat ++
          (writeAll [] children ++ rest))) 1 = .ok (.ofNat children.length) :=
        copyU32_eq [tagArr] rfl
      have hchildren := printElements_children ih hlen (by omega)
      have hlength : ¬ (tagArr :: (leEncode 4 (UInt32.ofNat children.length).toNat ++
          (writeAll [] children ++ rest))).length < 1 + 4 := by simp
      have htag : ¬ tagArr = tagNil ∧ ¬ tagArr = tagErr ∧ ¬ tagArr = tagStr ∧ ¬ tagArr = tagInt ∧
        ¬ tagArr = tagDbl ∧ ¬ tagArr = tagBool := by decide
      simp only [printResponse, htag, if_false, if_true, hlength, hcopy, ok_bind, hchildren]
      rfl
    | map children =>
      rw [encode_map, length_encode_children] at *
      rw [List.cons_append, List.append_assoc] at *
      have hcopy : copyU32 (tagMap :: (leEncode 4 (UInt32.ofNat children.length).toNat ++
          (writeAll [] children ++ rest))) 1 = .ok (.ofNat children.length) :=
        copyU32_eq [tagMap] rfl
      have hchildren := printElements_children ih hlen (by omega)
      have hlength : ¬ (tagMap :: (leEncode 4 (UInt32.ofNat children.length).toNat ++
          (writeAll [] children ++ rest))).length < 1 + 4 := by simp
      have htag : ¬ tagMap = tagNil ∧ ¬ tagMap = tagErr ∧ ¬ tagMap = tagStr ∧ ¬ tagMap = tagInt ∧
        ¬ tagMap = tagDbl ∧ ¬ tagMap = tagBool ∧ ¬ tagMap = tagArr := by decide
      simp only [printResponse, htag, if_false, if_true, hlength, hcopy, ok_bind, hchildren]
      rfl

/-- The client reads a frame whose payload is one value. -/
theorem readResponse_frame (v : Value) (more : Bytes) (hlen : v.encode.length ≤ kMaxMsg) :
    readResponse (frame v.encode ++ more) = .ok (.ofNat v.encode.length, v.printed) := by
  have hheader : readAll (frame v.encode ++ more) 4 =
      some (leEncode 4 v.encode.length, v.encode ++ more) := by
    have h4 : (leEncode 4 v.encode.length).length = 4 := length_leEncode 4 _
    rw [frame, List.append_assoc, readAll, if_neg (by rw [List.length_append, h4]; omega),
      List.take_left' h4, List.drop_left' h4]
  have hpayload : readAll (v.encode ++ more) v.encode.length = some (v.encode, more) := by
    rw [readAll, if_neg (by rw [List.length_append]; omega), List.take_left, List.drop_left]
  have hprint : printResponse (v.encode.length + 1) v.encode =
      .ok (.ofNat v.encode.length, v.printed) := by
    have := printResponse_encode v [] (by simpa using hlen) (Nat.le_add_right v.encode.length 1)
    rwa [List.append_nil] at this
  have hlt : v.encode.length < 256 ^ 4 := Nat.lt_of_le_of_lt hlen (by decide)
  simp only [readResponse, hheader, leDecode_leEncode hlt, toNat_ofNat_len hlen, hpayload, hprint, ok_bind,
    Int32.toUInt32_ofNat', ne_eq, not_true_eq_false, and_false, if_false, GT.gt, Nat.not_lt.mpr hlen]
  rfl

/-! ## Exact lengths -/

mutual

/-- The lengths and the counts that are written in four bytes are exact. -/
def Value.LengthsFit : Value → Prop
  | .err _ msg => msg.length < 2 ^ 32
  | .str s => s.length < 2 ^ 32
  | .arr children | .map children => children.length < 2 ^ 32 ∧ allLengthsFit children
  | .nil | .int _ | .dbl _ | .bool _ => True

def allLengthsFit : List Value → Prop
  | [] => True
  | v :: vs => v.LengthsFit ∧ allLengthsFit vs

end

mutual

theorem Value.lengthsFit (v : Value) (h : v.encode.length < 2 ^ 32) : v.LengthsFit := by
  match v with
  | .nil | .int _ | .dbl _ | .bool _ => trivial
  | .err code msg =>
    simp only [encode_err, List.length_cons, List.length_append] at h
    simp only [Value.LengthsFit]
    omega
  | .str s =>
    simp only [encode_str, List.length_cons, List.length_append] at h
    simp only [Value.LengthsFit]
    omega
  | .arr children =>
    rw [encode_arr, length_encode_children] at h
    have := length_le_writeAll children
    exact ⟨by omega, allLengthsFit_of_length children (by omega)⟩
  | .map children =>
    rw [encode_map, length_encode_children] at h
    have := length_le_writeAll children
    exact ⟨by omega, allLengthsFit_of_length children (by omega)⟩

theorem allLengthsFit_of_length (vs : List Value) (h : (writeAll [] vs).length < 2 ^ 32) :
    allLengthsFit vs := by
  match vs with
  | [] => trivial
  | v :: vs =>
    rw [writeAll_cons, List.length_append] at h
    exact ⟨v.lengthsFit (by omega), allLengthsFit_of_length vs (by omega)⟩

end

end MiniRedis
