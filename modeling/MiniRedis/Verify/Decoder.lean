import MiniRedis.Verify.Client

/-! # The response format is read back in one way

No encoding of a value is a prefix of another one, so the bytes determine the values. On bytes that do
not come from the server, `print_response` stops at the first thing that is not a value, unless it comes
upon a length that wraps around in its check. -/

namespace MiniRedis

/-! ## Prefixes -/

/-- The first byte of a value. -/
def Value.tag : Value → UInt8
  | .nil => tagNil
  | .err .. => tagErr
  | .str _ => tagStr
  | .int _ => tagInt
  | .dbl _ => tagDbl
  | .bool _ => tagBool
  | .arr _ => tagArr
  | .map _ => tagMap

theorem Value.head?_encode (v : Value) (rest : Bytes) : (v.encode ++ rest).head? = some v.tag := by
  cases v with
  | nil => rfl
  | err code msg => rw [encode_err]; rfl
  | str s => rw [encode_str]; rfl
  | int val => rw [encode_int]; rfl
  | dbl bits => rw [encode_dbl]; rfl
  | bool val => rw [encode_bool]; rfl
  | arr children => rw [encode_arr]; rfl
  | map children => rw [encode_map]; rfl

theorem Value.tag_eq {v w : Value} {r r' : Bytes} (h : v.encode ++ r = w.encode ++ r') :
    v.tag = w.tag := by
  have hhead := congrArg List.head? h
  rw [v.head?_encode, w.head?_encode] at hhead
  exact Option.some.inj hhead

/-- A text after its length is determined by the bytes. -/
theorem text_append_inj {s t r r' : Bytes} (hs : s.length < 2 ^ 32) (ht : t.length < 2 ^ 32)
    (h : leEncode 4 (UInt32.ofNat s.length).toNat ++ s ++ r =
      leEncode 4 (UInt32.ofNat t.length).toNat ++ t ++ r') : s = t ∧ r = r' := by
  rw [UInt32.toNat_ofNat_of_lt' hs, UInt32.toNat_ofNat_of_lt' ht, List.append_assoc,
    List.append_assoc] at h
  obtain ⟨hlen, h⟩ := leEncode_append_inj hs ht h
  exact List.append_inj h hlen

mutual

/-- The bytes determine the value they start with, and the rest. -/
theorem Value.encode_append_inj (v w : Value) {r r' : Bytes} (hv : v.LengthsFit) (hw : w.LengthsFit)
    (h : v.encode ++ r = w.encode ++ r') : v = w ∧ r = r' := by
  have htag := Value.tag_eq h
  match v with
  | .nil =>
    cases w with
    | nil => exact ⟨rfl, List.append_cancel_left h⟩
    | _ => cases htag
  | .err code msg =>
    cases w with
    | err code' msg' =>
      simp only [encode_err, List.cons_append, List.append_assoc, List.cons.injEq, true_and] at h
      obtain ⟨hcode, h⟩ := leEncode_append_inj code.toNat_lt code'.toNat_lt h
      simp only [← List.append_assoc] at h
      obtain ⟨rfl, hr⟩ := text_append_inj hv hw h
      exact ⟨by rw [UInt32.toNat_inj.mp hcode], hr⟩
    | _ => cases htag
  | .str s =>
    cases w with
    | str s' =>
      simp only [encode_str, List.cons_append, List.cons.injEq, true_and] at h
      obtain ⟨rfl, hr⟩ := text_append_inj hv hw h
      exact ⟨rfl, hr⟩
    | _ => cases htag
  | .int val =>
    cases w with
    | int val' =>
      simp only [encode_int, List.cons_append, List.cons.injEq, true_and] at h
      obtain ⟨hval, hr⟩ := leEncode_append_inj val.toUInt64.toNat_lt val'.toUInt64.toNat_lt h
      have hval := congrArg UInt64.toInt64 (UInt64.toNat_inj.mp hval)
      rw [Int64.toInt64_toUInt64, Int64.toInt64_toUInt64] at hval
      exact ⟨by rw [hval], hr⟩
    | _ => cases htag
  | .dbl bits =>
    cases w with
    | dbl bits' =>
      simp only [encode_dbl, List.cons_append, List.cons.injEq, true_and] at h
      obtain ⟨hbits, hr⟩ := leEncode_append_inj bits.toNat_lt bits'.toNat_lt h
      exact ⟨by rw [UInt64.toNat_inj.mp hbits], hr⟩
    | _ => cases htag
  | .bool val =>
    cases w with
    | bool val' =>
      simp only [encode_bool, List.cons_append, List.nil_append, List.cons.injEq, true_and] at h
      obtain ⟨hval, hr⟩ := h
      refine ⟨?_, hr⟩
      cases val <;> cases val' <;> first | rfl | cases hval
    | _ => cases htag
  | .arr children =>
    cases w with
    | arr children' =>
      simp only [encode_arr, List.cons_append, List.append_assoc, List.cons.injEq, true_and] at h
      rw [UInt32.toNat_ofNat_of_lt' hv.1, UInt32.toNat_ofNat_of_lt' hw.1] at h
      obtain ⟨hcount, h⟩ := leEncode_append_inj hv.1 hw.1 h
      obtain ⟨rfl, hr⟩ := writeAll_append_inj children children' hcount hv.2 hw.2 h
      exact ⟨rfl, hr⟩
    | _ => cases htag
  | .map children =>
    cases w with
    | map children' =>
      simp only [encode_map, List.cons_append, List.append_assoc, List.cons.injEq, true_and] at h
      rw [UInt32.toNat_ofNat_of_lt' hv.1, UInt32.toNat_ofNat_of_lt' hw.1] at h
      obtain ⟨hcount, h⟩ := leEncode_append_inj hv.1 hw.1 h
      obtain ⟨rfl, hr⟩ := writeAll_append_inj children children' hcount hv.2 hw.2 h
      exact ⟨rfl, hr⟩
    | _ => cases htag

theorem writeAll_append_inj (vs ws : List Value) {r r' : Bytes} (hcount : vs.length = ws.length)
    (hvs : allLengthsFit vs) (hws : allLengthsFit ws)
    (h : writeAll [] vs ++ r = writeAll [] ws ++ r') : vs = ws ∧ r = r' := by
  match vs, ws with
  | [], [] => exact ⟨rfl, h⟩
  | [], _ :: _ => cases hcount
  | _ :: _, [] => cases hcount
  | v :: vs, w :: ws =>
    rw [writeAll_cons, writeAll_cons, List.append_assoc, List.append_assoc] at h
    obtain ⟨rfl, hrest⟩ := Value.encode_append_inj v w hvs.1 hws.1 h
    obtain ⟨rfl, hr⟩ := writeAll_append_inj vs ws (Nat.succ.inj hcount) hvs.2 hws.2 hrest
    exact ⟨rfl, hr⟩

end

theorem Value.lengthsFit_of_le {v : Value} (h : v.encode.length ≤ kMaxMsg) : v.LengthsFit :=
  v.lengthsFit (Nat.lt_of_le_of_lt h (by decide))

theorem Value.encode_inj {v w : Value} (hv : v.encode.length ≤ kMaxMsg) (h : v.encode = w.encode) :
    v = w := by
  have hw : w.encode.length ≤ kMaxMsg := h ▸ hv
  have hsame : v.encode ++ [] = w.encode ++ [] := by rw [h]
  exact (Value.encode_append_inj v w (lengthsFit_of_le hv) (lengthsFit_of_le hw) hsame).1

/-- **Decoding inverts encoding.** `print_response` takes exactly the encoding of a tree off the front
of a buffer and has looked at the same values in the same order. No encoding is a prefix of the
encoding of another tree. -/
theorem printResponse_inverts (v : Value) (hlen : v.encode.length ≤ kMaxMsg) :
    (∀ (rest : Bytes) (fuel : Nat), (v.encode ++ rest).length ≤ kMaxMsg →
      (v.encode ++ rest).length < fuel →
      ∃ n, printResponse fuel (v.encode ++ rest) = .ok (n, v.printed) ∧ n.toInt = v.encode.length) ∧
    ∀ w : Value, w.encode.length ≤ kMaxMsg → v.encode <+: w.encode → v = w := by
  refine ⟨fun rest fuel hrest hfuel => ⟨_, printResponse_encode v rest hrest ?_, toInt_len hlen⟩,
    fun w hw ⟨rest, hrest⟩ => ?_⟩
  · rw [List.length_append] at hfuel
    omega
  · have hsame : v.encode ++ rest = w.encode ++ [] := by rw [hrest, List.append_nil]
    exact (Value.encode_append_inj v w (Value.lengthsFit_of_le hlen) (Value.lengthsFit_of_le hw)
      hsame).1

/-- An array of an error and a string with a NUL, before another value. -/
theorem printResponse_inverts_array :
    (∃ n, printResponse 40 ((Value.arr [.err 2 [65], .str [66, 0, 67]]).encode ++ [0]) =
      .ok (n, [.arrayLength 2, .error 2 [65], .str [66], .arrayEnd]) ∧ n.toInt = 23) ∧
    ¬ (Value.arr [.err 2 [65], .str [66, 0, 67]]).encode <+: (Value.arr [.nil]).encode := by
  obtain ⟨hdecode, hfree⟩ := printResponse_inverts (.arr [.err 2 [65], .str [66, 0, 67]]) (by decide)
  refine ⟨hdecode [0] 40 (by decide) (by decide), fun h => ?_⟩
  cases hfree (.arr [.nil]) (by decide) h

/-! ## Arbitrary bytes -/

/-- A buffer on which the decoder goes wrong: the header of a text whose length wraps around in the
check, or a boolean that `out_bool` does not write. -/
inductive Unfit : Bytes → Prop where
  | err (code len : UInt32) (rest : Bytes) (hlen : 2 ^ 32 ≤ 1 + 8 + len.toNat) :
      Unfit (tagErr :: (leEncode 4 code.toNat ++ (leEncode 4 len.toNat ++ rest)))
  | str (len : UInt32) (rest : Bytes) (hlen : 2 ^ 32 ≤ 1 + 4 + len.toNat) :
      Unfit (tagStr :: (leEncode 4 len.toNat ++ rest))
  | bool (b : UInt8) (rest : Bytes) (hb : 1 < b) : Unfit (tagBool :: b :: rest)

/-- The buffers that `print_response` is called on: the whole one, and in an array or a map what is
left after the children so far, which are encodings of values. -/
inductive ComesUpon (data : Bytes) : Bytes → Prop where
  | whole : ComesUpon data data
  | child (tag : UInt8) (htag : tag = tagArr ∨ tag = tagMap) (count : UInt32) (vs : List Value)
      (hvs : vs.length < count.toNat)
      (h : ComesUpon data (tag :: (leEncode 4 count.toNat ++ (writeAll [] vs ++ rest)))) :
      ComesUpon data rest

theorem ComesUpon.trans {data mid rest : Bytes} (h : ComesUpon data mid) (h' : ComesUpon mid rest) :
    ComesUpon data rest := by
  induction h' with
  | whole => exact h
  | child tag htag count vs hvs _ ih => exact .child tag htag count vs hvs ih

theorem ComesUpon.length_le {data rest : Bytes} (h : ComesUpon data rest) :
    rest.length ≤ data.length := by
  induction h with
  | whole => exact Nat.le_refl _
  | child tag htag count vs hvs _ ih =>
    rw [List.length_cons, List.length_append, List.length_append] at ih
    omega

/-- The decoder does not read outside of the buffer, and either rejects it or returns the length of the
encoding of the one value that it printed. -/
def SoundOn (data : Bytes) : Prop :=
  ∃ n out, printResponse (data.length + 1) data = .ok (n, out) ∧
    (n = -1 ∨ 0 < n ∧ n.toInt.toNat ≤ data.length ∧
      ∃ v : Value, v.encode = data.take n.toInt.toNat ∧ out = v.printed ∧
        ∀ w : Value, w.encode = data.take n.toInt.toNat → w = v)

/-- A run that rejects the buffer, or the buffer starts with a value. -/
def Decodes (run : Result (Int32 × List Printed)) (data : Bytes) : Prop :=
  (∃ out, run = .ok (-1, out)) ∨ ∃ (v : Value) (rest : Bytes), data = v.encode ++ rest

theorem exists_u32 (bytes : Bytes) (h : 4 ≤ bytes.length) :
    ∃ (n : UInt32) (rest : Bytes), bytes = leEncode 4 n.toNat ++ rest := by
  have htake : (bytes.take 4).length = 4 := List.length_take_of_le h
  have hlt := leDecode_lt (bytes.take 4)
  rw [htake] at hlt
  refine ⟨.ofNat (leDecode (bytes.take 4)), bytes.drop 4, ?_⟩
  rw [UInt32.toNat_ofNat_of_lt' hlt, leEncode_leDecode_of_length htake, List.take_append_drop]

theorem exists_u64 (bytes : Bytes) (h : 8 ≤ bytes.length) :
    ∃ (n : UInt64) (rest : Bytes), bytes = leEncode 8 n.toNat ++ rest := by
  have htake : (bytes.take 8).length = 8 := List.length_take_of_le h
  have hlt := leDecode_lt (bytes.take 8)
  rw [htake] at hlt
  refine ⟨.ofNat (leDecode (bytes.take 8)), bytes.drop 8, ?_⟩
  rw [UInt64.toNat_ofNat_of_lt' hlt, leEncode_leDecode_of_length htake, List.take_append_drop]

theorem writeAll_append (vs ws : List Value) :
    writeAll [] (vs ++ ws) = writeAll [] vs ++ writeAll [] ws := by
  induction vs with
  | nil => rfl
  | cons v vs ih => rw [List.cons_append, writeAll_cons, writeAll_cons, ih, List.append_assoc]

/-- A sum that does not wrap around. -/
theorem toNat_add_of_lt {k len : UInt32} (h : k.toNat + len.toNat < 2 ^ 32) :
    (k + len).toNat = k.toNat + len.toNat := by
  rw [UInt32.toNat_add, Nat.mod_eq_of_lt h]

theorem decodes_str {fuel : Nat} {body : Bytes} (hfit : ¬ Unfit (tagStr :: body)) :
    Decodes (printResponse (fuel + 1) (tagStr :: body)) (tagStr :: body) := by
  have htag : ¬ tagStr = tagNil ∧ ¬ tagStr = tagErr := by decide
  by_cases hsize : (tagStr :: body).length < 1 + 4
  · left
    simp only [printResponse, htag, if_false, if_true, if_pos hsize]
    exact ⟨_, rfl⟩
  · rw [List.length_cons] at hsize
    obtain ⟨len, rest, rfl⟩ := exists_u32 body (by omega)
    have hlen : 1 + 4 + len.toNat < 2 ^ 32 := Nat.lt_of_not_le fun h => hfit (.str len rest h)
    have hsum : (1 + 4 + len).toNat = 1 + 4 + len.toNat := toNat_add_of_lt hlen
    by_cases hrest : rest.length < len.toNat
    · left
      rw [printResponse_strHeader, if_pos (by omega)]
      exact ⟨_, rfl⟩
    · right
      have htake : (rest.take len.toNat).length = len.toNat := List.length_take_of_le (by omega)
      refine ⟨.str (rest.take len.toNat), rest.drop len.toNat, ?_⟩
      rw [encode_str, htake, UInt32.ofNat_toNat, List.cons_append, List.append_assoc,
        List.take_append_drop]

theorem decodes_err {fuel : Nat} {body : Bytes} (hfit : ¬ Unfit (tagErr :: body)) :
    Decodes (printResponse (fuel + 1) (tagErr :: body)) (tagErr :: body) := by
  have htag : ¬ tagErr = tagNil := by decide
  by_cases hsize : (tagErr :: body).length < 1 + 8
  · left
    simp only [printResponse, htag, if_false, if_true, if_pos hsize]
    exact ⟨_, rfl⟩
  · rw [List.length_cons] at hsize
    obtain ⟨code, body, rfl⟩ := exists_u32 body (by omega)
    rw [List.length_append, length_leEncode] at hsize
    obtain ⟨len, rest, rfl⟩ := exists_u32 body (by omega)
    have hlen : 1 + 8 + len.toNat < 2 ^ 32 := Nat.lt_of_not_le fun h => hfit (.err code len rest h)
    have hsum : (1 + 8 + len).toNat = 1 + 8 + len.toNat := toNat_add_of_lt hlen
    by_cases hrest : rest.length < len.toNat
    · left
      rw [printResponse_errHeader, if_pos (by omega)]
      exact ⟨_, rfl⟩
    · right
      have htake : (rest.take len.toNat).length = len.toNat := List.length_take_of_le (by omega)
      refine ⟨.err code (rest.take len.toNat), rest.drop len.toNat, ?_⟩
      rw [encode_err, htake, UInt32.ofNat_toNat, List.cons_append, List.append_assoc,
        List.append_assoc, List.take_append_drop]

theorem decodes_int {fuel : Nat} {body : Bytes} :
    Decodes (printResponse (fuel + 1) (tagInt :: body)) (tagInt :: body) := by
  have htag : ¬ tagInt = tagNil ∧ ¬ tagInt = tagErr ∧ ¬ tagInt = tagStr := by decide
  by_cases hsize : (tagInt :: body).length < 1 + 8
  · left
    simp only [printResponse, htag, if_false, if_true, if_pos hsize]
    exact ⟨_, rfl⟩
  · right
    rw [List.length_cons] at hsize
    obtain ⟨n, rest, rfl⟩ := exists_u64 body (by omega)
    refine ⟨.int n.toInt64, rest, ?_⟩
    rw [encode_int, UInt64.toUInt64_toInt64, List.cons_append]

theorem decodes_dbl {fuel : Nat} {body : Bytes} :
    Decodes (printResponse (fuel + 1) (tagDbl :: body)) (tagDbl :: body) := by
  have htag : ¬ tagDbl = tagNil ∧ ¬ tagDbl = tagErr ∧ ¬ tagDbl = tagStr ∧ ¬ tagDbl = tagInt := by
    decide
  by_cases hsize : (tagDbl :: body).length < 1 + 8
  · left
    simp only [printResponse, htag, if_false, if_true, if_pos hsize]
    exact ⟨_, rfl⟩
  · right
    rw [List.length_cons] at hsize
    obtain ⟨bits, rest, rfl⟩ := exists_u64 body (by omega)
    exact ⟨.dbl bits, rest, by rw [encode_dbl, List.cons_append]⟩

theorem decodes_bool {fuel : Nat} {body : Bytes} (hfit : ¬ Unfit (tagBool :: body)) :
    Decodes (printResponse (fuel + 1) (tagBool :: body)) (tagBool :: body) := by
  cases body with
  | nil => exact .inl ⟨_, rfl⟩
  | cons b rest =>
    right
    have hb : b = 0 ∨ b = 1 := by
      have hle : ¬ 1 < b := fun hb => hfit (.bool b rest hb)
      rw [UInt8.lt_iff_toNat_lt] at hle
      rw [← UInt8.toNat_inj, ← UInt8.toNat_inj]
      have : (1 : UInt8).toNat = 1 ∧ (0 : UInt8).toNat = 0 := ⟨rfl, rfl⟩
      omega
    rcases hb with rfl | rfl
    · exact ⟨.bool false, rest, by rw [encode_bool]; rfl⟩
    · exact ⟨.bool true, rest, by rw [encode_bool]; rfl⟩

/-- The loop over the children either stops at a bad one, or the bytes are the encodings of as many
values. -/
theorem printElements_decodes {print : Bytes → Result (Int32 × List Printed)} {data rest : Bytes}
    {tag : UInt8} {count : UInt32} {n pos : Nat} (vs : List Value)
    (htag : tag = tagArr ∨ tag = tagMap) (hlen : data.length ≤ kMaxMsg)
    (hprint : ∀ rest, ComesUpon data rest → rest.length < data.length → Decodes (print rest) rest)
    (hvalue : ∀ (v : Value) (rest : Bytes), (v.encode ++ rest).length < data.length →
      print (v.encode ++ rest) = .ok (.ofNat v.encode.length, v.printed))
    (hdata : data = tag :: (leEncode 4 count.toNat ++ (writeAll [] vs ++ rest)))
    (hcount : vs.length + n = count.toNat) (hpos : data.drop pos = rest) :
    (∃ out, printElements print data n pos = .ok (none, out)) ∨
      ∃ (ws : List Value) (rest' : Bytes), rest = writeAll [] ws ++ rest' ∧ ws.length = n := by
  induction n generalizing vs rest pos with
  | zero => exact .inr ⟨[], rest, rfl, rfl⟩
  | succ n ih =>
    have hreach : ComesUpon data rest :=
      .child tag htag count vs (by omega) (hdata ▸ ComesUpon.whole)
    have hshort : rest.length < data.length := by
      rw [hdata, List.length_cons, List.length_append, List.length_append]
      omega
    rcases hprint rest hreach hshort with ⟨out, hrun⟩ | ⟨v, rest', rfl⟩
    · left
      simp only [printElements, hpos, hrun, ok_bind]
      exact ⟨_, rfl⟩
    · have hpositive := length_encode_pos v
      have hv : (Int32.ofNat v.encode.length).toInt = v.encode.length := by
        rw [List.length_append] at hshort
        exact toInt_len (by omega)
      have hgood : ¬ Int32.ofNat v.encode.length ≤ 0 := by
        rw [Int32.le_iff_toInt_le, hv, Int32.toInt_zero]
        omega
      have hnext : data.drop (pos + v.encode.length) = rest' := by
        rw [← List.drop_drop, hpos, List.drop_left]
      have hdata' : data = tag :: (leEncode 4 count.toNat ++ (writeAll [] (vs ++ [v]) ++ rest')) := by
        rw [hdata, writeAll_append, writeAll_cons, writeAll, List.append_nil, List.append_assoc]
      have hcount' : (vs ++ [v]).length + n = count.toNat := by
        rw [List.length_append, List.length_singleton]
        omega
      rcases ih (vs ++ [v]) hdata' hcount' hnext with ⟨out, hrun⟩ | ⟨ws, rest'', rfl, rfl⟩
      · left
        simp only [printElements, hpos, hvalue v rest' hshort, ok_bind, hgood, if_false, hv,
          Int.toNat_natCast, hrun]
        exact ⟨_, rfl⟩
      · exact .inr ⟨v :: ws, rest'', by rw [writeAll_cons, List.append_assoc], rfl⟩

theorem decodes_children {fuel : Nat} {tag : UInt8} {body : Bytes} (htag : tag = tagArr ∨ tag = tagMap)
    (hlen : (tag :: body).length ≤ kMaxMsg)
    (hprint : ∀ rest, ComesUpon (tag :: body) rest → rest.length < (tag :: body).length →
      Decodes (printResponse fuel rest) rest)
    (hvalue : ∀ (v : Value) (rest : Bytes), (v.encode ++ rest).length < (tag :: body).length →
      printResponse fuel (v.encode ++ rest) = .ok (.ofNat v.encode.length, v.printed)) :
    Decodes (printResponse (fuel + 1) (tag :: body)) (tag :: body) := by
  obtain ⟨hnil, herr, hstr, hint, hdbl, hbool⟩ : tag ≠ tagNil ∧ tag ≠ tagErr ∧ tag ≠ tagStr ∧
      tag ≠ tagInt ∧ tag ≠ tagDbl ∧ tag ≠ tagBool := by
    rcases htag with rfl | rfl <;> decide
  have hmap : ¬ tagMap = tagArr := by decide
  by_cases hsize : (tag :: body).length < 1 + 4
  · left
    rcases htag with rfl | rfl <;>
      simp only [printResponse, hnil, herr, hstr, hint, hdbl, hbool, if_false, if_pos hsize, ite_self] <;>
      exact ⟨_, rfl⟩
  · rw [List.length_cons] at hsize
    obtain ⟨count, rest, rfl⟩ := exists_u32 body (by omega)
    have hcopy : copyU32 (tag :: (leEncode 4 count.toNat ++ rest)) 1 = .ok count :=
      copyU32_eq [tag] rfl
    have hsize' : ¬ (tag :: (leEncode 4 count.toNat ++ rest)).length < 1 + 4 := by simp
    have hpos : (tag :: (leEncode 4 count.toNat ++ rest)).drop (1 + 4) = rest :=
      List.drop_left' (length_leEncode 4 count.toNat)
    rcases printElements_decodes [] htag hlen hprint hvalue (by rw [writeAll, List.nil_append])
      (Nat.zero_add _) hpos with ⟨out, hrun⟩ | ⟨ws, rest', rfl, hws⟩
    · left
      rcases htag with rfl | rfl
      · simp only [printResponse, hnil, herr, hstr, hint, hdbl, hbool, if_false, if_true, hsize', hcopy,
          ok_bind, hrun]
        exact ⟨_, rfl⟩
      · simp only [printResponse, hnil, herr, hstr, hint, hdbl, hbool, hmap, if_false, if_true, hsize',
          hcopy, ok_bind, hrun]
        exact ⟨_, rfl⟩
    · right
      have hcount : UInt32.ofNat ws.length = count := by rw [hws, UInt32.ofNat_toNat]
      rcases htag with rfl | rfl
      · exact ⟨.arr ws, rest', by rw [encode_arr, hcount, List.cons_append, List.append_assoc]⟩
      · exact ⟨.map ws, rest', by rw [encode_map, hcount, List.cons_append, List.append_assoc]⟩

/-- **A decoder that comes upon nothing unfit** stops at the first thing that is not a value. -/
theorem printResponse_decodes {fuel : Nat} {data : Bytes} (hfuel : data.length < fuel)
    (hlen : data.length ≤ kMaxMsg) (hfit : ∀ rest, ComesUpon data rest → ¬ Unfit rest) :
    Decodes (printResponse fuel data) data := by
  induction fuel generalizing data with
  | zero => omega
  | succ fuel ih =>
    cases data with
    | nil => exact .inl ⟨_, rfl⟩
    | cons tag body =>
      by_cases hnil : tag = tagNil
      · exact .inr ⟨.nil, body, by rw [hnil]; rfl⟩
      by_cases herr : tag = tagErr
      · subst herr
        exact decodes_err (hfit _ .whole)
      by_cases hstr : tag = tagStr
      · subst hstr
        exact decodes_str (hfit _ .whole)
      by_cases hint : tag = tagInt
      · subst hint
        exact decodes_int
      by_cases hdbl : tag = tagDbl
      · subst hdbl
        exact decodes_dbl
      by_cases hbool : tag = tagBool
      · subst hbool
        exact decodes_bool (hfit _ .whole)
      by_cases htag : tag = tagArr ∨ tag = tagMap
      · refine decodes_children htag hlen (fun rest hrest hshort => ?_) fun v rest hshort => ?_
        · exact ih (by omega) (by omega) fun rest' h => hfit rest' (hrest.trans h)
        · refine printResponse_encode v rest (by omega) ?_
          rw [List.length_append] at hshort
          omega
      · left
        rw [not_or] at htag
        simp only [printResponse, hnil, herr, hstr, hint, hdbl, hbool, htag.1, htag.2, if_false]
        exact ⟨_, rfl⟩

/-- A sum that wraps around is small, also as a return value. -/
theorem toInt_add_of_wraps {k len : UInt32} (hk : k.toNat < 16) (h : 2 ^ 32 ≤ k.toNat + len.toNat) :
    (k + len).toNat < k.toNat ∧ (k + len).toInt32.toInt = (k + len).toNat := by
  have hlen := len.toNat_lt
  have hsum : (k + len).toNat = k.toNat + len.toNat - 2 ^ 32 := by
    rw [UInt32.toNat_add]
    omega
  have hsmall : (k + len).toNat < 2 ^ 31 := by omega
  refine ⟨by omega, ?_⟩
  rw [← UInt32.ofNat_toNat (x := k + len), UInt32.toInt32_ofNat', Int32.toInt_ofNat_of_lt hsmall,
    UInt32.ofNat_toNat]

/-- A value with the tag of the buffer is longer than a header that has wrapped around. -/
theorem no_value_of_wraps {tag : UInt8} {body : Bytes} {k len : UInt32} (hk : k.toNat < 16)
    (hwraps : 2 ^ 32 ≤ k.toNat + len.toNat)
    (hheader : ∀ v : Value, v.tag = tag → k.toNat ≤ v.encode.length) (v : Value) :
    v.encode ≠ (tag :: body).take (k + len).toInt32.toInt.toNat := by
  intro hv
  obtain ⟨hsmall, hn⟩ := toInt_add_of_wraps hk hwraps
  rw [hn, Int.toNat_natCast] at hv
  have hlength := congrArg List.length hv
  rw [List.length_take] at hlength
  have hpositive := length_encode_pos v
  have htag : v.tag = tag := by
    have hhead := v.head?_encode []
    obtain ⟨m, hm⟩ := Nat.exists_eq_add_of_lt (Nat.lt_of_lt_of_le hpositive (Nat.le_trans
      (Nat.le_of_eq hlength) (Nat.min_le_left _ _)))
    rw [List.append_nil, hv, hm, Nat.zero_add, List.take_succ_cons] at hhead
    exact (Option.some.inj hhead).symm
  have := hheader v htag
  omega

theorem add_ne_neg_one_of_wraps {k len : UInt32} (hk : k.toNat < 16)
    (hwraps : 2 ^ 32 ≤ k.toNat + len.toNat) : (k + len).toInt32 ≠ -1 := by
  intro hneg
  obtain ⟨-, hn⟩ := toInt_add_of_wraps hk hwraps
  rw [hneg] at hn
  have hone : (-1 : Int32).toInt = -1 := rfl
  omega

/-- On an unfit buffer the decoder reads outside of it, or returns fewer bytes than any value that starts
like it has. -/
theorem Unfit.not_soundOn {data : Bytes} (h : Unfit data) : ¬ SoundOn data := by
  rintro ⟨n, out, hrun, hresult⟩
  cases h with
  | err code len rest hlen =>
    have hsum : (1 + 8 + len).toNat < 9 := (toInt_add_of_wraps (k := 1 + 8) (by decide) hlen).1
    rw [printResponse_errHeader, if_neg (by omega)] at hrun
    obtain ⟨msg, -, hret⟩ := bind_eq_ok.mp hrun
    cases hret
    rcases hresult with hneg | ⟨-, -, v, hv, -⟩
    · exact add_ne_neg_one_of_wraps (k := 1 + 8) (by decide) hlen hneg
    · refine no_value_of_wraps (k := 1 + 8) (by decide) hlen (fun v hv => ?_) v hv
      cases v with
      | err code msg =>
        rw [encode_err, List.length_cons, List.length_append, List.length_append, length_leEncode,
          length_leEncode]
        exact Nat.le_trans (by decide : (1 + 8 : UInt32).toNat ≤ 4 + 4 + 1) (by omega)
      | _ => cases hv
  | str len rest hlen =>
    have hsum : (1 + 4 + len).toNat < 5 := (toInt_add_of_wraps (k := 1 + 4) (by decide) hlen).1
    rw [printResponse_strHeader, if_neg (by omega)] at hrun
    obtain ⟨s, -, hret⟩ := bind_eq_ok.mp hrun
    cases hret
    rcases hresult with hneg | ⟨-, -, v, hv, -⟩
    · exact add_ne_neg_one_of_wraps (k := 1 + 4) (by decide) hlen hneg
    · refine no_value_of_wraps (k := 1 + 4) (by decide) hlen (fun v hv => ?_) v hv
      cases v with
      | str s =>
        rw [encode_str, List.length_cons, List.length_append, length_leEncode]
        exact Nat.le_trans (by decide : (1 + 4 : UInt32).toNat ≤ 4 + 1) (by omega)
      | _ => cases hv
  | bool b rest hb =>
    cases hrun
    rcases hresult with hneg | ⟨-, -, v, hv, -⟩
    · cases hneg
    · have htwo : ((1 + 1 : Int32).toInt.toNat) = 2 := rfl
      rw [htwo, List.take_succ_cons, List.take_succ_cons, List.take_zero] at hv
      have htag : v.tag = tagBool := by
        have hhead := v.head?_encode []
        rw [List.append_nil, hv] at hhead
        exact (Option.some.inj hhead).symm
      cases v with
      | bool val =>
        rw [encode_bool] at hv
        obtain rfl := (List.cons.inj (List.cons.inj hv).2).1
        cases val with
        | false => exact absurd hb (by decide)
        | true => exact absurd hb (by decide)
      | _ => cases htag

theorem soundOn_encode (v : Value) (rest : Bytes) (hlen : (v.encode ++ rest).length ≤ kMaxMsg) :
    SoundOn (v.encode ++ rest) := by
  have hv : v.encode.length ≤ kMaxMsg := by
    rw [List.length_append] at hlen
    omega
  have hfuel : v.encode.length ≤ (v.encode ++ rest).length + 1 := by
    rw [List.length_append]
    omega
  have hn : (Int32.ofNat v.encode.length).toInt = v.encode.length := toInt_len hv
  have htake : v.encode = (v.encode ++ rest).take (Int32.ofNat v.encode.length).toInt.toNat := by
    rw [hn, Int.toNat_natCast, List.take_left]
  refine ⟨_, _, printResponse_encode v rest hlen hfuel, .inr ⟨?_, ?_, v, htake, rfl, fun w hw => ?_⟩⟩
  · rw [Int32.lt_iff_toInt_lt, hn, Int32.toInt_zero]
    exact Int.natCast_pos.mpr (length_encode_pos v)
  · rw [hn, Int.toNat_natCast, List.length_append]
    exact Nat.le_add_right ..
  · exact (Value.encode_inj hv (htake.trans hw.symm)).symm

theorem soundOn_of_fits {data : Bytes} (hlen : data.length ≤ kMaxMsg)
    (hfit : ∀ rest, ComesUpon data rest → ¬ Unfit rest) : SoundOn data := by
  rcases printResponse_decodes (Nat.lt_succ_self _) hlen hfit with ⟨out, hrun⟩ | ⟨v, rest, rfl⟩
  · exact ⟨-1, out, hrun, .inl rfl⟩
  · exact soundOn_encode v rest hlen

/-- After some of the children there is another one. -/
theorem exists_next_child {vs xs : List Value} {rest more : Bytes} (hlt : vs.length < xs.length)
    (hlen : (writeAll [] vs ++ rest).length < 2 ^ 32)
    (h : writeAll [] vs ++ rest = writeAll [] xs ++ more) : ∃ w more', rest = Value.encode w ++ more' := by
  have hsplit : writeAll [] xs = writeAll [] (xs.take vs.length) ++ writeAll [] (xs.drop vs.length) := by
    rw [← writeAll_append, List.take_append_drop]
  have hlen' := hlen
  rw [h, hsplit, List.length_append, List.length_append] at hlen'
  rw [List.length_append] at hlen
  rw [hsplit, List.append_assoc] at h
  obtain ⟨-, hrest⟩ := writeAll_append_inj vs (xs.take vs.length)
    (List.length_take_of_le (Nat.le_of_lt hlt)).symm (allLengthsFit_of_length vs (by omega))
    (allLengthsFit_of_length _ (by omega)) h
  cases hdrop : xs.drop vs.length with
  | nil => exact absurd (List.drop_eq_nil_iff.mp hdrop) (Nat.not_le.mpr hlt)
  | cons w ws =>
    rw [hdrop, writeAll_cons, List.append_assoc] at hrest
    exact ⟨w, _, hrest⟩

/-- In the encoding of a value the decoder comes upon values only. -/
theorem ComesUpon.exists_value {v : Value} {rest : Bytes} (hlen : v.encode.length ≤ kMaxMsg)
    (h : ComesUpon v.encode rest) : ∃ w more, rest = Value.encode w ++ more := by
  induction h with
  | whole => exact ⟨v, [], (List.append_nil _).symm⟩
  | @child rest tag htag count vs hvs hcomes ih =>
    obtain ⟨w, more, hw⟩ := ih
    have hle := Nat.le_trans hcomes.length_le hlen
    rw [List.length_cons, List.length_append] at hle
    have hlt : (writeAll [] vs ++ rest).length < 2 ^ 32 :=
      Nat.lt_of_le_of_lt (by omega : (writeAll [] vs ++ rest).length ≤ kMaxMsg) (by decide)
    have hnext : ∀ xs, leEncode 4 count.toNat ++ (writeAll [] vs ++ rest) =
        leEncode 4 (UInt32.ofNat xs.length).toNat ++ (writeAll [] xs ++ more) →
        ∃ w more', rest = Value.encode w ++ more' := by
      intro xs hxs
      obtain ⟨hcount, hxs⟩ := leEncode_append_inj count.toNat_lt (UInt32.ofNat xs.length).toNat_lt hxs
      refine exists_next_child (Nat.lt_of_lt_of_le hvs ?_) hlt hxs
      rw [hcount, UInt32.toNat_ofNat']
      exact Nat.mod_le _ _
    have htag' : w.tag = tag := by
      have hhead := w.head?_encode more
      rw [← hw] at hhead
      exact (Option.some.inj hhead).symm
    cases w with
    | arr xs =>
      rw [encode_arr, List.cons_append, List.append_assoc] at hw
      exact hnext xs (List.cons.inj hw).2
    | map xs =>
      rw [encode_map, List.cons_append, List.append_assoc] at hw
      exact hnext xs (List.cons.inj hw).2
    | _ =>
      subst htag'
      rcases htag with htag | htag <;> cases htag

/-- **The decoder is sound on arbitrary bytes exactly where no check wraps around.** `print_response`
and the calls it makes for the children are sound on their buffers if and only if none of these buffers
is unfit. -/
theorem printResponse_sound_iff (data : Bytes) (hlen : data.length ≤ kMaxMsg) :
    (∀ rest, ComesUpon data rest → SoundOn rest) ↔ ∀ rest, ComesUpon data rest → ¬ Unfit rest := by
  refine ⟨fun hsound rest hrest hunfit => hunfit.not_soundOn (hsound rest hrest), fun hfit rest hrest =>
    soundOn_of_fits (Nat.le_trans hrest.length_le hlen) fun rest' hrest' => hfit rest' ?_⟩
  exact hrest.trans hrest'

/-- An array in an array: a value, on which the decoder is sound, and one where the boolean is `2`. -/
theorem printResponse_sound_iff_array :
    (∀ rest, ComesUpon (Value.arr [.str [65], .arr [.bool true]]).encode rest → ¬ Unfit rest) ∧
    ¬ ∀ rest, ComesUpon [tagArr, 1, 0, 0, 0, tagArr, 1, 0, 0, 0, tagBool, 2] rest → SoundOn rest := by
  have hlen : (Value.arr [.str [65], .arr [.bool true]]).encode.length ≤ kMaxMsg := by decide
  refine ⟨(printResponse_sound_iff _ hlen).mp fun rest hrest => ?_, fun hsound => ?_⟩
  · obtain ⟨w, more, rfl⟩ := hrest.exists_value hlen
    exact soundOn_encode w more (Nat.le_trans hrest.length_le hlen)
  · have hinner : ComesUpon [tagArr, 1, 0, 0, 0, tagArr, 1, 0, 0, 0, tagBool, 2]
        [tagArr, 1, 0, 0, 0, tagBool, 2] :=
      .child tagArr (.inl rfl) 1 [] (by decide) .whole
    have hbool := hinner.trans (.child tagArr (.inl rfl) 1 [] (by decide) .whole)
    exact (printResponse_sound_iff _ (by decide)).mp hsound [tagBool, 2] hbool (.bool 2 [] (by decide))

/-- A text whose length is `2 ^ 32 - 1` after its last byte: the check passes, and there is no NUL at which
the printing would stop. -/
theorem printResponse_reads_outside :
    ¬ ∀ data : Bytes, data.length ≤ kMaxMsg → SoundOn data := by
  intro hsound
  obtain ⟨n, out, hrun, -⟩ := hsound [2, 255, 255, 255, 255] (by decide)
  cases hrun

end MiniRedis
