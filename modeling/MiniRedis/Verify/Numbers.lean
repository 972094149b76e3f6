import Mathlib.Data.List.TakeWhile
import MiniRedis.Model.Commands

/-! # Which arguments are numbers

`str2int` looks only at where `strtoll` stops. On the empty string that is also its end, and a literal
out of range saturates; any other string is accepted exactly if it is a literal. -/

namespace MiniRedis

inductive Sign : Bytes → Bool → Prop where
  | none : Sign [] false
  | plus : Sign [43] false
  | minus : Sign [45] true

/-- The decimal literals that `strtoll` reads to the end, with their exact values. -/
inductive IntLiteral : Bytes → Int → Prop where
  | intro {spaces sign digits : Bytes} {negative : Bool} (hspaces : ∀ c ∈ spaces, isSpace c)
      (hsign : Sign sign negative) (hne : digits ≠ []) (hdigits : ∀ c ∈ digits, isDigit c) :
      IntLiteral (spaces ++ (sign ++ digits))
        (if negative then -decimalValue digits else decimalValue digits)

def InInt64 (n : Int) : Prop := -2 ^ 63 ≤ n ∧ n ≤ 2 ^ 63 - 1

/-- `strtod` finds a number after the spaces and the sign. -/
def HasNumber (s : Bytes) : Prop :=
  let t := (takeSign (s.dropWhile isSpace)).2
  (takeInfinity t <|> takeNaN t <|> takeHex t <|> takeDecimal t).isSome

/-! ## `strtoll` -/

theorem takeSign_append {sign t : Bytes} {negative : Bool} (hsign : Sign sign negative)
    (ht : ∀ c ∈ t.head?, isDigit c) : takeSign (sign ++ t) = (negative, t) := by
  cases hsign with
  | plus | minus => rfl
  | none =>
    cases t with
    | nil => rfl
    | cons c t =>
      have hc := ht c (by simp)
      unfold takeSign
      split
      · next heq =>
        obtain rfl := (List.cons.inj heq).1
        exact absurd hc (by decide)
      · next heq =>
        obtain rfl := (List.cons.inj heq).1
        exact absurd hc (by decide)
      · rfl

theorem takeSign_sign (s : Bytes) :
    ∃ sign, Sign sign (takeSign s).1 ∧ s = sign ++ (takeSign s).2 := by
  unfold takeSign
  split
  · exact ⟨_, .minus, rfl⟩
  · exact ⟨_, .plus, rfl⟩
  · exact ⟨_, .none, rfl⟩

/-- A sign and a digit are no spaces. -/
theorem dropWhile_sign {sign digits : Bytes} {negative : Bool} (hsign : Sign sign negative)
    (hne : digits ≠ []) (hdigits : ∀ c ∈ digits, isDigit c) :
    (sign ++ digits).dropWhile isSpace = sign ++ digits := by
  cases hsign with
  | plus | minus => rfl
  | none =>
    obtain ⟨c, t, rfl⟩ := List.exists_cons_of_ne_nil hne
    have hc := hdigits c List.mem_cons_self
    have hspace : ¬ isSpace c := by
      simp only [isDigit, isSpace, Bool.and_eq_true, decide_eq_true_eq, Bool.or_eq_true, beq_iff_eq,
        UInt8.le_iff_toNat_le, ← UInt8.toNat_inj] at hc ⊢
      have : (48 : UInt8).toNat = 48 ∧ (32 : UInt8).toNat = 32 ∧ (13 : UInt8).toNat = 13 := ⟨rfl, rfl, rfl⟩
      omega
    exact List.dropWhile_cons_of_neg hspace

/-- `strtoll` reads a literal to its end, and saturates. -/
theorem IntLiteral.strtoll {s : Bytes} {n : Int} (h : IntLiteral s n) :
    strtoll s = (max (min n (2 ^ 63 - 1)) (-2 ^ 63), s.length) := by
  obtain @⟨spaces, sign, digits, negative, hspaces, hsign, hne, hdigits⟩ := h
  have hdrop : (spaces ++ (sign ++ digits)).dropWhile isSpace = sign ++ digits := by
    rw [List.dropWhile_append_of_pos hspaces, dropWhile_sign hsign hne hdigits]
  have hsigned : takeSign (sign ++ digits) = (negative, digits) :=
    takeSign_append hsign fun c hc => hdigits c (List.mem_of_mem_head? hc)
  have hall : digits.takeWhile isDigit = digits := List.takeWhile_eq_self_iff.mpr hdigits
  simp only [MiniRedis.strtoll, hdrop, hsigned, hall, List.isEmpty_iff, hne, if_false, Nat.sub_self,
    Nat.sub_zero, Prod.mk.injEq, and_true]
  cases negative with
  | false =>
    simp only [Bool.false_eq_true, if_false]
    omega
  | true =>
    simp only [if_true]
    omega

/-- A string that `strtoll` reads to its end is empty or a literal. -/
theorem literal_of_strtoll {s : Bytes} (hne : s ≠ []) (h : (strtoll s).2 = s.length) :
    ∃ n, IntLiteral s n := by
  obtain ⟨sign, hsign, hsplit⟩ := takeSign_sign (s.dropWhile isSpace)
  have hpositive := List.length_pos_iff.mpr hne
  simp only [strtoll] at h
  split at h
  · omega
  · next hdigits =>
    have hsplit₀ := List.takeWhile_append_dropWhile (p := isSpace) (l := s)
    have hall : (takeSign (s.dropWhile isSpace)).2.takeWhile isDigit =
        (takeSign (s.dropWhile isSpace)).2 := by
      refine (List.takeWhile_prefix isDigit).eq_of_length ?_
      have hle := (List.takeWhile_prefix (l := (takeSign (s.dropWhile isSpace)).2) isDigit).length_le
      omega
    rw [hall, List.isEmpty_iff] at hdigits
    rw [← hsplit₀, hsplit]
    exact ⟨_, .intro (fun c hc => List.mem_takeWhile_imp hc) hsign hdigits
      (List.takeWhile_eq_self_iff.mp hall)⟩

/-- `str2int` on a string that is not empty. -/
theorem str2int_eq_some {s : Bytes} {out : Int} (hne : s ≠ []) :
    str2int s = some out ↔ ∃ n, IntLiteral s n ∧ out = max (min n (2 ^ 63 - 1)) (-2 ^ 63) := by
  constructor
  · intro h
    simp only [str2int] at h
    split at h
    · next hend =>
      obtain ⟨n, hn⟩ := literal_of_strtoll hne hend
      rw [hn.strtoll] at h
      exact ⟨n, hn, (Option.some.inj h).symm⟩
    · cases h
  · rintro ⟨n, hn, rfl⟩
    simp only [str2int, hn.strtoll, if_true]

theorem IntLiteral.ne_nil {s : Bytes} {n : Int} (h : IntLiteral s n) : s ≠ [] := by
  obtain ⟨hspaces, hsign, hne, hdigits⟩ := h
  simp [hne]

/-- The bytes determine the value of a literal. -/
theorem IntLiteral.eq {s : Bytes} {m n : Int} (hm : IntLiteral s m) (hn : IntLiteral s n) : m = n := by
  have hvalue : ∀ {k : Int}, IntLiteral s k → k =
      if (takeSign (s.dropWhile isSpace)).1 then -(decimalValue (takeSign (s.dropWhile isSpace)).2 : Int)
      else decimalValue (takeSign (s.dropWhile isSpace)).2 := by
    rintro _ ⟨hspaces, hsign, hne, hdigits⟩
    rw [List.dropWhile_append_of_pos hspaces, dropWhile_sign hsign hne hdigits,
      takeSign_append hsign fun c hc => hdigits c (List.mem_of_mem_head? hc)]
  rw [hvalue hm, hvalue hn]

/-! ## Arguments -/

/-- The request is refused for its arguments: the response is the error, and nothing has changed. -/
def RefusesArg (cmd : List Bytes) : Prop :=
  ∀ (now : UInt64) (s : ServerData) (resp : Bytes),
    ∃ text, runRequest now s cmd resp = .ok (s, outErr resp errBadArg text)

/-- The argument is taken for a number exactly if it is one. -/
structure TakenForNumber (arg : Bytes) : Prop where
  int : ∀ n, str2int arg = some n ↔ IntLiteral arg n ∧ InInt64 n
  dbl : (str2dbl arg).isSome → HasNumber arg
  pexpire : (∀ n, IntLiteral arg n → ¬ InInt64 n) → ∀ key,
    RefusesArg [ascii ['p', 'e', 'x', 'p', 'i', 'r', 'e'], key, arg]
  zadd : ¬ HasNumber arg → ∀ key name, RefusesArg [ascii ['z', 'a', 'd', 'd'], key, arg, name]
  zqueryScore : ¬ HasNumber arg → ∀ key name offset limit,
    RefusesArg [ascii ['z', 'q', 'u', 'e', 'r', 'y'], key, arg, name, offset, limit]
  zqueryOffset : (∀ n, IntLiteral arg n → ¬ InInt64 n) → ∀ key score name limit,
    RefusesArg [ascii ['z', 'q', 'u', 'e', 'r', 'y'], key, score, name, arg, limit]
  zqueryLimit : (∀ n, IntLiteral arg n → ¬ InInt64 n) → ∀ key score name offset,
    RefusesArg [ascii ['z', 'q', 'u', 'e', 'r', 'y'], key, score, name, offset, arg]

section
variable {key arg score name offset limit : Bytes}

theorem refusesArg_pexpire (h : str2int arg = none) :
    RefusesArg [ascii ['p', 'e', 'x', 'p', 'i', 'r', 'e'], key, arg] := fun now s resp => by
  have hcmd : Request.ofCmd [ascii ['p', 'e', 'x', 'p', 'i', 'r', 'e'], key, arg] =
    .pexpire key arg := rfl
  simp only [runRequest, hcmd, setTtlMs, h]
  exact ⟨_, rfl⟩

theorem refusesArg_zadd (h : str2dbl score = none) :
    RefusesArg [ascii ['z', 'a', 'd', 'd'], key, score, name] := fun now s resp => by
  have hcmd : Request.ofCmd [ascii ['z', 'a', 'd', 'd'], key, score, name] =
    .zadd key score name := rfl
  simp only [runRequest, hcmd, zcmdAdd, h]
  exact ⟨_, rfl⟩

theorem refusesArg_zquery (h : str2dbl score = none ∨ str2int offset = none ∨ str2int limit = none) :
    RefusesArg [ascii ['z', 'q', 'u', 'e', 'r', 'y'], key, score, name, offset, limit] :=
  fun now s resp => by
    have hcmd : Request.ofCmd [ascii ['z', 'q', 'u', 'e', 'r', 'y'], key, score, name, offset, limit] =
      .zquery key score name offset limit := rfl
    simp only [runRequest, hcmd, zcmdQuery]
    cases hscore : str2dbl score with
    | none => exact ⟨_, rfl⟩
    | some value =>
      cases hoffset : str2int offset with
      | none => exact ⟨_, rfl⟩
      | some first =>
        cases hlimit : str2int limit with
        | none => exact ⟨_, rfl⟩
        | some count => simp [hscore, hoffset, hlimit] at h

end

/-- A string in which `strtod` finds no number is refused, unless it is empty. -/
theorem str2dbl_eq_none {s : Bytes} (hne : s ≠ []) (h : ¬ HasNumber s) : str2dbl s = none := by
  have hfail : strtod s = (0, 0) := by
    rw [HasNumber, Option.not_isSome_iff_eq_none] at h
    simp only [strtod, h]
  have hend : ¬ 0 = s.length := fun hz => hne (List.length_eq_zero_iff.mp hz.symm)
  simp [str2dbl, hfail, hend]

/-- **Numeric arguments.** An argument is accepted exactly when it is a number, with its exact value, if
and only if it is not empty and not a literal out of range. -/
theorem takenForNumber_iff (arg : Bytes) :
    TakenForNumber arg ↔ arg ≠ [] ∧ ∀ n, IntLiteral arg n → InInt64 n := by
  constructor
  · intro h
    have hne : arg ≠ [] := by
      rintro rfl
      have hempty : str2int [] = some 0 := rfl
      exact ((h.int 0).mp hempty).1.ne_nil rfl
    refine ⟨hne, fun n hn => ?_⟩
    obtain ⟨hm, hrange⟩ := (h.int _).mp ((str2int_eq_some hne).mpr ⟨n, hn, rfl⟩)
    exact hm.eq hn ▸ hrange
  · rintro ⟨hne, hrange⟩
    have hint : ∀ n, str2int arg = some n ↔ IntLiteral arg n ∧ InInt64 n := by
      intro n
      rw [str2int_eq_some hne]
      constructor
      · rintro ⟨m, hm, rfl⟩
        obtain ⟨hmin, hmax⟩ := hrange m hm
        rw [min_eq_left hmax, max_eq_left hmin]
        exact ⟨hm, hmin, hmax⟩
      · rintro ⟨hn, hmin, hmax⟩
        exact ⟨n, hn, by rw [min_eq_left hmax, max_eq_left hmin]⟩
    have hnone : (∀ n, IntLiteral arg n → ¬ InInt64 n) → str2int arg = none := by
      intro hno
      refine Option.eq_none_iff_forall_ne_some.mpr fun n hn => ?_
      obtain ⟨hn, hin⟩ := (hint n).mp hn
      exact hno n hn hin
    exact {
      int := hint
      dbl := fun hsome => by
        by_contra hno
        rw [str2dbl_eq_none hne hno] at hsome
        cases hsome
      pexpire := fun hno _ => refusesArg_pexpire (hnone hno)
      zadd := fun hno _ _ => refusesArg_zadd (str2dbl_eq_none hne hno)
      zqueryScore := fun hno _ _ _ _ => refusesArg_zquery (.inl (str2dbl_eq_none hne hno))
      zqueryOffset := fun hno _ _ _ _ => refusesArg_zquery (.inr (.inl (hnone hno)))
      zqueryLimit := fun hno _ _ _ _ => refusesArg_zquery (.inr (.inr (hnone hno))) }

/-- The empty argument is taken for the integer `0` and for the score `0`. -/
theorem empty_argument_accepted : str2int [] = some 0 ∧ (str2dbl []).isSome ∧ ¬ HasNumber [] ∧
    ¬ TakenForNumber [] := by
  refine ⟨rfl, rfl, fun h => Bool.false_ne_true h, fun h => ?_⟩
  exact ((h.int 0).mp rfl).1.ne_nil rfl

end MiniRedis
