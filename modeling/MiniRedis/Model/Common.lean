import Mathlib.Algebra.Group.Int.Defs
import Mathlib.Order.Lattice
import MiniRedis.Model.Basic

/-! # `core/common.h`

The hash function and the number parsers, with the functions of the C library that they call. A
`std::string` is followed by a terminating NUL, which is neither a space nor part of a number, so
the library functions stop at the end of the byte list or at an embedded NUL. -/

namespace MiniRedis

/-- The bytes of an ASCII text. -/
def ascii (text : List Char) : Bytes := text.map fun c => .ofNat c.toNat

def stringHash (data : Bytes) : UInt64 :=
  (data.foldl (fun base c => (base + c.toUInt32) * 0x1000193) (0x811C9DC5 : UInt32)).toUInt64

/-- `memcmp(lhs, rhs, n)` by its sign. Both arrays have at least `n` bytes. -/
def memcmp : (lhs rhs : Bytes) → (n : Nat) → Ordering
  | a :: lhs, b :: rhs, n + 1 =>
    if a < b then .lt else if b < a then .gt else memcmp lhs rhs n
  | _, _, _ => .eq

/-! ## Integers -/

/-- `isspace` in the C locale. -/
def isSpace (c : UInt8) : Bool := c == 32 || (9 ≤ c && c ≤ 13)

def isDigit (c : UInt8) : Bool := 48 ≤ c && c ≤ 57

def decimalValue (digits : Bytes) : Nat := digits.foldl (fun n c => 10 * n + (c.toNat - 48)) 0

/-- An optional sign: whether it is `-`, and what follows. -/
def takeSign : Bytes → Bool × Bytes
  | 45 :: s => (true, s)
  | 43 :: s => (false, s)
  | s => (false, s)

/-- `strtoll(s, &endp, 10)`: the saturated value and `endp - s`. -/
def strtoll (s : Bytes) : Int × Nat :=
  let (negative, t) := takeSign (s.dropWhile isSpace)
  let digits := t.takeWhile isDigit
  if digits.isEmpty then (0, 0)
  else
    let n : Int := decimalValue digits
    (if negative then max (-n) (-2 ^ 63) else min n (2 ^ 63 - 1),
      s.length - (t.length - digits.length))

/-- Succeeds if the parser stops at the end of the string. -/
def str2int (s : Bytes) : Option Int :=
  let (out, endp) := strtoll s
  if endp = s.length then some out else none

/-! ## Doubles -/

/-- `isnan`, on the bits of an IEEE 754 double. -/
def isnan (bits : UInt64) : Bool := 0x7FF0000000000000 < bits &&& 0x7FFFFFFFFFFFFFFF

/-- A double that is not a NaN. -/
structure Double where
  bits : UInt64
  notNaN : isnan bits = false
  deriving DecidableEq

/-- The place of a double on the number line: its magnitude bits with the sign. Both zeros are at
`0`. -/
def Double.key (d : Double) : Int :=
  if d.bits < 0x8000000000000000 then d.bits.toNat
  else -(d.bits - 0x8000000000000000).toNat

instance : Preorder Double where
  le a b := a.key ≤ b.key
  lt a b := a.key < b.key
  le_refl a := Int.le_refl a.key
  le_trans _ _ _ := Int.le_trans
  lt_iff_le_not_ge _ _ := Int.lt_iff_le_and_not_ge

instance : DecidableLE Double := fun a b => inferInstanceAs (Decidable (a.key ≤ b.key))

instance : DecidableLT Double := fun a b => inferInstanceAs (Decidable (a.key < b.key))

theorem Double.le_total (a b : Double) : a ≤ b ∨ b ≤ a := Int.le_total a.key b.key

/-- The bits of the double nearest to `num / den`, ties to even; infinity beyond the range. -/
def nearestDouble (num den : Nat) : Nat :=
  if num = 0 then 0
  else
    -- `num / den` lies between `2 ^ (low + 52)` and `2 ^ (low + 54)`.
    let low : Int := (num.log2 : Int) - den.log2 - 53
    let scale (k : Int) : Nat × Nat :=
      if 0 ≤ k then (num, den * 2 ^ k.toNat) else (num * 2 ^ (-k).toNat, den)
    let k := max (-1074) (if 2 ^ 53 ≤ (scale low).1 / (scale low).2 then low + 1 else low)
    let (n, d) := scale k
    let q := n / d
    let up := d < 2 * (n % d) ∨ 2 * (n % d) = d ∧ q % 2 = 1
    -- A carry out of the mantissa moves into the exponent field.
    min ((if up then q + 1 else q) + (k + 1074).toNat * 2 ^ 52) (2047 * 2 ^ 52)

def lower (c : UInt8) : UInt8 := if 65 ≤ c && c ≤ 90 then c + 32 else c

def isHexDigit (c : UInt8) : Bool := isDigit c || (97 ≤ lower c && lower c ≤ 102)

def hexValue (digits : Bytes) : Nat :=
  digits.foldl (fun n c => 16 * n + if isDigit c then c.toNat - 48 else (lower c).toNat - 87) 0

/-- Strip a text, ignoring case. -/
def takeText (text : List Char) (s : Bytes) : Option Bytes :=
  if (s.take text.length).map lower = ascii text then some (s.drop text.length) else none

/-- Digits with an optional point: the digits, how many follow the point, and the rest. -/
def takeNumeral (digit : UInt8 → Bool) (s : Bytes) : Option (Bytes × Nat × Bytes) :=
  let whole := s.takeWhile digit
  let (frac, rest) :=
    match s.dropWhile digit with
    | 46 :: t => (t.takeWhile digit, t.dropWhile digit)
    | t => ([], t)
  if whole.isEmpty && frac.isEmpty then none else some (whole ++ frac, frac.length, rest)

/-- An optional exponent after `marker`. -/
def takeExponent (marker : UInt8) (s : Bytes) : Int × Bytes :=
  match s with
  | c :: t =>
    let (negative, t) := takeSign t
    let digits := t.takeWhile isDigit
    if lower c = marker ∧ ¬ digits.isEmpty then
      (if negative then -(decimalValue digits) else decimalValue digits, t.drop digits.length)
    else (0, s)
  | [] => (0, s)

/-- The bits of `mantissa * base ^ exponent`. -/
def scaledDouble (mantissa base : Nat) (exponent : Int) : Nat :=
  if 0 ≤ exponent then nearestDouble (mantissa * base ^ exponent.toNat) 1
  else nearestDouble mantissa (base ^ (-exponent).toNat)

/-- The unsigned forms that `strtod` accepts: the bits and the rest. -/
def takeDecimal (s : Bytes) : Option (Nat × Bytes) := do
  let (digits, frac, rest) ← takeNumeral isDigit s
  let (exponent, rest) := takeExponent 101 rest
  return (scaledDouble (decimalValue digits) 10 (exponent - frac), rest)

def takeHex (s : Bytes) : Option (Nat × Bytes) := do
  let (digits, frac, rest) ← takeNumeral isHexDigit (← takeText ['0', 'x'] s)
  let (exponent, rest) := takeExponent 112 rest
  return (scaledDouble (hexValue digits) 2 (exponent - 4 * frac), rest)

def takeInfinity (s : Bytes) : Option (Nat × Bytes) := do
  let rest ← takeText ['i', 'n', 'f'] s
  return (2047 * 2 ^ 52, (takeText ['i', 'n', 'i', 't', 'y'] rest).getD rest)

def takeNaN (s : Bytes) : Option (Nat × Bytes) := do
  let rest ← takeText ['n', 'a', 'n'] s
  let payload (c : UInt8) : Bool := isDigit c || c == 95 || (97 ≤ lower c && lower c ≤ 122)
  match rest with
  | 40 :: t =>
    match t.dropWhile payload with
    | 41 :: t => return (2047 * 2 ^ 52 + 2 ^ 51, t)
    | _ => return (2047 * 2 ^ 52 + 2 ^ 51, rest)
  | _ => return (2047 * 2 ^ 52 + 2 ^ 51, rest)

/-- `strtod(s, &endp)` in the C locale: the bits of the result and `endp - s`. -/
def strtod (s : Bytes) : UInt64 × Nat :=
  let (negative, t) := takeSign (s.dropWhile isSpace)
  match takeInfinity t <|> takeNaN t <|> takeHex t <|> takeDecimal t with
  | some (bits, rest) =>
    (.ofNat (if negative then bits + 2 ^ 63 else bits), s.length - rest.length)
  | none => (0, 0)

/-- Succeeds if the parser stops at the end of the string with a number. -/
def str2dbl (s : Bytes) : Option Double :=
  let (out, endp) := strtod s
  if h : endp = s.length ∧ isnan out = false then some ⟨out, h.2⟩ else none

end MiniRedis
