import Mathlib.Algebra.Group.Nat.Defs
import Mathlib.Data.Nat.Notation

/-! # Little-endian byte strings -/

/-- The `w` low bytes of a number, least significant first. -/
def leEncode : (w : Nat) → Nat → List UInt8
  | 0, _ => []
  | w + 1, n => .ofNat n :: leEncode w (n / 256)

/-- The number that a byte string stands for. -/
def leDecode : List UInt8 → Nat
  | [] => 0
  | b :: bs => b.toNat + 256 * leDecode bs

@[simp] theorem length_leEncode (w n : Nat) : (leEncode w n).length = w := by
  induction w generalizing n with
  | zero => rfl
  | succ w ih => simp [leEncode, ih]

theorem leDecode_leEncode {w n : Nat} (h : n < 256 ^ w) : leDecode (leEncode w n) = n := by
  induction w generalizing n with
  | zero => simp [leEncode, leDecode]; omega
  | succ w ih =>
    have hn : n / 256 < 256 ^ w := by
      rw [Nat.pow_succ] at h
      omega
    simp only [leEncode, leDecode, ih hn, UInt8.toNat_ofNat']
    omega

theorem leDecode_lt (bs : List UInt8) : leDecode bs < 256 ^ bs.length := by
  induction bs with
  | nil => simp [leDecode]
  | cons b bs ih =>
    have := b.toNat_lt
    rw [leDecode, List.length_cons, Nat.pow_succ]
    omega

theorem leEncode_leDecode (bs : List UInt8) : leEncode bs.length (leDecode bs) = bs := by
  induction bs with
  | nil => rfl
  | cons b bs ih =>
    have hb := b.toNat_lt
    have hdiv : (b.toNat + 256 * leDecode bs) / 256 = leDecode bs := by omega
    have hmod : UInt8.ofNat (b.toNat + 256 * leDecode bs) = b := by
      rw [← UInt8.toNat_inj, UInt8.toNat_ofNat']
      omega
    rw [List.length_cons, leDecode, leEncode, hdiv, hmod, ih]

theorem leEncode_leDecode_of_length {w : Nat} {bs : List UInt8} (h : bs.length = w) :
    leEncode w (leDecode bs) = bs := by
  rw [← h, leEncode_leDecode]

/-- A number of fixed width is determined by the bytes, and so is what follows it. -/
theorem leEncode_append_inj {w m n : Nat} {r r' : List UInt8} (hm : m < 256 ^ w) (hn : n < 256 ^ w)
    (h : leEncode w m ++ r = leEncode w n ++ r') : m = n ∧ r = r' := by
  obtain ⟨hbytes, hr⟩ := List.append_inj h (by rw [length_leEncode, length_leEncode])
  exact ⟨by rw [← leDecode_leEncode hm, hbytes, leDecode_leEncode hn], hr⟩
