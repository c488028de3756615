import Mathlib.Algebra.Group.Nat.Defs
import ChainRead.Word.Operation

/-! # Words as numbers

A word operation gives the word of a number that is a plain function of its operands' numbers. The
power is the one that cannot be formed first and reduced then: it is taken by repeated squaring,
modulo 2^256 throughout.
-/

namespace ChainRead

/-- The number that an operation gives for two numbers below 2^256. -/
def BinaryOp.onNumbers : BinaryOp → Nat → Nat → Nat
  | plus, a, b => (a + b) % 2 ^ 256
  | times, a, b => a * b % 2 ^ 256
  | divide, a, b => if b = 0 then 0 else a / b
  | mod, a, b => if b = 0 then 0 else a % b
  | pow, a, b => a ^ b % 2 ^ 256
  | and, a, b => a &&& b
  | or, a, b => a ||| b
  | xor, a, b => a ^^^ b
  | shiftLeft, a, b => a * 2 ^ b % 2 ^ 256
  | shiftRight, a, b => a / 2 ^ b
  | eq, a, b => if a = b then 1 else 0
  | lt, a, b => if a < b then 1 else 0
  | gt, a, b => if a > b then 1 else 0

/-- The number that an operation gives for a number below 2^256. -/
def UnaryOp.onNumber : UnaryOp → Nat → Nat
  | not, a => 2 ^ 256 - 1 - a
  | isZero, a => if a = 0 then 1 else 0

namespace Word

theorem toNat_ofBool (b : Bool) : (ofBool b).toNat = if b then 1 else 0 := by
  cases b <;> rfl

/-- Squaring the base halves the exponent, and its lowest bit is one more factor. -/
theorem toNat_powBits {bits exponent : Nat} (base : Word) (h : exponent < 2 ^ bits) :
    (powBits bits base exponent).toNat = base.toNat ^ exponent % 2 ^ 256 := by
  induction bits generalizing base exponent with
  | zero =>
    obtain rfl : exponent = 0 := Nat.lt_one_iff.mp h
    rw [Nat.pow_zero]
    rfl
  | succ bits ih =>
    have half : exponent / 2 < 2 ^ bits := by
      rw [Nat.pow_succ] at h
      omega
    have rest : (powBits bits (base * base) (exponent / 2)).toNat =
        base.toNat ^ (2 * (exponent / 2)) % 2 ^ 256 := by
      rw [ih _ half, BitVec.toNat_mul, ← Nat.pow_mod, Nat.pow_mul, Nat.pow_two]
    rw [powBits]
    split
    · next odd =>
      have he : 2 * (exponent / 2) + 1 = exponent := by omega
      rw [BitVec.toNat_mul, rest, Nat.mul_mod_mod, ← Nat.pow_succ', Nat.succ_eq_add_one, he]
    · next even =>
      have he : 2 * (exponent / 2) = exponent := by omega
      rw [rest, he]

theorem toNat_pow (base exponent : Word) :
    (pow base exponent).toNat = base.toNat ^ exponent.toNat % 2 ^ 256 :=
  toNat_powBits base exponent.isLt

variable (a b : Word)

theorem toNat_shiftLeft_guarded :
    (if b.toNat < 256 then a <<< b.toNat else 0).toNat = a.toNat * 2 ^ b.toNat % 2 ^ 256 := by
  split
  · rw [BitVec.toNat_shiftLeft, Nat.shiftLeft_eq]
  · next h =>
    have far : 2 ^ 256 ∣ a.toNat * 2 ^ b.toNat :=
      Nat.dvd_mul_left_of_dvd (Nat.pow_dvd_pow 2 (Nat.le_of_not_lt h)) _
    rw [Nat.mod_eq_zero_of_dvd far]
    rfl

theorem toNat_shiftRight_guarded :
    (if b.toNat < 256 then a >>> b.toNat else 0).toNat = a.toNat / 2 ^ b.toNat := by
  split
  · rw [BitVec.toNat_ushiftRight, Nat.shiftRight_eq_div_pow]
  · next h =>
    have far : a.toNat < 2 ^ b.toNat :=
      Nat.lt_of_lt_of_le a.isLt (Nat.pow_le_pow_right Nat.two_pos (Nat.le_of_not_lt h))
    rw [Nat.div_eq_of_lt far]
    rfl

end Word

open Word

theorem BinaryOp.toNat_apply (op : BinaryOp) (a b : Word) :
    (op.apply a b).toNat = op.onNumbers a.toNat b.toNat := by
  have zero : b = 0 ↔ b.toNat = 0 := BitVec.toNat_inj.symm
  cases op with
  | plus => exact BitVec.toNat_add a b
  | times => exact BitVec.toNat_mul a b
  | divide =>
    simp only [apply, onNumbers, zero]
    split
    · rfl
    · exact BitVec.toNat_udiv
  | mod =>
    simp only [apply, onNumbers, zero]
    split
    · rfl
    · exact BitVec.toNat_umod
  | pow => exact toNat_pow a b
  | and => exact BitVec.toNat_and a b
  | or => exact BitVec.toNat_or a b
  | xor => exact BitVec.toNat_xor a b
  | shiftLeft => exact toNat_shiftLeft_guarded a b
  | shiftRight => exact toNat_shiftRight_guarded a b
  | eq => simp [apply, onNumbers, toNat_ofBool, ← BitVec.toNat_inj]
  | lt => simp [apply, onNumbers, toNat_ofBool, BitVec.lt_def]
  | gt => simp [apply, onNumbers, toNat_ofBool, BitVec.lt_def]

theorem UnaryOp.toNat_apply (op : UnaryOp) (a : Word) :
    (op.apply a).toNat = op.onNumber a.toNat := by
  cases op with
  | not => exact BitVec.toNat_not
  | isZero => simp [apply, onNumber, toNat_ofBool, ← BitVec.toNat_inj]

end ChainRead
