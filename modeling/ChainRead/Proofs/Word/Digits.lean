import Mathlib.Algebra.Group.Nat.Defs
import ChainRead.Word.Operand

/-! # Numbers and the bytes that spell them

A number that fits in its width comes back from its bytes. Leading zero bytes do not count, so a
word also comes back from its bytes without them.
-/

namespace ChainRead

theorem length_littleEndian (width n : Nat) : (littleEndian width n).length = width := by
  induction width generalizing n with
  | zero => rfl
  | succ width ih => rw [littleEndian, List.length_cons, ih]

theorem length_bigEndian (width n : Nat) : (bigEndian width n).length = width := by
  rw [bigEndian, List.length_reverse, length_littleEndian]

theorem ofLittleEndian_littleEndian (width n : Nat) :
    ofLittleEndian (littleEndian width n) = n % 256 ^ width := by
  induction width generalizing n with
  | zero => rw [littleEndian, ofLittleEndian, Nat.pow_zero, Nat.mod_one]
  | succ width ih =>
    have hp : 256 ^ (width + 1) = 256 * 256 ^ width := Nat.pow_succ'
    rw [littleEndian, ofLittleEndian, ih, UInt8.toNat_ofNat', hp]
    exact Nat.mod_mul.symm

theorem ofBigEndian_bigEndian {width n : Nat} (h : n < 256 ^ width) :
    ofBigEndian (bigEndian width n) = n := by
  rw [ofBigEndian, bigEndian, List.reverse_reverse, ofLittleEndian_littleEndian,
    Nat.mod_eq_of_lt h]

theorem ofLittleEndian_lt (bytes : Bytes) : ofLittleEndian bytes < 256 ^ bytes.length := by
  induction bytes with
  | nil => exact Nat.one_pos
  | cons b bytes ih =>
    have hb := b.toNat_lt
    rw [ofLittleEndian, List.length_cons, Nat.pow_succ']
    omega

theorem ofBigEndian_lt (bytes : Bytes) : ofBigEndian bytes < 256 ^ bytes.length := by
  have h := ofLittleEndian_lt bytes.reverse
  rwa [List.length_reverse] at h

/-- The bytes that spell a number come back, with zero bytes up to the width. -/
theorem littleEndian_ofLittleEndian {bytes : Bytes} {width : Nat} (h : bytes.length ≤ width) :
    littleEndian width (ofLittleEndian bytes) =
      bytes ++ List.replicate (width - bytes.length) 0 := by
  induction width generalizing bytes with
  | zero => simp_all [littleEndian]
  | succ width ih =>
    cases bytes with
    | nil =>
      have h : littleEndian width (ofLittleEndian []) = _ := ih (Nat.zero_le _)
      simpa [littleEndian, ofLittleEndian, List.replicate_succ] using h
    | cons b bytes =>
      have hb := b.toNat_lt
      have hd : (b.toNat + 256 * ofLittleEndian bytes) / 256 = ofLittleEndian bytes := by omega
      have hm : UInt8.ofNat (b.toNat + 256 * ofLittleEndian bytes) = b := by
        apply UInt8.toNat_inj.mp
        rw [UInt8.toNat_ofNat']
        omega
      rw [ofLittleEndian, littleEndian, hd, hm, ih (Nat.le_of_succ_le_succ h)]
      simp

theorem bigEndian_ofBigEndian {bytes : Bytes} {width : Nat} (h : bytes.length ≤ width) :
    bigEndian width (ofBigEndian bytes) =
      List.replicate (width - bytes.length) 0 ++ bytes := by
  rw [← List.length_reverse] at h
  simp [bigEndian, ofBigEndian, littleEndian_ofLittleEndian h]

theorem ofLittleEndian_concat_zero (bytes : Bytes) :
    ofLittleEndian (bytes ++ [0]) = ofLittleEndian bytes := by
  induction bytes with
  | nil => rfl
  | cons b bytes ih => rw [List.cons_append, ofLittleEndian, ih, ofLittleEndian]

theorem ofBigEndian_dropZeros (bytes : Bytes) :
    ofBigEndian (bytes.dropWhile (· == 0)) = ofBigEndian bytes := by
  induction bytes with
  | nil => rfl
  | cons b bytes ih =>
    rw [List.dropWhile_cons]
    split
    · next hb =>
      rw [ih, beq_iff_eq.mp hb, ofBigEndian, ofBigEndian, List.reverse_cons,
        ofLittleEndian_concat_zero]
    · rfl

namespace Word

theorem length_toBytes (w : Word) : w.toBytes.length = 32 := length_bigEndian 32 _

theorem length_trimmed_le (w : Word) : w.trimmed.length ≤ 32 := by
  rw [← length_toBytes w]
  exact (List.dropWhile_sublist _).length_le

theorem toNat_ofBytes {bytes : Bytes} (h : bytes.length ≤ 32) :
    (ofBytes bytes).toNat = ofBigEndian bytes := by
  have hl : ofBigEndian bytes < 2 ^ 256 :=
    Nat.lt_of_lt_of_le (ofBigEndian_lt bytes) (Nat.pow_le_pow_right (n := 256) (by decide) h)
  rw [ofBytes, BitVec.toNat_ofNat, Nat.mod_eq_of_lt hl]

theorem toBytes_ofBytes {bytes : Bytes} (h : bytes.length = 32) :
    (ofBytes bytes).toBytes = bytes := by
  have hl := Nat.le_of_eq h
  rw [toBytes, toNat_ofBytes hl, bigEndian_ofBigEndian hl, h]
  rfl

theorem ofBytes_toBytes (w : Word) : ofBytes w.toBytes = w := by
  have h : w.toNat < 256 ^ 32 := w.isLt
  rw [ofBytes, toBytes, ofBigEndian_bigEndian h]
  exact BitVec.ofNat_toNat 256 w

theorem ofOperand_toBytes (w : Word) : ofOperand w.toBytes = .ok w := by
  rw [ofOperand, if_pos (Nat.le_of_eq (length_toBytes w)), ofBytes_toBytes]

theorem ofBytes_trimmed (w : Word) : ofBytes w.trimmed = w := by
  rw [ofBytes, trimmed, ofBigEndian_dropZeros]
  exact ofBytes_toBytes w

theorem trimmed_ofBytes {bytes : Bytes} (h : bytes.length ≤ 32) :
    (ofBytes bytes).trimmed = bytes.dropWhile (· == 0) := by
  have hz (n : Nat) : (List.replicate n (0 : UInt8) ++ bytes).dropWhile (· == 0) =
      bytes.dropWhile (· == 0) := by
    induction n with
    | zero => rfl
    | succ n ih => rwa [List.replicate_succ, List.cons_append, List.dropWhile_cons_of_pos rfl]
  rw [trimmed, toBytes, toNat_ofBytes h, bigEndian_ofBigEndian h, hz]

end Word

end ChainRead
