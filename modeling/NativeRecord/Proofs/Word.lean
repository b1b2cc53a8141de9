import NativeRecord.Word

/-!
# The low bits of a word

A word carries a field in its low bits, and two views of these are used in turn.  As a number,
cutting a word off is a remainder; bit by bit, it is a conjunction with `i < bits`.  Statements that
go through stores and masks need the bits, and statements about values need the number.

Filling up the sign is written with shifts: up until the field is at the top, and down again with
the sign.  `signExtend_eq` shows once that this is the extension of the low bits as the library of
bit vectors has it, and the rest follows from what is known there.

## What is here

* What `Word.truncate` keeps, as a number (`truncate_eq_ofNat`) and bit by bit (`getLsbD_truncate`).
* `Word.signExtend_eq` — filling up the sign; it looks at the low bits only (`signExtend_truncate`)
  and keeps them (`truncate_signExtend`), and so it does their number (`toInt_signExtend`).
-/

set_option autoImplicit false
namespace NativeRecord

namespace Word

/-- The low bits as a number are a remainder. -/
theorem truncate_eq_ofNat (w : Word) (bits : Nat) :
    w.truncate bits = BitVec.ofNat 64 (w.toNat % 2 ^ bits) := by
  apply BitVec.eq_of_toNat_eq
  rw [toNat_truncate, BitVec.toNat_ofNat]
  rcases Nat.le_total bits 64 with h | h
  · rw [Nat.min_eq_left h, Nat.mod_eq_of_lt (Nat.lt_of_lt_of_le
      (Nat.mod_lt _ (Nat.two_pow_pos _)) (Nat.pow_le_pow_right (by decide) h))]
  · have hw : w.toNat < 2 ^ bits :=
      Nat.lt_of_lt_of_le w.isLt (Nat.pow_le_pow_right (by decide) h)
    rw [Nat.min_eq_right h, Nat.mod_eq_of_lt hw]

/-- The shorter of two cuts is what matters. -/
theorem truncate_truncate_of_le (w : Word) {m n : Nat} (h : n ≤ m) :
    (w.truncate m).truncate n = w.truncate n := by
  apply BitVec.eq_of_toNat_eq
  simp only [toNat_truncate]
  exact Nat.mod_mod_of_dvd _ (Nat.pow_dvd_pow 2 (by omega))

/-- Bit by bit, a cut keeps what lies below it. -/
theorem getLsbD_truncate (w : Word) (bits i : Nat) :
    (w.truncate bits).getLsbD i = (decide (i < bits) && w.getLsbD i) := by
  simp only [truncate, ones, BitVec.getLsbD_and, BitVec.getLsbD_ofNat, Nat.testBit_two_pow_sub_one]
  by_cases hi : i < 64
  · have hmin : i < min bits 64 ↔ i < bits := by omega
    simp only [hi, hmin, decide_true, Bool.true_and, Bool.and_comm]
  · simp only [BitVec.getLsbD_of_ge w i (by omega), Bool.false_and, Bool.and_false]

/-- A word and its low bits have the same low bits. -/
theorem setWidth_truncate (w : Word) (bits : Nat) :
    (w.truncate bits).setWidth bits = w.setWidth bits := by
  refine BitVec.eq_of_getLsbD_eq fun i hi => ?_
  simp [getLsbD_truncate, hi]

/-- **Filling up the sign reads the low bits as a two's complement number.** -/
theorem signExtend_eq (w : Word) {bits : Nat} (hpos : 0 < bits) (h64 : bits ≤ 64) :
    w.signExtend bits = .ofBitVec ((w.setWidth bits).signExtend 64) := by
  rw [signExtend]
  split
  · obtain rfl : bits = 64 := by omega
    exact congrArg Int64.ofBitVec (BitVec.signExtend_eq w).symm
  · rename_i hbits
    refine congrArg Int64.ofBitVec (BitVec.eq_of_getLsbD_eq fun i hi => ?_)
    rw [BitVec.getLsbD_sshiftRight, BitVec.getLsbD_signExtend, BitVec.msb_eq_getLsbD_last,
      BitVec.msb_eq_getLsbD_last]
    simp only [BitVec.getLsbD_shiftLeft, BitVec.getLsbD_setWidth]
    by_cases hlow : i < bits
    · have hsub : 64 - bits + i - (64 - bits) = i := by omega
      have hlt : 64 - bits + i < 64 := by omega
      have hge : ¬ 64 - bits + i < 64 - bits := by omega
      simp [hi, hlow, hsub, hlt, hge]
    · have hsub : 64 - 1 - (64 - bits) = bits - 1 := by omega
      have hlt : ¬ 64 - bits + i < 64 := by omega
      have hge : ¬ 64 - 1 < 64 - bits := by omega
      have hlast : bits - 1 < bits := by omega
      simp [hi, hlow, hsub, hlt, hge, hlast]

/-- **Filling up the sign keeps the value modulo the width,** as the nearest number to zero. -/
theorem toInt_signExtend (w : Word) {bits : Nat} (hpos : 0 < bits) (h64 : bits ≤ 64) :
    (w.signExtend bits).toInt = (w.toNat : Int).bmod (2 ^ bits) := by
  rw [signExtend_eq w hpos h64, Int64.toInt_ofBitVec, BitVec.toInt_signExtend_of_le h64,
    BitVec.toInt_setWidth]

/-- Filling up the sign looks at the low bits only. -/
theorem signExtend_truncate (w : Word) {bits : Nat} (hpos : 0 < bits) (h64 : bits ≤ 64) :
    (w.truncate bits).signExtend bits = w.signExtend bits := by
  rw [signExtend_eq _ hpos h64, signExtend_eq _ hpos h64, setWidth_truncate]

/-- Filling up the sign keeps the low bits. -/
theorem truncate_signExtend (w : Word) (bits : Nat) :
    Word.truncate (w.signExtend bits).toBitVec bits = w.truncate bits := by
  refine BitVec.eq_of_getLsbD_eq fun i hi => ?_
  rw [getLsbD_truncate, getLsbD_truncate, signExtend]
  by_cases hlow : i < bits
  · refine congrArg (decide _ && ·) ?_
    split
    · rfl
    · have hlt : 64 - bits + i < 64 := by omega
      have hge : ¬ 64 - bits + i < 64 - bits := by omega
      have hsub : 64 - bits + i - (64 - bits) = i := by omega
      show ((w <<< (64 - bits)).sshiftRight (64 - bits)).getLsbD i = w.getLsbD i
      rw [BitVec.getLsbD_sshiftRight]
      simp [hi, hlt, hge, hsub]
  · simp [hlow]

end Word

end NativeRecord
