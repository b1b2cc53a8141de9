import NativeRecord.CoreInstances

/-!
# Machine words

Memory moves words of up to 64 bits; what a field holds is the low bits of one, read with or
without a sign.

Words of all widths share one type.  A narrow access zeroes what lies above its width, and this is
kept as an invariant of the words that memory gives, not in the types: bit-fields, pointers and
numbers of different widths are cut off and filled up in one way each.

## What is here

* `Word`, `Byte`.
* `Word.truncate` — the low bits; `Word.signExtend` — the low bits as a two's complement number.
-/

set_option autoImplicit false
namespace NativeRecord

/-- Eight bits of memory. -/
abbrev Byte := BitVec 8

/-- The bits of one access, with zeros above the accessed width. -/
abbrev Word := BitVec 64

namespace Word

/-- The word whose low `bits` bits are set; all of them from 64 on. -/
def ones (bits : Nat) : Word := BitVec.ofNat 64 (2 ^ min bits 64 - 1)

/-- Keeps the low `bits` bits. -/
def truncate (w : Word) (bits : Nat) : Word := w &&& ones bits

/-- The low `bits` bits as a two's complement number.  No bits, or 64 and more, leave the word as
it is. -/
def signExtend (w : Word) (bits : Nat) : Int64 :=
  if bits = 0 ∨ 64 ≤ bits then .ofBitVec w
  else .ofBitVec ((w <<< (64 - bits)).sshiftRight (64 - bits))

theorem toNat_ones (bits : Nat) : (ones bits).toNat = 2 ^ min bits 64 - 1 := by
  have h : 2 ^ min bits 64 ≤ 2 ^ 64 := Nat.pow_le_pow_right (by decide) (Nat.min_le_right _ _)
  have hpos : 0 < 2 ^ min bits 64 := Nat.two_pow_pos _
  simp only [ones, BitVec.toNat_ofNat]
  omega

/-- **Truncation keeps the value modulo the width.** -/
theorem toNat_truncate (w : Word) (bits : Nat) :
    (w.truncate bits).toNat = w.toNat % 2 ^ min bits 64 := by
  rw [truncate, BitVec.toNat_and, toNat_ones, Nat.and_two_pow_sub_one_eq_mod]

@[simp] theorem truncate_of_le (w : Word) {bits : Nat} (h : 64 ≤ bits) : w.truncate bits = w := by
  apply BitVec.eq_of_toNat_eq
  rw [toNat_truncate, Nat.min_eq_right h, Nat.mod_eq_of_lt w.isLt]

@[simp] theorem truncate_truncate (w : Word) (bits : Nat) :
    (w.truncate bits).truncate bits = w.truncate bits := by
  simp only [truncate, BitVec.and_assoc, BitVec.and_self]

end Word

end NativeRecord
