import NativeRecord.Word

/-!
# Bit ranges

The bits of a backing word that a bit-field occupies.

The bits are counted from the low end of the word, whatever order bit-fields are allocated in: that
order decides which range a bit-field gets, and from there on only the range matters.  All facts
below are about single bits, since a range that reaches past the word loses what lies there.

## What is here

* `BitRange` with its mask; `BitRange.extract` and `BitRange.insert` read and replace those bits
  of a word, and leave the others alone.
-/

set_option autoImplicit false
namespace NativeRecord

/-- The bits `first`, …, `first + width - 1`, counted from the least significant one. -/
structure BitRange where
  first : Nat
  width : Nat
deriving DecidableEq, Repr

namespace BitRange

/-- The word whose bits in the range are set.  Bits past the 64th are lost. -/
def mask (r : BitRange) : Word := Word.ones r.width <<< r.first

/-- The bits of the range, moved to the low end. -/
def extract (r : BitRange) (word : Word) : Word := (word &&& r.mask) >>> r.first

/-- The word with the bits of the range replaced by the low bits of `bits`. -/
def insert (r : BitRange) (word bits : Word) : Word :=
  (word &&& ~~~r.mask) ||| ((bits <<< r.first) &&& r.mask)

/-- **Exactly the positions of the range are set in its mask.** -/
theorem getLsbD_mask (r : BitRange) (i : Nat) :
    r.mask.getLsbD i = decide (i < 64 ∧ r.first ≤ i ∧ i < r.first + r.width) := by
  rw [Bool.eq_iff_iff]
  simp only [mask, Word.ones, BitVec.getLsbD_shiftLeft, BitVec.getLsbD_ofNat,
    Nat.testBit_two_pow_sub_one, Bool.and_eq_true, Bool.not_eq_true', decide_eq_true_eq,
    decide_eq_false_iff_not]
  omega

/-- **Inserting replaces the bits of the range and no others.** -/
theorem getLsbD_insert (r : BitRange) (word bits : Word) (i : Nat) :
    (r.insert word bits).getLsbD i =
      if r.mask.getLsbD i then (bits <<< r.first).getLsbD i else word.getLsbD i := by
  simp only [insert, BitVec.getLsbD_or, BitVec.getLsbD_and, BitVec.getLsbD_not]
  by_cases hi : i < 64
  · cases r.mask.getLsbD i <;> simp [hi]
  · simp [BitVec.getLsbD_of_ge, Nat.le_of_not_lt hi]

end BitRange

end NativeRecord
