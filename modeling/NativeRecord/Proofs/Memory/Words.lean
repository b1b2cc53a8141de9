import NativeRecord.BitRange
import NativeRecord.Proofs.Memory.Bits
import NativeRecord.Proofs.Word

/-!
# Words in memory

Stores are patches with a mask, and these lemmas read a word through one: where the mask has a bit,
the stored word is found, and elsewhere what was there before (`getLsbD_word_patch`).  Whole words,
bit-fields and stores that change nothing are three instances, for the mask of all bits, for that of
a range, and for a word that agrees with the old one on the mask.

## What is here

* `View.word_patch_word`, `View.extract_patch_word` — the word and the bit-field that are found
  after a store; `View.patch_word_self` — storing bits that are there already changes nothing.
-/

set_option autoImplicit false
namespace NativeRecord

namespace View

variable {v : View} {offset width : Nat}

/-- **The word behind a masked store,** bit by bit. -/
theorem getLsbD_word_patch (hsize : offset + width ≤ v.size) (hwidth : width ≤ 8)
    (mask w : Word) (k : Nat) :
    ((v.patch (.word v.endianness offset width mask w)).word offset width).getLsbD k =
      (decide (k < 8 * width) &&
        if mask.getLsbD k then w.getLsbD k else (v.word offset width).getLsbD k) := by
  rw [getLsbD_word (by rwa [size_patch]) hwidth]
  by_cases hk : k < 8 * width
  · obtain ⟨hlow, hhigh⟩ := v.endianness.position_bounds offset hk
    have hend : (v.patch (.word v.endianness offset width mask w)).endianness = v.endianness := rfl
    rw [hend, bit_patch _ (by omega), Patch.word, v.endianness.wordBit_position hk,
      getLsbD_word hsize hwidth]
    by_cases hmask : mask.getLsbD k = true
    · simp [hlow, hhigh, hmask]
    · simp [hmask, hk]
  · simp [hk]

/-- **The stored word is found.** -/
theorem word_patch_word (hsize : offset + width ≤ v.size) (hwidth : width ≤ 8) (w : Word) :
    (v.patch (.word v.endianness offset width (BitVec.allOnes 64) w)).word offset width =
      w.truncate (8 * width) := by
  refine BitVec.eq_of_getLsbD_eq ?_
  intro k hk
  have hones : (BitVec.allOnes 64).getLsbD k = true := by
    rw [BitVec.getLsbD_allOnes, decide_eq_true hk]
  rw [getLsbD_word_patch hsize hwidth, Word.getLsbD_truncate, hones, if_pos rfl]

/-- **The bits of a stored range are found.** -/
theorem extract_patch_word (hsize : offset + width ≤ v.size) (hwidth : width ≤ 8) {range : BitRange}
    (hrange : range.first + range.width ≤ 8 * width) (bits : Word) :
    range.extract ((v.patch (.word v.endianness offset width range.mask
      (bits <<< range.first))).word offset width) = bits.truncate range.width := by
  refine BitVec.eq_of_getLsbD_eq ?_
  intro k _
  rw [BitRange.extract, BitVec.getLsbD_ushiftRight, BitVec.getLsbD_and,
    getLsbD_word_patch hsize hwidth, Word.getLsbD_truncate, BitRange.getLsbD_mask]
  by_cases hk : k < range.width
  · have h64 : range.first + k < 64 := by omega
    have hin : range.first + k < 8 * width := by omega
    have hsub : range.first + k - range.first = k := by omega
    simp only [BitVec.getLsbD_shiftLeft, hsub]
    simp [hk, h64, hin]
  · simp [hk]

/-- Storing bits of a word that are there already changes nothing. -/
theorem patch_word_self {mask w : Word} (hsize : offset + width ≤ v.size) (hwidth : width ≤ 8)
    (h : ∀ k < 8 * width, mask.getLsbD k = true →
      w.getLsbD k = (v.word offset width).getLsbD k) :
    v.patch (.word v.endianness offset width mask w) = v := by
  refine (eq_patch (.refl v) fun p _ => ?_).symm
  rw [Patch.word]
  split
  · rename_i hp
    have hk := v.endianness.wordBit_lt hp.1 hp.2.1
    rw [Option.getD_some, h _ hk hp.2.2, getLsbD_word hsize hwidth, decide_eq_true hk,
      Bool.true_and, v.endianness.position_wordBit hp.1 hp.2.1]
  · rfl

/-- A word of a narrow access has zeros above its width. -/
theorem truncate_word (hsize : offset + width ≤ v.size) (hwidth : width ≤ 8) :
    (v.word offset width).truncate (8 * width) = v.word offset width := by
  refine BitVec.eq_of_getLsbD_eq fun k _ => ?_
  rw [Word.getLsbD_truncate, getLsbD_word hsize hwidth, ← Bool.and_assoc, Bool.and_self]

end View

end NativeRecord
