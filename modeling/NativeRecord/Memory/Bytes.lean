import NativeRecord.Platform
import NativeRecord.Word

/-!
# Words as bytes

A word is put into memory from one end or from the other.  Both orders are the same list of bytes,
read forwards or backwards, so everything is proved for the list with the least significant byte
first, and the two cases are one `reverse` apart.  Encoding keeps the low bytes and drops what lies
above; decoding up to eight bytes loses nothing.

## What is here

* `Endianness.encode` — the bytes of a word's low end in memory order, and `Endianness.decode`,
  the word that some bytes make up (`decode_encode`, `encode_decode`).
* `overwrite` — bytes written over others at an offset, with what it does to each byte
  (`getElem?_overwrite`).
-/

set_option autoImplicit false
namespace NativeRecord

/-- The low `width` bytes of a number, the least significant first. -/
def lowBytes : (width : Nat) → Nat → List Byte
  | 0, _ => []
  | width + 1, n => BitVec.ofNat 8 n :: lowBytes width (n / 256)

/-- The number whose bytes are given, the least significant first. -/
def ofLowBytes : List Byte → Nat
  | [] => 0
  | b :: bs => b.toNat + 256 * ofLowBytes bs

namespace Endianness

/-- The low `width` bytes of a word in the order in which memory holds them. -/
def encode (e : Endianness) (width : Nat) (w : Word) : List Byte :=
  match e with
  | little => lowBytes width w.toNat
  | big => (lowBytes width w.toNat).reverse

/-- The word that bytes of memory make up. -/
def decode (e : Endianness) (bytes : List Byte) : Word :=
  match e with
  | little => BitVec.ofNat 64 (ofLowBytes bytes)
  | big => BitVec.ofNat 64 (ofLowBytes bytes.reverse)

end Endianness

@[simp] theorem length_lowBytes (width n : Nat) : (lowBytes width n).length = width := by
  induction width generalizing n with
  | zero => rfl
  | succ width ih => simp [lowBytes, ih]

/-- The low bytes of a number make up its remainder. -/
theorem ofLowBytes_lowBytes (width n : Nat) :
    ofLowBytes (lowBytes width n) = n % 256 ^ width := by
  induction width generalizing n with
  | zero => simp [lowBytes, ofLowBytes, Nat.mod_one]
  | succ width ih =>
    have hpow : 256 ^ (width + 1) = 256 * 256 ^ width := by rw [Nat.pow_succ, Nat.mul_comm]
    rw [lowBytes, ofLowBytes, ih, BitVec.toNat_ofNat, hpow, Nat.mod_mul]

/-- Bytes make up a number below the power for as many. -/
theorem ofLowBytes_lt (bytes : List Byte) : ofLowBytes bytes < 256 ^ bytes.length := by
  induction bytes with
  | nil => simp [ofLowBytes]
  | cons b bs ih =>
    have hb := b.isLt
    simp only [ofLowBytes, List.length_cons, Nat.pow_succ]
    omega

/-- The bytes of a number that was made up of bytes are these. -/
theorem lowBytes_ofLowBytes (bytes : List Byte) :
    lowBytes bytes.length (ofLowBytes bytes) = bytes := by
  induction bytes with
  | nil => rfl
  | cons b bs ih =>
    have hb : b.toNat < 256 := b.isLt
    have hdiv : (b.toNat + 256 * ofLowBytes bs) / 256 = ofLowBytes bs := by omega
    simp only [List.length_cons, lowBytes, ofLowBytes, hdiv, ih, List.cons.injEq, and_true]
    apply BitVec.eq_of_toNat_eq
    simp only [BitVec.toNat_ofNat]
    omega

namespace Endianness

@[simp] theorem length_encode (e : Endianness) (width : Nat) (w : Word) :
    (e.encode width w).length = width := by
  cases e <;> simp [encode]

/-- **What was encoded is decoded to its low bytes.** -/
theorem decode_encode (e : Endianness) (width : Nat) (w : Word) :
    e.decode (e.encode width w) = w.truncate (8 * width) := by
  have hpow : (256 : Nat) ^ width = 2 ^ (8 * width) := by rw [Nat.pow_mul]
  have hlow : BitVec.ofNat 64 (ofLowBytes (lowBytes width w.toNat)) = w.truncate (8 * width) := by
    apply BitVec.eq_of_toNat_eq
    rw [ofLowBytes_lowBytes, hpow, BitVec.toNat_ofNat, Word.toNat_truncate]
    rcases Nat.le_total (8 * width) 64 with h | h
    · rw [Nat.min_eq_left h]
      exact Nat.mod_eq_of_lt (Nat.lt_of_lt_of_le (Nat.mod_lt _ (Nat.two_pow_pos _))
        (Nat.pow_le_pow_right (by decide) h))
    · rw [Nat.min_eq_right h]
      have hw : w.toNat < 2 ^ (8 * width) :=
        Nat.lt_of_lt_of_le w.isLt (Nat.pow_le_pow_right (by decide) h)
      rw [Nat.mod_eq_of_lt hw]
  cases e with
  | little => exact hlow
  | big => simp only [decode, encode, List.reverse_reverse]; exact hlow

/-- **What was decoded is encoded to the same bytes.** -/
theorem encode_decode (e : Endianness) {bytes : List Byte} (h : bytes.length ≤ 8) :
    e.encode bytes.length (e.decode bytes) = bytes := by
  have hlow : ∀ l : List Byte, l.length ≤ 8 →
      lowBytes l.length (BitVec.ofNat 64 (ofLowBytes l)).toNat = l := by
    intro l hl
    have hlt : ofLowBytes l < 2 ^ 64 :=
      Nat.lt_of_lt_of_le (ofLowBytes_lt l)
        (show 256 ^ l.length ≤ 256 ^ 8 from Nat.pow_le_pow_right (by decide) hl)
    rw [BitVec.toNat_ofNat, Nat.mod_eq_of_lt hlt, lowBytes_ofLowBytes]
  cases e with
  | little => exact hlow bytes h
  | big =>
    have := hlow bytes.reverse (by simpa using h)
    simp only [List.length_reverse] at this
    simp only [encode, decode, this, List.reverse_reverse]

end Endianness

/-! ## Writing over bytes

A store replaces bytes one by one.  Bytes past the end of the array are dropped. -/

/-- The bytes with others written over them from an offset on. -/
def overwrite {α : Type} (bytes : Array α) (offset : Nat) : List α → Array α
  | [] => bytes
  | b :: bs => overwrite (bytes.setIfInBounds offset b) (offset + 1) bs

@[simp] theorem size_overwrite {α : Type} (bytes : Array α) (offset : Nat) (new : List α) :
    (overwrite bytes offset new).size = bytes.size := by
  induction new generalizing bytes offset with
  | nil => rfl
  | cons b bs ih => rw [overwrite, ih, Array.size_setIfInBounds]

/-- **Writing replaces the bytes it covers and no others.** -/
theorem getElem?_overwrite {α : Type} {bytes : Array α} {offset : Nat} {new : List α}
    (h : offset + new.length ≤ bytes.size) (i : Nat) :
    (overwrite bytes offset new)[i]? =
      if offset ≤ i ∧ i < offset + new.length then new[i - offset]? else bytes[i]? := by
  induction new generalizing bytes offset with
  | nil => rw [overwrite, if_neg (by simp only [List.length_nil]; omega)]
  | cons b bs ih =>
    simp only [List.length_cons] at h ⊢
    rw [overwrite, ih (by rw [Array.size_setIfInBounds]; omega), Array.getElem?_setIfInBounds]
    rcases Nat.lt_trichotomy i offset with hi | hi | hi
    · rw [if_neg (by omega), if_neg (by omega), if_neg (by omega)]
    · subst hi
      rw [if_neg (by omega), if_pos rfl, if_pos (by omega), if_pos (by omega), Nat.sub_self,
        List.getElem?_cons_zero]
    · obtain ⟨k, rfl⟩ : ∃ k, i = offset + 1 + k := ⟨i - (offset + 1), by omega⟩
      have hk : offset + 1 + k - offset = k + 1 := by omega
      by_cases hin : k < bs.length
      · rw [if_pos (by omega), if_pos (by omega), hk, List.getElem?_cons_succ]
        congr 1
        omega
      · rw [if_neg (by omega), if_neg (by omega), if_neg (by omega)]

end NativeRecord
