import Mathlib.Algebra.BigOperators.Intervals
import Mathlib.Algebra.BigOperators.Ring.Finset
import Mathlib.Tactic.Ring
import NativeRecord.Proofs.Memory.Words
import NativeRecord.Proofs.Machine.Memory

/-!
# The laws of a buffer

A buffer that a program owns is the memory behind most records.  No access to it is made to fail,
and it moves blocks in one piece.  What is stored in it is found again, nothing else changes, and
other memory that knows single accesses only could stand in for it, as long as there is a block at
all: an empty block is moved byte by byte at every offset, and in one piece only inside the buffer.

The laws are stated without bits and without patches, in the terms of someone who loads and stores:
bytes, and words as sums of bytes that each count as a power of 256.  Which power it is, the order
of the bytes decides, and this is all that depends on it (`Endianness.rank`).  The laws of single
accesses need no more of a view than that the access in question is not made to fail.  Those of
blocks compare a block with a row of single accesses, and the metered versions of the rows say that
no offset in them wraps.

## What is here

* `Endianness.rank` — what a byte of a word counts; `Endianness.toNat_decode` — the word as the sum
  of its bytes, and `Endianness.getElem?_encode` — the bytes of a word.
* `View.IsBuffer`, `View.StoreLaws`, and `View.IsBuffer.storeLaws` — buffers keep the laws.
-/

set_option autoImplicit false
namespace NativeRecord

/-! ## The bytes of a word

A word and its bytes as numbers: the sum in one direction, and a quotient modulo 256 in the other.
-/

/-- How much byte `i` of a word of `width` bytes counts: the power of 256 that it stands for. -/
def Endianness.rank (e : Endianness) (width i : Nat) : Nat :=
  match e with
  | little => i
  | big => width - 1 - i

/-- Bytes with the low one first make up the number that has them as its digits. -/
theorem ofLowBytes_eq_sum (bytes : List Byte) :
    ofLowBytes bytes = ∑ i ∈ Finset.range bytes.length, (bytes[i]?.getD 0).toNat * 256 ^ i := by
  induction bytes with
  | nil => rfl
  | cons b bytes ih =>
    rw [ofLowBytes, ih, List.length_cons, Finset.sum_range_succ', Finset.mul_sum, Nat.add_comm]
    refine congrArg₂ (· + ·) (Finset.sum_congr rfl fun i _ => ?_) ?_
    · rw [List.getElem?_cons_succ, Nat.pow_succ]
      ring
    · simp

namespace Endianness

/-- **The word that bytes make up counts each of them by its rank.** -/
theorem toNat_decode (e : Endianness) {bytes : List Byte} (h : bytes.length ≤ 8) :
    (e.decode bytes).toNat =
      ∑ i ∈ Finset.range bytes.length, (bytes[i]?.getD 0).toNat * 256 ^ e.rank bytes.length i := by
  have hlow (l : List Byte) (hl : l.length ≤ 8) : (BitVec.ofNat 64 (ofLowBytes l)).toNat =
      ∑ i ∈ Finset.range l.length, (l[i]?.getD 0).toNat * 256 ^ i := by
    rw [← ofLowBytes_eq_sum, BitVec.toNat_ofNat]
    exact Nat.mod_eq_of_lt (Nat.lt_of_lt_of_le (ofLowBytes_lt l)
      (Nat.pow_le_pow_right (by decide) hl))
  cases e with
  | little => exact hlow bytes h
  | big =>
    rw [decode, hlow _ (by rwa [List.length_reverse]), List.length_reverse,
      ← Finset.sum_range_reflect]
    refine Finset.sum_congr rfl fun i hi => ?_
    rw [Finset.mem_range] at hi
    rw [List.getElem?_reverse (by omega), rank]
    congr 4
    omega

/-- The bytes that a word is stored as are its digits, each at its rank. -/
theorem getElem?_encode (e : Endianness) {width i : Nat} (w : Word) (hi : i < width) :
    (e.encode width w)[i]? = some (BitVec.ofNat 8 (w.toNat / 256 ^ e.rank width i)) := by
  cases e with
  | little => exact getElem?_lowBytes _ hi
  | big =>
    rw [encode, List.getElem?_reverse (by rwa [length_lowBytes]), length_lowBytes,
      getElem?_lowBytes _ (by omega), rank]

end Endianness

namespace View

/-! ## Single accesses

A store that succeeds replaces a run of bytes, and one that fails replaces none. -/

section Accesses

variable {v w : View} {offset width : Nat} {x : Word}

/-- A store that fails changes nothing. -/
theorem store_eq_error {e : AccessError} (h : v.store offset width x = (.error e, w)) : w = v := by
  rw [store] at h
  rcases hcheck : v.checkStore offset width with e' | ⟨⟩ <;> rw [hcheck] at h <;> cases h
  rfl

/-- Nor does a block that cannot be stored in one piece change anything; byte by byte, the bytes
before the failure would stay. -/
theorem storeBlock_eq_error (hblocks : v.bytewise = false) {new : List Byte} {e : AccessError}
    (h : v.storeBlock offset new = (.error e, w)) : w = v := by
  rw [storeBlock, hblocks] at h
  rcases hcheck : v.checkSpan offset new.length with e' | ⟨⟩ <;> rw [hcheck] at h <;> cases h
  rfl

theorem fillBlock_eq_error (hblocks : v.bytewise = false) {length : Nat} {b : Byte}
    {e : AccessError} (h : v.fillBlock offset length b = (.error e, w)) : w = v := by
  rw [fillBlock, hblocks] at h
  rcases hcheck : v.checkSpan offset length with e' | ⟨⟩ <;> rw [hcheck] at h <;> cases h
  rfl

/-- A store that passes its checks puts the bytes of the word in place. -/
theorem store_eq_ok_iff : v.store offset width x = (.ok (), w) ↔
    v.checkStore offset width = .ok () ∧ v.put offset (v.endianness.encode width x) = w := by
  rw [store]
  rcases v.checkStore offset width with e | ⟨⟩
  · constructor
    · intro h
      cases h
    · rintro ⟨h, -⟩
      cases h
  · exact ⟨fun h => ⟨rfl, congrArg Prod.snd h⟩, fun h => congrArg (Prod.mk _) h.2⟩

/-- **A stored word is loaded again,** cut to the width. -/
theorem load_of_store (hreads : v.readFails offset = false)
    (h : v.store offset width x = (.ok (), w)) :
    w.load offset width = .ok (x.truncate (8 * width)) := by
  have hcheck := (store_eq_ok_iff.1 h).1
  obtain ⟨-, hwidth, hsize⟩ := checkStore_eq_ok_iff.1 hcheck
  rw [store_eq, hcheck] at h
  obtain rfl := congrArg Prod.snd h
  exact load_eq_ok_iff.2 ⟨hreads, hwidth, by rwa [size_patch], word_patch_word hsize hwidth.le x⟩

/-- Storing what was loaded changes nothing. -/
theorem store_of_load (hwrites : v.writeFails offset = false) (h : v.load offset width = .ok x) :
    v.store offset width x = (.ok (), v) := by
  obtain ⟨-, hwidth, hsize, rfl⟩ := load_eq_ok_iff.1 h
  rw [store_eq, checkStore_eq_ok_iff.2 ⟨hwrites, hwidth, hsize⟩]
  exact congrArg (Prod.mk _) (patch_word_self hsize hwidth.le fun _ _ _ => rfl)

/-- **A store changes the bytes it covers and no others.** -/
theorem getElem?_of_store (h : v.store offset width x = (.ok (), w)) (i : Nat) :
    w.bytes[i]? = if offset ≤ i ∧ i < offset + width then
      some (BitVec.ofNat 8 (x.toNat / 256 ^ v.endianness.rank width (i - offset)))
    else v.bytes[i]? := by
  obtain ⟨hcheck, rfl⟩ := store_eq_ok_iff.1 h
  have hsize := (checkStore_eq_ok_iff.1 hcheck).2.2
  rw [put, getElem?_overwrite (by rwa [Endianness.length_encode]), Endianness.length_encode]
  split
  · rw [Endianness.getElem?_encode _ _ (by omega)]
  · rfl

/-- The word of one byte is the byte. -/
theorem toNat_word_one {i : Nat} (hi : offset + i + 1 ≤ v.size) :
    (v.word (offset + i) 1).toNat = (v.bytes[offset + i]?.getD 0).toNat := by
  have hlength : (v.slice (offset + i) 1).length = 1 := length_slice hi
  have hrank : v.endianness.rank 1 0 = 0 := by cases v.endianness <;> rfl
  rw [word, Endianness.toNat_decode _ (by omega), hlength, Finset.sum_range_one, hrank,
    getElem?_slice v Nat.one_pos]
  simp

/-- **The word that is loaded is made up of the bytes that are,** in the byte order of the view. -/
theorem load_eq_ok_iff_bytes (hreads : ∀ offset, v.readFails offset = false)
    (hwidth : AccessWidth width) : v.load offset width = .ok x ↔
      ∃ b : Nat → Word, (∀ i < width, v.load (offset + i) 1 = .ok (b i)) ∧
        x.toNat =
          ∑ i ∈ Finset.range width, (b i).toNat * 256 ^ v.endianness.rank width i := by
  have hword (hsize : offset + width ≤ v.size) : (v.word offset width).toNat =
      ∑ i ∈ Finset.range width,
        (v.word (offset + i) 1).toNat * 256 ^ v.endianness.rank width i := by
    have hlength := length_slice hsize
    rw [word, Endianness.toNat_decode _ (by rw [hlength]; exact hwidth.le), hlength]
    refine Finset.sum_congr rfl fun i hi => ?_
    rw [Finset.mem_range] at hi
    rw [toNat_word_one (by omega), getElem?_slice v hi]
  constructor
  · intro h
    obtain ⟨-, -, hsize, rfl⟩ := load_eq_ok_iff.1 h
    exact ⟨fun i => v.word (offset + i) 1,
      fun i hi => load_eq_ok_iff.2 ⟨hreads _, .inl rfl, by omega, rfl⟩, hword hsize⟩
  · rintro ⟨b, hbytes, hsum⟩
    have hpos : 0 < width := by rcases hwidth with rfl | rfl | rfl | rfl <;> decide
    -- The last byte is there, so all of the word is.
    have hsize : offset + width ≤ v.size := by
      have := (load_eq_ok_iff.1 (hbytes (width - 1) (by omega))).2.2.1
      omega
    refine load_eq_ok_iff.2 ⟨hreads _, hwidth, hsize, BitVec.eq_of_toNat_eq ?_⟩
    rw [hword hsize, hsum]
    refine Finset.sum_congr rfl fun i hi => ?_
    rw [(load_eq_ok_iff.1 (hbytes i (Finset.mem_range.1 hi))).2.2.2]

end Accesses

/-! ## Buffers

In a buffer an access is refused for its width or its bounds, and for nothing else. -/

/-- A buffer that a program owns: no access is made to fail, blocks are moved in one piece, and
addresses have 4 or 8 bytes. -/
structure IsBuffer (v : View) : Prop where
  reads : ∀ offset, v.readFails offset = false
  writes : ∀ offset, v.writeFails offset = false
  blocks : v.bytewise = false
  addresses : v.pointerWidth = 4 ∨ v.pointerWidth = 8

/-- What storing and loading have to do with each other, and blocks with single accesses. -/
structure StoreLaws (v : View) : Prop where
  /-- A word is stored if the view moves words of this width and the bytes lie in it. -/
  stores : ∀ offset width x, (v.store offset width x).1 = .ok () ↔
    AccessWidth width ∧ offset + width ≤ v.size
  loads : ∀ offset width, (∃ x, v.load offset width = .ok x) ↔
    AccessWidth width ∧ offset + width ≤ v.size
  /-- A load finds what was stored before, cut to the width. -/
  found : ∀ offset width x w, v.store offset width x = (.ok (), w) →
    ∃ y, w.load offset width = .ok y ∧ y.toNat = x.toNat % 2 ^ (8 * width)
  /-- The bytes of the word are stored in the view's order, and nothing else changes. -/
  changes : ∀ offset width x w, v.store offset width x = (.ok (), w) → v.Alike w ∧
    ∀ i : Nat, w.bytes[i]? = if offset ≤ i ∧ i < offset + width then
      some (BitVec.ofNat 8 (x.toNat / 256 ^ v.endianness.rank width (i - offset)))
    else v.bytes[i]?
  /-- Storing what was loaded changes nothing. -/
  restores : ∀ offset width x, v.load offset width = .ok x → v.store offset width x = (.ok (), v)
  /-- A word is made up of the bytes that single loads find. -/
  combines : ∀ offset width x, AccessWidth width → (v.load offset width = .ok x ↔
    ∃ b : Nat → Word, (∀ i < width, v.load (offset + i) 1 = .ok (b i)) ∧
      x.toNat = ∑ i ∈ Finset.range width, (b i).toNat * 256 ^ v.endianness.rank width i)
  /-- An address is found again, cut to the view's pointer width. -/
  addresses : ∀ offset a,
    ((v.storeAddress offset a).1 = .ok () ↔ offset + v.pointerWidth ≤ v.size) ∧
    ∀ w, v.storeAddress offset a = (.ok (), w) →
      w.loadAddress offset = .ok (a.truncate v.pointerWidth)
  /-- No operation that fails leaves a trace. -/
  failures : ∀ offset e w,
    (∀ width x, v.store offset width x = (.error e, w) → w = v) ∧
    (∀ a, v.storeAddress offset a = (.error e, w) → w = v) ∧
    (∀ new, v.storeBlock offset new = (.error e, w) → w = v) ∧
    ∀ length b, v.fillBlock offset length b = (.error e, w) → w = v
  /-- A block that is not empty is moved in one piece exactly if it is byte by byte, and to the same
  effect. -/
  blocks : ∀ offset,
    (∀ length bytes, 0 < length → (v.loadBlock offset length = .ok bytes ↔
      v.loadEach [] offset length = .ok bytes)) ∧
    (∀ new w, new ≠ [] → (v.storeBlock offset new = (.ok (), w) ↔
      v.storeEach offset new = (.ok (), w))) ∧
    ∀ length b w, 0 < length → (v.fillBlock offset length b = (.ok (), w) ↔
      v.fillEach offset b length = (.ok (), w))
  /-- On a machine that has the size of the view, all this holds from its last offset on too: checks
  refuse sums that it does not have, and going byte by byte it never forms one. -/
  machine : ∀ limit : SizeLimit, limit.Admits v.size → ∀ offset, limit.Admits offset →
    (∀ length, Metered.checkSpan limit v offset length = v.checkSpan offset length) ∧
    (∀ length, Metered.loadEach limit v offset length = some (v.loadEach [] offset length)) ∧
    (∀ new, Metered.storeEach limit v offset new = some (v.storeEach offset new)) ∧
    ∀ length b, Metered.fillEach limit v offset length b = some (v.fillEach offset b length)

namespace IsBuffer

variable {v : View}

/-- Whether a word can be stored does not depend on the word. -/
theorem store_fst_eq_ok_iff (h : v.IsBuffer) {offset width : Nat} {x : Word} :
    (v.store offset width x).1 = .ok () ↔ AccessWidth width ∧ offset + width ≤ v.size := by
  have hcheck : v.checkStore offset width = .ok () ↔
      AccessWidth width ∧ offset + width ≤ v.size := by
    rw [checkStore_eq_ok_iff, h.writes, eq_self, true_and]
  rw [← hcheck, store]
  rcases v.checkStore offset width with e | ⟨⟩
  · constructor <;> intro h <;> cases h
  · exact ⟨fun _ => rfl, fun _ => rfl⟩

theorem accessWidth_pointerWidth (h : v.IsBuffer) : AccessWidth v.pointerWidth :=
  .inr (.inr h.addresses)

/-- **Buffers keep the laws of loading and storing.** -/
theorem storeLaws (h : v.IsBuffer) : v.StoreLaws where
  stores _ _ _ := h.store_fst_eq_ok_iff
  loads offset width := by
    constructor
    · rintro ⟨_, hload⟩
      obtain ⟨-, hwidth, hsize, -⟩ := load_eq_ok_iff.1 hload
      exact ⟨hwidth, hsize⟩
    · rintro ⟨hwidth, hsize⟩
      exact ⟨v.word offset width, load_eq_ok_iff.2 ⟨h.reads offset, hwidth, hsize, rfl⟩⟩
  found offset width x w hstore := by
    obtain ⟨-, hwidth, -⟩ := checkStore_eq_ok_iff.1 (store_eq_ok_iff.1 hstore).1
    have := hwidth.le
    exact ⟨_, load_of_store (h.reads offset) hstore, by
      rw [Word.toNat_truncate, Nat.min_eq_left (by omega)]⟩
  changes offset width x w hstore := by
    refine ⟨?_, getElem?_of_store hstore⟩
    obtain ⟨-, rfl⟩ := store_eq_ok_iff.1 hstore
    exact v.alike_put _ _
  restores offset _ _ hload := store_of_load (h.writes offset) hload
  combines _ _ _ hwidth := load_eq_ok_iff_bytes h.reads hwidth
  addresses offset a := by
    refine ⟨?_, fun w hstore => ?_⟩
    · rw [storeAddress, h.store_fst_eq_ok_iff, and_iff_right h.accessWidth_pointerWidth]
    · have hload := load_of_store (h.reads offset) hstore
      obtain ⟨-, rfl⟩ := store_eq_ok_iff.1 hstore
      have hwidth := (v.alike_put offset
        (v.endianness.encode v.pointerWidth (a.truncate v.pointerWidth).word)).pointerWidth_eq
      rw [loadAddress, hwidth, hload]
      exact congrArg (fun w => Except.ok (Address.mk w)) (Word.truncate_truncate _ _)
  failures _ _ _ := ⟨fun _ _ => store_eq_error, fun _ => store_eq_error,
    fun _ => storeBlock_eq_error h.blocks, fun _ _ => fillBlock_eq_error h.blocks⟩
  blocks offset := by
    refine ⟨fun length bytes hlength => ?_, fun new w hnew => ?_, fun length b w hlength => ?_⟩
    · rw [loadBlock_eq_ok_iff h.blocks, loadEach_eq_ok_iff h.reads hlength]
    · rw [storeBlock_eq_ok_iff h.blocks, storeEach_eq_ok_iff h.writes hnew]
    · have hnew : List.replicate length b ≠ [] := by
        rw [Ne, List.replicate_eq_nil_iff]
        omega
      rw [fillBlock_eq_storeBlock h.blocks, fillEach_eq_storeEach, storeBlock_eq_ok_iff h.blocks,
        storeEach_eq_ok_iff h.writes hnew]
  machine _ hsize offset hoffset := ⟨Metered.checkSpan_eq hsize offset,
    Metered.loadEach_eq hsize hoffset, Metered.storeEach_eq hsize hoffset,
    Metered.fillEach_eq hsize hoffset⟩

end IsBuffer

/-- The buffers of a platform are such buffers. -/
theorem isBuffer_ofBytes {platform : Platform} (bytes : Array Byte)
    (h : platform.pointerWidth = 4 ∨ platform.pointerWidth = 8) :
    (ofBytes platform bytes).IsBuffer :=
  ⟨fun _ => rfl, fun _ => rfl, rfl, h⟩

/-- Six bytes whose words stand with their high bytes first, and with addresses of four bytes. -/
def sixBytes : View := ofBytes { Platform.ilp32 with endianness := .big } #[1, 2, 3, 4, 5, 6]

theorem storeLaws_sixBytes : sixBytes.StoreLaws ∧
    (sixBytes.store 1 4 0x1122334455).2.bytes = #[1, 0x22, 0x33, 0x44, 0x55, 6] ∧
    (sixBytes.store 3 4 0x1122334455).2.bytes = sixBytes.bytes :=
  ⟨IsBuffer.storeLaws (isBuffer_ofBytes _ (.inl rfl)), by decide, by decide⟩

end View

end NativeRecord
