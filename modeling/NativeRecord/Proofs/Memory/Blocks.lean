import NativeRecord.Proofs.Memory.Bits

/-!
# Blocks of bytes in memory

A block is moved in one piece, or byte by byte through single accesses.  The checks differ: that of
a piece is made once, before anything else is done, and those of single accesses one after the
other.  As long as no access is made to fail, both let the same blocks through, the empty one apart.

Byte by byte, a block is a row of accesses of one byte each.  Each access is within bounds if the
whole block is, and does what the piece does at this byte; the induction goes along the row.  In the
other direction a row that succeeds has reached the last byte, so the block lies in the view unless
it is empty.

## What is here

* `View.loadBlock_eq_ok` — a block that lies in the view is loaded, either way.
* `View.loadEach_eq_ok_iff`, `View.storeEach_eq_ok_iff` — which blocks are moved byte by byte, and
  that this does what moving them in one piece does.
-/

set_option autoImplicit false
namespace NativeRecord

namespace View

/-! ## Loading

One byte is a run of length one, whatever the order of the bytes is. -/

section Load

variable {v : View} {offset length : Nat}

/-- The bit `k` of a byte in a run. -/
theorem bit_eq_getLsbD {i k : Nat} (hi : i < length) (hk : k < 8) :
    v.bit (8 * (offset + i) + k) = ((v.slice offset length)[i]?.getD 0).getLsbD k := by
  have hdiv : (8 * (offset + i) + k) / 8 = offset + i := by omega
  have hmod : (8 * (offset + i) + k) % 8 = k := by omega
  rw [bit, hdiv, hmod, getElem?_slice v hi]

/-- The word of one byte. -/
theorem setWidth_word (h : offset + 1 ≤ v.size) :
    v.slice offset 1 = [(v.word offset 1).setWidth 8] := by
  have hlength := length_slice h
  refine List.ext_getElem hlength fun i hi hi' => BitVec.eq_of_getLsbD_eq fun k hk => ?_
  obtain rfl : i = 0 := by omega
  have hposition : v.endianness.position offset 1 k = 8 * (offset + 0) + k := by
    cases v.endianness <;> simp only [Endianness.position] <;> omega
  rw [List.getElem_singleton, BitVec.getLsbD_setWidth, getLsbD_word h (by decide), hposition,
    bit_eq_getLsbD (Nat.succ_pos 0) hk, List.getElem?_eq_getElem hi]
  simp [hk]

/-- A run is its first byte and the rest. -/
theorem slice_succ (v : View) (offset length : Nat) :
    v.slice offset (length + 1) = v.slice offset 1 ++ v.slice (offset + 1) length := by
  have hslice (offset length : Nat) :
      v.slice offset length = (v.bytes.toList.drop offset).take length := by
    rw [slice, Array.toList_extract, List.extract_eq_take_drop, Nat.add_sub_cancel_left]
  rw [hslice, hslice, hslice, Nat.add_comm length, List.take_add, List.drop_drop]

/-- A run that lies in the view is loaded byte by byte. -/
theorem loadEach_eq_ok (h : ∀ offset, v.readFails offset = false)
    (hsize : offset + length ≤ v.size) (done : List Byte) :
    v.loadEach done offset length = .ok (done.reverse ++ v.slice offset length) := by
  induction length generalizing offset done with
  | zero => simp [loadEach, slice]
  | succ length ih =>
    have hfirst : offset + 1 ≤ v.size := by omega
    rw [loadEach, load_eq_ok_iff.2 ⟨h offset, .inl rfl, hfirst, rfl⟩, slice_succ,
      setWidth_word hfirst]
    dsimp only
    rw [ih (by omega), List.reverse_cons, List.append_assoc]

/-- **A run that lies in the view is loaded as it is,** in one piece or byte by byte. -/
theorem loadBlock_eq_ok (h : ∀ offset, v.readFails offset = false)
    (hsize : offset + length ≤ v.size) :
    v.loadBlock offset length = .ok (v.slice offset length) := by
  rw [loadBlock]
  split
  · exact loadEach_eq_ok h hsize []
  · rw [checkSpan_eq_ok_iff.2 hsize]
    rfl

/-- A run that was loaded byte by byte lies in the view. -/
theorem stop_le_of_loadEach {done bytes : List Byte} (hlength : 0 < length)
    (h : v.loadEach done offset length = .ok bytes) : offset + length ≤ v.size := by
  induction length generalizing done offset with
  | zero => exact absurd hlength (Nat.lt_irrefl 0)
  | succ length ih =>
    rw [loadEach] at h
    split at h
    · rename_i hfirst
      have hone := (load_eq_ok_iff.1 hfirst).2.2.1
      rcases Nat.eq_zero_or_pos length with rfl | hpos
      · exact hone
      · have hstop := ih hpos h
        omega
    · cases h

/-- **A block is loaded byte by byte if it lies in the view,** and only then. -/
theorem loadEach_eq_ok_iff (h : ∀ offset, v.readFails offset = false) (hlength : 0 < length)
    {bytes : List Byte} : v.loadEach [] offset length = .ok bytes ↔
      offset + length ≤ v.size ∧ v.slice offset length = bytes := by
  constructor
  · intro hload
    have hstop := stop_le_of_loadEach hlength hload
    rw [loadEach_eq_ok h hstop] at hload
    exact ⟨hstop, Except.ok.inj hload⟩
  · rintro ⟨hstop, rfl⟩
    exact loadEach_eq_ok h hstop []

/-- In one piece, a block is loaded if it lies in the view. -/
theorem loadBlock_eq_ok_iff (h : v.bytewise = false) {bytes : List Byte} :
    v.loadBlock offset length = .ok bytes ↔
      offset + length ≤ v.size ∧ v.slice offset length = bytes := by
  rw [loadBlock, h, ← checkSpan_eq_ok_iff]
  show (v.checkSpan offset length >>= fun _ => .ok (v.slice offset length)) = _ ↔ _
  rcases v.checkSpan offset length with e | ⟨⟩
  · exact ⟨nofun, fun h => nomatch h.1⟩
  · exact ⟨fun h => ⟨rfl, Except.ok.inj h⟩, fun h => congrArg Except.ok h.2⟩

end Load

/-! ## Storing

Storing one byte after the other replaces the bytes of a run from its start on, so what was put
before stays. -/

section Store

variable {v w : View} {offset : Nat} {new : List Byte}

/-- One byte is stored as it is, in either byte order. -/
theorem store_byte (h : v.writeFails offset = false) (hsize : offset + 1 ≤ v.size) (b : Byte) :
    v.store offset 1 (b.setWidth 64) = (.ok (), v.put offset [b]) := by
  have hbyte : v.endianness.encode 1 (b.setWidth 64) = [b] := by
    have hb : b.toNat < 2 ^ 64 := Nat.lt_trans b.isLt (by decide)
    have hlow : lowBytes 1 (b.setWidth 64).toNat = [b] := by
      rw [BitVec.toNat_setWidth, Nat.mod_eq_of_lt hb, lowBytes, lowBytes, BitVec.ofNat_toNat,
        BitVec.setWidth_eq]
    cases v.endianness <;> rw [Endianness.encode, hlow]
    rfl
  rw [store, checkStore_eq_ok_iff.2 ⟨h, .inl rfl, hsize⟩, hbyte]

/-- Bytes are stored one by one as they are stored at once. -/
theorem storeEach_eq_put (h : ∀ offset, v.writeFails offset = false)
    (hsize : offset + new.length ≤ v.size) :
    v.storeEach offset new = (.ok (), v.put offset new) := by
  induction new generalizing v offset with
  | nil => rfl
  | cons b new ih =>
    rw [List.length_cons] at hsize
    have halike := v.alike_put offset [b]
    rw [storeEach, store_byte (h offset) (by omega)]
    exact ih h (by rw [halike.size_eq]; omega)

/-- A run that was stored byte by byte lies in the view. -/
theorem stop_le_of_storeEach (hnew : new ≠ []) (h : v.storeEach offset new = (.ok (), w)) :
    offset + new.length ≤ v.size := by
  induction new generalizing v offset with
  | nil => exact absurd rfl hnew
  | cons b new ih =>
    rw [storeEach, store] at h
    rcases hcheck : v.checkStore offset 1 with e | ⟨⟩
    · rw [hcheck] at h
      cases h
    · have hone := (checkStore_eq_ok_iff.1 hcheck).2.2
      rw [hcheck] at h
      rw [List.length_cons]
      by_cases hrest : new = []
      · rw [hrest]
        exact hone
      · have hstop := ih hrest h
        rw [(v.alike_put _ _).size_eq] at hstop
        omega

/-- **A block is stored byte by byte if it lies in the view,** and only then. -/
theorem storeEach_eq_ok_iff (h : ∀ offset, v.writeFails offset = false) (hnew : new ≠ []) :
    v.storeEach offset new = (.ok (), w) ↔
      offset + new.length ≤ v.size ∧ v.put offset new = w := by
  constructor
  · intro hstore
    have hstop := stop_le_of_storeEach hnew hstore
    rw [storeEach_eq_put h hstop] at hstore
    exact ⟨hstop, congrArg Prod.snd hstore⟩
  · rintro ⟨hstop, rfl⟩
    exact storeEach_eq_put h hstop

/-- In one piece, a block is stored if it lies in the view. -/
theorem storeBlock_eq_ok_iff (h : v.bytewise = false) :
    v.storeBlock offset new = (.ok (), w) ↔
      offset + new.length ≤ v.size ∧ v.put offset new = w := by
  rw [storeBlock, h, ← checkSpan_eq_ok_iff]
  rcases v.checkSpan offset new.length with e | ⟨⟩
  · exact ⟨nofun, fun h => nomatch h.1⟩
  · exact ⟨fun h => ⟨rfl, congrArg Prod.snd h⟩, fun h => congrArg (Prod.mk _) h.2⟩

/-- A run of one byte is filled as it would be stored. -/
theorem fillBlock_eq_storeBlock (h : v.bytewise = false) (length : Nat) (b : Byte) (w : View) :
    v.fillBlock offset length b = (.ok (), w) ↔
      v.storeBlock offset (List.replicate length b) = (.ok (), w) := by
  rw [fillBlock, storeBlock, h, List.length_replicate]
  rcases v.checkSpan offset length with e | ⟨⟩
  · exact ⟨nofun, nofun⟩
  · exact Iff.rfl

end Store

end View

end NativeRecord
