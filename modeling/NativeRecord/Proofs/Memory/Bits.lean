import NativeRecord.Memory.View

/-!
# The bits of a view

Bit-fields share bytes, so what an access touches is a set of bits.  Position `p` of a buffer is
bit `p % 8` of byte `p / 8`.

A store through a bit mask, a store of a word and the filling of a span with zeros are all the same
kind of thing at this level: some positions get new bits, the others keep theirs.  A `Patch` says
which, and patches compose and commute by what they do at each position, so facts about several
writes need no byte of a word to be looked at.  That a word is stored as bytes, in either order, is
dealt with here, once: the bits of a word and their positions determine each other
(`position_wordBit`, `wordBit_position`), and loading and storing are stated through them.  Above
this file the order of the bytes is only an argument that is handed on.

## What is here

* `View.bit`, and `View.Alike` — views that differ in their content at most, which are equal when
  their bits are (`Alike.eq_of_bit`).
* `Patch`, `View.patch` — new bits for some positions, and a view with these bits.
* `Endianness.position` — where the bits of a word lie, and its inverse `Endianness.wordBit`.
* `getLsbD_word` — the word that is read, bit by bit; `store_eq` — storing a word is a patch.
* `Alike.load_congr` and the checks before it — accesses to alike views come out alike.
-/

set_option autoImplicit false
namespace NativeRecord

namespace View

/-- The bit at a position; no bit past the end is set. -/
def bit (v : View) (p : Nat) : Bool := (v.bytes[p / 8]?.getD 0).getLsbD (p % 8)

/-- Views that differ in their content at most. -/
def Alike (v w : View) : Prop := ∃ bytes : Array Byte, bytes.size = v.size ∧ w = { v with bytes }

theorem Alike.refl (v : View) : v.Alike v := ⟨v.bytes, rfl, rfl⟩

theorem Alike.symm {v w : View} (h : v.Alike w) : w.Alike v := by
  obtain ⟨bytes, hsize, rfl⟩ := h
  exact ⟨v.bytes, hsize.symm, rfl⟩

theorem Alike.trans {u v w : View} (h : u.Alike v) (h' : v.Alike w) : u.Alike w := by
  obtain ⟨bytes, hsize, rfl⟩ := h
  obtain ⟨bytes', hsize', rfl⟩ := h'
  exact ⟨bytes', hsize'.trans hsize, rfl⟩

theorem Alike.size_eq {v w : View} (h : v.Alike w) : w.size = v.size := by
  obtain ⟨bytes, hsize, rfl⟩ := h
  exact hsize

theorem Alike.endianness_eq {v w : View} (h : v.Alike w) : w.endianness = v.endianness := by
  obtain ⟨bytes, -, rfl⟩ := h; rfl

theorem Alike.pointerWidth_eq {v w : View} (h : v.Alike w) : w.pointerWidth = v.pointerWidth := by
  obtain ⟨bytes, -, rfl⟩ := h; rfl

theorem Alike.base_eq {v w : View} (h : v.Alike w) : w.base = v.base := by
  obtain ⟨bytes, -, rfl⟩ := h; rfl

theorem Alike.readFails_eq {v w : View} (h : v.Alike w) : w.readFails = v.readFails := by
  obtain ⟨bytes, -, rfl⟩ := h; rfl

theorem Alike.bytewise_eq {v w : View} (h : v.Alike w) : w.bytewise = v.bytewise := by
  obtain ⟨bytes, -, rfl⟩ := h; rfl

theorem bit_of_le {v : View} {p : Nat} (h : 8 * v.size ≤ p) : v.bit p = false := by
  have hp : v.bytes.size ≤ p / 8 := by rw [Nat.le_div_iff_mul_le (by decide)]; rwa [Nat.mul_comm]
  rw [bit, Array.getElem?_eq_none hp]
  exact BitVec.getLsbD_zero

/-- Views with the same bits in a byte have the same byte there. -/
theorem Alike.byte_eq_of_bit {v w : View} (h : v.Alike w) {i : Nat}
    (hbit : ∀ k < 8, v.bit (8 * i + k) = w.bit (8 * i + k)) : v.bytes[i]? = w.bytes[i]? := by
  have hsize : w.bytes.size = v.bytes.size := h.size_eq
  rcases Nat.lt_or_ge i v.bytes.size with hi | hi
  · have hi' : i < w.bytes.size := hsize ▸ hi
    rw [Array.getElem?_eq_getElem hi, Array.getElem?_eq_getElem hi']
    refine congrArg some (BitVec.eq_of_getLsbD_eq fun k hk => ?_)
    have hdiv : (8 * i + k) / 8 = i := by omega
    have hmod : (8 * i + k) % 8 = k := by omega
    simpa only [bit, hdiv, hmod, Array.getElem?_eq_getElem hi, Array.getElem?_eq_getElem hi',
      Option.getD_some] using hbit k hk
  · rw [Array.getElem?_eq_none hi, Array.getElem?_eq_none (hsize ▸ hi)]

/-- **Views with the same bits are equal.** -/
theorem Alike.eq_of_bit {v w : View} (h : v.Alike w) (hbit : ∀ p < 8 * v.size, v.bit p = w.bit p) :
    v = w := by
  have hbytes : v.bytes = w.bytes := by
    refine Array.ext_getElem? fun i => h.byte_eq_of_bit fun k hk => ?_
    rcases Nat.lt_or_ge (8 * i + k) (8 * v.size) with hp | hp
    · exact hbit _ hp
    · rw [bit_of_le hp, bit_of_le (h.size_eq.symm ▸ hp)]
  obtain ⟨bytes, -, rfl⟩ := h
  rw [← show v.bytes = bytes from hbytes]

/-! ## Patches

The patch of two steps in a row is `andThen`, the later one over the earlier.  So two steps commute
as soon as no position is in both patches, which is all that is ever asked about their order. -/

end View

/-- New bits for some positions of a buffer. -/
abbrev Patch := Nat → Option Bool

namespace Patch

/-- No new bits. -/
def empty : Patch := fun _ => none

/-- The bits of the first patch, then those of the second one over them. -/
def andThen (f g : Patch) : Patch := fun p => (g p).or (f p)

theorem isSome_andThen {f g : Patch} {p : Nat} :
    (f.andThen g p).isSome ↔ (f p).isSome ∨ (g p).isSome := by
  rw [andThen, Option.isSome_or, Bool.or_eq_true, or_comm]

/-- The new value of byte `i`. -/
def byte (f : Patch) (i : Nat) (b : Byte) : Byte :=
  (BitVec.iunfoldr (fun k _ => ((), (f (8 * i + k)).getD (b.getLsbD k))) ()).2

theorem getLsbD_byte (f : Patch) (i : Nat) (b : Byte) {k : Nat} (hk : k < 8) :
    (f.byte i b).getLsbD k = (f (8 * i + k)).getD (b.getLsbD k) :=
  BitVec.iunfoldr_getLsbD (fun _ => ()) ⟨k, hk⟩ fun _ => rfl

end Patch

namespace View

/-- The view with the new bits. -/
def patch (v : View) (f : Patch) : View := { v with bytes := v.bytes.mapIdx f.byte }

@[simp] theorem size_patch (v : View) (f : Patch) : (v.patch f).size = v.size := by
  simp [patch, size]

theorem alike_patch (v : View) (f : Patch) : v.Alike (v.patch f) :=
  ⟨_, v.size_patch f, rfl⟩

/-- **A patch sets its own bits and no others.** -/
theorem bit_patch {v : View} {p : Nat} (f : Patch) (hp : p < 8 * v.size) :
    (v.patch f).bit p = (f p).getD (v.bit p) := by
  have hdiv : p / 8 < v.bytes.size := by
    rw [Nat.div_lt_iff_lt_mul (by decide), Nat.mul_comm]; exact hp
  have hmod : p % 8 < 8 := Nat.mod_lt _ (by decide)
  simp only [bit, patch, Array.getElem?_mapIdx, Array.getElem?_eq_getElem hdiv, Option.map_some,
    Option.getD_some, f.getLsbD_byte _ _ hmod, Nat.div_add_mod]

/-- A view that is alike and has the new bits is the patched one. -/
theorem eq_patch {v w : View} {f : Patch} (h : v.Alike w)
    (hbit : ∀ p < 8 * v.size, w.bit p = (f p).getD (v.bit p)) : w = v.patch f := by
  refine (h.symm.trans (v.alike_patch f)).eq_of_bit ?_
  intro p hp
  rw [h.size_eq] at hp
  rw [hbit p hp, bit_patch f hp]

@[simp] theorem patch_empty (v : View) : v.patch .empty = v :=
  (eq_patch (.refl v) fun _ _ => rfl).symm

/-- Patching twice is patching with both, the later one over the earlier. -/
theorem patch_patch (v : View) (f g : Patch) : (v.patch f).patch g = v.patch (f.andThen g) := by
  refine eq_patch ((v.alike_patch f).trans (alike_patch _ g)) ?_
  intro p hp
  rw [bit_patch g (by rwa [size_patch]), bit_patch f hp, Patch.andThen]
  cases g p <;> rfl

/-- Patches that have no position in common can be applied in either order. -/
theorem patch_comm {v : View} {f g : Patch} (h : ∀ p, f p = none ∨ g p = none) :
    (v.patch f).patch g = (v.patch g).patch f := by
  rw [patch_patch, patch_patch]
  congr 1
  funext p
  rcases h p with hp | hp <;> simp [Patch.andThen, hp]

end View

/-! ## Words

`position` and `wordBit` are inverse to each other on the bits of a word.  In little-endian order
both are a shift, and in big-endian order the bytes are turned round while the bits in a byte stay
as they are. -/

namespace Endianness

/-- The position of bit `k` of the word of `width` bytes at an offset. -/
def position (e : Endianness) (offset width k : Nat) : Nat :=
  match e with
  | little => 8 * offset + k
  | big => 8 * (offset + (width - 1 - k / 8)) + k % 8

/-- The bit of the word of `width` bytes at an offset that lies at a position. -/
def wordBit (e : Endianness) (offset width p : Nat) : Nat :=
  match e with
  | little => p - 8 * offset
  | big => 8 * (width - 1 - (p / 8 - offset)) + p % 8

theorem position_bounds (e : Endianness) (offset : Nat) {width k : Nat} (hk : k < 8 * width) :
    8 * offset ≤ e.position offset width k ∧
      e.position offset width k < 8 * (offset + width) := by
  cases e <;> simp only [position] <;> omega

theorem wordBit_lt (e : Endianness) {offset width p : Nat} (hlow : 8 * offset ≤ p)
    (hhigh : p < 8 * (offset + width)) : e.wordBit offset width p < 8 * width := by
  cases e <;> simp only [wordBit] <;> omega

theorem wordBit_position (e : Endianness) {offset width k : Nat} (hk : k < 8 * width) :
    e.wordBit offset width (e.position offset width k) = k := by
  cases e <;> simp only [wordBit, position] <;> omega

theorem position_wordBit (e : Endianness) {offset width p : Nat} (hlow : 8 * offset ≤ p)
    (hhigh : p < 8 * (offset + width)) :
    e.position offset width (e.wordBit offset width p) = p := by
  cases e <;> simp only [wordBit, position] <;> omega

theorem testBit_ofLowBytes (bytes : List Byte) (k : Nat) :
    (ofLowBytes bytes).testBit k = (bytes[k / 8]?.getD 0).getLsbD (k % 8) := by
  induction bytes generalizing k with
  | nil => simp [ofLowBytes]
  | cons b bytes ih =>
    have hb : b.toNat < 2 ^ 8 := b.isLt
    rw [ofLowBytes, Nat.add_comm, show (256 : Nat) = 2 ^ 8 from rfl,
      Nat.testBit_two_pow_mul_add _ hb]
    split
    · rename_i hk
      simp [Nat.div_eq_of_lt hk, Nat.mod_eq_of_lt hk, BitVec.getLsbD]
    · rename_i hk
      have hdiv : k / 8 = (k - 8) / 8 + 1 := by omega
      have hmod : k % 8 = (k - 8) % 8 := by omega
      rw [ih, hdiv, hmod, List.getElem?_cons_succ]

theorem getElem?_lowBytes {width i : Nat} (n : Nat) (hi : i < width) :
    (lowBytes width n)[i]? = some (BitVec.ofNat 8 (n / 256 ^ i)) := by
  induction width generalizing n i with
  | zero => omega
  | succ width ih =>
    cases i with
    | zero => simp [lowBytes]
    | succ i =>
      rw [lowBytes, List.getElem?_cons_succ, ih _ (by omega), Nat.div_div_eq_div_mul,
        Nat.pow_succ, Nat.mul_comm]

theorem getLsbD_lowBytes {width i k : Nat} (w : Word) (hi : i < width) (hk : k < 8) :
    ((lowBytes width w.toNat)[i]?.getD 0).getLsbD k = w.getLsbD (8 * i + k) := by
  have hpow : (256 : Nat) ^ i = 2 ^ (8 * i) := by rw [Nat.pow_mul]
  rw [getElem?_lowBytes _ hi, Option.getD_some, BitVec.getLsbD_ofNat, hpow, Nat.testBit_div_two_pow]
  simp [hk, BitVec.getLsbD, Nat.add_comm]

/-- The bytes that a word is stored as, bit by bit. -/
theorem getLsbD_encode (e : Endianness) {offset width p : Nat} (w : Word)
    (hlow : 8 * offset ≤ p) (hhigh : p < 8 * (offset + width)) :
    ((e.encode width w)[p / 8 - offset]?.getD 0).getLsbD (p % 8) =
      w.getLsbD (e.wordBit offset width p) := by
  have hmod : p % 8 < 8 := Nat.mod_lt _ (by decide)
  have hi : p / 8 - offset < width := by omega
  cases e with
  | little =>
    rw [encode, getLsbD_lowBytes w hi hmod, wordBit]
    congr 1
    omega
  | big =>
    rw [encode, List.getElem?_reverse (by simpa using hi), length_lowBytes,
      getLsbD_lowBytes w (by omega) hmod, wordBit]

/-- The word that bytes make up, bit by bit. -/
theorem getLsbD_decode (e : Endianness) {bytes : List Byte} (offset k : Nat)
    (h : bytes.length ≤ 8) :
    (e.decode bytes).getLsbD k = (decide (k < 8 * bytes.length) &&
      (bytes[e.position offset bytes.length k / 8 - offset]?.getD 0).getLsbD
        (e.position offset bytes.length k % 8)) := by
  have hlow : ∀ l : List Byte, l.length ≤ 8 → (BitVec.ofNat 64 (ofLowBytes l)).getLsbD k =
      (decide (k < 8 * l.length) && (l[k / 8]?.getD 0).getLsbD (k % 8)) := by
    intro l hl
    rw [BitVec.getLsbD_ofNat, testBit_ofLowBytes]
    by_cases hk : k < 8 * l.length
    · simp [hk, show k < 64 by omega]
    · rw [List.getElem?_eq_none (by omega)]
      simp
  by_cases hk : k < 8 * bytes.length
  · cases e with
    | little =>
      have hdiv : (8 * offset + k) / 8 - offset = k / 8 := by omega
      have hmod : (8 * offset + k) % 8 = k % 8 := by omega
      rw [decode, hlow bytes h, position, hdiv, hmod]
    | big =>
      have hdiv : (8 * (offset + (bytes.length - 1 - k / 8)) + k % 8) / 8 - offset =
          bytes.length - 1 - k / 8 := by omega
      have hmod : (8 * (offset + (bytes.length - 1 - k / 8)) + k % 8) % 8 = k % 8 := by omega
      rw [decode, hlow bytes.reverse (by simpa using h), List.length_reverse,
        List.getElem?_reverse (by omega), position, hdiv, hmod]
  · cases e <;> simp [decode, hlow, h, hk]

end Endianness

namespace View

/-- The word of `width` bytes at an offset. -/
def word (v : View) (offset width : Nat) : Word := v.endianness.decode (v.slice offset width)

theorem length_slice {v : View} {offset width : Nat} (h : offset + width ≤ v.size) :
    (v.slice offset width).length = width := by
  simp only [slice, Array.length_toList, Array.size_extract, size] at h ⊢
  omega

theorem getElem?_slice (v : View) {offset width i : Nat} (hi : i < width) :
    (v.slice offset width)[i]? = v.bytes[offset + i]? := by
  rw [slice, Array.getElem?_toList, Array.getElem?_extract]
  simp only [ite_eq_left_iff]
  intro h
  rw [Array.getElem?_eq_none (by omega)]

/-- **The bits of a word are those at its positions.** -/
theorem getLsbD_word {v : View} {offset width : Nat} (h : offset + width ≤ v.size)
    (hwidth : width ≤ 8) (k : Nat) :
    (v.word offset width).getLsbD k =
      (decide (k < 8 * width) && v.bit (v.endianness.position offset width k)) := by
  have hlength := length_slice h
  rw [word, Endianness.getLsbD_decode _ offset k (by omega), hlength]
  by_cases hk : k < 8 * width
  · obtain ⟨hlow, hhigh⟩ := v.endianness.position_bounds offset hk
    rw [getElem?_slice v (by omega), bit]
    congr 5
    omega
  · simp [hk]

/-- Replacing bytes sets their bits, and leaves the others. -/
theorem bit_put {v : View} {offset : Nat} {new : List Byte} (h : offset + new.length ≤ v.size)
    (p : Nat) :
    (v.put offset new).bit p =
      if 8 * offset ≤ p ∧ p < 8 * (offset + new.length) then
        (new[p / 8 - offset]?.getD 0).getLsbD (p % 8)
      else v.bit p := by
  rw [bit, put, getElem?_overwrite h]
  by_cases hp : 8 * offset ≤ p ∧ p < 8 * (offset + new.length)
  · rw [if_pos hp, if_pos (by omega)]
  · rw [if_neg hp, if_neg (by omega), bit]

/-- Replacing bytes changes the content alone. -/
theorem alike_put (v : View) (offset : Nat) (new : List Byte) : v.Alike (v.put offset new) :=
  ⟨_, size_overwrite _ _ _, rfl⟩

end View

/-- The new bits of some bytes. -/
def Patch.bytes (offset : Nat) (new : List Byte) : Patch := fun p =>
  if 8 * offset ≤ p ∧ p < 8 * (offset + new.length) then
    some ((new[p / 8 - offset]?.getD 0).getLsbD (p % 8))
  else none

/-- Replacing bytes is a patch. -/
theorem View.put_eq {v : View} {offset : Nat} {new : List Byte}
    (h : offset + new.length ≤ v.size) : v.put offset new = v.patch (.bytes offset new) := by
  refine eq_patch (v.alike_put offset new) fun p _ => ?_
  rw [bit_put h, Patch.bytes]
  split <;> rfl

/-- The new bits of a stored word: of all the bits at its positions, those that the mask has. -/
def Patch.word (e : Endianness) (offset width : Nat) (mask w : Word) : Patch := fun p =>
  if 8 * offset ≤ p ∧ p < 8 * (offset + width) ∧ mask.getLsbD (e.wordBit offset width p) then
    some (w.getLsbD (e.wordBit offset width p))
  else none

theorem AccessWidth.le {width : Nat} (h : AccessWidth width) : width ≤ 8 := by
  rcases h with rfl | rfl | rfl | rfl <;> decide

namespace View

theorem checkSpan_eq_ok_iff {v : View} {offset length : Nat} :
    v.checkSpan offset length = .ok () ↔ offset + length ≤ v.size := by
  rw [checkSpan]
  split <;> simp [*]

theorem checkAccess_eq_ok_iff {v : View} {offset width : Nat} :
    v.checkAccess offset width = .ok () ↔ AccessWidth width ∧ offset + width ≤ v.size := by
  rw [checkAccess, checkSpan]
  split
  · rename_i hwidth
    split <;> simp [*]
  · rename_i hwidth
    simp [hwidth]

theorem checkStore_eq_ok_iff {v : View} {offset width : Nat} :
    v.checkStore offset width = .ok () ↔
      v.writeFails offset = false ∧ AccessWidth width ∧ offset + width ≤ v.size := by
  rw [checkStore]
  split
  · rename_i hfails
    simp [hfails]
  · rename_i hfails
    simp [hfails, checkAccess_eq_ok_iff]

/-- A load fails for reasons other than the content, or answers with the word that is there. -/
theorem load_eq (v : View) (offset width : Nat) :
    v.load offset width =
      if v.readFails offset then .error (.readFailed offset)
      else v.checkAccess offset width >>= fun _ => .ok (v.word offset width) := by
  rw [load]
  split <;> rfl

theorem load_eq_ok_iff {v : View} {offset width : Nat} {w : Word} :
    v.load offset width = .ok w ↔
      v.readFails offset = false ∧ AccessWidth width ∧ offset + width ≤ v.size ∧
        v.word offset width = w := by
  rw [load_eq]
  split
  · rename_i hfails
    simp [hfails]
  · rename_i hfails
    simp only [hfails, true_and]
    rw [← and_assoc, ← checkAccess_eq_ok_iff]
    rcases hcheck : v.checkAccess offset width with e | ⟨⟩
    · exact ⟨nofun, nofun⟩
    · exact ⟨fun h => ⟨rfl, by cases h; rfl⟩, fun h => congrArg Except.ok h.2⟩

/-- **Storing a word sets the bits at its positions.** -/
theorem store_eq (v : View) (offset width : Nat) (w : Word) :
    v.store offset width w =
      match v.checkStore offset width with
      | .ok () =>
        (.ok (), v.patch (.word v.endianness offset width (BitVec.allOnes 64) w))
      | .error e => (.error e, v) := by
  rw [store]
  rcases hcheck : v.checkStore offset width with e | ⟨⟩
  · rfl
  · obtain ⟨-, hwidth, hsize⟩ := checkStore_eq_ok_iff.1 hcheck
    have hput : v.put offset (v.endianness.encode width w) =
        v.patch (.word v.endianness offset width (BitVec.allOnes 64) w) := by
      refine eq_patch (v.alike_put _ _) ?_
      intro p _
      rw [bit_put (by rwa [Endianness.length_encode]), Endianness.length_encode, Patch.word]
      by_cases hp : 8 * offset ≤ p ∧ p < 8 * (offset + width)
      · have hbit := v.endianness.wordBit_lt hp.1 hp.2
        have hmask : (BitVec.allOnes 64).getLsbD (v.endianness.wordBit offset width p) = true := by
          have := hwidth.le
          simp only [BitVec.getLsbD_allOnes, decide_eq_true_eq]
          omega
        rw [if_pos hp, if_pos ⟨hp.1, hp.2, hmask⟩, Endianness.getLsbD_encode _ _ hp.1 hp.2]
        rfl
      · rw [if_neg hp, if_neg fun h => hp ⟨h.1, h.2.1⟩]
        rfl
    simp only [hput]

end View

/-! ## Accesses to alike views

The checks before an access look at the size of the view and at where it is made to fail, and alike
views have both in common.  Only the word that is loaded depends on the content, and of that on the
bits at its positions. -/

namespace View

variable {v w : View}

theorem Alike.checkSpan_eq (h : v.Alike w) (offset length : Nat) :
    w.checkSpan offset length = v.checkSpan offset length := by
  rw [checkSpan, checkSpan, h.size_eq]

theorem Alike.checkAccess_eq (h : v.Alike w) (offset width : Nat) :
    w.checkAccess offset width = v.checkAccess offset width := by
  simp only [checkAccess, checkSpan, h.size_eq]

theorem Alike.checkStore_eq (h : v.Alike w) (offset width : Nat) :
    w.checkStore offset width = v.checkStore offset width := by
  rw [checkStore, checkStore, h.checkAccess_eq]
  obtain ⟨_, -, rfl⟩ := h
  rfl

/-- Alike views with the same bits in a word load the same. -/
theorem Alike.load_congr (h : v.Alike w) {offset width : Nat}
    (hbit : ∀ p, 8 * offset ≤ p → p < 8 * (offset + width) → v.bit p = w.bit p) :
    v.load offset width = w.load offset width := by
  rw [load_eq, load_eq, h.checkAccess_eq, h.readFails_eq]
  rcases hcheck : v.checkAccess offset width with e | ⟨⟩
  · rfl
  · obtain ⟨hwidth, hsize⟩ := checkAccess_eq_ok_iff.1 hcheck
    have hword : v.word offset width = w.word offset width := by
      refine BitVec.eq_of_getLsbD_eq ?_
      intro k _
      rw [getLsbD_word hsize (hwidth.le),
        getLsbD_word (h.size_eq ▸ hsize) (hwidth.le), h.endianness_eq]
      by_cases hk : k < 8 * width
      · obtain ⟨hlow, hhigh⟩ := v.endianness.position_bounds offset hk
        rw [hbit _ hlow hhigh]
      · simp [hk]
    rw [hword]

end View

end NativeRecord
