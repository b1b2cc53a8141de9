import NativeRecord.Proofs.Float
import NativeRecord.Proofs.Transfer.RoundTrip
import NativeRecord.Proofs.Transfer.ZeroFilling

/-!
# Writing what was read

Most bits of a record come back unchanged when its values are read and written again.  The
exceptions are truth values that are stored as something else than 0 or 1, and numbers of single
precision that do not survive the way through double precision.

The round trip the other way round starts from bits, not from values.  For most scalars every
pattern of bits is the encoding of the value that it decodes to, so the store puts back what was
there.  The two exceptions are conditions on the memory (`Scalar.GivesBack`), and as a record nests
they are asked of all places below it at once, by paths (`Place.GivesBack`).

The proof says more than that the final memory is the same: every single step of the write leaves
the view exactly as it is, so the next step is again one that writes what was read, from the same
memory.  That is why the induction needs no argument about which members overlap, as the round trip
of values does — members of a union are all written, and each of them changes nothing.

## What is here

* `Scalar.GivesBack` — the bits that a scalar gives back, and `Scalar.encode?_decode`, that it does.
* `Place.GivesBack` — memory in which all scalars of a place hold such bits; `Slot.write_of_read` —
  then writing to the place what was read from it changes nothing.
* `Layout.write_read` — the same of a record, and what becomes of its padding if this is zeroed.
-/

set_option autoImplicit false
namespace NativeRecord

open NativeRecord.Span (Covers)
open Writing

/-! ## Bits that are given back -/

/-- The scalar gives these bits back when its value is read and written again. -/
def Scalar.GivesBack : Scalar → Word → Prop
  | .arith .bool, w => w = 0 ∨ w = 1
  | .arith (.float .f32), w =>
    FloatFormat.double.convert .single (FloatFormat.single.convert .double w.toNat) = w.toNat
  | _, _ => True

instance : (type : Scalar) → (w : Word) → Decidable (type.GivesBack w)
  | .arith .bool, w => inferInstanceAs (Decidable (w = 0 ∨ w = 1))
  | .arith (.float .f32), w => inferInstanceAs (Decidable (FloatFormat.double.convert .single
      (FloatFormat.single.convert .double w.toNat) = w.toNat))
  | .arith (.float .f64), _ | .arith (.signed _), _ | .arith (.unsigned _), _
  | .arith (.enum _), _ | .arith (.platform _), _ | .pointer _, _ => .isTrue trivial

/-- **The value of some bits is encoded to these bits,** as far as they are significant. -/
theorem Scalar.encode?_decode {platform : Platform} {type : Scalar} {bits : Nat} {w : Word}
    (hwidth : AccessWidth (type.size platform)) (hw : w.truncate bits = w)
    (hback : type.GivesBack w)
    (hbits : bits = 8 * type.size platform ∨
      bits ≤ 8 * type.size platform ∧ ∃ a, type = .arith a ∧ a.allowsBitField = true) :
    ∃ u, type.encode? (type.size platform) (type.decode bits w) = some u ∧
      u.truncate bits = w := by
  have hle : bits ≤ 8 * type.size platform := by omega
  suffices h : ∃ b, type.bits? (type.decode bits w) = some b ∧ b.truncate bits = w by
    obtain ⟨b, hb, htruncate⟩ := h
    refine ⟨b.truncate (8 * type.size platform), by rw [encode?, hb]; rfl, ?_⟩
    rw [Word.truncate_truncate_of_le b hle, htruncate]
  cases type with
  | pointer target => exact ⟨w.truncate bits, rfl, by rw [Word.truncate_truncate, hw]⟩
  | arith a =>
    cases a using Arith.casesInteger with
    | integer a ha =>
      rw [decode_of_isInteger ha, bits?, Arith.bits?_of_isInteger ha]
      split
      · exact ⟨_, rfl, (w.truncate_signExtend bits).trans hw⟩
      · exact ⟨_, rfl, by rw [Word.truncate_truncate, hw]⟩
    | bool =>
      refine ⟨if w != 0 then 1 else 0, rfl, ?_⟩
      rcases hback with rfl | rfl
      · exact hw
      · exact hw
    | float n =>
      obtain rfl : bits = 8 * n.bytes := by
        refine hbits.resolve_right ?_
        rintro ⟨-, a, ⟨⟩, ha⟩
        cases ha
      cases n with
      | f64 => exact ⟨w, rfl, hw⟩
      | f32 =>
        have hlow : w.truncate 32 = w := hw
        have hwide : (BitVec.ofNat 64 (FloatFormat.single.convert .double w.toNat) : Word).toNat =
            FloatFormat.single.convert .double w.toNat := by
          rw [BitVec.toNat_ofNat, Nat.mod_eq_of_lt (FloatFormat.convert_double_lt _)]
        refine ⟨w, ?_, hw⟩
        show some (BitVec.ofNat 64 (FloatFormat.double.convert .single
          (BitVec.ofNat 64 (FloatFormat.single.convert .double (w.truncate 32).toNat) :
            Word).toNat)) = some w
        rw [hlow, hwide, show FloatFormat.double.convert .single _ = w.toNat from hback,
          BitVec.ofNat_toNat, BitVec.setWidth_eq]

/-! ## Extracted bits

What is extracted from a word has no bits past its width. -/

namespace BitRange

theorem getLsbD_extract (r : BitRange) (word : Word) (i : Nat) :
    (r.extract word).getLsbD i =
      (word.getLsbD (r.first + i) && decide (r.first + i < 64 ∧ i < r.width)) := by
  rw [extract, BitVec.getLsbD_ushiftRight, BitVec.getLsbD_and, getLsbD_mask]
  refine congrArg (word.getLsbD _ && ·) (decide_eq_decide.2 ?_)
  omega

theorem truncate_extract (r : BitRange) (word : Word) :
    (r.extract word).truncate r.width = r.extract word := by
  refine BitVec.eq_of_getLsbD_eq fun k _ => ?_
  rw [Word.getLsbD_truncate, getLsbD_extract]
  by_cases hk : k < r.width <;> simp [hk]

end BitRange

/-! ## Scalars and bit-fields

A store of the bits that are there is a patch that changes nothing. -/

section Scalar

variable {platform : Platform} {v : View} {field : String} {type : Scalar} {limit offset : Nat}
  {y : Value}

/-- A scalar that gives its bits back is written as it was read. -/
theorem writeScalar_of_read (h : v.Writable platform) (hwidth : AccessWidth (type.size platform))
    (hlimit : offset + type.size platform ≤ limit) (hsize : limit ≤ v.size)
    (hback : type.GivesBack (v.word offset (type.size platform)))
    (hread : readScalar v type (type.size platform) limit offset = .ok y) :
    (writeScalar field type (type.size platform) limit offset y).run v = (.ok (), v) := by
  have hin : offset + type.size platform ≤ v.size := Nat.le_trans hlimit hsize
  have hword := View.truncate_word hin hwidth.le
  rw [readScalar_eq_ok h.toReadable hwidth hlimit hsize, hword] at hread
  cases hread
  obtain ⟨u, hu, hsame⟩ := Scalar.encode?_decode hwidth hword hback (.inl rfl)
  rw [writeScalar_run_writable h hwidth hlimit hsize, encodeFor_eq_ok_iff.2 hu]
  refine congrArg (Prod.mk _) (View.patch_word_self hin hwidth.le fun k hk _ => ?_)
  rw [← hsame, Word.getLsbD_truncate, decide_eq_true hk, Bool.true_and]

/-- So is a bit-field; the bits around it are stored as they were loaded. -/
theorem writeBits_of_read {a : Arith} {range : BitRange} (h : v.Writable platform)
    (hwidth : AccessWidth ((Scalar.arith a).size platform)) (ha : a.allowsBitField = true)
    (hrange : range.first + range.width ≤ 8 * (Scalar.arith a).size platform)
    (hlimit : offset + (Scalar.arith a).size platform ≤ limit) (hsize : limit ≤ v.size)
    (hback : (Scalar.arith a).GivesBack
      (range.extract (v.word offset ((Scalar.arith a).size platform))))
    (hread : readBits v (.arith a) ((Scalar.arith a).size platform) limit range offset = .ok y) :
    (writeBits field (.arith a) ((Scalar.arith a).size platform) limit range offset y).run v =
      (.ok (), v) := by
  have hin : offset + (Scalar.arith a).size platform ≤ v.size := Nat.le_trans hlimit hsize
  rw [readBits_eq_ok h.toReadable hwidth hlimit hsize] at hread
  cases hread
  obtain ⟨u, hu, hsame⟩ := Scalar.encode?_decode hwidth (range.truncate_extract _) hback
    (.inr ⟨by omega, a, rfl, ha⟩)
  rw [writeBits_run_writable h hwidth hlimit hsize, encodeFor_eq_ok_iff.2 hu]
  refine congrArg (Prod.mk _) (View.patch_word_self hin hwidth.le fun k _ hmask => ?_)
  obtain ⟨h64, hfirst, hlast⟩ : k < 64 ∧ range.first ≤ k ∧ k < range.first + range.width := by
    simpa only [BitRange.getLsbD_mask, decide_eq_true_eq] using hmask
  have hlow : k - range.first < range.width := by omega
  have hsum : range.first + (k - range.first) = k := by omega
  calc (u <<< range.first).getLsbD k = u.getLsbD (k - range.first) := by
        rw [BitVec.getLsbD_shiftLeft, decide_eq_true h64, decide_eq_false (Nat.not_lt.2 hfirst),
          Bool.not_false, Bool.true_and, Bool.true_and]
    _ = (u.truncate range.width).getLsbD (k - range.first) := by
        rw [Word.getLsbD_truncate, decide_eq_true hlow, Bool.true_and]
    _ = (v.word offset ((Scalar.arith a).size platform)).getLsbD k := by
        rw [hsame, BitRange.getLsbD_extract, hsum, decide_eq_true ⟨h64, hlow⟩, Bool.and_true]

end Scalar

/-! ## Places -/

/-- The bits of a scalar in a slot at an offset: those of its word; of a bit-field, those of its
range. -/
def Slot.content (view : View) (s : Slot) (offset : Nat) : Word :=
  s.bits.elim (view.word offset s.size) fun range => range.extract (view.word offset s.size)

namespace Place

/-- All scalars of the place hold bits that they give back. -/
def GivesBack (view : View) (q : Place) : Prop :=
  ∀ path place type size alignment, q.at? path = some place →
    place.slot.shape = .scalar type size alignment →
      type.GivesBack (place.slot.content view place.offset)

theorem GivesBack.part {view : View} {q part : Place} {step : Step} (h : q.GivesBack view)
    (hstep : q.part? step = some part) : part.GivesBack view :=
  fun path place type size alignment hpath =>
    h (step :: path) place type size alignment (Option.bind_eq_some_iff.2 ⟨part, hstep, hpath⟩)

theorem givesBack_scalar {view : View} {type : Scalar} {size : Nat} {alignment : Alignment}
    {bits : Option BitRange} {offset : Nat}
    (h : type.GivesBack (Slot.content view ⟨.scalar type size alignment, bits⟩ offset)) :
    GivesBack view ⟨⟨.scalar type size alignment, bits⟩, offset⟩ := by
  intro path place type size alignment hpath hshape
  cases path with
  | nil => cases hpath; cases hshape; exact h
  | cons step path => cases step <;> cases hpath

/-- All places of a record are those of its members. -/
theorem givesBack_record {view : View} {l : Layout} {bits : Option BitRange} {offset : Nat}
    (h : ∀ m ∈ l.members, GivesBack view ⟨m.slot, offset + m.offset⟩) :
    GivesBack view ⟨⟨.record l, bits⟩, offset⟩ := by
  intro path place type size alignment hpath hshape
  cases path with
  | nil => cases hpath; cases hshape
  | cons step path =>
    obtain ⟨part, hpart, hpath⟩ := Option.bind_eq_some_iff.1 hpath
    cases step with
    | item i => cases hpart
    | field name =>
      obtain ⟨m, hm, rfl⟩ := Option.map_eq_some_iff.1 hpart
      exact h m (List.mem_of_find?_eq_some hm) path place type size alignment hpath hshape

/-- All places of an array are those of its elements. -/
theorem givesBack_array {view : View} {element : Shape} {length : Nat} {bits : Option BitRange}
    {offset : Nat}
    (h : ∀ i < length, GivesBack view ⟨⟨element, none⟩, offset + i * element.size⟩) :
    GivesBack view ⟨⟨.array element length, bits⟩, offset⟩ := by
  intro path place type size alignment hpath hshape
  cases path with
  | nil => cases hpath; cases hshape
  | cons step path =>
    obtain ⟨part, hpart, hpath⟩ := Option.bind_eq_some_iff.1 hpath
    cases step with
    | field name => cases hpart
    | item i =>
      obtain ⟨hi, hpart⟩ := Option.ite_none_right_eq_some.1 hpart
      cases hpart
      exact h i hi path place type size alignment hpath hshape

end Place

section Write

variable {platform : Platform} {v : View} {limit offset : Nat}

/-- Steps that each change nothing change nothing in a row. -/
theorem run_bind_eq_self {step next : Writing Unit} (h : step.run v = (.ok (), v))
    (h' : next.run v = (.ok (), v)) : (step >>= fun _ => next).run v = (.ok (), v) := by
  rw [run_bind, h]
  exact h'

/-- **Writing to a place what was read from it changes nothing.** -/
theorem Slot.write_of_read (h : v.Writable platform) {s : Slot} (hs : s.Sound platform)
    (field : String) (hlimit : offset + s.size ≤ limit) (hsize : limit ≤ v.size)
    (hback : Place.GivesBack v ⟨s, offset⟩) {y : Value} (hread : s.read v limit offset = .ok y) :
    (s.write field limit offset y).run v = (.ok (), v) := by
  induction hs generalizing field offset y with
  | scalar hwidth =>
    exact writeScalar_of_read h hwidth hlimit hsize (hback [] _ _ _ _ rfl rfl) hread
  | bitField hwidth htype _ hfits =>
    exact writeBits_of_read h hwidth htype hfits hlimit hsize (hback [] _ _ _ _ rfl rfl) hread
  | @record l hplaced _ ih =>
    obtain ⟨r, rfl, hknown, hmembers⟩ := read_record_eq_ok hplaced.names hread
    have hwrite : (writeMembers limit l.members offset r).run v = (.ok (), v) := by
      refine writeMembers_induction (P := (·.run v = (.ok (), v))) rfl run_bind_eq_self ?_
      intro m hm x hx
      obtain ⟨x', hx', hread⟩ := hmembers m hm
      obtain rfl : x = x' := Option.some.inj (hx.symm.trans hx')
      rw [m.write_slot]
      exact ih m hm m.name (hplaced.stop_le hm hlimit)
        (hback.part (Place.part?_field hplaced hm none offset)) hread
    rw [write_plain, Shape.write, Layout.writeAt_eq, hknown, run_within]
    show (Except.mapError _ ((writeMembers limit l.members offset r).run v).1,
      ((writeMembers limit l.members offset r).run v).2) = _
    rw [hwrite]
    rfl
  | @array element length _ ih =>
    obtain ⟨items, rfl, hlength, hitems⟩ := read_array_eq_ok hread
    rw [write_plain, Shape.write, if_pos hlength]
    refine writeItems_induction (P := (·.run v = (.ok (), v))) rfl run_bind_eq_self ?_
    intro i x hx
    have hi : i < length := hlength ▸ (List.getElem?_eq_some_iff.1 hx).1
    obtain ⟨x', hx', hread⟩ := hitems i hi
    obtain rfl : x = x' := Option.some.inj (hx.symm.trans hx')
    rw [← write_plain]
    exact ih field (Nat.le_trans (item_stop_le hi offset element.size) hlimit)
      (hback.part (Place.part?_item hi none offset)) hread

end Write

/-! ## Records

The padding is no part of any value, so it only changes if it is zeroed. -/

namespace Layout

variable {l : Layout}

/-- **Reading a record and writing it again leaves every byte as it is,** on every view with the
platform's pointer width that is long enough and in which no access is made to fail, if its scalars
hold bits that they give back.  If the padding is zeroed, it becomes zero and nothing else
changes. -/
theorem write_read {config : Config} (hvalid : config.validate = .ok ()) (hbuilt : Built config l)
    {view : View} (hview : view.Writable config.platform) (hsize : l.size ≤ view.size)
    (hback : Place.GivesBack view ⟨l.slot, 0⟩) :
    ∃ r, l.read view = .ok r ∧ l.write false r view = (.ok (), view) ∧
      l.write true r view = (.ok (), { view with
        bytes := view.bytes.mapIdx fun b byte => if Covers l.padding b then 0 else byte }) := by
  have hs := hbuilt.sound (Config.usable_of_validate hvalid)
  have hsurveyed := hbuilt.constructed.surveyed
  obtain ⟨r, hr⟩ := exists_read hview.toReadable hs hsize
  have hslot : l.slot.read view l.size 0 = .ok (.record r) := by rw [read_slot, hr]; rfl
  have hwrite : (l.writeAt l.size false 0 r).run view = (.ok (), view) :=
    Slot.write_of_read hview hs.slot "" (Nat.le_of_eq (Nat.zero_add l.size)) hsize hback hslot
  have hplain : l.write false r view = (.ok (), view) := hwrite
  obtain ⟨hknown, -⟩ := writeAt_eq_ok hwrite
  refine ⟨r, hr, hplain, ?_⟩
  rw [write_zeroed hview hs hsurveyed hsize hknown, hplain, View.patch_zeros]

end Layout

/-- The flag is stored as zero, and the other scalars give back all bits. -/
theorem givesBack_overlaid : Place.GivesBack overlaidView ⟨overlaidLayout.slot, 0⟩ := by
  have hgapped (offset : Nat) :
      Place.GivesBack overlaidView ⟨⟨.record gappedLayout, none⟩, offset⟩ :=
    Place.givesBack_record <| List.forall_mem_cons.2 ⟨Place.givesBack_scalar trivial,
      List.forall_mem_singleton.2 (Place.givesBack_scalar trivial)⟩
  have hrow : Place.GivesBack overlaidView ⟨⟨.record gappedRowLayout, none⟩, 0⟩ :=
    Place.givesBack_record <| List.forall_mem_cons.2 ⟨Place.givesBack_array fun _ _ => hgapped _,
      List.forall_mem_singleton.2 (Place.givesBack_scalar (by decide))⟩
  exact Place.givesBack_record <| List.forall_mem_cons.2 ⟨hrow,
    List.forall_mem_cons.2 ⟨Place.givesBack_scalar trivial,
      List.forall_mem_singleton.2 (Place.givesBack_scalar trivial)⟩⟩

theorem write_read_overlaid :
    overlaidLayout.padding = [⟨1, 1⟩, ⟨5, 1⟩, ⟨9, 7⟩] ∧
      ∃ r, overlaidLayout.read overlaidView = .ok r ∧
        overlaidLayout.write false r overlaidView = (.ok (), overlaidView) ∧
        overlaidLayout.write true r overlaidView = (.ok (), { overlaidView with
          bytes := overlaidView.bytes.mapIdx fun b byte =>
            if Covers overlaidLayout.padding b then 0 else byte }) :=
  ⟨by decide, Layout.write_read (show Config.standard.validate = .ok () by decide) built_overlaid
    writable_overlaid (show 24 ≤ overlaidView.size from Nat.le_refl 24) givesBack_overlaid⟩

end NativeRecord
