import NativeRecord.Proofs.Transfer.Bounds
import NativeRecord.Transfer.Compare

/-!
# What comparing looks at

Comparing reads the solid bytes of two records, reading decodes the scalars, and writing sets the
bits of a member.  The three were worked out apart from each other; here they are set against each
other.

## What is here

* `View.slice_eq_iff` — the bytes of a run agree when its bits do.
* `Layout.equal_iff` — records are equal when their solid bytes are; `Layout.compare_congr` — no
  other byte takes part in the comparison.
* `Slot.exists_read_both`, `Slot.read_congr` — what is read depends on the bytes in scalars alone.
* `Layout.Compares`, `Layout.compares` — what equality says about the members, and what cannot be
  seen by comparing.
-/

set_option autoImplicit false
namespace NativeRecord

open NativeRecord.Span (Covers)

/-! ## Blocks

Comparing goes byte by byte, and the other transfers are described by bits.  Here the one is
translated into the other. -/

/-- **A run of bytes is the same in two views when its bits are.** -/
theorem View.slice_eq_iff {v w : View} {offset length : Nat} (hv : offset + length ≤ v.size)
    (hw : offset + length ≤ w.size) :
    v.slice offset length = w.slice offset length ↔
      ∀ p, InBytes offset length p → v.bit p = w.bit p := by
  constructor
  · intro h p hp
    rw [InBytes] at hp
    have hi : p / 8 - offset < length := by omega
    have hp' : p = 8 * (offset + (p / 8 - offset)) + p % 8 := by omega
    rw [hp', bit_eq_getLsbD hi (Nat.mod_lt _ (by decide)),
      bit_eq_getLsbD hi (Nat.mod_lt _ (by decide)), h]
  · intro h
    have hlengths : (v.slice offset length).length = (w.slice offset length).length := by
      rw [length_slice hv, length_slice hw]
    refine List.ext_getElem hlengths fun i hi hi' => BitVec.eq_of_getLsbD_eq fun k hk => ?_
    have hlt : i < length := by rwa [length_slice hv] at hi
    have hbit := h (8 * (offset + i) + k) (by rw [InBytes]; omega)
    rw [bit_eq_getLsbD hlt hk, bit_eq_getLsbD hlt hk] at hbit
    rwa [List.getElem?_eq_getElem hi, List.getElem?_eq_getElem hi'] at hbit

/-! ## The order of bytes

The solid spans are compared one after the other, and the first difference decides.  So two records
are equal when all spans hold the same bytes, and no byte outside of them can have an effect. -/

/-- Only equal runs of bytes compare as equal. -/
theorem compareBytes_eq_iff {xs ys : List Byte} : compareBytes xs ys = .eq ↔ xs = ys := by
  induction xs generalizing ys with
  | nil => cases ys <;> simp [compareBytes]
  | cons x xs ih =>
    cases ys with
    | nil => simp [compareBytes]
    | cons y ys =>
      rw [compareBytes, Ordering.then_eq_eq, ih, Std.compare_eq_iff_eq, BitVec.toNat_inj,
        List.cons.injEq]

/-- The order of the bytes that lie in some spans, the first difference deciding. -/
def orderIn (a b : View) : List Span → Ordering
  | [] => .eq
  | s :: rest =>
    (compareBytes (a.slice s.offset s.length) (b.slice s.offset s.length)).then (orderIn a b rest)

/-- Views come out equal if the bytes in all spans are. -/
theorem orderIn_eq_iff {a b : View} {spans : List Span} : orderIn a b spans = .eq ↔
    ∀ s ∈ spans, a.slice s.offset s.length = b.slice s.offset s.length := by
  induction spans with
  | nil => simp [orderIn]
  | cons s spans ih => rw [orderIn, Ordering.then_eq_eq, compareBytes_eq_iff, ih,
      List.forall_mem_cons]

/-- The order depends on the bytes in the spans alone. -/
theorem orderIn_congr {a b a' b' : View} {spans : List Span}
    (ha : ∀ s ∈ spans, a.slice s.offset s.length = a'.slice s.offset s.length)
    (hb : ∀ s ∈ spans, b.slice s.offset s.length = b'.slice s.offset s.length) :
    orderIn a b spans = orderIn a' b' spans := by
  induction spans with
  | nil => rfl
  | cons s spans ih =>
    obtain ⟨ha, has⟩ := List.forall_mem_cons.1 ha
    obtain ⟨hb, hbs⟩ := List.forall_mem_cons.1 hb
    rw [orderIn, orderIn, ha, hb, ih has hbs]

/-- Spans that lie in both views are compared without a failure. -/
theorem compareSpans_eq_ok {a b : View} (ha : ∀ offset, a.readFails offset = false)
    (hb : ∀ offset, b.readFails offset = false) {spans : List Span}
    (hsa : ∀ s ∈ spans, s.stop ≤ a.size) (hsb : ∀ s ∈ spans, s.stop ≤ b.size) :
    compareSpans a b spans = .ok (orderIn a b spans) := by
  induction spans with
  | nil => rfl
  | cons s spans ih =>
    obtain ⟨hsa, hrestA⟩ := List.forall_mem_cons.1 hsa
    obtain ⟨hsb, hrestB⟩ := List.forall_mem_cons.1 hsb
    have hrest := ih hrestA hrestB
    rw [compareSpans, View.loadBlock_eq_ok ha hsa, View.loadBlock_eq_ok hb hsb, orderIn]
    dsimp only [liftAccess, Bind.bind, Except.bind]
    cases compareBytes (a.slice s.offset s.length) (b.slice s.offset s.length) with
    | eq => exact hrest
    | lt | gt => rfl

namespace Layout

variable {platform : Platform} {l : Layout} {a b a' b' : View}

/-- Views that are long enough are compared by the bytes in the solid spans. -/
theorem compare_eq_ok (hs : (Shape.record l).Surveyed) (ha : ∀ offset, a.readFails offset = false)
    (hb : ∀ offset, b.readFails offset = false) (hsa : l.size ≤ a.size) (hsb : l.size ≤ b.size) :
    l.compare a b = .ok (orderIn a b l.solid) :=
  compareSpans_eq_ok ha hb (fun s h => Nat.le_trans (hs.stop_solid_le s h) hsa)
    fun s h => Nat.le_trans (hs.stop_solid_le s h) hsb

/-- The solid spans hold the same bytes when the bits of the solid bytes are the same. -/
theorem solid_slices_iff (hs : (Shape.record l).Surveyed) (hsa : l.size ≤ a.size)
    (hsb : l.size ≤ b.size) :
    (∀ s ∈ l.solid, a.slice s.offset s.length = b.slice s.offset s.length) ↔
      ∀ p, Covers l.solid (p / 8) → a.bit p = b.bit p := by
  have hslice (s : Span) (h : s ∈ l.solid) :
      a.slice s.offset s.length = b.slice s.offset s.length ↔
        ∀ p, p / 8 ∈ s → a.bit p = b.bit p := by
    have hstop : s.offset + s.length ≤ l.size := hs.stop_solid_le s h
    rw [View.slice_eq_iff (Nat.le_trans hstop hsa) (Nat.le_trans hstop hsb)]
    refine forall_congr' fun p => imp_congr ?_ Iff.rfl
    rw [InBytes, Span.mem_def, Span.stop]
    omega
  constructor
  · rintro h p ⟨s, hmem, hp⟩
    exact (hslice s hmem).1 (h s hmem) p hp
  · exact fun h s hmem => (hslice s hmem).2 fun p hp => h p ⟨s, hmem, hp⟩

/-- **Records are equal when their solid bytes are.** -/
theorem equal_iff (hs : (Shape.record l).Surveyed) (ha : a.Readable platform)
    (hb : b.Readable platform) (hsa : l.size ≤ a.size) (hsb : l.size ≤ b.size) :
    l.equal a b = .ok true ↔ ∀ p, Covers l.solid (p / 8) → a.bit p = b.bit p := by
  have hequal : l.equal a b = .ok (orderIn a b l.solid == .eq) := by
    rw [equal, compare_eq_ok hs ha.reads hb.reads hsa hsb]
    rfl
  rw [hequal, ← solid_slices_iff hs hsa hsb, ← orderIn_eq_iff, Except.ok.injEq, beq_iff_eq]

/-- **No byte that is not solid takes part in a comparison.** -/
theorem compare_congr (hs : (Shape.record l).Surveyed) (ha : a.Readable platform)
    (hb : b.Readable platform) (hsa : l.size ≤ a.size) (hsb : l.size ≤ b.size)
    (haa' : a.Alike a') (hbb' : b.Alike b')
    (hbitA : ∀ p, Covers l.solid (p / 8) → a.bit p = a'.bit p)
    (hbitB : ∀ p, Covers l.solid (p / 8) → b.bit p = b'.bit p) :
    l.compare a' b' = l.compare a b := by
  have hsa' : l.size ≤ a'.size := haa'.size_eq ▸ hsa
  have hsb' : l.size ≤ b'.size := hbb'.size_eq ▸ hsb
  rw [compare_eq_ok hs ha.reads hb.reads hsa hsb,
    compare_eq_ok hs (ha.of_alike haa').reads (hb.of_alike hbb').reads hsa' hsb']
  exact congrArg Except.ok (orderIn_congr ((solid_slices_iff hs hsa hsa').2 hbitA)
    ((solid_slices_iff hs hsb hsb').2 hbitB)).symm

end Layout

/-! ## Reading from the scalars

For reading, two views are the same if they have the same bytes in scalars.  The views need not be
alike: they may differ in length and address, since a read that stays within the record succeeds on
both.  The induction is over how a slot is sound. -/

section Leaves

variable {platform : Platform} {v w : View} {limit : Nat}

/-- The bits of the bytes that lie in a scalar of the shape at an offset are the same. -/
def Shape.SameLeaves (v w : View) (s : Shape) (offset : Nat) : Prop :=
  ∀ p, offset ≤ p / 8 → s.LeafAt (p / 8 - offset) → v.bit p = w.bit p

theorem Shape.SameLeaves.member {l : Layout} {offset : Nat}
    (h : (Shape.record l).SameLeaves v w offset) {m : MemberLayout} (hm : m ∈ l.members) :
    m.shape.SameLeaves v w (offset + m.offset) := by
  intro p hle hleaf
  refine h p (by omega) (leafAt_record_iff.2 ⟨m, hm, by omega, ?_⟩)
  rwa [Nat.sub_sub]

theorem Shape.SameLeaves.item {element : Shape} {length offset : Nat}
    (h : (Shape.array element length).SameLeaves v w offset) {i : Nat} (hi : i < length) :
    element.SameLeaves v w (offset + i * element.size) := by
  intro p hle hleaf
  refine h p (by omega) (leafAt_array_iff.2 ⟨i, hi, by omega, ?_⟩)
  rwa [Nat.sub_sub]

theorem Shape.SameLeaves.bit_eq {type : Scalar} {size offset : Nat} {alignment : Alignment}
    (h : (Shape.scalar type size alignment).SameLeaves v w offset) {p : Nat}
    (hp : InBytes offset size p) : v.bit p = w.bit p := by
  refine h p ?_ (leafAt_scalar_iff.2 ?_) <;> rw [InBytes] at hp <;> omega

theorem Shape.SameLeaves.word_eq {type : Scalar} {size offset : Nat} {alignment : Alignment}
    (h : (Shape.scalar type size alignment).SameLeaves v w offset)
    (hendian : v.endianness = w.endianness) (hv : offset + size ≤ v.size)
    (hw : offset + size ≤ w.size) :
    v.word offset size = w.word offset size := by
  have hslice := (View.slice_eq_iff hv hw).2 fun p hp => h.bit_eq hp
  rw [View.word, View.word, hendian, hslice]

/-- The same values give the same record, wherever its members are read from. -/
theorem readMembers_eq_of_ok (tag : Tag) {start : Nat} {ms : List MemberLayout}
    (h : ∀ m ∈ ms, ∃ y, m.read v limit start = .ok y ∧ m.read w limit start = .ok y) (r : Record) :
    readMembers v limit tag ms start r = readMembers w limit tag ms start r := by
  induction ms generalizing r with
  | nil => rfl
  | cons m ms ih =>
    obtain ⟨⟨y, hv, hw⟩, hms⟩ := List.forall_mem_cons.1 h
    rw [readMembers, readMembers, hv, hw]
    exact ih hms _

/-- **What is read depends on the bytes in scalars alone,** in views of any length and at any
address. -/
theorem Slot.exists_read_both (hv : v.Readable platform) (hw : w.Readable platform)
    (hendian : v.endianness = w.endianness) (hsv : limit ≤ v.size) (hsw : limit ≤ w.size)
    {s : Slot} (hs : s.Sound platform) {offset : Nat} (hlimit : offset + s.size ≤ limit)
    (hleaves : s.shape.SameLeaves v w offset) :
    ∃ y, s.read v limit offset = .ok y ∧ s.read w limit offset = .ok y := by
  induction hs generalizing offset with
  | scalar hwidth =>
    refine ⟨_, readScalar_eq_ok hv hwidth hlimit hsv, ?_⟩
    rw [hleaves.word_eq hendian (Nat.le_trans hlimit hsv) (Nat.le_trans hlimit hsw)]
    exact readScalar_eq_ok hw hwidth hlimit hsw
  | bitField hwidth =>
    refine ⟨_, readBits_eq_ok hv hwidth hlimit hsv, ?_⟩
    rw [hleaves.word_eq hendian (Nat.le_trans hlimit hsv) (Nat.le_trans hlimit hsw)]
    exact readBits_eq_ok hw hwidth hlimit hsw
  | @record l hplaced _ ih =>
    have hread : ∀ m ∈ l.members, ∃ y, m.read v limit offset = .ok y ∧
        m.read w limit offset = .ok y := by
      intro m hm
      rw [m.read_slot, m.read_slot]
      exact ih m hm (hplaced.stop_le hm hlimit) (hleaves.member hm)
    have hfirst : ∀ m ∈ l.members, ∃ y, m.read v limit offset = .ok y := fun m hm =>
      (hread m hm).imp fun _ => And.left
    obtain ⟨back, hback, -⟩ := readMembers_eq_ok l.tag hplaced.names hfirst .empty
    have hback' := (readMembers_eq_of_ok l.tag hread .empty).symm.trans hback
    cases l
    refine ⟨.record back, ?_, ?_⟩ <;> rw [read_plain] <;> simp only [Shape.read, Layout.readAt]
    · rw [hback]
    · rw [hback']
  | @array element length _ ih =>
    have hread : ∀ i < length, ∃ y, element.read v limit (offset + i * element.size) = .ok y ∧
        element.read w limit (offset + i * element.size) = .ok y := by
      intro i hi
      rw [← read_plain, ← read_plain]
      exact ih (Nat.le_trans (item_stop_le hi offset element.size) hlimit) (hleaves.item hi)
    obtain ⟨ys, hys, -⟩ := readItems_eq_ok (fun offset => element.read v limit offset)
      element.size offset (fun i hi => (hread i hi).imp fun _ => And.left) []
    have hsame : ∀ i < length, element.read v limit (offset + i * element.size) =
        element.read w limit (offset + i * element.size) := by
      intro i hi
      obtain ⟨y, hv, hw⟩ := hread i hi
      rw [hv, hw]
    have hys' : readItems (fun offset => element.read w limit offset) element.size [] offset
        length = .ok ([].reverse ++ ys) := (readItems_congr hsame).symm.trans hys
    refine ⟨.array ys, ?_, ?_⟩ <;> rw [read_plain, Shape.read]
    · rw [hys]; rfl
    · rw [hys']; rfl

/-- So it does in views that differ in their content at most, also if they are too short. -/
theorem Slot.read_congr (h : v.Alike w) (hpointers : v.pointerWidth = platform.pointerWidth)
    {s : Slot} (hs : s.Sound platform) {offset : Nat} (hleaves : s.shape.SameLeaves v w offset) :
    s.read v limit offset = s.read w limit offset := by
  induction hs generalizing offset with
  | scalar => exact readScalar_congr h hpointers _ _ _ fun p hp => hleaves.bit_eq hp
  | bitField => exact readBits_congr h _ _ _ _ _ fun p hp => hleaves.bit_eq hp.1
  | @record l _ _ ih =>
    have hread : ∀ m ∈ l.members, m.read v limit offset = m.read w limit offset := by
      intro m hm
      rw [m.read_slot, m.read_slot]
      exact ih m hm (hleaves.member hm)
    have hmembers := readMembers_congr h l.tag hread .empty
    cases l
    rw [read_plain, read_plain]
    simp only [Shape.read, Layout.readAt, hmembers]
  | @array element length _ ih =>
    rw [read_plain, read_plain, Shape.read, Shape.read]
    refine congrArg (· >>= _) (readItems_congr fun i hi => ?_)
    rw [← read_plain, ← read_plain]
    exact ih (hleaves.item hi)

end Leaves

/-! ## Comparing and transferring

A byte is solid if it lies in a scalar and in no member that holds a pointer.  So equal records have
the same bytes in all scalars of members that share no byte with such a member, and are read alike
there; and a write to a member that holds a pointer, or to padding, cannot be seen by comparing. -/

namespace Layout

variable {platform : Platform} {l : Layout} {a b : View}

/-- Records are read alike that hold the same bytes in scalars. -/
theorem exists_read_both (hs : l.Sound platform) (ha : a.Readable platform)
    (hb : b.Readable platform) (hendian : a.endianness = b.endianness) (hsa : l.size ≤ a.size)
    (hsb : l.size ≤ b.size) (hleaves : (Shape.record l).SameLeaves a b 0) :
    ∃ r, l.read a = .ok r ∧ l.read b = .ok r := by
  obtain ⟨y, hya, hyb⟩ := Slot.exists_read_both ha hb hendian hsa hsb hs.slot
    (Nat.le_of_eq (Nat.zero_add l.size)) hleaves
  rw [read_slot] at hya hyb
  obtain ⟨r, hr, rfl⟩ := except_map_eq_ok_iff.1 hya
  obtain ⟨r', hr', hsame⟩ := except_map_eq_ok_iff.1 hyb
  cases hsame
  exact ⟨r, hr, hr'⟩

/-- The bytes of a member that shares none with a member that holds a pointer are the same in equal
records, as far as they lie in scalars. -/
theorem sameLeaves_of_solid (hs : (Shape.record l).Surveyed)
    (hbit : ∀ p, Covers l.solid (p / 8) → a.bit p = b.bit p) {m : MemberLayout}
    (hm : m ∈ l.members)
    (hplain : ∀ n ∈ l.members, n.shape.HoldsPointer → ∀ c ∈ m.span, c ∉ n.span) :
    m.shape.SameLeaves a b (0 + m.offset) := by
  rw [Nat.zero_add]
  intro p hle hleaf
  have hspan : p / 8 ∈ m.span := by
    have hlt : p / 8 - m.offset < m.length := hleaf.lt_size (hs.members m hm)
    simp only [Span.mem_def, MemberLayout.offset_span, MemberLayout.stop_span]
    omega
  exact hbit p (hs.covers_solid_record.2 ⟨Shape.leafAt_record_iff.2 ⟨m, hm, hle, hleaf⟩,
    fun n hn hpointer => hplain n hn hpointer _ hspan⟩)

/-- A write to a member that holds a pointer sets no bit of a solid byte. -/
theorem set_keeps_solid (hpointers : a.pointerWidth = platform.pointerWidth)
    (hs : l.Sound platform) (hsurveyed : (Shape.record l).Surveyed) {i : Nat} {m : MemberLayout}
    (hm : l.members[i]? = some m) (hpointer : m.shape.HoldsPointer) (x : Value) {p : Nat}
    (hp : Covers l.solid (p / 8)) : a.bit p = ((l.set i x).run a).2.bit p := by
  refine ((set_confined hpointers hs i x).bit_eq ?_).symm
  rintro ⟨m', hm', howns⟩
  obtain rfl : m = m' := Option.some.inj (hm.symm.trans hm')
  refine (hsurveyed.covers_solid_record.1 hp).2 m (List.mem_of_getElem? hm) hpointer ?_
  have hbytes := howns.1
  rw [InBytes] at hbytes
  simp only [Span.mem_def, MemberLayout.offset_span, MemberLayout.stop_span]
  omega

/-- What comparing two records has to do with reading and writing them. -/
structure Compares (l : Layout) (a b : View) : Prop where
  /-- There is always an answer. -/
  total : ∃ order, l.compare a b = .ok order
  /-- Of equal records, a member that shares no byte with one that holds a pointer has the same
  value. -/
  member : l.equal a b = .ok true → ∀ i m, l.members[i]? = some m →
    (∀ n ∈ l.members, n.shape.HoldsPointer → ∀ c ∈ m.span, c ∉ n.span) →
      ∃ y, l.get a i = .ok y ∧ l.get b i = .ok y
  /-- Without pointers, all members have. -/
  record : l.equal a b = .ok true → ¬ (Shape.record l).HoldsPointer →
    ∃ r, l.read a = .ok r ∧ l.read b = .ok r
  /-- What is written to a member that holds a pointer, with success or not, cannot be seen. -/
  pointer : ∀ i m, l.members[i]? = some m → m.shape.HoldsPointer → ∀ x,
    l.compare ((l.set i x).run a).2 b = l.compare a b ∧
      l.compare b ((l.set i x).run a).2 = l.compare b a
  /-- Nor can the padding. -/
  padding : ∀ a' b', a.Alike a' → b.Alike b' →
    (∀ p, ¬ Covers l.padding (p / 8) → a.bit p = a'.bit p) →
    (∀ p, ¬ Covers l.padding (p / 8) → b.bit p = b'.bit p) →
      l.compare a' b' = l.compare a b

/-- **Comparing sees what reading sees, apart from the pointers,** on all views of the platform that
are long enough. -/
theorem compares {config : Config} (hvalid : config.validate = .ok ()) (hbuilt : Built config l)
    (ha : a.Readable config.platform) (hb : b.Readable config.platform)
    (hendian : a.endianness = b.endianness) (hsa : l.size ≤ a.size) (hsb : l.size ≤ b.size) :
    l.Compares a b := by
  have hs := hbuilt.sound (Config.usable_of_validate hvalid)
  have hsurveyed := hbuilt.constructed.surveyed
  have hslots : l.WellPlaced ∧ ∀ m ∈ l.members, m.slot.Sound config.platform := by
    cases hs.slot
    exact ⟨‹_›, ‹_›⟩
  obtain ⟨hplaced, hmembers⟩ := hslots
  refine ⟨⟨_, compare_eq_ok hsurveyed ha.reads hb.reads hsa hsb⟩, ?_, ?_, ?_, ?_⟩
  · intro hequal i m hm hplain
    have hbit := (equal_iff hsurveyed ha hb hsa hsb).1 hequal
    have hmem := List.mem_of_getElem? hm
    have hstop : 0 + m.offset + m.length ≤ l.size := by
      rw [Nat.zero_add]
      exact hplaced.within m hmem
    have hread := Slot.exists_read_both ha hb hendian hsa hsb (hmembers m hmem) hstop
      (sameLeaves_of_solid hsurveyed hbit hmem hplain)
    rwa [get, get, memberAt_eq_ok_iff.2 hm, ← m.read_slot, ← m.read_slot] at *
  · intro hequal hplain
    have hbit := (equal_iff hsurveyed ha hb hsa hsb).1 hequal
    have hleaves : (Shape.record l).SameLeaves a b 0 := fun p _ hleaf =>
      hbit p (hsurveyed.covers_solid_record.2
        ⟨hleaf, fun n hn hpointer => absurd (.record hn hpointer) hplain⟩)
    exact exists_read_both hs ha hb hendian hsa hsb hleaves
  · intro i m hm hpointer x
    have halike := (set_confined ha.pointers hs i x).alike
    have hbit (p : Nat) (hp : Covers l.solid (p / 8)) :=
      set_keeps_solid ha.pointers hs hsurveyed hm hpointer x hp
    exact ⟨compare_congr hsurveyed ha hb hsa hsb halike (.refl b) hbit fun _ _ => rfl,
      compare_congr hsurveyed hb ha hsb hsa (.refl b) halike (fun _ _ => rfl) hbit⟩
  · intro a' b' haa' hbb' hbitA hbitB
    have hsolid (p : Nat) (hp : Covers l.solid (p / 8)) : ¬ Covers l.padding (p / 8) :=
      fun hpadding => (hsurveyed.covers_padding.1 hpadding).2 (hsurveyed.covers_solid_record.1 hp).1
    exact compare_congr hsurveyed ha hb hsa hsb haa' hbb' (fun p hp => hbitA p (hsolid p hp))
      fun p hp => hbitB p (hsolid p hp)

end Layout

/-! ## Noise in the padding and the pointer -/

/-- The solid bytes of the other view, and all bits set around them. -/
def noisyView : View :=
  .ofBytes .host (Array.ofFn fun i : Fin 24 =>
    if Covers overlaidLayout.solid i then BitVec.ofNat 8 (i.val % 2) else 0xFF)

/-- The views differ in the padding and the pointer, but not in the row. -/
theorem compares_overlaid :
    overlaidLayout.equal overlaidView noisyView = .ok true ∧
      overlaidView.word 16 8 ≠ noisyView.word 16 8 ∧
      overlaidLayout.Compares overlaidView noisyView ∧
      ∃ y, overlaidLayout.get overlaidView 0 = .ok y ∧ overlaidLayout.get noisyView 0 = .ok y := by
  have hcompares : overlaidLayout.Compares overlaidView noisyView :=
    Layout.compares (show Config.standard.validate = .ok () by decide) built_overlaid
      writable_overlaid.toReadable ⟨rfl, fun _ => rfl⟩ rfl
      (show 24 ≤ overlaidView.size from Nat.le_refl 24)
      (show 24 ≤ noisyView.size from Nat.le_refl 24)
  have hequal : overlaidLayout.equal overlaidView noisyView = .ok true := by decide +kernel
  refine ⟨hequal, by decide +kernel, hcompares, hcompares.member hequal 0 _ rfl ?_⟩
  intro n hn hpointer c hc
  have hpointer := (built_overlaid.constructed.surveyed.members n hn).hasPointers_iff.2 hpointer
  have hlow : c < 10 := hc.2
  simp only [overlaidLayout, Layout.ofMembers, List.mem_cons, List.not_mem_nil, or_false] at hn
  rcases hn with rfl | rfl | rfl
  · cases hpointer
  · cases hpointer
  · exact fun hc' => absurd (Nat.le_trans hc'.1 (Nat.le_of_lt hlow)) (by decide)

end NativeRecord
