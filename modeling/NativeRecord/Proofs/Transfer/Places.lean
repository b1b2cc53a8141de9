import NativeRecord.Proofs.Layout.Leaves
import NativeRecord.Proofs.Transfer.Slots

/-!
# Places in a record

A place is a slot together with the offset at which it lies.  Paths of field names and item indices
lead from place to place, and these are all the offsets that reading and writing come by.

Reading and writing are recursive functions on shapes, with one case for members, one for items and
one for scalars.  The theorems about them are about offsets, so the recursion is recast as a walk:
from a place, a step leads to the place of a part.  What holds of one step, such as that the part
lies within the place, holds along every path by induction over the path, and the shape has not to
be gone through again.

That the walk meets all offsets which are read is the last part of this module: the value at a path
is read from the place at this path.

## What is here

* `Slot.read`, `Slot.write` — members, elements of arrays and whole records are read and written the
  same way, as slots at an offset.
* `Slot.Sound` — the sound slots, one constructor for each way in which a slot is read and written.
  Built layouts are sound (`Layout.Sound.slot`).
* `Place`, with `Place.part?` and `Place.at?` — the places that steps and paths lead to; they lie
  within the place they start from (`Place.within_at?`).
* `Place.Owns`, `Place.Holds` — the bits of a place, and the bits of the scalars in it.
* `Slot.read_record_eq_ok`, `Slot.read_array_eq_ok` — what is read for a record or an array is made
  up of what is read for its parts, and so along every path (`Place.read_at?`).
-/

set_option autoImplicit false
namespace NativeRecord

/-! ## Reading and writing slots

A bit-field is not a shape, so the recursion on shapes cannot speak of it.  A slot is a shape
together with the bit range, if there is one. -/

namespace Slot

/-- The number of bytes; for a bit-field, those of its backing word. -/
def size (s : Slot) : Nat := s.shape.size

/-- The value in a slot at an offset. -/
def read (view : View) (limit : Nat) (s : Slot) (offset : Nat) : Except TransferError Value :=
  match bitField? s.shape s.bits with
  | some (type, size, range) => readBits view type size limit range offset
  | none => s.shape.read view limit offset

/-- Writes a value to a slot at an offset.  Failures name the field. -/
def write (field : String) (limit : Nat) (s : Slot) (offset : Nat) (x : Value) : Writing Unit :=
  match bitField? s.shape s.bits with
  | some (type, size, range) => writeBits field type size limit range offset x
  | none => s.shape.write field limit offset x

variable {view : View} {field : String} {limit offset : Nat} {x : Value}

/-- A slot without a bit range is read as its shape. -/
theorem read_plain (s : Shape) : read view limit ⟨s, none⟩ offset = s.read view limit offset := by
  cases s <;> rfl

/-- So it is written. -/
theorem write_plain (s : Shape) :
    write field limit ⟨s, none⟩ offset x = s.write field limit offset x := by
  cases s <;> rfl

end Slot

/-- A member is read as its slot, at its offset. -/
theorem MemberLayout.read_slot (m : MemberLayout) (view : View) (limit start : Nat) :
    m.read view limit start = m.slot.read view limit (start + m.offset) := by
  cases m; rfl

/-- So it is written, with its name in the failures. -/
theorem MemberLayout.write_slot (m : MemberLayout) (limit start : Nat) (x : Value) :
    m.write limit start x = m.slot.write m.name limit (start + m.offset) x := by
  cases m; rfl

/-- A record is read as the slot at the start of the view. -/
theorem Layout.read_slot (l : Layout) (view : View) :
    l.slot.read view l.size 0 = (l.read view).map Value.record := by
  rw [Layout.slot, Slot.read_plain, Shape.read, Layout.read, Layout.readInto]
  rcases l.readAt view l.size 0 .empty with ⟨e | ⟨⟩, r⟩ <;> rfl

/-! ## Sound slots

`Shape.Sound` and `Layout.Sound` are about a record and its members in turn.  As slots they are one
inductive predicate, and an induction over it has the hypotheses that a proof about transfers uses.
-/

/-- A slot in which all records are well placed and all scalars have the platform's size: a scalar
of its own, a bit-field in a word of its type, a record of sound members, or an array. -/
inductive Slot.Sound (platform : Platform) : Slot → Prop
  | scalar {type : Scalar} {alignment : Alignment} (hwidth : AccessWidth (type.size platform)) :
      Sound platform ⟨.scalar type (type.size platform) alignment, none⟩
  | bitField {a : Arith} {alignment : Alignment} {range : BitRange}
      (hwidth : AccessWidth (a.size platform)) (htype : a.allowsBitField = true)
      (hpos : 0 < range.width) (hfits : range.first + range.width ≤ 8 * a.size platform) :
      Sound platform ⟨.scalar (.arith a) (a.size platform) alignment, some range⟩
  | record {l : Layout} (hplaced : l.WellPlaced)
      (hmembers : ∀ m ∈ l.members, Sound platform m.slot) : Sound platform ⟨.record l, none⟩
  | array {element : Shape} {length : Nat} (h : Sound platform ⟨element, none⟩) :
      Sound platform ⟨.array element length, none⟩

section Sound

variable {platform : Platform}

/-- The slot of a sound member, once that of its shape alone is known to be sound. -/
theorem MemberLayout.sound_slot {m : MemberLayout} (hbits : m.BitsInWord)
    (hs : m.shape.Sound platform) (h : Slot.Sound platform ⟨m.shape, none⟩) :
    m.slot.Sound platform := by
  cases hrange : m.bits with
  | none => rwa [slot, hrange]
  | some range =>
    obtain ⟨a, size, alignment, hscalar, htype, hpos, hfits⟩ := hbits range hrange
    rw [hscalar] at hs
    rw [slot, hscalar, hrange]
    cases hs with
    | scalar hwidth => exact .bitField hwidth htype hpos hfits

theorem Shape.Sound.slot {s : Shape} (h : s.Sound platform) : Slot.Sound platform ⟨s, none⟩ := by
  induction h with
  | scalar hwidth => exact .scalar hwidth
  | @record l hplaced hmembers ih =>
    exact .record hplaced fun m hm => m.sound_slot (hplaced.bits m hm) (hmembers m hm) (ih m hm)
  | array _ ih => exact .array ih

theorem Layout.Sound.slot {l : Layout} (h : l.Sound platform) : l.slot.Sound platform :=
  Shape.Sound.slot h

end Sound

/-! ## Places

The offset of a place is counted from the start of the view, so places in different records can be
compared directly. -/

/-- A slot and the offset at which it lies. -/
structure Place where
  slot : Slot
  offset : Nat

namespace Place

/-- The place that a step leads to. -/
def part? (q : Place) : Step → Option Place
  | .field name =>
    match q.slot.shape with
    | .record l => (l.member? name).map fun m => ⟨m.slot, q.offset + m.offset⟩
    | _ => none
  | .item i =>
    match q.slot.shape with
    | .array element length =>
      if i < length then some ⟨⟨element, none⟩, q.offset + i * element.size⟩ else none
    | _ => none

/-- The place at a path. -/
def at? (q : Place) : List Step → Option Place
  | [] => some q
  | step :: path => (q.part? step).bind fun part => part.at? path

/-- The place is a scalar, or a bit-field. -/
def IsScalar (q : Place) : Prop :=
  ∃ type size alignment, q.slot.shape = .scalar type size alignment

/-- The place is a pointer. -/
def IsPointer (q : Place) : Prop :=
  ∃ target size alignment, q.slot.shape = .scalar (.pointer target) size alignment

/-- The bits of a place: those of its bytes; of a bit-field, those of its range. -/
def Owns (e : Endianness) (q : Place) (p : Nat) : Prop :=
  InBytes q.offset q.slot.size p ∧
    ∀ range, q.slot.bits = some range →
      range.mask.getLsbD (e.wordBit q.offset q.slot.size p) = true

/-- The bit lies in a scalar of the place. -/
def Holds (e : Endianness) (q : Place) (p : Nat) : Prop :=
  ∃ path scalar, q.at? path = some scalar ∧ scalar.IsScalar ∧ scalar.Owns e p

/-- A step by the name of a member leads to its slot; no other member has this name. -/
theorem part?_field {l : Layout} {m : MemberLayout} (hplaced : l.WellPlaced) (hm : m ∈ l.members)
    (bits : Option BitRange) (offset : Nat) :
    part? ⟨⟨.record l, bits⟩, offset⟩ (.field m.name) = some ⟨m.slot, offset + m.offset⟩ := by
  simp only [part?, hplaced.member?_eq_some hm, Option.map_some]

theorem part?_item {element : Shape} {length i : Nat} (hi : i < length) (bits : Option BitRange)
    (offset : Nat) :
    part? ⟨⟨.array element length, bits⟩, offset⟩ (.item i) =
      some ⟨⟨element, none⟩, offset + i * element.size⟩ :=
  if_pos hi

variable {platform : Platform} {q part place : Place} {e : Endianness} {p : Nat}

/-- A path may be followed in two parts. -/
theorem at?_append {path path' : List Step} (h : q.at? path = some place) :
    q.at? (path ++ path') = place.at? path' := by
  induction path generalizing q with
  | nil => cases h; rfl
  | cons step path ih =>
    obtain ⟨part, hpart, h⟩ := Option.bind_eq_some_iff.1 h
    rw [List.cons_append, at?, hpart, Option.bind_some, ih h]

/-- **A part lies within its place,** and is sound if this is. -/
theorem within_part? (hs : q.slot.Sound platform) {step : Step} (h : q.part? step = some part) :
    part.slot.Sound platform ∧ q.offset ≤ part.offset ∧
      part.offset + part.slot.size ≤ q.offset + q.slot.size := by
  obtain ⟨s, offset⟩ := q
  cases hs with
  | scalar | bitField => cases step <;> cases h
  | @record l hplaced hmembers =>
    cases step with
    | item i => cases h
    | field name =>
      obtain ⟨m, hm, rfl⟩ := Option.map_eq_some_iff.1 h
      have hmem := List.mem_of_find?_eq_some hm
      refine ⟨hmembers m hmem, Nat.le_add_right _ _, ?_⟩
      have hwithin : m.offset + m.slot.size ≤ l.size := hplaced.within m hmem
      show offset + m.offset + m.slot.size ≤ offset + l.size
      omega
  | @array element length hs =>
    cases step with
    | field name => cases h
    | item i =>
      obtain ⟨hi, h⟩ := Option.ite_none_right_eq_some.1 h
      cases h
      exact ⟨hs, Nat.le_add_right _ _, item_stop_le hi offset element.size⟩

/-- **Every place at a path lies within the place that the path starts from.** -/
theorem within_at? (hs : q.slot.Sound platform) {path : List Step} (h : q.at? path = some place) :
    place.slot.Sound platform ∧ q.offset ≤ place.offset ∧
      place.offset + place.slot.size ≤ q.offset + q.slot.size := by
  induction path generalizing q with
  | nil => cases h; exact ⟨hs, Nat.le_refl _, Nat.le_refl _⟩
  | cons step path ih =>
    obtain ⟨part, hpart, h⟩ := Option.bind_eq_some_iff.1 h
    obtain ⟨hsound, hlow, hhigh⟩ := within_part? hs hpart
    obtain ⟨hsound', hlow', hhigh'⟩ := ih hsound h
    exact ⟨hsound', Nat.le_trans hlow hlow', Nat.le_trans hhigh' hhigh⟩

/-- A bit of a scalar lies in a byte that the shape counts among those of its scalars. -/
theorem leafAt_of_at? {path : List Step} (h : q.at? path = some place) (hscalar : place.IsScalar)
    (howns : place.Owns e p) :
    q.offset ≤ p / 8 ∧ q.slot.shape.LeafAt (p / 8 - q.offset) := by
  induction path generalizing q with
  | nil =>
    cases h
    obtain ⟨type, size, alignment, hshape⟩ := hscalar
    obtain ⟨hlow, hhigh⟩ := howns.1
    rw [Slot.size, hshape, Shape.size] at hhigh
    rw [hshape]
    exact ⟨by omega, .scalar (by omega)⟩
  | cons step path ih =>
    obtain ⟨part, hpart, h⟩ := Option.bind_eq_some_iff.1 h
    obtain ⟨hle, hleaf⟩ := ih h
    obtain ⟨⟨shape, bits⟩, offset⟩ := q
    cases shape with
    | scalar => cases step <;> cases hpart
    | record l =>
      cases step with
      | item i => cases hpart
      | field name =>
        obtain ⟨m, hm, rfl⟩ := Option.map_eq_some_iff.1 hpart
        have hsum : p / 8 - offset = m.offset + (p / 8 - (offset + m.offset)) := by
          simp only at hle
          omega
        refine ⟨Nat.le_trans (Nat.le_add_right _ _) hle, ?_⟩
        simp only [hsum]
        exact .record (List.mem_of_find?_eq_some hm) hleaf
    | array element length =>
      cases step with
      | field name => cases hpart
      | item i =>
        obtain ⟨hi, hpart⟩ := Option.ite_none_right_eq_some.1 hpart
        cases hpart
        have hsum : p / 8 - offset = i * element.size + (p / 8 - (offset + i * element.size)) := by
          simp only at hle
          omega
        refine ⟨Nat.le_trans (Nat.le_add_right _ _) hle, ?_⟩
        simp only [hsum]
        exact .array hi hleaf

end Place

/-! ## What is read for the parts

A read that succeeds has read every part.  What it gives for a part is what reading the part alone
gives, since no read depends on another one. -/

section Read

variable {platform : Platform} {v : View} {limit offset : Nat}

/-- When members are read in a row without a failure, each of them is. -/
theorem exists_read_of_readMembers {tag : Tag} {ms : List MemberLayout} {start : Nat}
    {r back : Record} (h : readMembers v limit tag ms start r = (.ok (), back)) :
    ∀ m ∈ ms, ∃ y, m.read v limit start = .ok y := by
  induction ms generalizing r with
  | nil => nofun
  | cons m ms ih =>
    rw [readMembers] at h
    split at h
    · rename_i y hy
      exact List.forall_mem_cons.2 ⟨⟨y, hy⟩, ih h⟩
    · cases h

/-- When items are, each of them is. -/
theorem exists_read_of_readItems {read : Nat → Except TransferError Value} {stride offset : Nat}
    {count : Nat} {done items : List Value}
    (h : readItems read stride done offset count = .ok items) :
    ∀ i < count, ∃ y, read (offset + i * stride) = .ok y := by
  induction count generalizing offset done with
  | zero => intro i hi; omega
  | succ count ih =>
    rw [readItems] at h
    split at h
    · rename_i y hy
      intro i hi
      cases i with
      | zero => exact ⟨y, by rwa [Nat.zero_mul, Nat.add_zero]⟩
      | succ i =>
        have hnext := ih h i (Nat.lt_of_succ_lt_succ hi)
        rwa [item_offset_succ]
    · cases h

/-- **What is read for a record has a value for each member,** the one that is read for it, and for
nothing else. -/
theorem Slot.read_record_eq_ok {l : Layout} {y : Value} (hnames : (l.members.map (·.name)).Nodup)
    (h : read v limit ⟨.record l, none⟩ offset = .ok y) :
    ∃ back, y = .record back ∧ unknownName? l.members back = none ∧
      ∀ m ∈ l.members, ∃ x, back.get? m.name = some x ∧
        m.slot.read v limit (offset + m.offset) = .ok x := by
  rw [read_plain, Shape.read] at h
  have hreadAt : l.readAt v limit offset .empty =
      readMembers v limit l.tag l.members offset .empty := by cases l; rfl
  rcases hrun : readMembers v limit l.tag l.members offset .empty with ⟨e | ⟨⟩, back⟩
  · rw [hreadAt, hrun] at h; cases h
  · rw [hreadAt, hrun] at h
    obtain ⟨back', hback, hmembers, hothers⟩ :=
      readMembers_eq_ok l.tag hnames (exists_read_of_readMembers hrun) .empty
    obtain rfl : back = back' := congrArg Prod.snd (hrun.symm.trans hback)
    refine ⟨back, (Except.ok.inj h).symm, unknownName?_eq_none_iff.2 fun name hname => ?_,
      fun m hm => ?_⟩
    · by_contra hunknown
      have hnone := hothers name fun hmem => hunknown (List.mem_map.1 hmem)
      have hsome : (back.get? name).isSome := by
        rw [Record.get?, Option.isSome_map]
        exact isSome_lookup?_iff.2 hname
      rw [hnone] at hsome
      cases hsome
    · obtain ⟨x, hx, hread⟩ := hmembers m hm
      exact ⟨x, hx, (m.read_slot v limit offset).symm.trans hread⟩

/-- **What is read for an array are the values that are read for its elements.** -/
theorem Slot.read_array_eq_ok {element : Shape} {length : Nat} {y : Value}
    (h : read v limit ⟨.array element length, none⟩ offset = .ok y) :
    ∃ items, y = .array items ∧ items.length = length ∧
      ∀ i < length, ∃ x, items[i]? = some x ∧
        read v limit ⟨element, none⟩ (offset + i * element.size) = .ok x := by
  rw [read_plain, Shape.read] at h
  obtain ⟨items, hitems, h⟩ := except_bind_eq_ok.1 h
  obtain ⟨items', hitems', hlength, hread⟩ := readItems_eq_ok
    (fun offset => element.read v limit offset) element.size offset
    (exists_read_of_readItems hitems) []
  obtain rfl : items = items' := Except.ok.inj (hitems.symm.trans hitems')
  cases h
  refine ⟨items, rfl, hlength, fun i hi => ?_⟩
  obtain ⟨x, hx, hread⟩ := hread i hi
  exact ⟨x, hx, (read_plain element).trans hread⟩

/-- What is read for a place has, for each of its parts, the value that is read for the part. -/
theorem Place.read_part? {q part : Place} (hs : q.slot.Sound platform) {y : Value}
    (h : q.slot.read v limit q.offset = .ok y) {step : Step} (hstep : q.part? step = some part) :
    ∃ x, y.part? step = some x ∧ part.slot.read v limit part.offset = .ok x := by
  obtain ⟨s, offset⟩ := q
  cases hs with
  | scalar | bitField => cases step <;> cases hstep
  | record hplaced =>
    cases step with
    | item i => cases hstep
    | field name =>
      obtain ⟨m, hm, rfl⟩ := Option.map_eq_some_iff.1 hstep
      have hname : m.name = name := by simpa using List.find?_some hm
      obtain ⟨back, rfl, -, hread⟩ := Slot.read_record_eq_ok hplaced.names h
      obtain ⟨x, hx, hread⟩ := hread m (List.mem_of_find?_eq_some hm)
      exact ⟨x, hname ▸ hx, hread⟩
  | array =>
    cases step with
    | field name => cases hstep
    | item i =>
      obtain ⟨hi, hstep⟩ := Option.ite_none_right_eq_some.1 hstep
      cases hstep
      obtain ⟨items, rfl, -, hread⟩ := Slot.read_array_eq_ok h
      exact hread i hi

/-- **The value at a path is read from the place at this path.** -/
theorem Place.read_at? {q place : Place} (hs : q.slot.Sound platform) {y : Value}
    (h : q.slot.read v limit q.offset = .ok y) {path : List Step}
    (hpath : q.at? path = some place) :
    ∃ x, y.at? path = some x ∧ place.slot.read v limit place.offset = .ok x := by
  induction path generalizing q y with
  | nil => cases hpath; exact ⟨y, rfl, h⟩
  | cons step path ih =>
    obtain ⟨part, hpart, hpath⟩ := Option.bind_eq_some_iff.1 hpath
    obtain ⟨z, hz, hread⟩ := read_part? hs h hpart
    obtain ⟨x, hx, hread⟩ := ih (within_part? hs hpart).1 hread hpath
    exact ⟨x, Option.bind_eq_some_iff.2 ⟨z, hz, hx⟩, hread⟩

end Read

end NativeRecord
