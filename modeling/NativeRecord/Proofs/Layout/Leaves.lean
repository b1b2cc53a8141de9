import NativeRecord.Proofs.Layout.Soundness
import NativeRecord.Proofs.Span

/-!
# Bytes in scalars

What the solid bytes and the padding of a layout are about: which bytes lie in a scalar, by the
members, the embedded records and the elements of arrays, and whether there is a pointer among the
scalars.  Every layout keeps its answer and uses the answers of the records that it embeds.

`Shape.LeafAt` is what the lists are measured by, and is defined by going through the shape with no
list in sight.  The answers of a shape are computed from those of its parts, which a record keeps
instead of asking for them again.  So the induction is over the shape, and what it needs of each
record is `Shape.Surveyed`: what the record keeps was computed from its members.

Arrays are the only place where a shortcut is taken: one without gaps is a single span.  That this
keeps the bytes is arithmetic about blocks of equal size (`lt_mul_iff_exists`).

## What is here

* `Shape.LeafAt` — a byte lies in a scalar of a shape; `Shape.HoldsPointer` — a pointer occurs in a
  shape.
* `Layout.Constructed` — a layout that the builder has answered with, under any configuration.
* `Shape.Surveyed` — every record in a shape keeps the coverage of its members and holds them
  within its size.  Constructed layouts are surveyed (`Layout.Constructed.surveyed`).
* `Shape.Surveyed.covers_solid`, `Shape.Surveyed.covers_occupied` — what a surveyed shape answers is
  what lies in its scalars.
-/

set_option autoImplicit false
namespace NativeRecord

open NativeRecord.Span (Covers)

/-! ## Scalars and pointers in a shape -/

/-- The bytes of a shape that lie in a scalar, counted from its start. -/
inductive Shape.LeafAt : Shape → Nat → Prop
  | scalar {type : Scalar} {size b : Nat} {alignment : Alignment} (h : b < size) :
      LeafAt (.scalar type size alignment) b
  | record {l : Layout} {m : MemberLayout} {b : Nat} (hm : m ∈ l.members) (h : m.shape.LeafAt b) :
      LeafAt (.record l) (m.offset + b)
  | array {element : Shape} {length i b : Nat} (hi : i < length) (h : element.LeafAt b) :
      LeafAt (.array element length) (i * element.size + b)

/-- A pointer occurs in a shape, be it in an array without elements. -/
inductive Shape.HoldsPointer : Shape → Prop
  | scalar (target : CType) (size : Nat) (alignment : Alignment) :
      HoldsPointer (.scalar (.pointer target) size alignment)
  | record {l : Layout} {m : MemberLayout} (hm : m ∈ l.members) (h : m.shape.HoldsPointer) :
      HoldsPointer (.record l)
  | array {element : Shape} (length : Nat) (h : element.HoldsPointer) :
      HoldsPointer (.array element length)

namespace Shape

theorem leafAt_scalar_iff {type : Scalar} {size b : Nat} {alignment : Alignment} :
    (scalar type size alignment).LeafAt b ↔ b < size :=
  ⟨fun h => by cases h; assumption, .scalar⟩

theorem leafAt_record_iff {l : Layout} {b : Nat} :
    (record l).LeafAt b ↔ ∃ m ∈ l.members, m.offset ≤ b ∧ m.shape.LeafAt (b - m.offset) := by
  constructor
  · rintro (_ | ⟨hm, h⟩)
    refine ⟨_, hm, Nat.le_add_right _ _, ?_⟩
    rwa [Nat.add_sub_cancel_left]
  · rintro ⟨m, hm, hle, h⟩
    have hleaf := LeafAt.record hm h
    rwa [Nat.add_sub_cancel' hle] at hleaf

theorem leafAt_array_iff {element : Shape} {length b : Nat} :
    (array element length).LeafAt b ↔
      ∃ i < length, i * element.size ≤ b ∧ element.LeafAt (b - i * element.size) := by
  constructor
  · rintro (_ | _ | ⟨hi, h⟩)
    refine ⟨_, hi, Nat.le_add_right _ _, ?_⟩
    rwa [Nat.add_sub_cancel_left]
  · rintro ⟨i, hi, hle, h⟩
    have hleaf := LeafAt.array hi h
    rwa [Nat.add_sub_cancel' hle] at hleaf

/-- The bytes of an array that lies at an offset. -/
theorem leafAt_array_from_iff {element : Shape} {length : Nat} (offset b : Nat) :
    offset ≤ b ∧ (array element length).LeafAt (b - offset) ↔
      ∃ i < length, offset + i * element.size ≤ b ∧
        element.LeafAt (b - (offset + i * element.size)) := by
  simp only [leafAt_array_iff, Nat.sub_sub]
  constructor
  · rintro ⟨hb, i, hi, hle, hleaf⟩
    exact ⟨i, hi, by omega, hleaf⟩
  · rintro ⟨i, hi, hle, hleaf⟩
    exact ⟨by omega, i, hi, by omega, hleaf⟩

end Shape

/-! ## Surveyed shapes

A layout is a record like any other and may hold any coverage.  That it holds its own is an
invariant of what the builder makes. -/

/-- A shape in which every record keeps the coverage of its members, and holds them within. -/
inductive Shape.Surveyed : Shape → Prop
  | scalar (type : Scalar) (size : Nat) (alignment : Alignment) :
      Surveyed (.scalar type size alignment)
  | record {l : Layout} (hcoverage : l.coverage = .ofMembers l.size l.members)
      (hwithin : ∀ m ∈ l.members, m.offset + m.length ≤ l.size)
      (hmembers : ∀ m ∈ l.members, m.shape.Surveyed) : Surveyed (.record l)
  | array {element : Shape} (length : Nat) (h : element.Surveyed) : Surveyed (.array element length)

namespace Shape

variable {s : Shape} {b : Nat}

theorem LeafAt.lt_size (h : s.LeafAt b) (hs : s.Surveyed) : b < s.size := by
  induction h with
  | scalar h => exact h
  | @record l m b hm _ ih =>
    cases hs with
    | record _ hwithin hmembers =>
      have hlt : b < m.length := ih (hmembers m hm)
      have hle := hwithin m hm
      simp only [size]
      omega
  | @array element length i b hi _ ih =>
    cases hs with
    | array _ h =>
      have hlt := ih h
      have hle := item_stop_le hi 0 element.size
      rw [size]
      omega

/-- **A surveyed shape knows whether a pointer occurs in it.** -/
theorem Surveyed.hasPointers_iff (hs : s.Surveyed) : s.hasPointers = true ↔ s.HoldsPointer := by
  induction hs with
  | scalar type size alignment =>
    cases type with
    | arith a => constructor <;> rintro ⟨⟩
    | pointer target => exact ⟨fun _ => .scalar target size alignment, fun _ => rfl⟩
  | @record l hcoverage _ _ ih =>
    rw [hasPointers, hcoverage, Coverage.ofMembers, List.any_eq_true]
    constructor
    · rintro ⟨m, hm, h⟩
      exact .record hm ((ih m hm).1 h)
    · rintro (_ | ⟨hm, h⟩)
      exact ⟨_, hm, (ih _ hm).2 h⟩
  | array length _ ih =>
    rw [hasPointers, ih]
    refine ⟨.array length, fun h => ?_⟩
    cases h
    assumption

end Shape

/-! ## Arrays

The elements of an array, one by one or as a whole, cover the same bytes. -/

/-- The bytes of the elements of an array, element by element. -/
theorem covers_elements {size length b : Nat} {spans : List Span} :
    Covers ((List.range length).flatMap fun i => spans.map (Span.shift (i * size))) b ↔
      ∃ i < length, i * size ≤ b ∧ Covers spans (b - i * size) := by
  simp only [Span.covers_flatMap, Span.covers_map_shift, List.mem_range]

/-- An array whose elements are covered from end to end is covered as a whole. -/
theorem lt_mul_iff_exists {size length b : Nat} :
    b < size * length ↔ ∃ i < length, i * size ≤ b ∧ b - i * size < size := by
  constructor
  · intro hb
    have hsize : 0 < size := Nat.pos_of_mul_pos_right (Nat.zero_lt_of_lt hb)
    have hdiv := Nat.div_add_mod b size
    have hmod := Nat.mod_lt b hsize
    rw [Nat.mul_comm] at hdiv
    exact ⟨b / size, Nat.div_lt_of_lt_mul hb, by omega, by omega⟩
  · rintro ⟨i, hi, hle, hlt⟩
    have hnext := item_stop_le hi 0 size
    omega

/-- **The shortcuts for arrays keep the bytes.** -/
theorem covers_repeatSpans {size length b : Nat} {spans : List Span}
    (hspans : ∀ b, Covers spans b → b < size) :
    Covers (if size = 0 ∨ length = 0 then [] else repeatSpans size length spans) b ↔
      ∃ i < length, i * size ≤ b ∧ Covers spans (b - i * size) := by
  split
  · rename_i hempty
    refine ⟨fun h => absurd h (Span.not_covers_nil b), ?_⟩
    rintro ⟨i, hi, -, hb⟩
    have := hspans _ hb
    omega
  · rename_i hbytes
    rw [repeatSpans]
    split
    · rename_i hfull
      have hwhole (n c : Nat) : Covers [⟨0, n⟩] c ↔ c < n := by simp [Span.mem_def, Span.stop]
      rw [hfull, hwhole, lt_mul_iff_exists]
      simp only [hwhole]
    · exact covers_elements

/-! ## What a shape answers

First what one record makes of the answers of its members, and then, by induction over the shape,
what the answers are. -/

section Members

variable {l : Layout} {b : Nat}

/-- The bytes of the members without pointers, as they answer them. -/
theorem covers_plainSpans_iff {members : List MemberLayout} :
    Covers (plainSpans members) b ↔ ∃ m ∈ members, m.shape.hasPointers = false ∧
      m.offset ≤ b ∧ Covers m.shape.solid (b - m.offset) := by
  simp only [plainSpans, Span.covers_flatMap, Span.covers_map_shift, List.mem_filter,
    Bool.not_eq_true', and_assoc]

/-- All bytes of the members with pointers. -/
theorem covers_pointerSpans_iff {members : List MemberLayout} :
    Covers (pointerSpans members) b ↔ ∃ m ∈ members, m.shape.hasPointers = true ∧ b ∈ m.span := by
  simp only [pointerSpans, Span.covers_def, List.mem_map, List.mem_filter]
  constructor
  · rintro ⟨_, ⟨m, ⟨hm, hp⟩, rfl⟩, hb⟩
    exact ⟨m, hm, hp, hb⟩
  · rintro ⟨m, hm, hp, hb⟩
    exact ⟨_, ⟨m, ⟨hm, hp⟩, rfl⟩, hb⟩

/-- The bytes that the members occupy, as they answer them. -/
theorem covers_occupiedSpans_iff {members : List MemberLayout} :
    Covers (occupiedSpans members) b ↔
      ∃ m ∈ members, m.offset ≤ b ∧ Covers m.shape.occupied (b - m.offset) := by
  simp only [occupiedSpans, Span.covers_flatMap, Span.covers_map_shift]

end Members

namespace Shape.Surveyed

variable {s : Shape} {l : Layout} {b : Nat}

theorem coverage_eq (hs : (Shape.record l).Surveyed) :
    l.coverage = .ofMembers l.size l.members := by
  cases hs
  assumption

theorem within (hs : (Shape.record l).Surveyed) :
    ∀ m ∈ l.members, m.offset + m.length ≤ l.size := by
  cases hs
  assumption

theorem members (hs : (Shape.record l).Surveyed) : ∀ m ∈ l.members, m.shape.Surveyed := by
  cases hs
  assumption

/-- The solid bytes of a record, once those of its members without pointers are known. -/
theorem covers_solid_of_members (hs : (Shape.record l).Surveyed)
    (h : ∀ m ∈ l.members, m.shape.hasPointers = false →
      ∀ b, Covers m.shape.solid b ↔ m.shape.LeafAt b) :
    Covers l.solid b ↔ (Shape.record l).LeafAt b ∧
      ∀ m ∈ l.members, m.shape.HoldsPointer → b ∉ m.span := by
  rw [Layout.solid, hs.coverage_eq, Coverage.ofMembers,
    covers_withoutSpans (separated_normalizeSpans _), covers_normalizeSpans,
    covers_normalizeSpans, covers_plainSpans_iff, covers_pointerSpans_iff, leafAt_record_iff]
  have hpointers : (¬ ∃ m ∈ l.members, m.shape.hasPointers = true ∧ b ∈ m.span) ↔
      ∀ m ∈ l.members, m.shape.HoldsPointer → b ∉ m.span := by
    simp only [not_exists, not_and]
    exact forall₂_congr fun m hm => by rw [(hs.members m hm).hasPointers_iff]
  rw [hpointers]
  refine and_congr_left fun hfree => exists_congr fun m => and_congr_right fun hm => ?_
  constructor
  · rintro ⟨hplain, hle, hb⟩
    exact ⟨hle, (h m hm hplain _).1 hb⟩
  · rintro ⟨hle, hb⟩
    -- A byte of a scalar lies in the span of its member, so the member holds no pointer.
    have hspan : b ∈ m.span := by
      have hlt : b - m.offset < m.length := hb.lt_size (hs.members m hm)
      simp only [Span.mem_def, MemberLayout.offset_span, MemberLayout.stop_span]
      omega
    have hplain : m.shape.hasPointers = false := by
      rw [← Bool.not_eq_true, (hs.members m hm).hasPointers_iff]
      exact fun hpointer => hfree m hm hpointer hspan
    exact ⟨hplain, hle, (h m hm hplain _).2 hb⟩

/-- **The solid bytes of a shape without pointers are those that lie in a scalar.** -/
theorem covers_solid (hs : s.Surveyed) (hplain : s.hasPointers = false) :
    Covers s.solid b ↔ s.LeafAt b := by
  induction hs generalizing b with
  | scalar => simp [solid, leafAt_scalar_iff, Span.mem_def, Span.stop]
  | @record l hcoverage hwithin hmembers ih =>
    have hs := Shape.Surveyed.record hcoverage hwithin hmembers
    refine (hs.covers_solid_of_members fun m hm h _ => ih m hm h).trans ?_
    refine and_iff_left fun m hm hpointer => ?_
    have hsome := hs.hasPointers_iff.2 (.record hm hpointer)
    rw [hplain] at hsome
    cases hsome
  | @array element length h ih =>
    rw [solid, covers_repeatSpans fun b hb => ((ih hplain).1 hb).lt_size h, leafAt_array_iff]
    simp only [ih hplain]

theorem separated_padding (hs : (Shape.record l).Surveyed) : Separated l.padding := by
  rw [Layout.padding, hs.coverage_eq]
  exact separated_complementSpans (separated_normalizeSpans _)

/-- The padding of a record, once the occupied bytes of its members are known. -/
theorem covers_padding_of_members (hs : (Shape.record l).Surveyed)
    (h : ∀ m ∈ l.members, ∀ b, Covers m.shape.occupied b ↔ m.shape.LeafAt b) :
    Covers l.padding b ↔ b < l.size ∧ ¬ (Shape.record l).LeafAt b := by
  rw [Layout.padding, hs.coverage_eq, Coverage.ofMembers,
    covers_complementSpans (separated_normalizeSpans _), covers_normalizeSpans,
    covers_occupiedSpans_iff, leafAt_record_iff]
  refine and_congr_right fun _ => not_congr (exists_congr fun m => ?_)
  exact and_congr_right fun hm => and_congr_right fun _ => h m hm _

/-- **The occupied bytes of a shape are those that lie in a scalar.** -/
theorem covers_occupied (hs : s.Surveyed) : Covers s.occupied b ↔ s.LeafAt b := by
  induction hs generalizing b with
  | scalar => simp [occupied, leafAt_scalar_iff, Span.mem_def, Span.stop]
  | @record l hcoverage hwithin hmembers ih =>
    have hs := Shape.Surveyed.record hcoverage hwithin hmembers
    show Covers (complementSpans l.size l.padding) b ↔ _
    rw [covers_complementSpans hs.separated_padding,
      hs.covers_padding_of_members fun m hm _ => ih m hm]
    constructor
    · rintro ⟨hb, h⟩
      by_contra hnot
      exact h ⟨hb, hnot⟩
    · intro h
      exact ⟨h.lt_size hs, fun h' => h'.2 h⟩
  | @array element length h ih =>
    rw [occupied, covers_repeatSpans fun b hb => (ih.1 hb).lt_size h, leafAt_array_iff]
    simp only [ih]

end Shape.Surveyed

/-! ## Constructed layouts

The induction is over how often the builder was asked for one layout while it built another.  The
serial number that a registry gives to a layout is changed afterwards and is not part of what is
surveyed. -/

/-- A layout that the builder has answered with, under any configuration and whatever state it asks
in, as long as it is only told of layouts of that kind.  The serial number is that of the one who
keeps it. -/
inductive Layout.Constructed : Layout → Prop
  | intro {config : Config} {σ : Type} {resolve : Resolver (StateM σ)} {decl : RecordDecl}
      {l : Layout} {s s' : σ}
      (nested : ∀ tag t inner t', (resolve tag).run t = (.ok inner, t') → Constructed inner)
      (run : (build .word64 config resolve decl).run s = (.ok l, s')) (serial : Nat) :
      Constructed { l with serial := serial }

theorem Built.constructed {config : Config} {l : Layout} (h : Built config l) : l.Constructed := by
  induction h with
  | intro _ run serial ih => exact .intro ih run serial

theorem ShapeOf.surveyed {limit : SizeLimit} {platform : Platform} {owner : Tag}
    {Has : Tag → Layout → Prop} {name : String} {type : CType} {shape : Shape}
    (hhas : ∀ tag l, Has tag l → (Shape.record l).Surveyed)
    (h : ShapeOf limit platform owner Has name type shape) : shape.Surveyed := by
  induction h with
  | arith h | pointer h => obtain ⟨_, rfl⟩ := scalarShape_eq_ok h; exact .scalar _ _ _
  | record h => exact hhas _ _ h
  | array _ _ ih => exact .array _ ih

theorem Builds.surveyed {limit : SizeLimit} {Has : Tag → Layout → Prop} {config : Config}
    {decl : RecordDecl} {l : Layout} (hhas : ∀ tag l, Has tag l → (Shape.record l).Surveyed)
    (h : Builds limit Has config decl l) (serial : Nat) :
    (Shape.record { l with serial := serial }).Surveyed := by
  have hcoverage : l.coverage = .ofMembers l.size l.members := by
    obtain ⟨_, _, _, _, _, hlayout⟩ := h
    obtain ⟨_, _, _, _, _, _, _, _, rfl⟩ := assemble_eq_ok hlayout
    rfl
  refine .record hcoverage h.wellPlaced.within fun p hp => ?_
  obtain ⟨-, -, -, pack, members, hmembers, hplaced, -, -⟩ := h.exists_members
  obtain ⟨m, hm, hmp⟩ := exists_mem_of_forall₂ hplaced hp
  obtain ⟨d, -, hd⟩ := exists_mem_of_forall₂ hmembers hm
  rw [hmp.shape]
  exact hd.shape.surveyed hhas

/-- **Constructed layouts are surveyed,** at every depth. -/
theorem Layout.Constructed.surveyed {l : Layout} (h : l.Constructed) :
    (Shape.record l).Surveyed := by
  induction h with
  | intro _ run serial ih => exact (builds_of_run ih run).surveyed (fun _ _ h => h) serial

end NativeRecord
