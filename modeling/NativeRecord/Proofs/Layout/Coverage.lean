import NativeRecord.Proofs.Layout.Leaves

/-!
# What the coverage of a layout means

A layout carries the lists of its solid and of its padding bytes.  They were put together from the
lists of the embedded records by shifting, repeating and merging, and an array without gaps is taken
as one span.  Here all this is forgotten again: each list is characterized by the bytes in it.

Which bytes these are is said in terms of the scalars at any depth, `Shape.LeafAt`, without
reference to any list.  Since a list of spans in normal form is determined by its bytes, there is no
room for two different answers, and any other way to compute the list, such as a visit to every
element of every array, gives the same one.

## What is here

* `Layout.solid_bytes` — the solid bytes are those that lie in a scalar and in no member that holds
  a pointer.  They are listed in normal form, so the shortcuts for arrays cannot be told from a
  visit to every element (`solidElementwise`).
* `Layout.padding_bytes` — the padding is the bytes that lie in no scalar, in normal form.  It has
  no byte in common with the solid bytes, and without pointers each byte lies in exactly one span
  of the two lists.
-/

set_option autoImplicit false
namespace NativeRecord

open NativeRecord.Span (Covers)

/-! ## Arrays without shortcuts

The same computation without the shortcuts.  It does not serve as a specification, which is
`Shape.LeafAt`; it only shows that taking them has no effect on the result. -/

/-- The solid bytes of a shape, with every element of an array visited. -/
def Shape.solidByElement : Shape → List Span
  | scalar _ size _ => [⟨0, size⟩]
  | record layout => layout.coverage.solid
  | array element length =>
    (List.range length).flatMap fun i => element.solidByElement.map (Span.shift (i * element.size))

/-- The solid bytes of a record with these members, with every element of their arrays visited. -/
def solidElementwise (members : List MemberLayout) : List Span :=
  let plain := (members.filter (!·.shape.hasPointers)).flatMap fun m =>
    m.shape.solidByElement.map (Span.shift m.offset)
  withoutSpans (normalizeSpans plain) (normalizeSpans (pointerSpans members))

namespace Shape.Surveyed

variable {s : Shape} {l : Layout} {b : Nat}

/-- Visiting every element finds the same bytes: by induction over nested arrays, because a run of
elements covers what its elements do. -/
theorem covers_solidByElement (hs : s.Surveyed) (hplain : s.hasPointers = false) :
    Covers s.solidByElement b ↔ Covers s.solid b := by
  induction s using Shape.arrayInduction generalizing b with
  | scalar | record => rfl
  | array element length ih =>
    cases hs with
    | array _ h =>
      rw [solidByElement, solid, covers_elements,
        covers_repeatSpans fun b hb => ((h.covers_solid hplain).1 hb).lt_size h]
      simp only [ih h hplain]

/-- The same list, and not only the same bytes: both are in normal form. -/
theorem solid_eq_elementwise (hs : (Shape.record l).Surveyed) :
    l.solid = solidElementwise l.members := by
  rw [Layout.solid, hs.coverage_eq, Coverage.ofMembers, solidElementwise]
  refine congrArg (withoutSpans · _) (normalizeSpans_congr fun b => ?_)
  simp only [plainSpans, Span.covers_flatMap, Span.covers_map_shift]
  refine exists_congr fun m => and_congr_right fun hm => and_congr_right fun _ => ?_
  obtain ⟨hm, hplain⟩ := List.mem_filter.1 hm
  exact ((hs.members m hm).covers_solidByElement (by simpa using hplain)).symm

theorem separated_solid (hs : (Shape.record l).Surveyed) : Separated l.solid := by
  rw [Layout.solid, hs.coverage_eq]
  exact separated_withoutSpans (separated_normalizeSpans _).2 (separated_normalizeSpans _)

/-- The solid bytes of a record, also of one with members that hold pointers. -/
theorem covers_solid_record (hs : (Shape.record l).Surveyed) :
    Covers l.solid b ↔ (Shape.record l).LeafAt b ∧
      ∀ m ∈ l.members, m.shape.HoldsPointer → b ∉ m.span :=
  hs.covers_solid_of_members fun m hm hplain _ => (hs.members m hm).covers_solid hplain

theorem stop_solid_le (hs : (Shape.record l).Surveyed) : ∀ s ∈ l.solid, s.stop ≤ l.size :=
  hs.separated_solid.stop_le fun _ hb => (hs.covers_solid_record.1 hb).1.lt_size hs

/-- The padding is what the scalars leave free. -/
theorem covers_padding (hs : (Shape.record l).Surveyed) :
    Covers l.padding b ↔ b < l.size ∧ ¬ (Shape.record l).LeafAt b :=
  hs.covers_padding_of_members fun m hm _ => (hs.members m hm).covers_occupied

theorem stop_padding_le (hs : (Shape.record l).Surveyed) : ∀ s ∈ l.padding, s.stop ≤ l.size :=
  hs.separated_padding.stop_le fun _ hb => (hs.covers_padding.1 hb).1

end Shape.Surveyed

/-! ## The two lists

Both theorems put together what was shown of surveyed shapes.  Only the last clause of the second
one needs more: in a record without pointers every byte in a scalar is solid, so that each byte is
in one of the lists, and a list in normal form has each of its bytes in one span. -/

namespace Layout

variable {l : Layout}

/-- **The solid bytes are those that lie in a scalar and in no member that holds a pointer,** listed
in normal form and within the record.  The shortcuts for arrays do not show in the list. -/
theorem solid_bytes (h : l.Constructed) :
    (∀ b, Covers l.solid b ↔ (Shape.record l).LeafAt b ∧
        ∀ m ∈ l.members, m.shape.HoldsPointer → b ∉ m.span) ∧
      Separated l.solid ∧ (∀ s ∈ l.solid, s.stop ≤ l.size) ∧
      l.solid = solidElementwise l.members := by
  have hs := h.surveyed
  have hbelow (b : Nat) (hb : Covers l.solid b) : b < l.size :=
    (hs.covers_solid_record.1 hb).1.lt_size hs
  exact ⟨fun _ => hs.covers_solid_record, hs.separated_solid, hs.separated_solid.stop_le hbelow,
    hs.solid_eq_elementwise⟩

/-- **The padding is the bytes that lie in no scalar,** listed in normal form and within the record.
No byte is solid and padding, and in a record without pointers each byte lies in exactly one span of
the two lists. -/
theorem padding_bytes (h : l.Constructed) :
    (∀ b < l.size, Covers l.padding b ↔ ¬ (Shape.record l).LeafAt b) ∧
      Separated l.padding ∧ (∀ s ∈ l.padding, s.stop ≤ l.size) ∧
      (∀ b, ¬ (Covers l.solid b ∧ Covers l.padding b)) ∧
      (l.hasPointers = false → ∀ b < l.size, (l.solid ++ l.padding).countP (b ∈ ·) = 1) := by
  have hs := h.surveyed
  have hapart (b : Nat) : ¬ (Covers l.solid b ∧ Covers l.padding b) := fun ⟨hsolid, hpadding⟩ =>
    (hs.covers_padding.1 hpadding).2 (hs.covers_solid_record.1 hsolid).1
  refine ⟨fun b hb => hs.covers_padding.trans (and_iff_right hb), hs.separated_padding,
    hs.separated_padding.stop_le fun b hb => (hs.covers_padding.1 hb).1, hapart, ?_⟩
  intro hplain b hb
  rw [List.countP_append]
  by_cases hleaf : (Shape.record l).LeafAt b
  · have hsolid : Covers l.solid b := (hs.covers_solid hplain).2 hleaf
    rw [hs.separated_solid.countP_eq_one hsolid,
      countP_eq_zero_of_not_covers fun hpadding => hapart b ⟨hsolid, hpadding⟩]
  · have hpadding : Covers l.padding b := hs.covers_padding.2 ⟨hb, hleaf⟩
    rw [hs.separated_padding.countP_eq_one hpadding,
      countP_eq_zero_of_not_covers fun hsolid => hapart b ⟨hsolid, hpadding⟩]

end Layout

/-! ## Gaps in an array, and a pointer overlaid with a number -/

/-- A record with a gap between its members. -/
def gapped : RecordDecl where
  tag := ⟨"gapped"⟩
  members := [{ name := "a", type := .arith (.unsigned .w8) },
    { name := "b", type := .arith (.unsigned .w16) }]

/-- Two of them in a row. -/
def gappedRow : RecordDecl where
  tag := ⟨"row"⟩
  members := [{ name := "items", type := .array (.record ⟨"gapped"⟩) 2 },
    { name := "flag", type := .arith .bool }]

/-- A row, then a number in the place of a pointer. -/
def overlaid : RecordDecl where
  tag := ⟨"overlaid"⟩
  members := [{ name := "row", type := .record ⟨"row"⟩ },
    { name := "raw", type := .arith (.unsigned .w64), inUnion := true },
    { name := "next", type := .pointer (.record ⟨"overlaid"⟩), inUnion := true }]

def gappedLayout : Layout :=
  .ofMembers ⟨"gapped"⟩ .struct
    [⟨"a", .arith (.unsigned .w8), .scalar (.arith (.unsigned .w8)) 1 ⟨0⟩, 0, ⟨0⟩, none, false,
        none⟩,
      ⟨"b", .arith (.unsigned .w16), .scalar (.arith (.unsigned .w16)) 2 ⟨1⟩, 2, ⟨1⟩, none, false,
        none⟩]
    4 ⟨1⟩

def gappedRowLayout : Layout :=
  .ofMembers ⟨"row"⟩ .struct
    [⟨"items", .array (.record ⟨"gapped"⟩) 2, .array (.record gappedLayout) 2, 0, ⟨1⟩, none, false,
        none⟩,
      ⟨"flag", .arith .bool, .scalar (.arith .bool) 1 ⟨0⟩, 8, ⟨0⟩, none, false, none⟩]
    10 ⟨1⟩

def overlaidLayout : Layout :=
  .ofMembers ⟨"overlaid"⟩ .struct
    [⟨"row", .record ⟨"row"⟩, .record gappedRowLayout, 0, ⟨1⟩, none, false, none⟩,
      ⟨"raw", .arith (.unsigned .w64), .scalar (.arith (.unsigned .w64)) 8 ⟨3⟩, 16, ⟨3⟩, none,
        false, some 1⟩,
      ⟨"next", .pointer (.record ⟨"overlaid"⟩), .scalar (.pointer (.record ⟨"overlaid"⟩)) 8 ⟨3⟩, 16,
        ⟨3⟩, none, false, some 1⟩]
    24 ⟨3⟩

theorem built_gapped : Built .standard gappedLayout :=
  Built.of_answers (fun _ _ h => by cases h)
    (show build? .standard (fun tag => .error (.unknownTag tag)) gapped = .ok _ from rfl) 0

theorem built_gappedRow : Built .standard gappedRowLayout :=
  Built.of_answers (fun _ _ h => by cases h; exact built_gapped)
    (show build? .standard (fun _ => .ok gappedLayout) gappedRow = .ok _ from rfl) 0

theorem built_overlaid : Built .standard overlaidLayout :=
  Built.of_answers (fun _ _ h => by cases h; exact built_gappedRow)
    (show build? .standard (fun _ => .ok gappedRowLayout) overlaid = .ok _ from rfl) 0

/-- The number lies in scalars only, but no byte of it is solid. -/
theorem solid_bytes_overlaid :
    overlaidLayout.Constructed ∧ overlaidLayout.solid = [⟨0, 1⟩, ⟨2, 3⟩, ⟨6, 3⟩] ∧
      ∀ b, Covers [⟨0, 1⟩, ⟨2, 3⟩, ⟨6, 3⟩] b ↔ (Shape.record overlaidLayout).LeafAt b ∧
        ∀ m ∈ overlaidLayout.members, m.shape.HoldsPointer → b ∉ m.span := by
  have hsolid : overlaidLayout.solid = [⟨0, 1⟩, ⟨2, 3⟩, ⟨6, 3⟩] := by decide
  have hbytes := (Layout.solid_bytes built_overlaid.constructed).1
  rw [hsolid] at hbytes
  exact ⟨built_overlaid.constructed, hsolid, hbytes⟩

theorem padding_bytes_gappedRow :
    gappedRowLayout.Constructed ∧ gappedRowLayout.hasPointers = false ∧
      gappedRowLayout.padding = [⟨1, 1⟩, ⟨5, 1⟩, ⟨9, 1⟩] ∧
      ∀ b < gappedRowLayout.size,
        (gappedRowLayout.solid ++ gappedRowLayout.padding).countP (b ∈ ·) = 1 := by
  obtain ⟨-, -, -, -, hcount⟩ := Layout.padding_bytes built_gappedRow.constructed
  exact ⟨built_gappedRow.constructed, by decide, by decide, hcount (by decide)⟩

end NativeRecord
