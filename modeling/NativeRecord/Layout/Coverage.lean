import NativeRecord.Layout.Basic

/-!
# Solid bytes and padding

Two lists of spans describe the bytes of a layout.  The *solid* bytes hold the values of fields
and can be compared: they lie in a scalar, and outside every member that holds a pointer.  The
*padding* lies in no scalar at all.

## What is here

* `Coverage.ofMembers` — both lists for the members of a record, in normal form.  A member that is
  a record answers with its own coverage, so each layout is worked out once, however often others
  embed it.
* `repeatSpans` — the spans of an array from those of its element.  An element that is covered
  from end to end gives one span for the whole array, so long plain arrays cost nothing.
* `Layout.ofMembers` — a layout with the coverage of its members.
-/

set_option autoImplicit false
namespace NativeRecord

/-- The spans of `length` elements of `size` bytes, given the spans of one. -/
def repeatSpans (size length : Nat) (spans : List Span) : List Span :=
  if spans = [⟨0, size⟩] then [⟨0, size * length⟩]
  else (List.range length).flatMap fun i => spans.map (Span.shift (i * size))

namespace Shape

/-- The bytes of scalars that can be compared, counted from the start of a shape without pointers.
An array without bytes does not look at its element. -/
def solid : Shape → List Span
  | scalar _ size _ => [⟨0, size⟩]
  | record layout => layout.coverage.solid
  | array element length =>
    if element.size = 0 ∨ length = 0 then [] else repeatSpans element.size length element.solid

/-- The bytes that lie in a scalar, counted from the start of a shape. -/
def occupied : Shape → List Span
  | scalar _ size _ => [⟨0, size⟩]
  | record layout => complementSpans layout.size layout.coverage.padding
  | array element length =>
    if element.size = 0 ∨ length = 0 then []
    else repeatSpans element.size length element.occupied

end Shape

/-! ## The coverage of a record -/

/-- The spans of the members that hold a pointer. -/
def pointerSpans (members : List MemberLayout) : List Span :=
  (members.filter (·.shape.hasPointers)).map (·.span)

/-- The solid bytes of the members without pointers. -/
def plainSpans (members : List MemberLayout) : List Span :=
  (members.filter (!·.shape.hasPointers)).flatMap fun m => m.shape.solid.map (Span.shift m.offset)

/-- The occupied bytes of the members. -/
def occupiedSpans (members : List MemberLayout) : List Span :=
  members.flatMap fun m => m.shape.occupied.map (Span.shift m.offset)

/-- What the bytes of a record hold, by its size and its members. -/
def Coverage.ofMembers (size : Nat) (members : List MemberLayout) : Coverage where
  hasPointers := members.any (·.shape.hasPointers)
  solid :=
    withoutSpans (normalizeSpans (plainSpans members)) (normalizeSpans (pointerSpans members))
  padding := complementSpans size (normalizeSpans (occupiedSpans members))

/-- The layout of members that have their places. -/
def Layout.ofMembers (tag : Tag) (form : RecordForm) (members : List MemberLayout) (size : Nat)
    (alignment : Alignment) : Layout where
  tag := tag
  form := form
  members := members
  size := size
  alignment := alignment
  coverage := .ofMembers size members
  serial := 0

end NativeRecord
