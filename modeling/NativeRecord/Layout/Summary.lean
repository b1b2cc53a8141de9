import NativeRecord.Layout.Basic

/-!
# Layout summaries

A flat description of a layout for other programs: no nested layouts, types by their text.

Nothing is worked out anew: sizes, offsets and the two lists of spans are those of the layout.  A
member that is a record shows as one line with the name of its type, and who wants to know more has
to ask for the summary of that type.

## What is here

* `Summary` and `Summary.ofLayout`.
-/

set_option autoImplicit false
namespace NativeRecord

/-- A member in a summary. -/
structure MemberSummary where
  name : String
  type : String
  offset : Nat
  size : Nat
  alignment : Nat
  bitOffset : Option Nat
  bitLength : Option Nat
  arrayLength : Option Nat
deriving DecidableEq, Repr

/-- A flat description of a layout. -/
structure Summary where
  name : String
  isUnion : Bool
  size : Nat
  alignment : Nat
  members : List MemberSummary
  solid : List Span
  padding : List Span
deriving DecidableEq, Repr

/-- A member on one line. -/
def MemberSummary.ofMember (m : MemberLayout) : MemberSummary where
  name := m.name
  type := m.type.text
  offset := m.offset
  size := m.length
  alignment := m.alignment.bytes
  bitOffset := m.bits.map (·.first)
  bitLength := m.bits.map (·.width)
  arrayLength := m.arrayLength?

/-- The layout with its members one after the other. -/
def Summary.ofLayout (l : Layout) : Summary where
  name := l.tag.name
  isUnion := l.form == .union
  size := l.size
  alignment := l.alignment.bytes
  members := l.members.map MemberSummary.ofMember
  solid := l.solid
  padding := l.padding

end NativeRecord
