import NativeRecord.Alignment
import NativeRecord.BitRange
import NativeRecord.Declaration
import NativeRecord.Span

/-!
# Layouts

Where the members of a record lie in memory.

A layout is a tree.  Its members carry the shapes of their types, down to scalars with their sizes,
and an embedded record is there with its whole layout; so transfer needs neither the registry nor
the platform.  Sizes are stored at the leaves and at the records, and that of an array is worked
out.

An embedding record is laid out without looking at the members of what it embeds.  All that it needs
of their bytes was worked out once and is kept (`Coverage`): which of them hold values that can be
compared, which hold none, and whether there is a pointer among them, in which case none is
compared.

## What is here

* `Shape` — what a run of bytes holds, resolved down to scalars; `MemberLayout` — a placed member;
  `Layout` — a laid out record.  The three are defined together, since a member may be a record.
* `Coverage` — what a layout keeps about its bytes, so that a record that embeds it need not look
  at its members again.
* Sizes, alignments and spans, and whether a shape holds a pointer.
* The text of a layout.
-/

set_option autoImplicit false
namespace NativeRecord

/-- What the bytes of a record hold, worked out once from its members. -/
structure Coverage where
  /-- Whether a pointer lies anywhere in the record. -/
  hasPointers : Bool
  /-- The bytes that hold the values of fields and can be compared. -/
  solid : List Span
  /-- The bytes that lie in no scalar. -/
  padding : List Span
deriving DecidableEq, Repr

mutual

/-- What a run of bytes holds. -/
inductive Shape where
  | scalar (type : Scalar) (size : Nat) (alignment : Alignment)
  | record (layout : Layout)
  | array (element : Shape) (length : Nat)

/-- A member at its place. -/
structure MemberLayout where
  name : String
  /-- The declared type. -/
  type : CType
  shape : Shape
  offset : Nat
  /-- The alignment that the member was placed with. -/
  alignment : Alignment
  /-- The bits of the backing word, for a bit-field. -/
  bits : Option BitRange
  /-- Whether the declaration fixed the offset. -/
  fixed : Bool
  /-- The index of the first member of the anonymous union that the member belongs to. -/
  unionGroup : Option Nat

/-- A record laid out for a platform. -/
structure Layout where
  tag : Tag
  form : RecordForm
  members : List MemberLayout
  size : Nat
  alignment : Alignment
  coverage : Coverage
  /-- Tells apart the layouts that one registry has built; zero for a layout of no registry. -/
  serial : Nat

end

/-! ## Sizes and spans -/

namespace Shape

def size : Shape → Nat
  | scalar _ size _ => size
  | record layout => layout.size
  | array element length => element.size * length

def alignment : Shape → Alignment
  | scalar _ _ alignment => alignment
  | record layout => layout.alignment
  | array element _ => element.alignment

def isArray : Shape → Bool
  | array _ _ => true
  | _ => false

/-- Whether a pointer lies anywhere in the bytes. -/
def hasPointers : Shape → Bool
  | scalar type _ _ => type.isPointer
  | record layout => layout.coverage.hasPointers
  | array element _ => element.hasPointers

end Shape

namespace MemberLayout

/-- The number of bytes; for a bit-field, those of its backing word. -/
def length (m : MemberLayout) : Nat := m.shape.size

def span (m : MemberLayout) : Span := ⟨m.offset, m.length⟩

def isBitField (m : MemberLayout) : Bool := m.bits.isSome

/-- The first bit of a bit-field in its word, zero for any other member. -/
def firstBit (m : MemberLayout) : Nat := m.bits.elim 0 (·.first)

def arrayLength? (m : MemberLayout) : Option Nat :=
  match m.shape with
  | .array _ length => some length
  | _ => none

/-- The size of an array's element, or of the whole member. -/
def elementSize (m : MemberLayout) : Nat :=
  match m.shape with
  | .array element _ => element.size
  | shape => shape.size

/-- The layout of a member that is a record. -/
def nested? (m : MemberLayout) : Option Layout :=
  match m.shape with
  | .record layout => some layout
  | _ => none

@[simp] theorem offset_span (m : MemberLayout) : m.span.offset = m.offset := rfl

@[simp] theorem length_span (m : MemberLayout) : m.span.length = m.length := rfl

@[simp] theorem stop_span (m : MemberLayout) : m.span.stop = m.offset + m.length := rfl

end MemberLayout

namespace Layout

/-- Whether a pointer lies anywhere in the record. -/
def hasPointers (l : Layout) : Bool := l.coverage.hasPointers

/-- The bytes that hold the values of fields and can be compared. -/
def solid (l : Layout) : List Span := l.coverage.solid

/-- The bytes that lie in no scalar. -/
def padding (l : Layout) : List Span := l.coverage.padding

def member? (l : Layout) (name : String) : Option MemberLayout :=
  l.members.find? (·.name = name)

def memberIndex? (l : Layout) (name : String) : Option Nat :=
  l.members.findIdx? (·.name = name)

end Layout

/-! ## Text -/

/-- Type and name, offset and size, then the bits of a bit-field. -/
def MemberLayout.text (m : MemberLayout) : String :=
  m.type.text ++ " " ++ m.name ++ " @ " ++ hexOffset m.offset ++
    " (" ++ toString m.length ++ " bytes)" ++
    m.bits.elim "" fun r => " : " ++ toString r.width ++ " bits at " ++ toString r.first

/-- A heading, then a line for each member. -/
def Layout.text (l : Layout) : String :=
  l.form.text ++ " " ++ l.tag.name ++ " // size " ++ toString l.size ++
    ", align " ++ toString l.alignment.bytes ++ "\n" ++
    String.join (l.members.map fun m => "    " ++ m.text ++ "\n")

/-- A span in a message: both ends, the second one excluded. -/
def Span.text (s : Span) : String := "[" ++ hexOffset s.offset ++ ", " ++ hexOffset s.stop ++ ")"

end NativeRecord
