import NativeRecord.CType
import NativeRecord.Text.Hex

/-!
# Declarations

What a user says about a struct or union type: its members, and what is asked of their placement.

A declaration asks and does not promise.  Alignments are any numbers, offsets may lie anywhere,
names may be repeated and types unknown; what can be had is found out by the builder, which gives an
error for each thing that cannot.  Members of an anonymous union are declared among the others, as
neighbours with a mark, and not as a type of their own.

## What is here

* `MemberDecl`, `RecordDecl`.
* `MemberDecl.text` — a member on one line.
-/

set_option autoImplicit false
namespace NativeRecord

/-- One declared member.  Alignments and offsets are as asked for, not yet checked. -/
structure MemberDecl where
  name : String
  type : CType
  /-- The width of a bit-field. -/
  bits : Option Nat := none
  alignment : Option Nat := none
  /-- A fixed byte offset. -/
  offset : Option Nat := none
  /-- Whether the member shares its storage with its neighbours of the same kind, as the members
  of an anonymous union do. -/
  inUnion : Bool := false
deriving DecidableEq, Repr

namespace MemberDecl

def isBitField (m : MemberDecl) : Bool := m.bits.isSome

/-- Type and name, then the width of a bit-field, then a fixed offset. -/
def text (m : MemberDecl) : String :=
  m.type.text ++ " " ++ m.name ++ (m.bits.elim "" fun n => " : " ++ toString n) ++
    m.offset.elim "" fun n => " @ " ++ hexOffset n

end MemberDecl

/-- Whether members follow each other or share one storage. -/
inductive RecordForm where
  | struct
  | union
deriving DecidableEq, Repr

def RecordForm.text : RecordForm → String
  | .struct => "struct"
  | .union => "union"

/-- A declared struct or union type. -/
structure RecordDecl where
  tag : Tag
  form : RecordForm := .struct
  members : List MemberDecl
  alignment : Option Nat := none
  /-- The greatest alignment that a member may have. -/
  pack : Option Nat := none
deriving DecidableEq, Repr

/-- The declaration without its requests about alignment. -/
def RecordDecl.bare (d : RecordDecl) : RecordDecl := { d with alignment := none, pack := none }

end NativeRecord
