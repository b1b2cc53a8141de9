import NativeRecord.Declaration
import NativeRecord.Exchange.CType

/-!
# Declarations as JSON

A declaration is written as it stands, with `null` for what it does not ask for.  It is read by the
same names.  Nothing is checked that the builder checks later: an alignment that is none, or a name
that comes twice, can be read and is refused when the layout is made.  The depth of the document
bounds the recursion of the reader, since the type of a member may nest.

## What is here

* `MemberDecl.toJson`, `RecordDecl.toJson` and their readers.
-/

set_option autoImplicit false
namespace NativeRecord

def MemberDecl.toJson (m : MemberDecl) : Json := .ofFields [
  ("name", .text m.name),
  ("kind", m.type.toJson),
  ("bits", .ofOption .nat m.bits),
  ("alignment", .ofOption .nat m.alignment),
  ("offset", .ofOption .nat m.offset),
  ("union_member", .bool m.inUnion)]

/-- A bit width is a 32-bit number, an alignment or offset a 64-bit one. -/
def MemberDecl.ofJson? : Json.Decoder MemberDecl
  | depth + 1, j => do
    let [name, type, bits, alignment, offset, inUnion] ←
      j.entries? ["name", "kind", "bits", "alignment", "offset", "union_member"] | none
    return {
      name := ← (← name).text?
      type := ← CType.ofJson? depth (← type)
      bits := ← Json.optional? (Json.nat? (2 ^ (32 : Nat))) bits
      alignment := ← Json.optional? (Json.nat? Json.wordBound) alignment
      offset := ← Json.optional? (Json.nat? Json.wordBound) offset
      inUnion := ← (← inUnion).bool? }
  | _, _ => none

def RecordForm.jsonName : RecordForm → String
  | .struct => "Sequential"
  | .union => "Union"

def RecordForm.ofJson? : Json.Decoder RecordForm := namedValue? jsonName [.struct, .union]

def RecordDecl.toJson (d : RecordDecl) : Json := .ofFields [
  ("id", d.tag.toJson),
  ("kind", .text d.form.jsonName),
  ("fields", .array (d.members.map MemberDecl.toJson)),
  ("alignment", .ofOption .nat d.alignment),
  ("pack", .ofOption .nat d.pack)]

def RecordDecl.ofJson? : Json.Decoder RecordDecl
  | depth + 1, j => do
    let [tag, form, members, alignment, pack] ←
      j.entries? ["id", "kind", "fields", "alignment", "pack"] | none
    return {
      tag := ← Tag.ofJson? (← tag)
      form := ← RecordForm.ofJson? depth (← form)
      members := ← Json.list? MemberDecl.ofJson? depth (← members)
      alignment := ← Json.optional? (Json.nat? Json.wordBound) alignment
      pack := ← Json.optional? (Json.nat? Json.wordBound) pack }
  | _, _ => none

end NativeRecord
