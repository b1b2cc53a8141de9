import NativeRecord.Json.Decode
import NativeRecord.Layout.Summary

/-!
# Summaries as JSON

A summary is for other programs to read, so the names of its entries are part of what it is.  The
reader is the counterpart for programs that get a summary back; it accepts what is written and also
entries in any order.

## What is here

* `Span.toJson`, `Summary.toJson` and their readers.  A member's entry for bits or for an array
  length is left out where it has none.
-/

set_option autoImplicit false
namespace NativeRecord

def Span.toJson (s : Span) : Json := .ofFields [("offset", .nat s.offset), ("len", .nat s.length)]

def Span.ofJson? : Json.Decoder Span
  | _ + 1, j => do
    let [offset, length] ← j.entries? ["offset", "len"] | none
    return ⟨← (← offset).nat? Json.wordBound, ← (← length).nat? Json.wordBound⟩
  | _, _ => none

def MemberSummary.toJson (m : MemberSummary) : Json :=
  let extra (name : String) (n : Option Nat) := n.toList.map fun n => (name, Json.nat n)
  .ofFields <| [
    ("name", .text m.name),
    ("type", .text m.type),
    ("offset", .nat m.offset),
    ("size", .nat m.size),
    ("alignment", .nat m.alignment)] ++
    extra "bit_offset" m.bitOffset ++ extra "bit_length" m.bitLength ++
    extra "array_length" m.arrayLength

/-- Bit positions are 32-bit numbers, the others 64-bit ones. -/
def MemberSummary.ofJson? : Json.Decoder MemberSummary
  | _ + 1, j => do
    let [name, type, offset, size, alignment, bitOffset, bitLength, arrayLength] ←
      j.entries? ["name", "type", "offset", "size", "alignment", "bit_offset", "bit_length",
        "array_length"] | none
    return {
      name := ← (← name).text?
      type := ← (← type).text?
      offset := ← (← offset).nat? Json.wordBound
      size := ← (← size).nat? Json.wordBound
      alignment := ← (← alignment).nat? Json.wordBound
      bitOffset := ← Json.optional? (Json.nat? (2 ^ (32 : Nat))) bitOffset
      bitLength := ← Json.optional? (Json.nat? (2 ^ (32 : Nat))) bitLength
      arrayLength := ← Json.optional? (Json.nat? Json.wordBound) arrayLength }
  | _, _ => none

def Summary.toJson (s : Summary) : Json := .ofFields [
  ("name", .text s.name),
  ("union", .bool s.isUnion),
  ("size", .nat s.size),
  ("alignment", .nat s.alignment),
  ("fields", .array (s.members.map MemberSummary.toJson)),
  ("solid_ranges", .array (s.solid.map Span.toJson)),
  ("padding", .array (s.padding.map Span.toJson))]

def Summary.ofJson? : Json.Decoder Summary
  | depth + 1, j => do
    let [name, isUnion, size, alignment, members, solid, padding] ←
      j.entries? ["name", "union", "size", "alignment", "fields", "solid_ranges", "padding"] | none
    return {
      name := ← (← name).text?
      isUnion := ← (← isUnion).bool?
      size := ← (← size).nat? Json.wordBound
      alignment := ← (← alignment).nat? Json.wordBound
      members := ← Json.list? MemberSummary.ofJson? depth (← members)
      solid := ← Json.list? Span.ofJson? depth (← solid)
      padding := ← Json.list? Span.ofJson? depth (← padding) }
  | _, _ => none

end NativeRecord
