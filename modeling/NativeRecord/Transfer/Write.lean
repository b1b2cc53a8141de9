import NativeRecord.Layout.Basic
import NativeRecord.Transfer.Error
import NativeRecord.Transfer.Scalar

/-!
# Writing records

A record is written field by field in the order of the layout.  Fields that it has no value for
are left alone, and so are the bits around a bit-field.  A failure ends the writing; what was
written before it stays.

## What is here

* `Writing` — steps that write to a view.
* `Shape.write`, `MemberLayout.write`, `Layout.writeAt` — the recursion over a layout.
* `Layout.write` — a whole record, into a view that starts with it.
-/

set_option autoImplicit false
namespace NativeRecord

/-- A step that writes to a view.  A failing step keeps what it has written. -/
abbrev Writing := ExceptT TransferError (StateM View)

namespace Writing

/-- An access to the view.  A block operation may fail after it has written a part. -/
def access (f : View → Except AccessError Unit × View) : Writing Unit := ExceptT.mk fun v =>
  match f v with
  | (.ok (), v) => (.ok (), v)
  | (.error e, v) => (.error (.memory e), v)

/-- A step inside the record that starts at an offset: its failure is reported as one there. -/
def within (tag : Tag) (start : Nat) (step : Writing Unit) : Writing Unit := ExceptT.mk fun v =>
  match step.run v with
  | (.ok (), v) => (.ok (), v)
  | (.error e, v) => (.error (.inRecord tag (v.base.advance start) e), v)

end Writing

/-- An access must end within the record. -/
def checkWithin (offset length limit : Nat) : Except TransferError Unit :=
  if offset + length ≤ limit then .ok () else .error (.outOfBounds offset length limit)

/-! ## Scalars -/

/-- The bits of a value for a field, or the report that it is of another kind. -/
def encodeFor (field : String) (type : Scalar) (size : Nat) (v : Value) :
    Except TransferError Word :=
  match type.encode? size v with
  | some w => .ok w
  | none => .error (.kindMismatch field (.type type.type) (.value v.sort))

/-- Writes a scalar.  Pointers go through the view's own pointer width. -/
def writeScalar (field : String) (type : Scalar) (size limit offset : Nat) (v : Value) :
    Writing Unit := do
  checkWithin offset size limit
  let w ← encodeFor field type size v
  match type with
  | .pointer _ => .access fun view => view.storeAddress offset ⟨w⟩
  | .arith _ => .access fun view => view.store offset size w

/-- Replaces a range of bits in the word of `size` bytes at an offset. -/
def replaceBits (size offset : Nat) (range : BitRange) (bits : Word) : Writing Unit :=
  .access fun view =>
    match view.load offset size with
    | .ok word => view.store offset size (range.insert word bits)
    | .error e => (.error e, view)

/-- Writes a bit-field. -/
def writeBits (field : String) (type : Scalar) (size limit : Nat) (range : BitRange)
    (offset : Nat) (v : Value) : Writing Unit := do
  checkWithin offset size limit
  let bits ← encodeFor field type size v
  replaceBits size offset range bits

/-- The scalar, the size of the word and the range of a bit-field. -/
def bitField? : Shape → Option BitRange → Option (Scalar × Nat × BitRange)
  | .scalar type size _, some range => some (type, size, range)
  | _, _ => none

/-! ## Composite shapes -/

/-- Writes items at a distance of `stride` bytes. -/
def writeItems (write : (offset : Nat) → Value → Writing Unit) (stride : Nat) :
    (offset : Nat) → List Value → Writing Unit
  | _, [] => return
  | offset, v :: vs => do
    write offset v
    writeItems write stride (offset + stride) vs

/-- Zeroes the bytes of some spans of a record. -/
def zeroSpans (limit start : Nat) : List Span → Writing Unit
  | [] => return
  | s :: rest => do
    checkWithin (start + s.offset) s.length limit
    Writing.access fun view => view.fillBlock (start + s.offset) s.length 0
    zeroSpans limit start rest

/-- The first name of a record that no member has. -/
def unknownName? (members : List MemberLayout) (r : Record) : Option String :=
  r.names.find? fun name => !members.any (·.name = name)

mutual

/-- Writes a value at an offset.  An array takes as many items as it has elements. -/
def Shape.write (field : String) (limit : Nat) : Shape → (offset : Nat) → Value → Writing Unit
  | .scalar type size _, offset, v => writeScalar field type size limit offset v
  | .record layout, offset, v =>
    match v with
    | .record r => layout.writeAt limit false offset r
    | v => throw (.kindMismatch field (.type (.record layout.tag)) (.value v.sort))
  | .array element length, offset, v =>
    match v with
    | .array items =>
      if items.length = length then
        writeItems (fun offset v => element.write field limit offset v) element.size offset items
      else throw (.arrayLength field length items.length)
    | v => throw (.kindMismatch field .array (.value v.sort))
termination_by structural s => s

/-- Writes a value to a member of the record that starts at `start`. -/
def MemberLayout.write (limit : Nat) : MemberLayout → (start : Nat) → Value → Writing Unit
  | { name, shape, offset, bits, .. }, start, v =>
    match bitField? shape bits with
    | some (type, size, range) => writeBits name type size limit range (start + offset) v
    | none => shape.write name limit (start + offset) v
termination_by structural m => m

/-- Writes a record that starts at `start`, whose names must all be known.  The padding of the
record is zeroed first if asked for. -/
def Layout.writeAt (limit : Nat) (zeroFill : Bool) : Layout → (start : Nat) → Record → Writing Unit
  | l@{ tag, members, .. }, start, r => .within tag start do
    if let some name := unknownName? members r then throw (.noSuchName name)
    if zeroFill then zeroSpans limit start l.padding
    writeMembers limit members start r
termination_by structural l => l

/-- Writes the members that the record has a value for. -/
def writeMembers (limit : Nat) : List MemberLayout → (start : Nat) → Record → Writing Unit
  | [], _, _ => return
  | m :: ms, start, r => do
    if let some v := r.get? m.name then m.write limit start v
    writeMembers limit ms start r
termination_by structural ms => ms

end

/-- Writes a record to the start of a view. -/
def Layout.write (l : Layout) (zeroFill : Bool) (r : Record) (v : View) :
    Except TransferError Unit × View :=
  (l.writeAt l.size zeroFill 0 r).run v

end NativeRecord
