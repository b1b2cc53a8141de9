import NativeRecord.Transfer.Write

/-!
# Reading records

Reading follows the layout down to its scalars.  Four functions call each other, one for each kind
of thing that a layout nests, and the recursion is on the layout, so nested records need no fuel.
Every one of them gets the end of the outermost record as `limit`: what lies past it is not read,
whatever a hand-made layout says.

A record that is being read is a state.  Fields are set as they are read, and a failure leaves those
that were set before it; the caller who only wants a whole record gets the failure instead
(`Layout.read`).  An error is wrapped on its way out, once for each record that it passes, with the
address of that record.

## What is here

* `Shape.read`, `MemberLayout.read`, `Layout.readAt` — the recursion over a layout.
* `Layout.read` — the record at the start of a view; `Layout.readInto` sets its fields in a record
  that is there already, and keeps those set before a failure.
-/

set_option autoImplicit false
namespace NativeRecord

/-- The answer of an access as the answer of a read. -/
def liftAccess {α : Type} : Except AccessError α → Except TransferError α
  | .ok a => .ok a
  | .error e => .error (.memory e)

/-- Reads a scalar.  Pointers go through the view's own pointer width. -/
def readScalar (view : View) (type : Scalar) (size limit offset : Nat) :
    Except TransferError Value := do
  checkWithin offset size limit
  match type with
  | .pointer _ => do
    let a ← liftAccess (view.loadAddress offset)
    return .pointer (a.truncate size)
  | .arith _ => do
    let w ← liftAccess (view.load offset size)
    return type.decode (8 * size) (w.truncate (8 * size))

/-- Reads a bit-field from the word of `size` bytes at an offset. -/
def readBits (view : View) (type : Scalar) (size limit : Nat) (range : BitRange) (offset : Nat) :
    Except TransferError Value := do
  checkWithin offset size limit
  let w ← liftAccess (view.load offset size)
  return type.decode range.width (range.extract w)

/-- Reads items at a distance of `stride` bytes, behind those in `done`, which stand in reverse. -/
def readItems (read : (offset : Nat) → Except TransferError Value) (stride : Nat)
    (done : List Value) (offset : Nat) : (count : Nat) → Except TransferError (List Value)
  | 0 => .ok done.reverse
  | count + 1 =>
    match read offset with
    | .ok v => readItems read stride (v :: done) (offset + stride) count
    | .error e => .error e

mutual

/-- The value at an offset. -/
def Shape.read (view : View) (limit : Nat) : Shape → (offset : Nat) → Except TransferError Value
  | .scalar type size _, offset => readScalar view type size limit offset
  | .record layout, offset =>
    match layout.readAt view limit offset .empty with
    | (.ok (), r) => .ok (.record r)
    | (.error e, _) => .error e
  | .array element length, offset => do
    let read (offset : Nat) := element.read view limit offset
    return .array (← readItems read element.size [] offset length)
termination_by structural s => s

/-- The value of a member of the record that starts at `start`. -/
def MemberLayout.read (view : View) (limit : Nat) :
    MemberLayout → (start : Nat) → Except TransferError Value
  | { shape, offset, bits, .. }, start =>
    match bitField? shape bits with
    | some (type, size, range) => readBits view type size limit range (start + offset)
    | none => shape.read view limit (start + offset)
termination_by structural m => m

/-- Sets the fields of the record that starts at `start`. -/
def Layout.readAt (view : View) (limit : Nat) :
    Layout → (start : Nat) → Record → Except TransferError Unit × Record
  | { tag, members, .. }, start, r => readMembers view limit tag members start r
termination_by structural l => l

/-- Sets the fields of some members; a failure is reported as one in their record. -/
def readMembers (view : View) (limit : Nat) (tag : Tag) :
    List MemberLayout → (start : Nat) → Record → Except TransferError Unit × Record
  | [], _, r => (.ok (), r)
  | m :: ms, start, r =>
    match m.read view limit start with
    | .ok v => readMembers view limit tag ms start (r.set m.name v)
    | .error e => (.error (.inRecord tag (view.base.advance start) e), r)
termination_by structural ms => ms

end

/-- Sets the fields of the record at the start of a view. -/
def Layout.readInto (l : Layout) (view : View) (r : Record) : Except TransferError Unit × Record :=
  l.readAt view l.size 0 r

/-- The record at the start of a view. -/
def Layout.read (l : Layout) (view : View) : Except TransferError Record :=
  match l.readInto view .empty with
  | (.ok (), r) => .ok r
  | (.error e, _) => .error e

/-! ## Description

The text of a record in memory, which is read first and so shows what reading would give. -/

/-- A member with its value and its offset, on one line. -/
def describeMember (m : MemberLayout) (v : Value) : String :=
  "    " ++ m.type.text ++ " " ++ m.name ++ " = " ++ v.text ++
    "; // @ " ++ hexOffset m.offset ++ "\n"

/-- The record at the start of a view as text: a heading, and a line for each member. -/
def Layout.describe (l : Layout) (view : View) : Except TransferError String := do
  let r ← l.read view
  let lines := l.members.map fun m => (r.get? m.name).elim "" (describeMember m)
  return "struct " ++ l.tag.name ++ " \x7b // " ++ toString l.size ++ " @ " ++ view.base.text ++
    "\n" ++ String.join lines ++ "\x7d"

end NativeRecord
