import NativeRecord.Address
import NativeRecord.Memory.Bytes

/-!
# Views of memory

A view is a buffer of bytes that stands for the native memory behind one record.  Single accesses
move one word of 1, 2, 4 or 8 bytes in the view's byte order.  They may be made to fail at chosen
offsets, as memory that is not there would.

## What is here

* `AccessError` and its text.
* `View` with the single accesses `View.load`, `View.store`, `View.loadAddress`,
  `View.storeAddress`.  What writes gives the view back together with its answer, so that there is
  only ever one and its buffer can be changed in place.
* The block operations `View.loadBlock`, `View.storeBlock`, `View.fillBlock`.  In a *bytewise* view
  they go through the single accesses, one byte after the other, and a failure leaves the bytes
  before it written; otherwise they act on the buffer at once.
-/

set_option autoImplicit false
namespace NativeRecord

/-- Why an access failed. -/
inductive AccessError where
  | outOfBounds (offset length capacity : Nat)
  | unsupportedWidth (width : Nat)
  | readFailed (offset : Nat)
  | writeFailed (offset : Nat)
deriving DecidableEq, Repr

def AccessError.message : AccessError → String
  | outOfBounds offset length capacity =>
    "Out of bounds: " ++ toString length ++ " bytes at offset " ++ toString offset ++
      " exceed a " ++ toString capacity ++ "-byte view"
  | unsupportedWidth width => "Unsupported access width: " ++ toString width ++ " bytes"
  | readFailed offset => "Read failed at offset " ++ toString offset
  | writeFailed offset => "Write failed at offset " ++ toString offset

/-- The widths of single accesses. -/
def AccessWidth (width : Nat) : Prop := width = 1 ∨ width = 2 ∨ width = 4 ∨ width = 8

instance (width : Nat) : Decidable (AccessWidth width) :=
  inferInstanceAs (Decidable (width = 1 ∨ width = 2 ∨ width = 4 ∨ width = 8))

/-- The memory behind one record. -/
structure View where
  bytes : Array Byte
  endianness : Endianness
  pointerWidth : Nat
  /-- The address of the first byte. -/
  base : Address := .null
  /-- The offsets at which a single read fails. -/
  readFails : Nat → Bool := fun _ => false
  /-- The offsets at which a single write fails. -/
  writeFails : Nat → Bool := fun _ => false
  /-- Whether block operations go through single accesses. -/
  bytewise : Bool := false

namespace View

/-- A view for a platform, in which no access is made to fail. -/
def ofBytes (platform : Platform) (bytes : Array Byte) : View where
  bytes := bytes
  endianness := platform.endianness
  pointerWidth := platform.pointerWidth

def size (v : View) : Nat := v.bytes.size

/-- The `length` bytes from an offset on, as far as they lie in the view. -/
def slice (v : View) (offset length : Nat) : List Byte :=
  (v.bytes.extract offset (offset + length)).toList

/-- The view with bytes written from an offset on, as far as they lie in it. -/
def put (v : View) (offset : Nat) (new : List Byte) : View :=
  { v with bytes := overwrite v.bytes offset new }

/-- The bytes `offset`, …, `offset + length - 1` must lie in the view. -/
def checkSpan (v : View) (offset length : Nat) : Except AccessError Unit :=
  if offset + length ≤ v.size then .ok () else .error (.outOfBounds offset length v.size)

/-- A single access must have one of the widths and lie in the view. -/
def checkAccess (v : View) (offset width : Nat) : Except AccessError Unit :=
  if AccessWidth width then v.checkSpan offset width else .error (.unsupportedWidth width)

/-- A single write must not be made to fail either. -/
def checkStore (v : View) (offset width : Nat) : Except AccessError Unit :=
  if v.writeFails offset then .error (.writeFailed offset) else v.checkAccess offset width

/-! ## Single accesses -/

/-- The word of `width` bytes at an offset. -/
def load (v : View) (offset width : Nat) : Except AccessError Word := do
  if v.readFails offset then throw (.readFailed offset)
  v.checkAccess offset width
  return v.endianness.decode (v.slice offset width)

/-- Writes the low `width` bytes of a word at an offset. -/
def store (v : View) (offset width : Nat) (w : Word) : Except AccessError Unit × View :=
  match v.checkStore offset width with
  | .ok () => (.ok (), v.put offset (v.endianness.encode width w))
  | .error e => (.error e, v)

/-- The address stored at an offset, in the view's pointer width. -/
def loadAddress (v : View) (offset : Nat) : Except AccessError Address :=
  Address.mk <$> v.load offset v.pointerWidth

/-- Stores an address at an offset, cut to the view's pointer width. -/
def storeAddress (v : View) (offset : Nat) (a : Address) : Except AccessError Unit × View :=
  v.store offset v.pointerWidth (a.truncate v.pointerWidth).word

/-! ## Block operations -/

/-- The bytes from an offset on behind those in `done`, which stand in reverse, by one access
each. -/
def loadEach (v : View) (done : List Byte) (offset : Nat) :
    (length : Nat) → Except AccessError (List Byte)
  | 0 => .ok done.reverse
  | length + 1 =>
    match v.load offset 1 with
    | .ok w => v.loadEach (w.setWidth 8 :: done) (offset + 1) length
    | .error e => .error e

/-- Writes bytes by one access each. -/
def storeEach (v : View) (offset : Nat) : List Byte → Except AccessError Unit × View
  | [] => (.ok (), v)
  | b :: bs =>
    match v.store offset 1 (b.setWidth 64) with
    | (.ok (), v) => v.storeEach (offset + 1) bs
    | failed => failed

/-- Writes one byte over and over, by one access each. -/
def fillEach (v : View) (offset : Nat) (b : Byte) :
    (length : Nat) → Except AccessError Unit × View
  | 0 => (.ok (), v)
  | length + 1 =>
    match v.store offset 1 (b.setWidth 64) with
    | (.ok (), v) => v.fillEach (offset + 1) b length
    | failed => failed

/-- The `length` bytes from an offset on. -/
def loadBlock (v : View) (offset length : Nat) : Except AccessError (List Byte) :=
  if v.bytewise then v.loadEach [] offset length
  else do
    v.checkSpan offset length
    return v.slice offset length

/-- Writes bytes from an offset on. -/
def storeBlock (v : View) (offset : Nat) (new : List Byte) : Except AccessError Unit × View :=
  if v.bytewise then v.storeEach offset new
  else
    match v.checkSpan offset new.length with
    | .ok () => (.ok (), v.put offset new)
    | .error e => (.error e, v)

/-- Writes one byte `length` times from an offset on. -/
def fillBlock (v : View) (offset length : Nat) (b : Byte) : Except AccessError Unit × View :=
  if v.bytewise then v.fillEach offset b length
  else
    match v.checkSpan offset length with
    | .ok () => (.ok (), v.put offset (List.replicate length b))
    | .error e => (.error e, v)

theorem fillEach_eq_storeEach (v : View) (offset length : Nat) (b : Byte) :
    v.fillEach offset b length = v.storeEach offset (List.replicate length b) := by
  induction length generalizing v offset with
  | zero => rfl
  | succ length ih =>
    simp only [fillEach, List.replicate_succ, storeEach]
    split
    · exact ih _ _
    · rfl

end View

end NativeRecord
