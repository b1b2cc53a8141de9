import NativeRecord.Transfer.Read

/-!
# Accessing single fields

Each accessor reads or writes one member of the record at the start of a view, found by its index,
and touches no byte of the others.  An accessor that is made for some types refuses the members of
others.

## What is here

* `Layout.index`, `Layout.memberAt`, `Layout.memberFor` — finding a member.
* `Layout.get` and `Layout.set` for any member, `Layout.getElement` and `Layout.setElement` for
  the elements of an array.
* Accessors by type: integers, platform integers, enums and flags, bit-fields, booleans, floats,
  pointers, records.
-/

set_option autoImplicit false
namespace NativeRecord
namespace Layout

/-! ## Finding members -/

/-- The index of the first member with a name. -/
def index (l : Layout) (name : String) : Except TransferError Nat :=
  match l.memberIndex? name with
  | some i => .ok i
  | none => .error (.noSuchName name)

/-- The member at an index. -/
def memberAt (l : Layout) (index : Nat) : Except TransferError MemberLayout :=
  match l.members[index]? with
  | some m => .ok m
  | none => .error (.noSuchIndex l.tag index)

/-- The report that a member is not of the type that an accessor is made for. -/
def refusal (m : MemberLayout) (request : Request) : TransferError :=
  .kindMismatch m.name (.type m.type) (.request request)

/-- The member at an index, which must pass a test. -/
def memberFor (l : Layout) (index : Nat) (request : Request) (test : MemberLayout → Bool) :
    Except TransferError MemberLayout := do
  let m ← l.memberAt index
  if test m then .ok m else .error (refusal m request)

/-! ## Any member -/

/-- The value of a member. -/
def get (l : Layout) (view : View) (index : Nat) : Except TransferError Value := do
  let m ← l.memberAt index
  m.read view l.size 0

/-- Writes a value to a member. -/
def set (l : Layout) (index : Nat) (v : Value) : Writing Unit := do
  let m ← l.memberAt index
  m.write l.size 0 v

/-- The array member at an index with its element at a position, and that element's offset. -/
def elementAt (l : Layout) (index position : Nat) :
    Except TransferError (MemberLayout × Shape × Nat) := do
  let m ← l.memberAt index
  match m.shape with
  | .array element length =>
    if position < length then .ok (m, element, m.offset + position * element.size)
    else .error (.indexOutOfRange m.name position length)
  | _ => .error (refusal m .array)

/-- The value of one element of an array. -/
def getElement (l : Layout) (view : View) (index position : Nat) : Except TransferError Value := do
  let (_, element, offset) ← l.elementAt index position
  element.read view l.size offset

/-- Writes a value to one element of an array. -/
def setElement (l : Layout) (index position : Nat) (v : Value) : Writing Unit := do
  let (m, element, offset) ← l.elementAt index position
  element.write m.name l.size offset v

/-! ## Integers -/

/-- The word of an integer member or bit-field; of a signed type, with the sign filled up. -/
def fetchInteger (l : Layout) (view : View) (m : MemberLayout) : Except TransferError Word := do
  checkWithin m.offset m.length l.size
  let w ← liftAccess (view.load m.offset m.length)
  let (raw, bits) := match m.bits with
    | some range => (range.extract w, range.width)
    | none => (w, 8 * m.length)
  return if m.type.isSigned then (raw.signExtend bits).toBitVec else raw.truncate bits

/-- Writes the low bits of a word to an integer member or bit-field. -/
def putInteger (l : Layout) (m : MemberLayout) (w : Word) : Writing Unit := do
  checkWithin m.offset m.length l.size
  match m.bits with
  | some range => replaceBits m.length m.offset range w
  | none => .access fun view => view.store m.offset m.length (w.truncate (8 * m.length))

/-- The word of an integer, with the sign filled up. -/
def getInteger (l : Layout) (view : View) (index : Nat) : Except TransferError Word := do
  l.fetchInteger view (← l.memberFor index .integer (·.type.isInteger))

/-- An integer cut to a width and read with its sign. -/
def getSigned (l : Layout) (view : View) (width : IntWidth) (index : Nat) :
    Except TransferError Int64 := do
  return (← l.getInteger view index).signExtend width.bits

/-- An integer cut to a width and read without a sign. -/
def getUnsigned (l : Layout) (view : View) (width : IntWidth) (index : Nat) :
    Except TransferError Word := do
  return (← l.getInteger view index).truncate width.bits

/-- Writes an integer; the bits that the member does not hold are dropped. -/
def setInteger (l : Layout) (index : Nat) (w : Word) : Writing Unit := do
  l.putInteger (← l.memberFor index .integer (·.type.isInteger)) w

/-- The word of an integer whose type is the given one. -/
def getTargetInt (l : Layout) (view : View) (type : TargetInt) (index : Nat) :
    Except TransferError Word := do
  l.fetchInteger view (← l.memberFor index (.platform type) (·.type = .arith (.platform type)))

/-- Writes an integer whose type is the given one. -/
def setTargetInt (l : Layout) (type : TargetInt) (index : Nat) (w : Word) : Writing Unit := do
  l.putInteger (← l.memberFor index (.platform type) (·.type = .arith (.platform type))) w

/-! ## Enums and flags -/

/-- The bits of an enum. -/
def getEnum (l : Layout) (view : View) (index : Nat) : Except TransferError Word := do
  l.fetchInteger view (← l.memberFor index .enum (·.type.isEnum))

/-- Writes an enum; the bits that the member does not hold are dropped. -/
def setEnum (l : Layout) (index : Nat) (w : Word) : Writing Unit := do
  l.putInteger (← l.memberFor index .enum (·.type.isEnum)) w

/-- The bits of an enum as flags of a type with values below a bound. -/
def getFlags (l : Layout) (view : View) (bound index : Nat) : Except TransferError Word := do
  let m ← l.memberFor index .enum (·.type.isEnum)
  let w ← l.fetchInteger view m
  if w.toNat < bound then .ok w else .error (.valueOutOfRange m.name w)

/-! ## Bit-fields and booleans -/

/-- The bits of a bit-field, without a sign. -/
def getBits (l : Layout) (view : View) (index : Nat) : Except TransferError Word := do
  let m ← l.memberFor index .bitField (·.isBitField)
  let w ← l.fetchInteger view m
  return w.truncate (m.bits.elim 64 (·.width))

/-- Writes a bit-field; the bits past its width are dropped. -/
def setBits (l : Layout) (index : Nat) (w : Word) : Writing Unit := do
  l.putInteger (← l.memberFor index .bitField (·.isBitField)) w

/-- Whether any bit of a boolean is set. -/
def getBool (l : Layout) (view : View) (index : Nat) : Except TransferError Bool := do
  let w ← l.fetchInteger view (← l.memberFor index .bool (·.type = .arith .bool))
  return w != 0

/-- Writes a boolean as one or zero. -/
def setBool (l : Layout) (index : Nat) (b : Bool) : Writing Unit := do
  l.putInteger (← l.memberFor index .bool (·.type = .arith .bool)) (if b then 1 else 0)

/-! ## Floats -/

/-- The bits of a float, in double precision. -/
def getDouble (l : Layout) (view : View) (index : Nat) : Except TransferError Word := do
  let m ← l.memberFor index .float (·.type.isFloat)
  match (← l.get view index).toFloatBits? with
  | some bits => .ok bits
  | none => .error (refusal m .float)

/-- Writes a number of double precision, rounded to what the member holds. -/
def setDouble (l : Layout) (index : Nat) (bits : Word) : Writing Unit := do
  let _ ← l.memberFor index .float (·.type.isFloat)
  l.set index (.float bits)

/-- The bits of a float, in single precision. -/
def getSingle (l : Layout) (view : View) (index : Nat) : Except TransferError (BitVec 32) := do
  return BitVec.ofNat 32 (FloatFormat.double.convert .single (← l.getDouble view index).toNat)

/-- Writes a number of single precision. -/
def setSingle (l : Layout) (index : Nat) (bits : BitVec 32) : Writing Unit :=
  l.setDouble index (BitVec.ofNat 64 (FloatFormat.single.convert .double bits.toNat))

/-! ## Pointers and records -/

/-- The address in a pointer, cut to the pointer width of the record's platform. -/
def getPointer (l : Layout) (view : View) (index : Nat) : Except TransferError Address := do
  let m ← l.memberFor index .pointer (·.type.isPointer)
  checkWithin m.offset m.length l.size
  return (← liftAccess (view.loadAddress m.offset)).truncate m.length

/-- Writes an address, cut to the pointer width of the record's platform. -/
def setPointer (l : Layout) (index : Nat) (a : Address) : Writing Unit := do
  let m ← l.memberFor index .pointer (·.type.isPointer)
  checkWithin m.offset m.length l.size
  .access fun view => view.storeAddress m.offset (a.truncate m.length)

/-- The values of a member that is a record. -/
def getRecord (l : Layout) (view : View) (index : Nat) : Except TransferError Record := do
  let m ← l.memberFor index .record (·.type.isRecord)
  match (← l.get view index).toRecord? with
  | some r => .ok r
  | none => .error (refusal m .record)

/-- Writes values to a member that is a record. -/
def setRecord (l : Layout) (index : Nat) (r : Record) : Writing Unit := do
  let _ ← l.memberFor index .record (·.type.isRecord)
  l.set index (.record r)

end Layout

end NativeRecord
