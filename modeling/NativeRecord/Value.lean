import NativeRecord.Address
import NativeRecord.Float.Shortest
import NativeRecord.Keyed

/-!
# Values

What a program holds for the fields of a record, apart from any memory.

A value has a kind of its own, which need not be that of the field it is for.  Integers come with
and without a sign, numbers are of double precision, and what a field makes of one that does not fit
it is decided when it is written.  A record may leave fields out, and is then written only in part.

## What is here

* `Value` and `Record` — a record's values by name, in the order in which the names came in.
* Views of a value: `Value.toInt64?`, `Value.toWord?` and so on.
* `Value.same`, `Record.same` — equality, which does not look at the order of names.
* `Value.text`, `Record.text`.
-/

set_option autoImplicit false
namespace NativeRecord

mutual

/-- The value of a field. -/
inductive Value where
  | int (n : Int64)
  | uint (w : Word)
  /-- A number of double precision, by its bits. -/
  | float (bits : Word)
  | bool (b : Bool)
  | pointer (a : Address)
  | record (r : Record)
  | array (items : List Value)

/-- A named value of a record. -/
structure Entry where
  name : String
  value : Value

/-- Values by name.  A name that is not there says nothing about its field. -/
structure Record where
  entries : List Entry

end

/-! ## Records -/

namespace Record

def empty : Record := ⟨[]⟩

def get? (r : Record) (name : String) : Option Value :=
  (lookup? Entry.name name r.entries).map Entry.value

/-- Sets a name, at its old position if it has one. -/
def set (r : Record) (name : String) (value : Value) : Record :=
  ⟨upsert Entry.name ⟨name, value⟩ r.entries⟩

/-- Takes a name out; the others keep their order. -/
def remove (r : Record) (name : String) : Record := ⟨removeKey Entry.name name r.entries⟩

def contains (r : Record) (name : String) : Bool := (r.get? name).isSome

def names (r : Record) : List String := r.entries.map Entry.name

def size (r : Record) : Nat := r.entries.length

def isEmpty (r : Record) : Bool := r.entries.isEmpty

theorem get?_set (r : Record) (name other : String) (value : Value) :
    (r.set name value).get? other = if name = other then some value else r.get? other := by
  simp only [get?, set, lookup?_upsert]
  split <;> rfl

theorem get?_remove (r : Record) (name other : String) :
    (r.remove name).get? other = if name = other then none else r.get? other := by
  simp only [get?, remove, lookup?_removeKey]
  split <;> rfl

end Record

/-! ## Views of a value -/

/-- The sorts of values. -/
inductive ValueSort where
  | int
  | uint
  | float
  | bool
  | pointer
  | record
  | array
deriving DecidableEq, Repr

def ValueSort.text : ValueSort → String
  | int => "int"
  | uint => "uint"
  | float => "float"
  | bool => "bool"
  | pointer => "pointer"
  | record => "struct"
  | array => "array"

namespace Value

def sort : Value → ValueSort
  | int _ => .int
  | uint _ => .uint
  | float _ => .float
  | bool _ => .bool
  | pointer _ => .pointer
  | record _ => .record
  | array _ => .array

/-- A number of single precision. -/
def ofSingle (bits : Nat) : Value :=
  float (BitVec.ofNat 64 (FloatFormat.single.convert .double bits))

/-- An integer as a two's complement number. -/
def toInt64? : Value → Option Int64
  | int n => some n
  | uint w => some (.ofBitVec w)
  | _ => none

/-- An integer modulo `2 ^ 64`. -/
def toWord? : Value → Option Word
  | int n => some n.toBitVec
  | uint w => some w
  | _ => none

def toFloatBits? : Value → Option Word
  | float bits => some bits
  | _ => none

def toBool? : Value → Option Bool
  | bool b => some b
  | _ => none

/-- A pointer, or an unsigned integer taken as an address. -/
def toAddress? : Value → Option Address
  | pointer a => some a
  | uint w => some ⟨w⟩
  | _ => none

def toRecord? : Value → Option Record
  | record r => some r
  | _ => none

def toItems? : Value → Option (List Value)
  | array items => some items
  | _ => none

end Value

/-! ## Equality -/

mutual

/-- Equality of values; of numbers as numbers. -/
def Value.same : Value → Value → Bool
  | .int a, .int b => a == b
  | .uint a, .uint b => a == b
  | .float a, .float b => FloatFormat.double.same a.toNat b.toNat
  | .bool a, .bool b => a == b
  | .pointer a, .pointer b => a == b
  | .record r, .record s => r.same s
  | .array xs, .array ys => sameItems xs ys
  | _, _ => false
termination_by structural v => v

/-- The same values under the same names. -/
def Record.same : Record → Record → Bool
  | { entries }, s => entries.length == s.entries.length && sameEntries entries s
termination_by structural r => r

/-- Each entry has its value in the record too. -/
def sameEntries : List Entry → Record → Bool
  | [], _ => true
  | { name, value } :: rest, s => (s.get? name).any value.same && sameEntries rest s
termination_by structural es => es

def sameItems : List Value → List Value → Bool
  | [], [] => true
  | x :: xs, y :: ys => x.same y && sameItems xs ys
  | _, _ => false
termination_by structural xs => xs

end

/-! ## Text -/

mutual

def Value.text : Value → String
  | .int n => toString n.toInt
  | .uint w => toString w.toNat
  | .float bits => FloatFormat.double.text bits.toNat
  | .bool true => "true"
  | .bool false => "false"
  | .pointer a => a.text
  | .record r => r.text
  | .array items => "[" ++ String.intercalate ", " (itemTexts [] items) ++ "]"
termination_by structural v => v

def Record.text : Record → String
  | { entries } => "\x7b " ++ String.intercalate ", " (entryTexts [] entries) ++ " \x7d"
termination_by structural r => r

/-- The texts of entries behind those in `done`, which stand in reverse. -/
def entryTexts (done : List String) : List Entry → List String
  | [] => done.reverse
  | { name, value } :: rest => entryTexts ((name ++ ": " ++ value.text) :: done) rest
termination_by structural es => es

/-- The texts of items behind those in `done`, which stand in reverse. -/
def itemTexts (done : List String) : List Value → List String
  | [] => done.reverse
  | item :: rest => itemTexts (item.text :: done) rest
termination_by structural items => items

end

end NativeRecord
