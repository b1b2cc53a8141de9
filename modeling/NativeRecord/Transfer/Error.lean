import NativeRecord.CType
import NativeRecord.Memory.View
import NativeRecord.Value

/-!
# Failures of transfers

A transfer moves the values of a record to memory or back.

A failure has a cause and a way.  The cause is an access that memory refused, a value that does not
fit, or a name that is not there; the way is a chain of records with their addresses, the outermost
first, which grows as the error is handed on.  Messages show both.

## What is here

* `TransferError` with `TransferError.message`, and `TransferError.root`, the failure below the
  records that it happened in.
-/

set_option autoImplicit false
namespace NativeRecord

/-- What a field would take. -/
inductive Expected where
  | type (type : CType)
  | array
deriving DecidableEq, Repr

def Expected.text : Expected → String
  | type t => t.text
  | array => "array"

/-- What the accessors of single fields are made for. -/
inductive Request where
  | integer
  | float
  | bool
  | pointer
  | record
  | enum
  | bitField
  | array
  | platform (type : TargetInt)
deriving DecidableEq, Repr

def Request.text : Request → String
  | integer => "integer"
  | float => "float"
  | bool => "bool"
  | pointer => "pointer"
  | record => "struct"
  | enum => "enum"
  | bitField => "bit-field"
  | array => "array"
  | platform type => type.text

/-- What a field was given instead: a value, or an accessor made for other fields. -/
inductive Given where
  | value (sort : ValueSort)
  | request (request : Request)
deriving DecidableEq, Repr

def Given.text : Given → String
  | value sort => sort.text
  | request r => r.text

/-- Why a record or a field could not be read or written. -/
inductive TransferError where
  | memory (cause : AccessError)
  | noSuchName (name : String)
  | noSuchIndex (tag : Tag) (index : Nat)
  | kindMismatch (field : String) (expected : Expected) (given : Given)
  /-- An access past the end of the record. -/
  | outOfBounds (offset length size : Nat)
  | arrayLength (field : String) (expected given : Nat)
  | indexOutOfRange (field : String) (index length : Nat)
  | valueOutOfRange (field : String) (value : Word)
  /-- A failure inside the record of a type that starts at an address. -/
  | inRecord (tag : Tag) (start : Address) (cause : TransferError)
deriving DecidableEq, Repr

namespace TransferError

/-- The failure itself, without the records around it. -/
def root : TransferError → TransferError
  | inRecord _ _ cause => cause.root
  | e => e

def message : TransferError → String
  | memory cause => "Memory access failed: " ++ cause.message
  | noSuchName name => "Field not found: " ++ name
  | noSuchIndex tag index => "Field not found: " ++ tag.name ++ "#" ++ toString index
  | kindMismatch field expected given =>
    "Field " ++ field ++ " is declared as " ++ expected.text ++ " but was given " ++ given.text
  | outOfBounds offset length size =>
    "Access of " ++ toString length ++ " bytes at offset " ++ toString offset ++
      " exceeds struct size " ++ toString size
  | arrayLength field expected given =>
    "Array field " ++ field ++ " holds " ++ toString expected ++ " elements, got " ++ toString given
  | indexOutOfRange field index length =>
    "Index " ++ toString index ++ " out of range for array field " ++ field ++ " of length " ++
      toString length
  | valueOutOfRange field value =>
    "Value " ++ HexFormat.render { marked := true } value.toNat ++ " of field " ++ field ++
      " does not fit the requested type"
  | inRecord tag start cause =>
    "Error while marshaling struct " ++ tag.name ++ " (" ++ start.text ++ "): " ++ cause.message

end TransferError

end NativeRecord
