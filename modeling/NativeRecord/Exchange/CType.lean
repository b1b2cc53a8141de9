import NativeRecord.CType
import NativeRecord.Json.Decode

/-!
# Types as JSON

A type is written as the name of its kind with what the kind carries.

The kinds that carry something are objects with one entry, named after the kind, and the one that
carries nothing is its bare name.  The reader has the depth that is left for an argument: every kind
that carries something opens a container, and a document that nests too deeply is refused as other
readers of such files do.

## What is here

* `CType.toJson` and the reader `CType.ofJson?`.
-/

set_option autoImplicit false
namespace NativeRecord

def IntWidth.jsonName : IntWidth → String
  | w8 => "W8"
  | w16 => "W16"
  | w32 => "W32"
  | w64 => "W64"

def FloatWidth.jsonName : FloatWidth → String
  | f32 => "F32"
  | f64 => "F64"

def TargetInt.jsonName : TargetInt → String
  | sizeT => "SizeT"
  | long => "Long"
  | unsignedLong => "ULong"
  | timeT => "TimeT"

def Tag.toJson (tag : Tag) : Json := .text tag.name

/-- The kind and the width, or the name of the platform's type. -/
def Arith.toJson : Arith → Json
  | signed w => .tagged "Signed" (.text w.jsonName)
  | unsigned w => .tagged "Unsigned" (.text w.jsonName)
  | float w => .tagged "Float" (.text w.jsonName)
  | bool => .text "Bool"
  | platform p => .tagged "Platform" (.text p.jsonName)
  | enum w => .tagged "Enum" (.text w.jsonName)

/-- The kind and the type inside, for as many levels as there are. -/
def CType.toJson : CType → Json
  | arith a => a.toJson
  | pointer target => .tagged "Pointer" target.toJson
  | record tag => .tagged "Struct" tag.toJson
  | array element length => .tagged "Array" (.array [element.toJson, .nat length])

/-! ## Readers -/

/-- The one of some values that has the name in the document. -/
def namedValue? {α : Type} (jsonName : α → String) (values : List α) : Json.Decoder α :=
  fun depth j => do
    let name ← Json.name? depth j
    values.find? (jsonName · = name)

def IntWidth.ofJson? : Json.Decoder IntWidth := namedValue? jsonName [w8, w16, w32, w64]

def FloatWidth.ofJson? : Json.Decoder FloatWidth := namedValue? jsonName [f32, f64]

def TargetInt.ofJson? : Json.Decoder TargetInt :=
  namedValue? jsonName [sizeT, long, unsignedLong, timeT]

def Tag.ofJson? (j : Json) : Option Tag := j.text?.map Tag.mk

/-- The kind and what it carries open a container each, but for a kind that carries nothing. -/
def CType.ofJson? : Json.Decoder CType
  | _, .string (some "Bool") => some (.arith .bool)
  | depth + 1, .object [(some kind, payload)] =>
    match kind with
    | "Bool" => match payload with
      | .null => some (.arith .bool)
      | _ => none
    | "Signed" => (IntWidth.ofJson? depth payload).map (.arith <| .signed ·)
    | "Unsigned" => (IntWidth.ofJson? depth payload).map (.arith <| .unsigned ·)
    | "Enum" => (IntWidth.ofJson? depth payload).map (.arith <| .enum ·)
    | "Float" => (FloatWidth.ofJson? depth payload).map (.arith <| .float ·)
    | "Platform" => (TargetInt.ofJson? depth payload).map (.arith <| .platform ·)
    | "Pointer" => (ofJson? depth payload).map .pointer
    | "Struct" => (Tag.ofJson? payload).map .record
    | "Array" => match depth, payload with
      | depth + 1, .array [element, length] => do
        return .array (← ofJson? depth element) (← length.nat? Json.wordBound)
      | _, _ => none
    | _ => none
  | _, _ => none

end NativeRecord
