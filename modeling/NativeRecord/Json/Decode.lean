import NativeRecord.CoreInstances
import NativeRecord.Json.Reader

/-!
# Reading values from documents

A value is read from a document by its type.  The readers of composite values count the containers
they open: past a bound on the nesting there is no value.  Entries that a type does not know are
passed over, with whatever they hold.

## What is here

* Readers of plain values: `Json.nat?`, `Json.bool?`, `Json.text?`, `Json.list?`.
* `Json.entries?` — the entries of a record type, from an object or from an array of all of them.
* `Json.variant?` — the name of a variant and what it carries.
* `Json.decode?` — a reader applied to a text.
-/

set_option autoImplicit false
namespace NativeRecord

namespace Json

/-- Reads a value, opening at most that many containers one inside the other. -/
abbrev Decoder (α : Type) := (depth : Nat) → Json → Option α

/-- The number of containers that may be open at once. -/
def maxDepth : Nat := 127

/-! ## Plain values -/

/-- A number with one more digit at its end, below a bound. -/
def appendDigit? (bound n : Nat) (c : Char) : Option Nat :=
  let next := 10 * n + (c.toNat - '0'.toNat)
  if c.isDigit ∧ next < bound then some next else none

/-- A number written as digits alone, below a bound. -/
def nat? (bound : Nat) : Json → Option Nat
  | .number literal => literal.toList.foldlM (appendDigit? bound) 0
  | _ => none

def bool? : Json → Option Bool
  | .bool b => some b
  | _ => none

def text? : Json → Option String
  | .string text => text
  | _ => none

/-! ## Composite values -/

/-- The items of an array, each read by a reader. -/
def list? {α : Type} (item : Decoder α) : Decoder (List α)
  | depth + 1, .array items => items.mapM (item depth)
  | _, _ => none

/-- The values of the named entries.  An object may hold entries of other names too, but each
named one once; an array holds exactly the named ones in their order. -/
def entries? (names : List String) : Json → Option (List (Option Json))
  | .object entries => do
    let entries ← entries.mapM fun (name, value) => do return (← name, value)
    names.mapM fun name =>
      match entries.filter (·.1 = name) with
      | [] => some none
      | [(_, value)] => some (some value)
      | _ => none
  | .array items => if items.length = names.length then some (items.map some) else none
  | _ => none

/-- A value that may be left out or be `null`. -/
def optional? {α : Type} (f : Json → Option α) : Option Json → Option (Option α)
  | none | some .null => some none
  | some j => (f j).map some

/-- The name of a variant, alone or with what it carries. -/
def variant? : Json → Option (String × Option Json)
  | .string (some name) => some (name, none)
  | .object [(some name, payload)] => some (name, some payload)
  | _ => none

/-- The name of a variant that carries nothing.  As an object it opens a container. -/
def name? : Decoder String
  | _, .string name => name
  | _ + 1, .object [(name, .null)] => name
  | _, _ => none

/-- Applies a reader to the document of a text. -/
def decode? {α : Type} (decoder : Decoder α) (s : String) : Option α := do
  decoder maxDepth (← parse? s)

/-! ## Numbers in a box -/

/-- The bound of a 64-bit number. -/
def wordBound : Nat := 2 ^ (64 : Nat)

/-- A number as the one entry of an object: the form of alignments and addresses. -/
def boxed (n : Nat) : Json := tagged "value" (nat n)

/-- Reads a number in a box. -/
def boxed? : Decoder Nat
  | _ + 1, j => do
    match ← entries? ["value"] j with
    | [value] => nat? wordBound (← value)
    | _ => none
  | _, _ => none

end Json

end NativeRecord
