/-!
# JSON documents

A document keeps more than the value it stands for.  A number is kept as its literal, since what is
a number for one reader may be too large for another; an object keeps its entries in order and may
have two of one name, since whether that is an error is for the reader of the object to say.
Writing is a recursion over the document with the depth for an argument, and both styles are one
function: they differ in what stands between the parts.

## What is here

* `Json` — a document, with numbers and member order as they are written.
* `Json.compact` and `Json.pretty` — its text on one line and over several.
-/

set_option autoImplicit false
namespace NativeRecord

/-- A JSON document.  A string is `none` when an escape in it names half a character: such a
string can be passed over but has no text. -/
inductive Json where
  | null
  | bool (b : Bool)
  | number (literal : String)
  | string (text : Option String)
  | array (items : List Json)
  | object (entries : List (Option String × Json))

namespace Json

/-- A string that has a text. -/
def text (s : String) : Json := .string (some s)

/-- A number by its decimal numeral. -/
def nat (n : Nat) : Json := .number (toString n)

/-- The document of a value, or `null` without one. -/
def ofOption {α : Type} (f : α → Json) (a : Option α) : Json := a.elim .null f

/-- An object with the given entries. -/
def ofFields (fields : List (String × Json)) : Json :=
  .object (fields.map fun (name, value) => (some name, value))

/-- An object with one entry. -/
def tagged (name : String) (value : Json) : Json := ofFields [(name, value)]

/-! ## Strings -/

/-- A character inside quotes.  Quotes, backslashes and control characters are escaped. -/
def escape (c : Char) : List Char :=
  if c = '"' then ['\\', '"']
  else if c = '\\' then ['\\', '\\']
  else if c = '\x08' then ['\\', 'b']
  else if c = '\t' then ['\\', 't']
  else if c = '\n' then ['\\', 'n']
  else if c = '\x0c' then ['\\', 'f']
  else if c = '\r' then ['\\', 'r']
  else if c.toNat < 0x20 then
    ['\\', 'u', '0', '0', Nat.digitChar (c.toNat / 16), Nat.digitChar (c.toNat % 16)]
  else [c]

/-- A text between quotes. -/
def quote (s : String) : String := String.ofList ('"' :: s.toList.flatMap escape ++ ['"'])

/-! ## Documents -/

/-- How the parts of a document are set apart. -/
structure Style where
  /-- What stands before an item at a depth, and before the bracket that closes it. -/
  gap : Nat → String
  colon : String

/-- All on one line, without blanks. -/
def Style.compact : Style where
  gap := fun _ => ""
  colon := ":"

/-- An item a line, two blanks deeper for each level. -/
def Style.pretty : Style where
  gap := fun depth => String.ofList ('\n' :: List.replicate (2 * depth) ' ')
  colon := ": "

/-- Items between brackets; nothing between the brackets without any. -/
def Style.enclose (style : Style) (depth : Nat) (opening closing : String) :
    List String → String
  | [] => opening ++ closing
  | items => opening ++ style.gap (depth + 1) ++
      String.intercalate ("," ++ style.gap (depth + 1)) items ++ style.gap depth ++ closing

mutual

/-- The text of a document that stands at a depth. -/
def render (style : Style) (depth : Nat) : Json → String
  | null => "null"
  | bool true => "true"
  | bool false => "false"
  | number literal => literal
  | string text => quote (text.getD "")
  | array items => style.enclose depth "[" "]" (renderItems style (depth + 1) [] items)
  | object entries => style.enclose depth "\x7b" "\x7d" (renderEntries style (depth + 1) [] entries)
termination_by structural j => j

/-- The texts of items behind those in `done`, which stand in reverse. -/
def renderItems (style : Style) (depth : Nat) (done : List String) : List Json → List String
  | [] => done.reverse
  | item :: items => renderItems style depth (item.render style depth :: done) items
termination_by structural items => items

/-- The texts of entries behind those in `done`, which stand in reverse. -/
def renderEntries (style : Style) (depth : Nat) (done : List String) :
    List (Option String × Json) → List String
  | [] => done.reverse
  | (name, value) :: entries =>
    let entry := quote (name.getD "") ++ style.colon ++ value.render style depth
    renderEntries style depth (entry :: done) entries
termination_by structural entries => entries

end

/-- The text on one line. -/
def compact (j : Json) : String := j.render .compact 0

/-- The text over several lines. -/
def pretty (j : Json) : String := j.render .pretty 0

end Json

end NativeRecord
