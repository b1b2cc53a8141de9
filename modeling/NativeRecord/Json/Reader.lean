import NativeRecord.Json.Token

/-!
# Reading JSON text

The document of a text is put together token by token, with the containers that are still open on
a stack, so a text may nest them to any depth.

## What is here

* `Json.OpenContainer` and `Json.Progress` — how far the reading has come; `Progress.step?` — the
  same one token later.
* `Json.parse?` — the document that a text holds, and nothing besides it but blanks.
-/

set_option autoImplicit false
namespace NativeRecord
namespace Json

/-- An array or object whose closing bracket is still to come, with what it holds so far, the last
one first.  Of an object's next entry, the name alone or the name and the colon may be there. -/
inductive OpenContainer where
  | items (done : List Json)
  | entries (done : List (Option String × Json))
  | named (done : List (Option String × Json)) (name : Option String)
  | awaiting (done : List (Option String × Json)) (name : Option String)

/-- How far the reading has come; the innermost open container comes first.  Either something is to
come in it, or a value has just ended. -/
inductive Progress where
  | before (containers : List OpenContainer)
  | after (value : Json) (containers : List OpenContainer)

namespace Progress

/-- Nothing is read yet. -/
def start : Progress := before []

/-- One token later, unless the token cannot stand there.  A container may be closed before a value
only if it is empty, since otherwise a comma has just been read. -/
def step? : Progress → Token → Option Progress
  | after j (.items done :: outer), .comma => some (before (.items (j :: done) :: outer))
  | after j (.items done :: outer), .closeArray =>
    some (after (.array (j :: done).reverse) outer)
  | after j (.awaiting done name :: outer), .comma =>
    some (before (.entries ((name, j) :: done) :: outer))
  | after j (.awaiting done name :: outer), .closeObject =>
    some (after (.object ((name, j) :: done).reverse) outer)
  | after _ _, _ => none
  | before (.entries done :: outer), .scalar (.string name) =>
    some (before (.named done name :: outer))
  | before (.entries [] :: outer), .closeObject => some (after (.object []) outer)
  | before (.entries _ :: _), _ => none
  | before (.named done name :: outer), .colon => some (before (.awaiting done name :: outer))
  | before (.named _ _ :: _), _ => none
  | before (.items [] :: outer), .closeArray => some (after (.array []) outer)
  | before outer, .openArray => some (before (.items [] :: outer))
  | before outer, .openObject => some (before (.entries [] :: outer))
  | before outer, .scalar j => some (after j outer)
  | before _, _ => none

/-- The document, once it has ended. -/
def result? : Progress → Option Json
  | after j [] => some j
  | _ => none

end Progress

/-- The document of a list of tokens. -/
def ofTokens? (tokens : List Token) : Option Json :=
  (tokens.foldlM Progress.step? .start).bind Progress.result?

/-- The document of a text. -/
def parse? (s : String) : Option Json := (tokens? s).bind ofTokens?

end Json

end NativeRecord
