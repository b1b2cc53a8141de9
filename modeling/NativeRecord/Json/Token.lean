import NativeRecord.Json.Basic

/-!
# Tokens of JSON text

The brackets, commas and colons of a text, and the values between them that hold no other values.

Strings are read in two passes.  The first finds the closing quote and cuts the text between into
parts, a character or a unit of UTF-16 each; the second joins pairs of units to characters.  A unit
without its other half makes the string have no text, but it does not make the document unreadable,
so the first pass must not depend on the second.

## What is here

* `Json.Token` and `Json.tokens?` — the tokens of a text, blanks left out.
* `Json.readString` and `Json.readNumber` — the two kinds of token that vary in length.

What reads a part of a text takes a list of characters and returns what it read and what is left.
-/

set_option autoImplicit false
namespace NativeRecord
namespace Json

/-- A bracket, a comma, a colon, or a value without parts. -/
inductive Token where
  | openArray
  | closeArray
  | openObject
  | closeObject
  | comma
  | colon
  | scalar (j : Json)

/-- The characters that may stand between tokens. -/
def isBlank (c : Char) : Bool := c = ' ' || c = '\t' || c = '\n' || c = '\r'

/-! ## Strings -/

/-- What stands for one UTF-16 unit or one character inside quotes. -/
inductive StringPart where
  | char (c : Char)
  | unit (n : Nat)

def hexDigit? (c : Char) : Option Nat :=
  if '0' ≤ c ∧ c ≤ '9' then some (c.toNat - '0'.toNat)
  else if 'a' ≤ c ∧ c ≤ 'f' then some (c.toNat - 'a'.toNat + 10)
  else if 'A' ≤ c ∧ c ≤ 'F' then some (c.toNat - 'A'.toNat + 10)
  else none

def hexDigits? (cs : List Char) : Option Nat :=
  cs.foldlM (fun n c => do return 16 * n + (← hexDigit? c)) 0

/-- The character behind a backslash, other than `u`. -/
def unescape? : Char → Option Char
  | '"' => some '"'
  | '\\' => some '\\'
  | '/' => some '/'
  | 'b' => some '\x08'
  | 'f' => some '\x0c'
  | 'n' => some '\n'
  | 'r' => some '\r'
  | 't' => some '\t'
  | _ => none

/-- Reads up to the closing quote, behind the parts in `done`, which stand in reverse.  Control
characters must be escaped. -/
def readParts (done : List StringPart) : List Char → Option (List StringPart × List Char)
  | '"' :: rest => some (done.reverse, rest)
  | '\\' :: 'u' :: a :: b :: c :: d :: rest =>
    match hexDigits? [a, b, c, d] with
    | some n => readParts (.unit n :: done) rest
    | none => none
  | '\\' :: c :: rest =>
    match unescape? c with
    | some c => readParts (.char c :: done) rest
    | none => none
  | c :: rest => if c.toNat < 0x20 then none else readParts (.char c :: done) rest
  | [] => none

/-- A character from the two units that name it. -/
def pairedChar (high low : Nat) : Char :=
  Char.ofNat (0x10000 + (high - 0xd800) * 0x400 + (low - 0xdc00))

/-- The characters that the parts name, behind those in `done`, which stand in reverse.  Each unit
of a pair needs the other one beside it. -/
def charsOfParts (done : List Char) : List StringPart → Option (List Char)
  | [] => some done.reverse
  | .char c :: rest => charsOfParts (c :: done) rest
  | .unit high :: .unit low :: rest =>
    if 0xd800 ≤ high ∧ high < 0xdc00 then
      if 0xdc00 ≤ low ∧ low < 0xe000 then charsOfParts (pairedChar high low :: done) rest else none
    else if 0xdc00 ≤ high ∧ high < 0xe000 then none
    else charsOfParts (Char.ofNat high :: done) (.unit low :: rest)
  | .unit n :: rest =>
    if 0xd800 ≤ n ∧ n < 0xe000 then none else charsOfParts (Char.ofNat n :: done) rest

/-- Reads a string behind its opening quote. -/
def readString (cs : List Char) : Option (Option String × List Char) := do
  let (parts, rest) ← readParts [] cs
  return ((charsOfParts [] parts).map String.ofList, rest)

/-! ## Numbers -/

/-- One digit or more. -/
def readDigits (cs : List Char) : Option (List Char × List Char) :=
  match cs.takeWhile Char.isDigit with
  | [] => none
  | digits => some (digits, cs.dropWhile Char.isDigit)

/-- A zero alone, or digits that do not start with one. -/
def readWhole : List Char → Option (List Char × List Char)
  | '0' :: rest => some (['0'], rest)
  | cs => readDigits cs

/-- A point and digits, if a point stands there. -/
def readFraction : List Char → Option (List Char × List Char)
  | '.' :: cs => do
    let (digits, rest) ← readDigits cs
    return ('.' :: digits, rest)
  | cs => some ([], cs)

/-- One of the signs, if it stands there. -/
def readSign (signs : List Char) : List Char → Option (List Char × List Char)
  | c :: cs => if c ∈ signs then some ([c], cs) else some ([], c :: cs)
  | [] => some ([], [])

/-- A mark of the exponent, perhaps a sign, and digits, if the mark stands there. -/
def readExponent : List Char → Option (List Char × List Char)
  | c :: cs =>
    if c = 'e' ∨ c = 'E' then do
      let (sign, cs) ← readSign ['+', '-'] cs
      let (digits, rest) ← readDigits cs
      return (c :: sign ++ digits, rest)
    else some ([], c :: cs)
  | [] => some ([], [])

/-- A number as it is written. -/
def readNumber (cs : List Char) : Option (String × List Char) := do
  let (sign, cs) ← readSign ['-'] cs
  let (whole, cs) ← readWhole cs
  let (fraction, cs) ← readFraction cs
  let (exponent, cs) ← readExponent cs
  return (String.ofList (sign ++ whole ++ fraction ++ exponent), cs)

/-! ## Tokens -/

/-- Reads the token at the start. -/
def readToken : List Char → Option (Token × List Char)
  | '[' :: rest => some (.openArray, rest)
  | ']' :: rest => some (.closeArray, rest)
  | '\x7b' :: rest => some (.openObject, rest)
  | '\x7d' :: rest => some (.closeObject, rest)
  | ',' :: rest => some (.comma, rest)
  | ':' :: rest => some (.colon, rest)
  | 'n' :: 'u' :: 'l' :: 'l' :: rest => some (.scalar .null, rest)
  | 't' :: 'r' :: 'u' :: 'e' :: rest => some (.scalar (.bool true), rest)
  | 'f' :: 'a' :: 'l' :: 's' :: 'e' :: rest => some (.scalar (.bool false), rest)
  | '"' :: rest => do
    let (text, rest) ← readString rest
    return (.scalar (.string text), rest)
  | cs => do
    let (literal, rest) ← readNumber cs
    return (.scalar (.number literal), rest)

/-- Reads at most `fuel` tokens, behind those in `done`, which stand in reverse. -/
def readTokens (done : List Token) : (fuel : Nat) → List Char → Option (List Token)
  | 0, _ => none
  | fuel + 1, cs =>
    match cs.dropWhile isBlank with
    | [] => some done.reverse
    | cs =>
      match readToken cs with
      | some (t, rest) => readTokens (t :: done) fuel rest
      | none => none

/-- The tokens of a text.  Each of them takes a character, so the fuel does not run out. -/
def tokens? (s : String) : Option (List Token) := readTokens [] (s.toList.length + 1) s.toList

end Json

end NativeRecord
