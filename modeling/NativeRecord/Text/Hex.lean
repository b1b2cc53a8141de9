/-!
# Hexadecimal text

Numbers are written in base sixteen in several places, and each has its own way: offsets in messages
are short and in capitals, addresses have all their digits, and other numbers are only marked.  The
format collects what they differ in, so that there is one function to render them.

## What is here

* `HexFormat` — the case of the digits, whether `0x` stands in front, and how a short number is
  filled up to a width.
* `HexFormat.render` and `hexOffset`, the form in which offsets appear in messages.
-/

set_option autoImplicit false
namespace NativeRecord

/-- What fills a number up to its width: zeros behind the mark, or blanks before it. -/
inductive HexFill where
  | zeros
  | blanks
deriving DecidableEq, Repr

/-- How a number is written in base sixteen. -/
structure HexFormat where
  upper : Bool := false
  /-- Whether `0x` stands in front; it counts towards the width. -/
  marked : Bool := false
  width : Nat := 0
  fill : HexFill := .zeros
deriving DecidableEq, Repr

namespace HexFormat

/-- The digits alone, most significant first. -/
def digits (format : HexFormat) (n : Nat) : List Char :=
  let lower := Nat.toDigits 16 n
  if format.upper then lower.map Char.toUpper else lower

/-- The mark, the digits, and what fills them up to the width. -/
def render (format : HexFormat) (n : Nat) : String :=
  let mark := if format.marked then ['0', 'x'] else []
  let digits := format.digits n
  let missing := format.width - (mark.length + digits.length)
  String.ofList <| match format.fill with
    | .zeros => mark ++ List.replicate missing '0' ++ digits
    | .blanks => List.replicate missing ' ' ++ mark ++ digits

end HexFormat

/-- An offset in a message: `0x` and capital digits. -/
def hexOffset (n : Nat) : String := HexFormat.render { upper := true, marked := true } n

end NativeRecord
