import NativeRecord.Float.Format

/-!
# Shortest decimals

A number is written with the fewest digits that are read back as it.  The numbers that are read
back as a given one form an interval around it; on a grid of decimals, only the two neighbours of
the number need to be tried.

## What is here

* `RoundingInterval` — a number and the bounds of what is rounded to it, over one denominator.
* `Decimal`, and `RoundingInterval.shortest?` — the first grid, from coarse to fine, that has a
  point in the interval; of two points the nearer, and the greater if both are as near.
* `FloatFormat.text` — the text of a number: never with an exponent, without a point when whole.
-/

set_option autoImplicit false
namespace NativeRecord

/-- A positive number and the bounds of the numbers that are rounded to it. -/
structure RoundingInterval where
  low : Nat
  value : Nat
  high : Nat
  denominator : Nat
  /-- Whether the bounds themselves are rounded to the number. -/
  closed : Bool

/-- The number `digits * 10 ^ exponent`. -/
structure Decimal where
  digits : Nat
  exponent : Int
deriving DecidableEq, Repr

namespace RoundingInterval

/-- The interval of a positive number of a format.  The gap below a power of two is half as wide
as the one above, unless the number is among the least ones. -/
def ofFloat (f : FloatFormat) (significand : Nat) (exponent : Int) : RoundingInterval :=
  let narrow := significand = 2 ^ f.fractionBits ∧ f.leastExponent < exponent
  let scale := 2 ^ exponent.toNat
  { low := (4 * significand - if narrow then 1 else 2) * scale
    value := 4 * significand * scale
    high := (4 * significand + 2) * scale
    denominator := 4 * 2 ^ (-exponent).toNat
    closed := significand % 2 = 0 }

/-- The interval with all its numbers divided by a power of ten. -/
def unscale (i : RoundingInterval) (exponent : Int) : RoundingInterval :=
  let up := 10 ^ (-exponent).toNat
  { i with
    low := i.low * up
    value := i.value * up
    high := i.high * up
    denominator := i.denominator * 10 ^ exponent.toNat }

/-- Whether a whole number lies in the interval. -/
def holds (i : RoundingInterval) (n : Nat) : Bool :=
  let p := n * i.denominator
  if i.closed then i.low ≤ p && p ≤ i.high else i.low < p && p < i.high

/-- The whole number in the interval that is next to the value. -/
def nearest? (i : RoundingInterval) : Option Nat :=
  let below := i.value / i.denominator
  match i.holds below, i.holds (below + 1) with
  | true, true =>
    if 2 * (i.value % i.denominator) < i.denominator then some below else some (below + 1)
  | true, false => some below
  | false, true => some (below + 1)
  | false, false => none

/-- The exponent of the leading decimal digit, for values that are not below `10 ^ -400`. -/
def leadingExponent (i : RoundingInterval) : Int :=
  ((Nat.toDigits 10 (i.value * 10 ^ (400 : Nat) / i.denominator)).length : Int) - 401

/-- A decimal in the interval on the first grid that has one, from one digit to `count`. -/
def shortest? (i : RoundingInterval) (count : Nat) : Option Decimal :=
  (List.range count).findSome? fun (k : Nat) =>
    let exponent := i.leadingExponent - k
    (i.unscale exponent).nearest?.map fun digits => ⟨digits, exponent⟩

end RoundingInterval

namespace Decimal

/-- The digits without zeros at their end, which move into the exponent. -/
def trim : (fuel : Nat) → Decimal → Decimal
  | 0, d => d
  | fuel + 1, d =>
    if d.digits ≠ 0 ∧ d.digits % 10 = 0 then trim fuel ⟨d.digits / 10, d.exponent + 1⟩ else d

/-- All digits around the point, with zeros where there are none. -/
def positional (d : Decimal) : List Char :=
  let digits := Nat.toDigits 10 d.digits
  if 0 ≤ d.exponent then digits ++ List.replicate d.exponent.toNat '0'
  else
    let places := (-d.exponent).toNat
    if places < digits.length then
      digits.take (digits.length - places) ++ '.' :: digits.drop (digits.length - places)
    else '0' :: '.' :: List.replicate (places - digits.length) '0' ++ digits

end Decimal

/-- The number of digits that tell apart all numbers of double precision. -/
def maxDigits : Nat := 17

/-- The text of a number given by its bits. -/
def FloatFormat.text (f : FloatFormat) (bits : Nat) : String :=
  let sign (negative : Bool) := if negative then ['-'] else []
  String.ofList <| match f.decode bits with
    | .nan _ _ => ['N', 'a', 'N']
    | .infinite negative => sign negative ++ ['i', 'n', 'f']
    | .finite negative 0 _ => sign negative ++ ['0']
    | .finite negative significand exponent =>
      match (RoundingInterval.ofFloat f significand exponent).shortest? maxDigits with
      | some d => sign negative ++ (d.trim maxDigits).positional
      | none => []

end NativeRecord
