import NativeRecord.CoreInstances

/-!
# Binary floating-point formats

Floating-point numbers are handled by their bits, so that every bit of a NaN is kept where memory
can show it.  A finite number is a whole significand times a power of two.

## What is here

* `FloatFormat`, with `FloatFormat.single` and `FloatFormat.double`.
* `FloatFormat.decode` — what some bits stand for, and `FloatFormat.round` — the bits of the
  nearest number of a format.
* `FloatFormat.convert` — from one format to another.
* `FloatFormat.same` — equality of the numbers: a NaN equals nothing, the two zeros are equal.
-/

set_option autoImplicit false
namespace NativeRecord

/-- The widths of the two fields behind the sign. -/
structure FloatFormat where
  exponentBits : Nat
  fractionBits : Nat
deriving DecidableEq, Repr

/-- What the bits of a format stand for. -/
inductive FloatDatum where
  | nan (negative : Bool) (payload : Nat)
  | infinite (negative : Bool)
  /-- The number `significand * 2 ^ exponent`, or its opposite. -/
  | finite (negative : Bool) (significand : Nat) (exponent : Int)
deriving DecidableEq, Repr

/-- The quotient rounded to the nearest whole number, a half to the even one. -/
def roundHalfEven (n d : Nat) : Nat :=
  let q := n / d
  let r := n % d
  if 2 * r < d ∨ (2 * r = d ∧ q % 2 = 0) then q else q + 1

namespace FloatFormat

def single : FloatFormat := ⟨8, 23⟩

def double : FloatFormat := ⟨11, 52⟩

/-- The exponent field of infinities and NaNs. -/
def specialExponent (f : FloatFormat) : Nat := 2 ^ f.exponentBits - 1

/-- The exponent of the least positive number. -/
def leastExponent (f : FloatFormat) : Int :=
  2 - 2 ^ (f.exponentBits - 1) - (f.fractionBits : Int)

/-- The sign, in front of the two fields. -/
def signBit (f : FloatFormat) (negative : Bool) : Nat :=
  if negative then 2 ^ (f.exponentBits + f.fractionBits) else 0

/-- What some bits stand for; bits past the format's own are not looked at. -/
def decode (f : FloatFormat) (bits : Nat) : FloatDatum :=
  let fraction := bits % 2 ^ f.fractionBits
  let exponent := bits / 2 ^ f.fractionBits % 2 ^ f.exponentBits
  let negative := bits / 2 ^ (f.exponentBits + f.fractionBits) % 2 = 1
  if exponent = f.specialExponent then
    if fraction = 0 then .infinite negative else .nan negative fraction
  else if exponent = 0 then .finite negative fraction f.leastExponent
  else .finite negative (2 ^ f.fractionBits + fraction) (f.leastExponent + (exponent - 1 : Nat))

/-- The bits, without the sign, of the number nearest to `significand * 2 ^ exponent`; infinity
past the greatest one.  The significand is cut to one that the format holds, and its leading bit
carries into the exponent field. -/
def roundMagnitude (f : FloatFormat) (significand : Nat) (exponent : Int) : Nat :=
  let above := exponent - f.leastExponent
  -- The number of places by which the format's significand ends above its least exponent.
  let places := (above + significand.log2 - f.fractionBits).toNat
  let shift := places - above
  let rounded :=
    if shift ≤ 0 then significand * 2 ^ (-shift).toNat
    else roundHalfEven significand (2 ^ shift.toNat)
  min (places * 2 ^ f.fractionBits + rounded) (f.specialExponent * 2 ^ f.fractionBits)

/-- The bits of the number nearest to a datum.  A NaN keeps the leading bits of its payload and is
made quiet; `payloadBits` is the width that its payload had. -/
def round (f : FloatFormat) (payloadBits : Nat) : FloatDatum → Nat
  | .nan negative payload =>
    let kept := payload * 2 ^ f.fractionBits / 2 ^ payloadBits
    f.signBit negative + f.specialExponent * 2 ^ f.fractionBits +
      (kept ||| 2 ^ (f.fractionBits - 1))
  | .infinite negative => f.signBit negative + f.specialExponent * 2 ^ f.fractionBits
  | .finite negative 0 _ => f.signBit negative
  | .finite negative significand exponent =>
    f.signBit negative + f.roundMagnitude significand exponent

/-- The bits of the nearest number of another format. -/
def convert (source target : FloatFormat) (bits : Nat) : Nat :=
  target.round source.fractionBits (source.decode bits)

/-- Whether the two stand for the same number. -/
def same (f : FloatFormat) (a b : Nat) : Bool :=
  match f.decode a, f.decode b with
  | .nan _ _, _ | _, .nan _ _ => false
  | .finite _ 0 _, .finite _ 0 _ => true
  | x, y => x == y

end FloatFormat

end NativeRecord
