import NativeRecord.CType
import NativeRecord.Value

/-!
# Scalars as words

This is the one place where the type of a field meets the kind of a value.  Encoding is partial: a
value of the wrong kind has no bits.  A number that is too large for the field has some, the low
ones, as in C. Decoding is total, since a field holds some value whatever its bits are; how many of
them are significant is an argument, which for a bit-field is its width and otherwise that of the
type.

## What is here

* `Scalar.encode?` — the bits of a value, cut to the size of the field; `none` for a value of
  another kind.
* `Scalar.decode` — the value of some bits.
-/

set_option autoImplicit false
namespace NativeRecord

/-- The bits of a value of an arithmetic type. -/
def Arith.bits? : Arith → Value → Option Word
  | .float .f32, .float w =>
    some (BitVec.ofNat 64 (FloatFormat.double.convert .single w.toNat))
  | .float .f64, .float w => some w
  | .bool, .bool b => some (if b then 1 else 0)
  | .signed _, v | .unsigned _, v | .enum _, v | .platform _, v => v.toWord?
  | _, _ => none

/-- The bits of a value, before they are cut to the size of the field. -/
def Scalar.bits? : Scalar → Value → Option Word
  | arith type, v => type.bits? v
  | pointer _, v => v.toAddress?.map (·.word)

/-- The bits of a value in a field of `size` bytes. -/
def Scalar.encode? (type : Scalar) (size : Nat) (v : Value) : Option Word :=
  (type.bits? v).map (·.truncate (8 * size))

/-- The value of a field in which `bits` bits are significant. -/
def Scalar.decode (type : Scalar) (bits : Nat) (w : Word) : Value :=
  match type with
  | pointer _ => .pointer ⟨w.truncate bits⟩
  | arith (.float .f32) => .ofSingle (w.truncate 32).toNat
  | arith (.float .f64) => .float w
  | arith .bool => .bool (w != 0)
  | arith type => if type.isSigned then .int (w.signExtend bits) else .uint (w.truncate bits)

end NativeRecord
