import NativeRecord.Proofs.Word
import NativeRecord.Transfer.Scalar

/-!
# The values that memory can hold

A scalar keeps the low bits of what it is given, or the nearest number of its format.  What is left
of a value is its canonical form, which says nothing of how it is stored.

The canonical form is written down for each type by what the type means, two's complement or modulo
or the nearest number, and not by encoding and decoding, so that the theorem which relates the two
is worth having.  Integer types all take the low bits and differ only in the sign, which makes them
one case (`Arith.casesInteger`); truth values and floats are the others.

## What is here

* `Scalar.canonical?` — the canonical form of a value in a scalar of some bits.
* `Arith.casesInteger` — integer types are alike in their bits, and in what is made of them.
* `Scalar.canonical?_encode` — decoding the bits that a value is encoded to gives its canonical
  form, whether all of them are kept or only those of a bit-field.
-/

set_option autoImplicit false
namespace NativeRecord

/-- The canonical form of a value in a scalar that has `bits` bits: the two's complement value of
the low bits for signed types, their value for the other integers and for pointers, and the nearest
number of the format for floats.  There is none if the value is of another kind. -/
def Scalar.canonical? (type : Scalar) (bits : Nat) (v : Value) : Option Value :=
  match type with
  | pointer _ => v.toAddress?.map fun a => .pointer ⟨BitVec.ofNat 64 (a.word.toNat % 2 ^ bits)⟩
  | arith (.float .f32) =>
    v.toFloatBits?.map fun w => .ofSingle (FloatFormat.double.convert .single w.toNat)
  | arith (.float .f64) => v.toFloatBits?.map .float
  | arith .bool => v.toBool?.map .bool
  | arith type => v.toWord?.map fun w =>
    if type.isSigned then .int (.ofInt (w.setWidth bits).toInt)
    else .uint (BitVec.ofNat 64 (w.toNat % 2 ^ bits))

/-! ## Integer types

Each of the three functions on arithmetic types treats the integer types alike. -/

/-- An arithmetic type is one of the integer types, which are alike in most ways, or the type of
truth values, or a floating-point type. -/
@[elab_as_elim]
theorem Arith.casesInteger {motive : Arith → Prop} (a : Arith)
    (integer : ∀ a : Arith, a.isInteger = true → motive a) (bool : motive .bool)
    (float : ∀ n, motive (.float n)) : motive a := by
  cases a with
  | bool => exact bool
  | float n => exact float n
  | _ => exact integer _ rfl

/-- All integer types take the bits of an integer as they are. -/
theorem Arith.bits?_of_isInteger {a : Arith} (ha : a.isInteger = true) (x : Value) :
    a.bits? x = x.toWord? := by
  cases a with
  | float _ | bool => cases ha
  | _ => rfl

/-- Integer types differ in what they make of their bits only by the sign. -/
theorem Scalar.decode_of_isInteger {a : Arith} (ha : a.isInteger = true) (bits : Nat) (w : Word) :
    (arith a).decode bits w =
      if a.isSigned then .int (w.signExtend bits) else .uint (w.truncate bits) := by
  cases a with
  | float _ | bool => cases ha
  | _ => rfl

theorem Scalar.canonical?_of_isInteger {a : Arith} (ha : a.isInteger = true) (bits : Nat)
    (v : Value) : (arith a).canonical? bits v = v.toWord?.map fun w =>
      if a.isSigned then .int (.ofInt (w.setWidth bits).toInt)
      else .uint (BitVec.ofNat 64 (w.toNat % 2 ^ bits)) := by
  cases a with
  | float _ | bool => cases ha
  | _ => rfl

/-! ## Decoding what was encoded

Type by type: an integer loses its high bits, a truth value none, and a float is rounded when it is
encoded. -/

/-- Only the 32 bits of the format are looked at. -/
theorem Value.ofSingle_mod (n : Nat) : ofSingle (n % 2 ^ (32 : Nat)) = ofSingle n := by
  have hdecode : FloatFormat.single.decode (n % 2 ^ 32) = FloatFormat.single.decode n := by
    have hfraction : n % 2 ^ 32 % 2 ^ 23 = n % 2 ^ 23 := by omega
    have hexponent : n % 2 ^ 32 / 2 ^ 23 % 2 ^ 8 = n / 2 ^ 23 % 2 ^ 8 := by omega
    have hnegative : n % 2 ^ 32 / 2 ^ (8 + 23) % 2 = n / 2 ^ (8 + 23) % 2 := by omega
    simp only [FloatFormat.decode, FloatFormat.single, hfraction, hexponent, hnegative]
    rfl
  simp only [ofSingle, FloatFormat.convert, hdecode]

namespace Scalar

theorem canonical?_integer {a : Arith} {bits : Nat} {v : Value} {w : Word}
    (ha : a.isInteger = true) (hw : v.toWord? = some w) (hpos : 0 < bits) (h64 : bits ≤ 64) :
    (arith a).canonical? bits v = some ((arith a).decode bits (w.truncate bits)) := by
  rw [canonical?_of_isInteger ha, hw, decode_of_isInteger ha, Word.signExtend_truncate w hpos h64,
    Word.signExtend_eq w hpos h64, Word.truncate_truncate, Word.truncate_eq_ofNat]
  rfl

theorem canonical?_bool {bits : Nat} {v : Value} {w : Word} (hw : Arith.bool.bits? v = some w)
    (hpos : 0 < bits) :
    (arith .bool).canonical? bits v = some ((arith .bool).decode bits (w.truncate bits)) := by
  obtain ⟨b, rfl, rfl⟩ : ∃ b, v = .bool b ∧ w = if b then 1 else 0 := by
    cases v with
    | bool b => cases hw; exact ⟨b, rfl, rfl⟩
    | _ => cases hw
  have hbit : (Word.truncate (if b then 1 else 0) bits != 0) = b := by
    cases b with
    | false => simp [Word.truncate]
    | true =>
      have hlow : (Word.truncate 1 bits).getLsbD 0 = true := by
        simp [Word.getLsbD_truncate, hpos]
      refine bne_iff_ne.2 ?_
      intro hzero
      rw [if_pos rfl] at hzero
      rw [hzero] at hlow
      cases hlow
  rw [decode, hbit]
  rfl

theorem canonical?_float {n : FloatWidth} {v : Value} {w : Word}
    (hw : (Arith.float n).bits? v = some w) :
    (arith (.float n)).canonical? (8 * n.bytes) v =
      some ((arith (.float n)).decode (8 * n.bytes) (w.truncate (8 * n.bytes))) := by
  obtain ⟨b, rfl⟩ : ∃ b, v = .float b := by
    cases v with
    | float b => exact ⟨b, rfl⟩
    | _ => cases n <;> cases hw
  cases n with
  | f64 =>
    cases hw
    rw [FloatWidth.bytes, Word.truncate_of_le _ (Nat.le_refl 64)]
    rfl
  | f32 =>
    cases hw
    have hvalue : ∀ n, (BitVec.ofNat 64 n : Word).toNat % 2 ^ 32 = n % 2 ^ 32 := by
      intro n; rw [BitVec.toNat_ofNat]; omega
    rw [decode, FloatWidth.bytes, Word.truncate_truncate, Word.toNat_truncate]
    show _ = some (Value.ofSingle ((BitVec.ofNat 64 _ : Word).toNat % 2 ^ 32))
    rw [hvalue, Value.ofSingle_mod]
    rfl

/-- **Decoding what a value is encoded to gives its canonical form,** from all the bits of the
scalar or, for a type that a bit-field may have, from fewer. -/
theorem canonical?_encode {platform : Platform} {type : Scalar} {bits : Nat} {v : Value} {w : Word}
    (hsize : type.size platform ≤ 8) (hencode : type.encode? (type.size platform) v = some w)
    (hpos : 0 < bits)
    (hbits : bits = 8 * type.size platform ∨
      bits ≤ 8 * type.size platform ∧ ∃ a, type = .arith a ∧ a.allowsBitField = true) :
    type.canonical? bits v = some (type.decode bits (w.truncate bits)) := by
  obtain ⟨b, hb, rfl⟩ := Option.map_eq_some_iff.1 hencode
  rw [Word.truncate_truncate_of_le _ (by omega)]
  cases type with
  | pointer target =>
    obtain ⟨a, ha, rfl⟩ := Option.map_eq_some_iff.1 hb
    rw [canonical?, ha, decode, Word.truncate_truncate, Word.truncate_eq_ofNat]
    rfl
  | arith a =>
    cases a using Arith.casesInteger with
    | integer a ha =>
      have hword := (Arith.bits?_of_isInteger ha v).symm.trans hb
      exact canonical?_integer ha hword hpos (by omega)
    | bool => exact canonical?_bool hb hpos
    | float n =>
      obtain rfl : bits = 8 * n.bytes := by
        refine hbits.resolve_right ?_
        rintro ⟨-, a, ⟨⟩, ha⟩
        cases ha
      exact canonical?_float hb

end Scalar

end NativeRecord
