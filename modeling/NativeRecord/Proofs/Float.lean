import NativeRecord.Float.Format

/-!
# The bits of rounded numbers

A format packs sign, exponent and fraction into one number, and the packing adds them up.  So that
the sum stays below the width of the format, each part must leave room for the others: the rounded
magnitude is cut at the special exponent, a payload is shifted into the bits of the fraction, and
the sign is the one bit above.  The proof adds up the bounds, case by case over what is rounded.

## What is here

* `FloatFormat.round_lt` — rounding gives no more bits than the format has, so that numbers of
  single precision have room in a word when they are widened (`FloatFormat.convert_double_lt`).
-/

set_option autoImplicit false
namespace NativeRecord

namespace FloatFormat

/-- A rounded magnitude leaves the sign bit free. -/
theorem roundMagnitude_le (f : FloatFormat) (significand : Nat) (exponent : Int) :
    f.roundMagnitude significand exponent ≤ f.specialExponent * 2 ^ f.fractionBits :=
  Nat.min_le_right _ _

/-- The bits that a datum is rounded to are as many as the format has. -/
theorem round_lt {f : FloatFormat} (hfraction : 0 < f.fractionBits) {payloadBits : Nat}
    {d : FloatDatum} (hpayload : ∀ negative payload, d = .nan negative payload →
      payload < 2 ^ payloadBits) :
    f.round payloadBits d < 2 ^ (1 + f.exponentBits + f.fractionBits) := by
  have hsign (negative : Bool) : f.signBit negative ≤ 2 ^ (f.exponentBits + f.fractionBits) := by
    rw [signBit]
    split
    · exact Nat.le_refl _
    · exact Nat.zero_le _
  have hspecial : f.specialExponent * 2 ^ f.fractionBits + 2 ^ f.fractionBits =
      2 ^ (f.exponentBits + f.fractionBits) := by
    rw [specialExponent, ← Nat.succ_mul, Nat.succ_eq_add_one,
      Nat.sub_add_cancel (Nat.two_pow_pos _), Nat.pow_add]
  have hpos : 0 < 2 ^ f.fractionBits := Nat.two_pow_pos _
  have htotal : 2 ^ (1 + f.exponentBits + f.fractionBits) =
      2 ^ (f.exponentBits + f.fractionBits) + 2 ^ (f.exponentBits + f.fractionBits) := by
    rw [Nat.add_assoc, Nat.add_comm 1, Nat.pow_succ, Nat.mul_two]
  cases d with
  | nan negative payload =>
    have hkept : payload * 2 ^ f.fractionBits / 2 ^ payloadBits < 2 ^ f.fractionBits := by
      rw [Nat.div_lt_iff_lt_mul (Nat.two_pow_pos _), Nat.mul_comm]
      exact Nat.mul_lt_mul_of_pos_left (hpayload negative payload rfl) hpos
    have hquiet : 2 ^ (f.fractionBits - 1) < 2 ^ f.fractionBits :=
      Nat.pow_lt_pow_right (by decide) (by omega)
    have hor := Nat.or_lt_two_pow hkept hquiet
    have := hsign negative
    simp only [round]
    omega
  | infinite negative =>
    have := hsign negative
    simp only [round]
    omega
  | finite negative significand exponent =>
    have := hsign negative
    have := f.roundMagnitude_le significand exponent
    cases significand with
    | zero => simp only [round]; omega
    | succ n => simp only [round]; omega

/-- A number of single precision, widened, fits a word. -/
theorem convert_double_lt (bits : Nat) : single.convert .double bits < 2 ^ (64 : Nat) := by
  refine round_lt (f := double) (by decide) fun negative payload h => ?_
  rw [decode] at h
  split at h
  · split at h <;> cases h
    exact Nat.mod_lt _ (Nat.two_pow_pos _)
  · split at h <;> cases h

end FloatFormat

end NativeRecord
