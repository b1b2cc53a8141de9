/-!
# Decimal numerals

Lengths of arrays and numbers in documents are written in decimal.  To tell two types apart by their
text, or to read a number back, it takes that the numeral determines the number, that it holds no
character but digits — so whatever stands behind it is seen to — and that no zero is put in front.

## What is here

* `isDigit_of_mem_toString` — the numeral of a number holds digits only, and `toString_nat_inj` — no
  two numbers have the same.
* `Nat.eq_zero_of_toDigits` — the only numeral that starts with a zero is that of zero.
-/

set_option autoImplicit false
namespace NativeRecord

/-- The characters of the text are the digits of the number. -/
theorem toList_toString (n : Nat) : (toString n).toList = Nat.toDigits 10 n := by
  rw [Nat.toString_eq_ofList_toDigits, String.toList_ofList]

/-- A numeral holds digits only. -/
theorem isDigit_of_mem_toString {n : Nat} {c : Char} (h : c ∈ (toString n).toList) : c.isDigit := by
  rw [toList_toString] at h
  exact Nat.isDigit_of_mem_toDigits (by decide) (by decide) h

/-- Numbers with one numeral are equal. -/
theorem toString_nat_inj {m n : Nat} : toString m = toString n ↔ m = n := by
  refine ⟨fun h => ?_, congrArg toString⟩
  rw [← String.toList_inj, toList_toString, toList_toString] at h
  rw [← Nat.ofDigitChars_ten_toDigits (n := m), h, Nat.ofDigitChars_ten_toDigits]

/-- By induction on the number, without its last digit. -/
theorem Nat.eq_zero_of_toDigits {n : Nat} (h : (Nat.toDigits 10 n).head? = some '0') : n = 0 := by
  induction n using Nat.strongRecOn with
  | ind n ih =>
    rcases Nat.lt_or_ge n 10 with hn | hn
    · rw [Nat.toDigits_of_lt_base hn, List.head?_cons, Option.some.injEq] at h
      exact Nat.digitChar_eq_zero.1 h
    · have hdiv : n / 10 = 0 := ih (n / 10) (by omega) (by
        rw [Nat.toDigits_of_base_le (by decide) hn, List.head?_append] at h
        rcases hhead : (Nat.toDigits 10 (n / 10)).head? with _ | c
        · exact absurd (List.head?_eq_none_iff.1 hhead) Nat.toDigits_ne_nil
        · rwa [hhead] at h)
      omega

end NativeRecord
