import NativeRecord.CoreInstances

/-!
# Bounds on byte counts

Sizes and offsets are natural numbers.  A machine represents only the counts up to a last one, and
a layout that would need a larger one is refused.  The bound is a parameter, so that the same
construction can also be run without one and the two runs compared.

## What is here

* `SizeLimit` — no bound, or a last representable count; `SizeLimit.word64` is the 64-bit machine.
* `SizeLimit.add?`, `SizeLimit.mul?` — arithmetic that is refused past the bound.
-/

set_option autoImplicit false
namespace NativeRecord

/-- How far byte counts may grow: without end, or up to a last representable count. -/
inductive SizeLimit where
  | unbounded
  | upTo (last : Nat)
deriving DecidableEq, Repr

namespace SizeLimit

/-- The counts that a 64-bit machine represents. -/
def word64 : SizeLimit := .upTo (2 ^ (64 : Nat) - 1)

/-- A count that does not lie past the bound. -/
def Admits : SizeLimit → Nat → Prop
  | .unbounded, _ => True
  | .upTo last, n => n ≤ last

instance : (limit : SizeLimit) → (n : Nat) → Decidable (limit.Admits n)
  | .unbounded, _ => .isTrue trivial
  | .upTo last, n => inferInstanceAs (Decidable (n ≤ last))

/-- The count itself when the bound admits it. -/
def check? (limit : SizeLimit) (n : Nat) : Option Nat :=
  if limit.Admits n then some n else none

def add? (limit : SizeLimit) (m n : Nat) : Option Nat := limit.check? (m + n)

def mul? (limit : SizeLimit) (m n : Nat) : Option Nat := limit.check? (m * n)

theorem check?_eq_some_iff {limit : SizeLimit} {m n : Nat} :
    limit.check? m = some n ↔ limit.Admits m ∧ n = m := by
  unfold check?
  split <;> simp_all [eq_comm]

theorem check?_eq_none_iff {limit : SizeLimit} {n : Nat} :
    limit.check? n = none ↔ ¬ limit.Admits n := by
  simp [check?]

@[simp] theorem check?_unbounded (n : Nat) : unbounded.check? n = some n := by
  simp [check?, Admits]

theorem Admits.mono {limit : SizeLimit} {m n : Nat} (h : limit.Admits n) (hmn : m ≤ n) :
    limit.Admits m := by
  cases limit with
  | unbounded => trivial
  | upTo last => exact Nat.le_trans hmn h

theorem admits_word64_iff {n : Nat} : word64.Admits n ↔ n < 2 ^ (64 : Nat) := by
  simp only [word64, Admits]; omega

end SizeLimit

end NativeRecord
