import NativeRecord.Proofs.Memory.Blocks
import NativeRecord.Proofs.Machine.Arithmetic

/-!
# Memory on a machine

A view lies in the memory of a machine, which therefore has its size among its counts.  An offset
may be any count, up to the last one, and so the sums that an access forms need not be counts.

An offset near the last count is caught by the check when the sum is not there, because a sum that
is not a count is larger than any view.  For blocks the check of one byte is what makes the next sum
a count: the byte before has been found in the view.

## What is here

* `Metered.checkSpan` — the check of an access, which refuses if the sum is not there;
  `Metered.checkSpan_eq` — it is the one that views make.
* `Metered.loadEach`, `Metered.storeEach`, `Metered.fillEach` — blocks moved byte by byte, where
  byte `i` is at `offset + i`.  None of the sums wraps, as the access before it would have failed
  (`Metered.loadEach_eq` and the like).
-/

set_option autoImplicit false
namespace NativeRecord

namespace Metered

section Definitions

variable (limit : SizeLimit)

/-- The bytes from an offset on must lie in the view. -/
def checkSpan (v : View) (offset length : Nat) : Except AccessError Unit :=
  match limit.add? offset length with
  | some stop => if stop ≤ v.size then .ok () else .error (.outOfBounds offset length v.size)
  | none => .error (.outOfBounds offset length v.size)

/-- The bytes `i`, `i + 1`, … from an offset on behind those in `done`, which stand in reverse, by
one access each. -/
def loadFrom (v : View) (offset : Nat) (done : List Byte) (i : Nat) :
    (length : Nat) → Option (Except AccessError (List Byte))
  | 0 => some (.ok done.reverse)
  | length + 1 => do
    match v.load (← limit.add? offset i) 1 with
    | .ok w => loadFrom v offset (w.setWidth 8 :: done) (i + 1) length
    | .error e => return .error e

/-- Writes the bytes `i`, `i + 1`, … from an offset on, by one access each. -/
def storeFrom (v : View) (offset i : Nat) : List Byte → Option (Except AccessError Unit × View)
  | [] => some (.ok (), v)
  | b :: bs => do
    match v.store (← limit.add? offset i) 1 (b.setWidth 64) with
    | (.ok (), v) => storeFrom v offset (i + 1) bs
    | failed => return failed

def loadEach (v : View) (offset length : Nat) : Option (Except AccessError (List Byte)) :=
  loadFrom limit v offset [] 0 length

def storeEach (v : View) (offset : Nat) (new : List Byte) :
    Option (Except AccessError Unit × View) :=
  storeFrom limit v offset 0 new

def fillEach (v : View) (offset length : Nat) (b : Byte) :
    Option (Except AccessError Unit × View) :=
  storeFrom limit v offset 0 (List.replicate length b)

end Definitions

variable {limit : SizeLimit} {v : View} {offset : Nat}

/-- A sum that is not there is larger than the view. -/
theorem checkSpan_eq (hsize : limit.Admits v.size) (offset length : Nat) :
    checkSpan limit v offset length = v.checkSpan offset length := by
  rw [checkSpan, View.checkSpan]
  by_cases hstop : limit.Admits (offset + length)
  · rw [SizeLimit.add?_eq hstop]
  · have hlarge : ¬ offset + length ≤ v.size := fun hle => hstop (hsize.mono hle)
    rw [SizeLimit.add?, SizeLimit.check?_eq_none_iff.2 hstop, if_neg hlarge]

-- The sum is a count in front of each access: if the access succeeds, so is the next one, being at
-- most the size of the view.
theorem loadFrom_eq (hsize : limit.Admits v.size) {i : Nat} (hi : limit.Admits (offset + i))
    (done : List Byte) (length : Nat) :
    loadFrom limit v offset done i length = some (v.loadEach done (offset + i) length) := by
  induction length generalizing i done with
  | zero => rfl
  | succ length ih =>
    rw [loadFrom, SizeLimit.add?_eq hi, View.loadEach]
    dsimp only [Option.bind_eq_bind, Option.bind_some]
    rcases hload : v.load (offset + i) 1 with e | w
    · rfl
    · have hnext : offset + (i + 1) ≤ v.size := (View.load_eq_ok_iff.1 hload).2.2.1
      exact ih (hsize.mono hnext) _

theorem storeFrom_eq (hsize : limit.Admits v.size) {i : Nat} (hi : limit.Admits (offset + i))
    (new : List Byte) :
    storeFrom limit v offset i new = some (v.storeEach (offset + i) new) := by
  induction new generalizing v i with
  | nil => rfl
  | cons b new ih =>
    rw [storeFrom, SizeLimit.add?_eq hi, View.storeEach]
    dsimp only [Option.bind_eq_bind, Option.bind_some]
    rw [View.store]
    rcases hcheck : v.checkStore (offset + i) 1 with e | ⟨⟩
    · rfl
    · have hnext : offset + (i + 1) ≤ v.size := (View.checkStore_eq_ok_iff.1 hcheck).2.2
      have halike := v.alike_put (offset + i) (v.endianness.encode 1 (b.setWidth 64))
      exact ih (halike.size_eq ▸ hsize) (hsize.mono hnext)

/-- **Nothing wraps when bytes are loaded one by one.** -/
theorem loadEach_eq (hsize : limit.Admits v.size) (hoffset : limit.Admits offset) (length : Nat) :
    loadEach limit v offset length = some (v.loadEach [] offset length) :=
  loadFrom_eq (i := 0) hsize hoffset [] length

/-- **Nothing wraps when bytes are stored one by one.** -/
theorem storeEach_eq (hsize : limit.Admits v.size) (hoffset : limit.Admits offset)
    (new : List Byte) : storeEach limit v offset new = some (v.storeEach offset new) :=
  storeFrom_eq (i := 0) hsize hoffset new

theorem fillEach_eq (hsize : limit.Admits v.size) (hoffset : limit.Admits offset) (length : Nat)
    (b : Byte) : fillEach limit v offset length b = some (v.fillEach offset b length) := by
  rw [View.fillEach_eq_storeEach]
  exact storeEach_eq hsize hoffset _

end Metered

end NativeRecord
