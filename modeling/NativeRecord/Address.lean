import NativeRecord.Text.Hex
import NativeRecord.Word

/-!
# Native addresses

An address as a pointer field stores it.

An address is a word of 64 bits also on platforms with narrower pointers, and is cut to the width of
the pointer when it is stored.  Going forward comes in two ways.  A program that computes with
addresses gets none past the end of the address space; the address that an error reports of a record
is only shown, and wraps.

## What is here

* `Address` with `Address.null`, `Address.truncate` to a pointer width, and two ways forward:
  `Address.offset?`, refused at the end of the address space, and `Address.advance`, which wraps.
* `Address.text` — sixteen digits behind `0x`.
-/

set_option autoImplicit false
namespace NativeRecord

/-- A position in the address space of the memory that is accessed. -/
structure Address where
  word : Word
deriving DecidableEq, Repr

namespace Address

def null : Address := ⟨0⟩

/-- Whether this is the address that points nowhere. -/
def isNull (a : Address) : Bool := a == null

/-- Drops the bits that a pointer of `width` bytes does not hold. -/
def truncate (a : Address) (width : Nat) : Address := ⟨a.word.truncate (8 * width)⟩

/-- The address that many bytes on, if there is one. -/
def offset? (a : Address) (n : Nat) : Option Address :=
  if a.word.toNat + n < 2 ^ (64 : Nat) then some ⟨BitVec.ofNat 64 (a.word.toNat + n)⟩ else none

/-- The address that many bytes on, starting over at the end of the address space. -/
def advance (a : Address) (n : Nat) : Address := ⟨a.word + BitVec.ofNat 64 n⟩

def text (a : Address) : String := HexFormat.render { marked := true, width := 18 } a.word.toNat

@[simp] theorem truncate_of_le (a : Address) {width : Nat} (h : 8 ≤ width) :
    a.truncate width = a := by
  simp [truncate, Word.truncate_of_le a.word (show 64 ≤ 8 * width by omega)]

@[simp] theorem truncate_truncate (a : Address) (width : Nat) :
    (a.truncate width).truncate width = a.truncate width := by
  simp [truncate]

@[simp] theorem advance_zero (a : Address) : a.advance 0 = a := by
  simp [advance]

theorem advance_advance (a : Address) (m n : Nat) :
    (a.advance m).advance n = a.advance (m + n) := by
  simp only [advance, BitVec.add_assoc, BitVec.ofNat_add]

end Address

end NativeRecord
