/-!
# Platforms

The sizes of the C types that differ from target to target, and the target's byte order.

The fixed-size types of C are the same everywhere and no part of a platform.  What is left are four
widths, the byte order, and a cap on the alignment of scalars, which is what makes 64-bit numbers be
aligned to four bytes on some targets.

## What is here

* `Endianness`, `Platform` and the usual data models `Platform.lp64`, `Platform.llp64`,
  `Platform.ilp32`.
* `Platform.naturalAlignment` — the natural alignment of a scalar of a given size.
-/

set_option autoImplicit false
namespace NativeRecord

/-- The order of the bytes of a word in memory. -/
inductive Endianness where
  | little
  | big
deriving DecidableEq, Repr

/-- The widths, in bytes, of the types whose size depends on the target. -/
structure Platform where
  pointerWidth : Nat
  sizeTWidth : Nat
  longWidth : Nat
  timeTWidth : Nat
  /-- No scalar is aligned more strictly than this. -/
  maxScalarAlignment : Nat
  endianness : Endianness
deriving DecidableEq, Repr

namespace Platform

/-- 64-bit pointers and a 64-bit `long`. -/
def lp64 : Platform where
  pointerWidth := 8
  sizeTWidth := 8
  longWidth := 8
  timeTWidth := 8
  maxScalarAlignment := 8
  endianness := .little

/-- 64-bit pointers and a 32-bit `long`. -/
def llp64 : Platform := { lp64 with longWidth := 4 }

/-- 32-bit pointers and a 32-bit `long`; 64-bit scalars keep their own alignment. -/
def ilp32 : Platform where
  pointerWidth := 4
  sizeTWidth := 4
  longWidth := 4
  timeTWidth := 4
  maxScalarAlignment := 8
  endianness := .little

/-- The platform that is assumed when none is named. -/
def host : Platform := lp64

/-- A scalar is aligned to its size, up to the platform's greatest scalar alignment; the answer is
never zero. -/
def naturalAlignment (p : Platform) (size : Nat) : Nat := max (min size p.maxScalarAlignment) 1

end Platform

end NativeRecord
