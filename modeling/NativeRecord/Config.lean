import NativeRecord.Alignment
import NativeRecord.Platform

/-!
# Layout configurations

Two conventions are independent of the platform's sizes.  The bit order says from which end of a
word bit-fields are allocated; a compiler usually ties it to the order of bytes, but a configuration
may say otherwise, and layouts and transfers both follow what it says.  The default pack is a cap on
alignments for declarations that do not bring one.

The validation comes before any layout is made, and looks at one setting after the other.  What it
guarantees is that the platform's own types have widths that memory can access and that the caps are
alignments; with both, every scalar has a natural alignment.

## What is here

* `Config` — the platform and the conventions that layouts follow; `Config.ofPlatform` takes the
  bit order that goes with the platform's byte order.
* `Config.validate` — the first setting that no layout can follow, if there is one (`ConfigFlaw`).
-/

set_option autoImplicit false
namespace NativeRecord

/-- The end of a backing word from which sibling bit-fields are allocated. -/
inductive BitOrder where
  | lsbFirst
  | msbFirst
deriving DecidableEq, Repr

/-- Bit-fields grow from the end of the word that comes first in memory. -/
def BitOrder.ofEndianness : Endianness → BitOrder
  | .little => .lsbFirst
  | .big => .msbFirst

/-- The platform and the conventions that layouts follow. -/
structure Config where
  platform : Platform
  bitOrder : BitOrder
  /-- Whether the padding of a record is zeroed before its fields are written. -/
  zeroFill : Bool := false
  /-- The pack of declarations that have none of their own. -/
  defaultPack : Option Nat := none
deriving DecidableEq, Repr

/-- A setting that no layout can follow. -/
inductive ConfigFlaw where
  | pointerWidth (width : Nat)
  | sizeTWidth (width : Nat)
  | longWidth (width : Nat)
  | timeTWidth (width : Nat)
  | maxScalarAlignment
  | defaultPack (pack : Nat)
deriving DecidableEq, Repr

/-- The text that is shown for a flaw. -/
def ConfigFlaw.message : ConfigFlaw → String
  | pointerWidth n => "pointer_width must be 4 or 8, got " ++ toString n
  | sizeTWidth n => "size_t_width must be 4 or 8, got " ++ toString n
  | longWidth n => "long_width must be 4 or 8, got " ++ toString n
  | timeTWidth n => "time_t_width must be 4 or 8, got " ++ toString n
  | maxScalarAlignment => "max_scalar_alignment must be a power of two"
  | defaultPack n => "default_pack must be a power of two, got " ++ toString n

namespace Config

/-- The configuration for a platform that says nothing further. -/
def ofPlatform (platform : Platform) : Config where
  platform := platform
  bitOrder := .ofEndianness platform.endianness

/-- The configuration that is assumed when none is given. -/
def standard : Config := ofPlatform .host

/-- The first flaw, widths before alignments. -/
def validate (c : Config) : Except ConfigFlaw Unit := do
  let width (n : Nat) (flaw : Nat → ConfigFlaw) : Except ConfigFlaw Unit :=
    if n = 4 ∨ n = 8 then .ok () else .error (flaw n)
  width c.platform.pointerWidth .pointerWidth
  width c.platform.sizeTWidth .sizeTWidth
  width c.platform.longWidth .longWidth
  width c.platform.timeTWidth .timeTWidth
  if (Alignment.ofBytes? c.platform.maxScalarAlignment).isNone then throw .maxScalarAlignment
  match c.defaultPack with
  | none => return
  | some pack => if (Alignment.ofBytes? pack).isNone then throw (.defaultPack pack)

end Config

end NativeRecord
