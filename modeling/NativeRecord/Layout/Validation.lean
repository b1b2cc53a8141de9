import NativeRecord.Layout.Basic
import NativeRecord.Layout.Error

/-!
# Checking a placement

The placement gives each member an offset; what may still be wrong with it is checked at the end and
not on the way.  An offset that was asked for can lie anywhere, a bit-field joins a word without its
own alignment being looked at, and members can overlap.

Overlaps are found by a sweep.  The members are sorted by their offsets, those without bytes left
out, and each is compared with the ones behind it for as long as they start before it ends.  The
sort is stable, so the pair that is found is determined also where members start together.

## What is here

* `MemberLayout.mayShare` — when two members may have bytes in common.
* `findOverlap?` — two members that have bytes in common and may not, found in one pass over the
  members in the order of their offsets.
* `checkPlacement` — the first fault of placed members.
-/

set_option autoImplicit false
namespace NativeRecord

/-- Members of one anonymous union may share bytes, and so may bit-fields of one backing word that
have no bit in common. -/
def MemberLayout.mayShare (a b : MemberLayout) : Bool :=
  (a.unionGroup.isSome && a.unionGroup == b.unionGroup) ||
    match a.bits, b.bits with
    | some x, some y => a.span == b.span && x.mask &&& y.mask == 0
    | _, _ => false

/-- The first member that starts before `a` ends and may not share bytes with it. -/
def conflictWith? (a : MemberLayout) (later : List MemberLayout) : Option MemberLayout :=
  (later.takeWhile (·.offset < a.span.stop)).find? fun b => !a.mayShare b

/-- The first conflict in a list of members in the order of their offsets. -/
def sweep? : List MemberLayout → Option (MemberLayout × MemberLayout)
  | [] => none
  | a :: later =>
    match conflictWith? a later with
    | some b => some (a, b)
    | none => sweep? later

/-- Two members that have bytes in common and may not. -/
def findOverlap? (members : List MemberLayout) : Option (MemberLayout × MemberLayout) :=
  sweep? (stableSort (·.offset ≤ ·.offset) (members.filter (0 < ·.length)))

/-- What is wrong with a member's place in a record of `size` bytes. -/
def MemberLayout.fault? (size : Nat) (m : MemberLayout) : Option MemberFault :=
  if ¬ m.fixed ∧ ¬ m.alignment.Aligned m.offset then
    some (.misaligned m.offset m.alignment.bytes)
  else if size < m.span.stop then some (.pastEnd size)
  else none

/-- The first fault of a record of `size` bytes: of a member on its own, in their order, then
between two members of a struct. -/
def checkPlacement (owner : Tag) (form : RecordForm) (size : Nat) (members : List MemberLayout) :
    Except LayoutError Unit :=
  match members.findSome? fun m => (m.fault? size).map fun fault => (m, fault) with
  | some (m, fault) => .error (.invalidMember owner m.name fault)
  | none =>
    match form with
    | .union => .ok ()
    | .struct =>
      match findOverlap? members with
      | some (a, b) => .error (.overlap owner a.name b.name)
      | none => .ok ()

end NativeRecord
