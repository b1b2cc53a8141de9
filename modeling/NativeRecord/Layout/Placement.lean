import NativeRecord.Config
import NativeRecord.Layout.Basic
import NativeRecord.Layout.Error

/-!
# Placing members

The members of a struct are placed one after the other, each at the first offset at or after the
end of its predecessors that has its alignment.  Three kinds of member depart from that: one with
a fixed offset lies there; neighbours of an anonymous union lie at one common offset; and
bit-fields of one size are packed into a common backing word for as long as they fit.

## What is here

* `ResolvedMember` — a member whose type and alignment are known; `PlacementUnit` — what is placed
  in one step; `placementUnits` — the units of a list of members.
* `placeInSequence` and `overlayMembers` — the placed members and the end of the last byte.
-/

set_option autoImplicit false
namespace NativeRecord

/-- A member whose type and alignment are known. -/
structure ResolvedMember where
  decl : MemberDecl
  shape : Shape
  alignment : Alignment

namespace ResolvedMember

def size (m : ResolvedMember) : Nat := m.shape.size

/-- The member at an offset. -/
def placedAt (m : ResolvedMember) (offset : Nat) (bits : Option BitRange) (fixed : Bool := false)
    (unionGroup : Option Nat := none) : MemberLayout where
  name := m.decl.name
  type := m.decl.type
  shape := m.shape
  offset := offset
  alignment := m.alignment
  bits := bits
  fixed := fixed
  unionGroup := unionGroup

end ResolvedMember

/-! ## Units -/

/-- What is placed in one step. -/
inductive PlacementUnit where
  /-- A member at an offset of its own. -/
  | fixed (member : ResolvedMember) (offset : Nat)
  /-- The members of an anonymous union. -/
  | overlay (first : ResolvedMember) (rest : List ResolvedMember)
  | bitField (member : ResolvedMember) (bits : Nat)
  | plain (member : ResolvedMember)

/-- Adds a member in front, to the anonymous union that stands there if there is one. -/
def PlacementUnit.consOverlay (m : ResolvedMember) : List PlacementUnit → List PlacementUnit
  | .overlay first rest :: units => .overlay m (first :: rest) :: units
  | units => .overlay m [] :: units

/-- The units of the members, in their order.  Neighbours without an offset that share their
storage form one unit. -/
def placementUnits : List ResolvedMember → List PlacementUnit
  | [] => []
  | m :: ms =>
    match m.decl.offset with
    | some offset => .fixed m offset :: placementUnits ms
    | none =>
      if m.decl.inUnion then PlacementUnit.consOverlay m (placementUnits ms)
      else
        match m.decl.bits with
        | some bits => .bitField m bits :: placementUnits ms
        | none => .plain m :: placementUnits ms

/-! ## Bit-fields and backing words -/

/-- The bits of a bit-field in a word of `capacity` bits of which `used` are taken. -/
def BitOrder.range (order : BitOrder) (capacity used bits : Nat) : BitRange :=
  match order with
  | .lsbFirst => ⟨used, bits⟩
  | .msbFirst => ⟨capacity - used - bits, bits⟩

/-- A backing word that later bit-fields may still share. -/
structure BackingWord where
  offset : Nat
  size : Nat
  used : Nat
deriving DecidableEq, Repr

/-- Where the next member may start, and the word that is still open. -/
structure Cursor where
  next : Nat
  word : Option BackingWord
deriving DecidableEq, Repr

namespace Cursor

def start : Cursor := ⟨0, none⟩

/-- The end of what is placed once the open word is closed. -/
def close (c : Cursor) : Nat :=
  match c.word with
  | none => c.next
  | some w => max c.next (w.offset + w.size)

/-- The open word, if it has `size` bytes and room for `bits` more bits. -/
def room? (c : Cursor) (size bits : Nat) : Option BackingWord :=
  c.word.filter fun w => w.size = size ∧ w.used + bits ≤ 8 * size

end Cursor

/-! ## Placement -/

section Place

variable (limit : SizeLimit) (order : BitOrder) (owner : Tag)

/-- Start and end of `size` bytes at the first aligned offset from `next` on. -/
def nextPlace (next : Nat) (alignment : Alignment) (size : Nat) : Option (Nat × Nat) := do
  let start ← alignment.align? limit next
  let stop ← limit.add? start size
  return (start, stop)

/-- The answer, or the report that the sizes at this member run past the limit. -/
def orOverflow {α : Type} (name : String) : Option α → Except LayoutError α
  | some a => .ok a
  | none => .error (.invalidMember owner name .sizeOverflow)

/-- A bit-field alone in its word; no bits for any other member. -/
def aloneInWord (m : ResolvedMember) : Option BitRange :=
  m.decl.bits.map (order.range (8 * m.size) 0)

/-- Places one unit; `index` is the number of members placed before it. -/
def placeUnit (index : Nat) (cursor : Cursor) :
    PlacementUnit → Except LayoutError (List MemberLayout × Cursor)
  | .fixed m offset => do
    let stop ← orOverflow owner m.decl.name (limit.add? offset m.size)
    return ([m.placedAt offset (aloneInWord order m) true], ⟨max cursor.close stop, none⟩)
  | .overlay first rest => do
    let all := first :: rest
    let alignment := Alignment.strictest (all.map (·.alignment))
    let size := (all.map (·.size)).foldr max 0
    let (start, stop) ←
      orOverflow owner first.decl.name (nextPlace limit cursor.close alignment size)
    let placed := all.map fun m => m.placedAt start (aloneInWord order m) false (some index)
    return (placed, ⟨stop, none⟩)
  | .bitField m bits => do
    let (next, word) ← match cursor.room? m.size bits with
      | some word => pure (cursor.next, word)
      | none => do
        let (start, _) ←
          orOverflow owner m.decl.name (nextPlace limit cursor.close m.alignment m.size)
        pure (start, ⟨start, m.size, 0⟩)
    let range := order.range (8 * m.size) word.used bits
    let word := { word with used := word.used + bits }
    return ([m.placedAt word.offset (some range)], ⟨next, some word⟩)
  | .plain m => do
    let (start, stop) ←
      orOverflow owner m.decl.name (nextPlace limit cursor.close m.alignment m.size)
    return ([m.placedAt start none], ⟨stop, none⟩)

/-- Places the units in order; the answer ends with the end of the last byte. -/
def placeUnits (index : Nat) (cursor : Cursor) :
    List PlacementUnit → Except LayoutError (List MemberLayout × Nat)
  | [] => .ok ([], cursor.close)
  | unit :: units => do
    let (members, cursor) ← placeUnit limit order owner index cursor unit
    let (others, stop) ← placeUnits (index + members.length) cursor units
    return (members ++ others, stop)

/-- The members of a struct, and the end of the last byte. -/
def placeInSequence (members : List ResolvedMember) :
    Except LayoutError (List MemberLayout × Nat) :=
  placeUnits limit order owner 0 .start (placementUnits members)

/-- The members of a union, all at offset zero, and the size of the largest one. -/
def overlayMembers (members : List ResolvedMember) :
    Except LayoutError (List MemberLayout × Nat) := do
  let placed ← members.mapM fun m =>
    if m.decl.offset.all (· = 0) then
      .ok (m.placedAt 0 (aloneInWord order m))
    else
      .error (.invalidMember owner m.decl.name .unionOffset)
  return (placed, (members.map (·.size)).foldr max 0)

end Place

end NativeRecord
