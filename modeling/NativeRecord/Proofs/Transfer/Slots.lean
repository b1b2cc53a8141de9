import Mathlib.Data.List.Nodup
import NativeRecord.Proofs.Transfer.Canonical
import NativeRecord.Proofs.Transfer.Independence

/-!
# Values and their slots

A path of field names and item indices leads into a value, and the same path leads into a layout, to
the slot that holds the part of the value.

What is kept of a value is said of single slots, where it is a matter of one scalar, of the names of
a record or of the length of an array.  `Slot.KeepsAll` then asks it along all paths.  So a
statement about a nested record has no recursion in it but the walk along a path, and does not
mention how the record is transferred.

## What is here

* `Value.at?` — the part of a value at a path; `Slot.at?` — the slot at a path.
* `Slot.Keeps` — what a slot keeps of the value that it is given; `Slot.KeepsAll` — the same along
  all paths.
* `Value.ExclusiveIn` — a value that nowhere gives two values for one storage: at most one for the
  members of an anonymous union or of a union.
-/

set_option autoImplicit false
namespace NativeRecord

/-- A step into a value: to a field of a record, or to an item of an array. -/
inductive Step where
  | field (name : String)
  | item (index : Nat)

/-- The part of a value that a step leads to. -/
def Value.part? : Value → Step → Option Value
  | .record r, .field name => r.get? name
  | .array items, .item i => items[i]?
  | _, _ => none

/-- The part of a value at a path. -/
def Value.at? (x : Value) : List Step → Option Value
  | [] => some x
  | step :: path => (x.part? step).bind fun part => part.at? path

theorem Value.at?_append {x y : Value} {path path' : List Step} (h : x.at? path = some y) :
    x.at? (path ++ path') = y.at? path' := by
  induction path generalizing x with
  | nil => cases h; rfl
  | cons step path ih =>
    obtain ⟨part, hpart, h⟩ := Option.bind_eq_some_iff.1 h
    rw [List.cons_append, at?, hpart, Option.bind_some, ih h]

/-- A place in a record: what it holds, and the bits of a bit-field in its word. -/
structure Slot where
  shape : Shape
  bits : Option BitRange

def MemberLayout.slot (m : MemberLayout) : Slot := ⟨m.shape, m.bits⟩

def Layout.slot (l : Layout) : Slot := ⟨.record l, none⟩

namespace Slot

/-- The slot that a step leads to. -/
def part? (s : Slot) : Step → Option Slot
  | .field name =>
    match s.shape with
    | .record l => (l.member? name).map (·.slot)
    | _ => none
  | .item i =>
    match s.shape with
    | .array element length => if i < length then some ⟨element, none⟩ else none
    | _ => none

/-- The slot at a path. -/
def at? (s : Slot) : List Step → Option Slot
  | [] => some s
  | step :: path => (s.part? step).bind fun part => part.at? path

/-- What is left of a value in a slot: its canonical form, in as many bits as the slot has, for a
scalar; an array of as many items for an array, and a record for a record. -/
def Keeps (s : Slot) (x y : Value) : Prop :=
  match s.shape with
  | .scalar type size _ => type.canonical? (s.bits.elim (8 * size) (·.width)) x = some y
  | .record _ => x.sort = .record ∧ y.sort = .record
  | .array _ length =>
    ∃ xs ys, x = .array xs ∧ y = .array ys ∧ xs.length = length ∧ ys.length = length

/-- Every part of the first value has its slot, and what this keeps of it is in the second value, at
the same path. -/
def KeepsAll (s : Slot) (x y : Value) : Prop :=
  ∀ path part, x.at? path = some part →
    ∃ slot kept, s.at? path = some slot ∧ y.at? path = some kept ∧ slot.Keeps part kept

theorem KeepsAll.intro {s : Slot} {x y : Value} (h : s.Keeps x y)
    (hparts : ∀ step part, x.part? step = some part →
      ∃ slot kept, s.part? step = some slot ∧ y.part? step = some kept ∧ slot.KeepsAll part kept) :
    s.KeepsAll x y := by
  intro path part hpart
  cases path with
  | nil => cases hpart; exact ⟨s, y, rfl, rfl, h⟩
  | cons step path =>
    obtain ⟨next, hnext, hpart⟩ := Option.bind_eq_some_iff.1 hpart
    obtain ⟨slot, kept, hslot, hkept, hall⟩ := hparts step next hnext
    obtain ⟨slot', kept', hslot', hkept', hkeeps⟩ := hall path part hpart
    exact ⟨slot', kept', Option.bind_eq_some_iff.2 ⟨slot, hslot, hslot'⟩,
      Option.bind_eq_some_iff.2 ⟨kept, hkept, hkept'⟩, hkeeps⟩

/-- A value that has a canonical form in a scalar has no parts. -/
theorem keepsAll_scalar {type : Scalar} {size : Nat} {alignment : Alignment}
    {bits : Option BitRange} {x y : Value}
    (h : type.canonical? (bits.elim (8 * size) (·.width)) x = some y) :
    KeepsAll ⟨.scalar type size alignment, bits⟩ x y := by
  have hnone : ∀ x : Value, x.sort = .record ∨ x.sort = .array →
      type.canonical? (bits.elim (8 * size) (·.width)) x = none := by
    intro x hx
    cases x <;> first
      | (rcases hx with hx | hx <;> cases hx; done)
      | (cases type with
        | pointer _ => rfl
        | arith a =>
          cases a with
          | float n => cases n <;> rfl
          | _ => rfl)
  refine .intro h ?_
  intro step part hpart
  cases x with
  | record r => rw [hnone _ (.inl rfl)] at h; cases h
  | array items => rw [hnone _ (.inr rfl)] at h; cases h
  | _ => cases hpart

end Slot

/-! ## One value for each storage -/

/-- The record has at most one value for the members of an anonymous union, and at most one for
those of a union. -/
def Record.Exclusive (r : Record) (l : Layout) : Prop :=
  ∀ a ∈ l.members, ∀ b ∈ l.members, r.contains a.name → r.contains b.name →
    l.form = .union ∨ a.SameUnion b → a.name = b.name

/-- So it is for all records in the value, at every depth. -/
def Value.ExclusiveIn (x : Value) (s : Slot) : Prop :=
  ∀ path l bits r, s.at? path = some ⟨.record l, bits⟩ → x.at? path = some (.record r) →
    r.Exclusive l

theorem Value.ExclusiveIn.part {x part : Value} {s slot : Slot} {step : Step}
    (h : x.ExclusiveIn s) (hpart : x.part? step = some part) (hslot : s.part? step = some slot) :
    part.ExclusiveIn slot := by
  intro path l bits r hl hr
  refine h (step :: path) l bits r ?_ ?_
  · exact Option.bind_eq_some_iff.2 ⟨slot, hslot, hl⟩
  · exact Option.bind_eq_some_iff.2 ⟨part, hpart, hr⟩

/-- A scalar holds no record. -/
theorem Value.exclusiveIn_scalar (x : Value) (type : Scalar) (size : Nat) (alignment : Alignment)
    (bits : Option BitRange) : x.ExclusiveIn ⟨.scalar type size alignment, bits⟩ := by
  intro path l bits r hslot _
  cases path with
  | nil => cases hslot
  | cons step path => cases step <;> cases hslot

theorem Value.exclusiveIn_record {r : Record} {l : Layout} (h : r.Exclusive l)
    (hmembers : ∀ m ∈ l.members, ∀ x, r.get? m.name = some x → x.ExclusiveIn m.slot) :
    (Value.record r).ExclusiveIn l.slot := by
  intro path l' bits r' hslot hr
  cases path with
  | nil => cases hslot; cases hr; exact h
  | cons step path =>
    obtain ⟨part, hpart, hrest⟩ := Option.bind_eq_some_iff.1 hr
    obtain ⟨slot, hmember, hslot⟩ := Option.bind_eq_some_iff.1 hslot
    cases step with
    | item i => cases hpart
    | field name =>
      obtain ⟨m, hm, rfl⟩ := Option.map_eq_some_iff.1 hmember
      have hname : m.name = name := by simpa using List.find?_some hm
      exact hmembers m (List.mem_of_find?_eq_some hm) part (hname ▸ hpart) path l' bits r' hslot
        hrest

/-- The members that an exclusive record has values for own no bit in common. -/
theorem Record.Exclusive.pairwise {r : Record} {l : Layout} (h : r.Exclusive l)
    (hplaced : l.WellPlaced) (e : Endianness) (start : Nat) :
    l.members.Pairwise fun a b => r.contains a.name → r.contains b.name →
      ∀ p, a.Owns e start p → ¬ b.Owns e start p := by
  have hnames : l.members.Pairwise fun a b => a.name ≠ b.name :=
    List.pairwise_map.1 hplaced.names
  cases hform : l.form with
  | union =>
    refine hnames.imp_of_mem fun {a b} ha hb hne hacontains hbcontains => ?_
    exact absurd (h a ha b hb hacontains hbcontains (.inl hform)) hne
  | struct =>
    refine ((hplaced.apart hform).and hnames).imp_of_mem ?_
    intro a b ha hb ⟨hcompatible, hne⟩ hacontains hbcontains p howns
    exact hcompatible.not_owns
      (fun hunion => hne (h a ha b hb hacontains hbcontains (.inr hunion))) howns

/-- A value of a layout is at a name that one of its members has. -/
theorem Layout.WellPlaced.member?_eq_some {l : Layout} (h : l.WellPlaced) {m : MemberLayout}
    (hm : m ∈ l.members) : l.member? m.name = some m := by
  have hfind : ∃ m', l.member? m.name = some m' := by
    rw [← Option.isSome_iff_exists, member?, List.find?_isSome]
    exact ⟨m, hm, by simp⟩
  obtain ⟨m', hm'⟩ := hfind
  have hname : m'.name = m.name := by simpa using List.find?_some hm'
  rw [hm', List.inj_on_of_nodup_map h.names (List.mem_of_find?_eq_some hm') hm hname]

theorem Record.mem_names_of_get? {r : Record} {name : String} {x : Value}
    (h : r.get? name = some x) : name ∈ r.names := by
  obtain ⟨entry, hentry, -⟩ := Option.map_eq_some_iff.1 h
  exact List.mem_map.2 ⟨entry, mem_of_lookup? hentry, key_of_lookup? hentry⟩

theorem unknownName?_eq_none_iff {members : List MemberLayout} {r : Record} :
    unknownName? members r = none ↔ ∀ name ∈ r.names, ∃ m ∈ members, m.name = name := by
  simp [unknownName?]

theorem exists_member_of_unknownName? {members : List MemberLayout} {r : Record}
    (h : unknownName? members r = none) {name : String} {x : Value} (hx : r.get? name = some x) :
    ∃ m ∈ members, m.name = name :=
  unknownName?_eq_none_iff.1 h name (Record.mem_names_of_get? hx)

end NativeRecord
