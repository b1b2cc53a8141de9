import Mathlib.Data.List.Find
import Mathlib.Data.List.TakeWhile
import NativeRecord.Layout.Build

/-!
# Layouts with their members mapped

Where two placements come to the same up to a map of the members, and the map keeps what the check
and the coverage look at, the layouts that are put together from them come to the same up to that
map as well, failures included.

This is used wherever one declaration is laid out in two ways, or two declarations are compared:
mirrored bit-fields, other targets of pointers, and other layouts for embedded records.  Each of
these is a map on members.  What has to be shown of it is listed in `KeepsPlace` and `KeepsSharing`,
which is what the check looks at, and in the hypotheses about the coverage; the rest is done here
once.

## What is here

* `MemberLayout.KeepsPlace` — maps that keep the names and the places of members.
* `Layout.mapMembers` — a layout with its members mapped.
* `placeUnits_map`, `mapM_map_eq` — placements step by step, when each step comes to the same.
* `checkPlacement_map`, `Coverage.ofMembers_map` — the check and the coverage do not notice.
* `assemble_map` — so neither does what is put together.
-/

set_option autoImplicit false
namespace NativeRecord

/-- A map that keeps what the check looks at in a single member. -/
structure MemberLayout.KeepsPlace (f : MemberLayout → MemberLayout) : Prop where
  name : ∀ m, (f m).name = m.name
  offset : ∀ m, (f m).offset = m.offset
  length : ∀ m, (f m).length = m.length
  alignment : ∀ m, (f m).alignment = m.alignment
  fixed : ∀ m, (f m).fixed = m.fixed

/-- A map under which members share bytes as before. -/
def MemberLayout.KeepsSharing (f : MemberLayout → MemberLayout) (members : List MemberLayout) :
    Prop :=
  ∀ a ∈ members, ∀ b ∈ members, (f a).mayShare (f b) = a.mayShare b

/-- The layout with its members mapped. -/
def Layout.mapMembers (f : MemberLayout → MemberLayout) (l : Layout) : Layout :=
  { l with members := l.members.map f }

/-! ## Placing

Units are placed one after the other from a cursor, and the cursor is the same on both sides.  The
indices may be counted from another number, as they are behind members that were added. -/

/-- Steps that come to the same up to a map of the members do so in a row, also where they are
counted further on. -/
theorem placeUnits_map {limit : SizeLimit} {order order' : BitOrder} {owner : Tag}
    {f : MemberLayout → MemberLayout} {g : PlacementUnit → PlacementUnit} {least : Nat}
    (further : Nat) (hunit : ∀ index ≥ least, ∀ cursor u,
      placeUnit limit order' owner (index + further) cursor (g u) =
        (placeUnit limit order owner index cursor u).map
          fun (placed, cursor) => (placed.map f, cursor))
    {index : Nat} (hindex : least ≤ index) (cursor : Cursor) (units : List PlacementUnit) :
    placeUnits limit order' owner (index + further) cursor (units.map g) =
      (placeUnits limit order owner index cursor units).map
        fun (placed, stop) => (placed.map f, stop) := by
  induction units generalizing index cursor with
  | nil => rfl
  | cons unit units ih =>
    rw [List.map_cons, placeUnits, placeUnits, hunit index hindex]
    rcases placeUnit limit order owner index cursor unit with e | ⟨first, next⟩
    · rfl
    · show (placeUnits limit order' owner (index + further + (first.map _).length) next _ >>= _) =
        (placeUnits limit order owner (index + first.length) next units >>= _).map _
      rw [List.length_map, Nat.add_right_comm, ih (Nat.le_add_right_of_le hindex)]
      rcases placeUnits limit order owner (index + first.length) next units with e | ⟨others, stop⟩
      · rfl
      · refine congrArg (fun placed => Except.ok (placed, stop)) ?_
        rw [List.map_append]

/-- Trying mapped elements one after the other, when each one comes to the same up to a map. -/
theorem mapM_map_eq {ε α β γ δ : Type} {f : β → Except ε δ} {f' : α → Except ε γ} {g : α → β}
    {k : γ → δ} (hf : ∀ a, f (g a) = (f' a).map k) (xs : List α) :
    (xs.map g).mapM f = (xs.mapM f').map (List.map k) := by
  induction xs with
  | nil => rfl
  | cons x xs ih =>
    rw [List.map_cons, List.mapM_cons, List.mapM_cons, hf, ih]
    cases f' x with
    | error e => rfl
    | ok c => cases xs.mapM f' <;> rfl

/-! ## Checking

The sweep goes through the members in the order of their offsets.  Since the map keeps the offsets,
sorting commutes with it, and at each step the same member is found. -/

/-- Sorting commutes with a map that keeps the order. -/
theorem stableSort_map {α β : Type} {r : α → α → Bool} {s : β → β → Bool} {f : α → β}
    (hr : ∀ a b c, r a b = true → r b c = true → r a c = true)
    (hs : ∀ a b c, s a b = true → s b c = true → s a c = true)
    (hf : ∀ a b, r a b = s (f a) (f b)) (xs : List α) :
    stableSort s (xs.map f) = (stableSort r xs).map f := by
  rw [stableSort_eq_mergeSort hs, stableSort_eq_mergeSort hr]
  exact (List.map_mergeSort fun a _ b _ => hf a b).symm

section Map

variable {f : MemberLayout → MemberLayout} (hf : MemberLayout.KeepsPlace f)
include hf

namespace MemberLayout.KeepsPlace

theorem span (m : MemberLayout) : (f m).span = m.span := by
  rw [MemberLayout.span, hf.offset, hf.length]
  rfl

theorem fault? (size : Nat) (m : MemberLayout) : (f m).fault? size = m.fault? size := by
  rw [MemberLayout.fault?, hf.span, hf.offset, hf.alignment, hf.fixed]
  rfl

end MemberLayout.KeepsPlace

/-- The first later member that a member is in conflict with is found at the same position. -/
theorem conflictWith?_map {a : MemberLayout} {later : List MemberLayout}
    (hshare : ∀ b ∈ later, (f a).mayShare (f b) = a.mayShare b) :
    conflictWith? (f a) (later.map f) = (conflictWith? a later).map f := by
  have hstarts : (fun b : MemberLayout => decide (b.offset < (f a).span.stop)) ∘ f =
      fun b => decide (b.offset < a.span.stop) := by
    funext b
    rw [Function.comp_apply, hf.offset, hf.span]
  rw [conflictWith?, List.takeWhile_map, List.find?_map, hstarts]
  refine congrArg (Option.map f) (List.find?_congr fun b hb => ?_)
  exact congrArg not (hshare b ((List.takeWhile_prefix _).subset hb))

/-- So is the first conflict of the sweep. -/
theorem sweep?_map {members : List MemberLayout} (hshare : MemberLayout.KeepsSharing f members) :
    sweep? (members.map f) = (sweep? members).map fun (a, b) => (f a, f b) := by
  induction members with
  | nil => rfl
  | cons a later ih =>
    obtain ⟨ha, hlater⟩ := List.forall_mem_cons.1 hshare
    have hrest : MemberLayout.KeepsSharing f later :=
      fun b hb c hc => hlater b hb c (List.mem_cons_of_mem _ hc)
    rw [List.map_cons, sweep?, sweep?,
      conflictWith?_map hf fun b hb => ha b (List.mem_cons_of_mem _ hb)]
    cases conflictWith? a later with
    | none => exact ih hrest
    | some b => rfl

/-- So is the overlap, if sharing is kept among all members. -/
theorem findOverlap?_map {members : List MemberLayout}
    (hshare : MemberLayout.KeepsSharing f members) :
    findOverlap? (members.map f) = (findOverlap? members).map fun (a, b) => (f a, f b) := by
  have hfilter : (members.map f).filter (0 < ·.length) =
      (members.filter (0 < ·.length)).map f := by
    rw [List.filter_map]
    refine congrArg (List.map _) (List.filter_congr fun m _ => ?_)
    rw [Function.comp_apply, hf.length]
  have htrans : ∀ a b c : MemberLayout, decide (a.offset ≤ b.offset) = true →
      decide (b.offset ≤ c.offset) = true → decide (a.offset ≤ c.offset) = true := by
    simp only [decide_eq_true_eq]
    omega
  have hsort := stableSort_map (f := f) htrans htrans (fun a b => by rw [hf.offset, hf.offset])
    (members.filter (0 < ·.length))
  have hmem : ∀ m ∈ stableSort (fun a b : MemberLayout => decide (a.offset ≤ b.offset))
      (members.filter (0 < ·.length)), m ∈ members := fun m hm =>
    (List.mem_filter.1 ((stableSort_perm _ _).mem_iff.1 hm)).1
  rw [findOverlap?, hfilter, hsort,
    sweep?_map hf fun a ha b hb => hshare a (hmem a ha) b (hmem b hb)]
  rfl

/-- **The check comes to the same for mapped members.** -/
theorem checkPlacement_map (owner : Tag) (form : RecordForm) (size : Nat)
    {members : List MemberLayout} (hshare : MemberLayout.KeepsSharing f members) :
    checkPlacement owner form size (members.map f) = checkPlacement owner form size members := by
  have hfault : (members.map f).findSome?
        (fun m => (m.fault? size).map fun fault => (m, fault)) =
      (members.findSome? fun m => (m.fault? size).map fun fault => (m, fault)).map
        fun (m, fault) => (f m, fault) := by
    rw [List.findSome?_map, List.map_findSome?]
    refine congrArg (List.findSome? · members) (funext fun m => ?_)
    simp only [Function.comp_apply, hf.fault?]
    cases m.fault? size <;> rfl
  unfold checkPlacement
  rw [hfault, findOverlap?_map hf hshare]
  cases members.findSome? fun m => (m.fault? size).map fun fault => (m, fault) with
  | some found =>
    show Except.error (LayoutError.invalidMember owner (f found.1).name found.2) = _
    rw [hf.name]
  | none =>
    cases form with
    | union => rfl
    | struct =>
      cases findOverlap? members with
      | none => rfl
      | some pair =>
        show Except.error (LayoutError.overlap owner (f pair.1).name (f pair.2).name) = _
        rw [hf.name, hf.name]

/-! ## Putting a layout together

A failure to place, a failed check and a size that is too large come out on both sides or on
neither, and the layout otherwise. -/

/-- The coverage depends on the places and on what the shapes answer. -/
theorem Coverage.ofMembers_map
    (hpointers : ∀ m, (f m).shape.hasPointers = m.shape.hasPointers)
    (hsolid : ∀ m, (f m).shape.solid = m.shape.solid)
    (hoccupied : ∀ m, (f m).shape.occupied = m.shape.occupied) (size : Nat)
    (members : List MemberLayout) :
    Coverage.ofMembers size (members.map f) = .ofMembers size members := by
  simp only [Coverage.ofMembers, pointerSpans, plainSpans, occupiedSpans, List.filter_map,
    List.flatMap_map, List.any_map, List.map_map, Function.comp_def, hpointers, hsolid, hoccupied,
    hf.offset, hf.span]

/-- **Placements that come to the same up to a map of the members are put together to the same,** up
to that map, failures included. -/
theorem assemble_map {limit : SizeLimit} {order order' : BitOrder} {decl : RecordDecl}
    {members members' : List ResolvedMember}
    (hcoverage : ∀ size placed, Coverage.ofMembers size (placed.map f) = .ofMembers size placed)
    (hplace : placeMembers limit order' decl members' =
      (placeMembers limit order decl members).map fun (placed, stop) => (placed.map f, stop))
    (hshare : ∀ placed stop, placeMembers limit order decl members = .ok (placed, stop) →
      MemberLayout.KeepsSharing f placed) :
    assemble limit order' decl members' =
      (assemble limit order decl members).map (·.mapMembers f) := by
  rw [assemble, assemble, hplace]
  rcases hplaced : placeMembers limit order decl members with e | ⟨placed, stop⟩
  · rfl
  · have halignments : (placed.map f).map (·.alignment) = placed.map (·.alignment) := by
      rw [List.map_map]
      exact List.map_congr_left fun m _ => hf.alignment m
    have hlast : (placed.map f).getLast?.map (·.name) = placed.getLast?.map (·.name) := by
      rw [List.getLast?_map, Option.map_map]
      exact Option.map_congr fun m _ => hf.name m
    show (recordAlignment decl (Alignment.strictest ((placed.map _).map _)) >>= _) =
      (recordAlignment decl (Alignment.strictest (placed.map _)) >>= _).map _
    rw [halignments]
    cases recordAlignment decl (Alignment.strictest (placed.map (·.alignment))) with
    | error e => rfl
    | ok alignment =>
      show (orOverflow decl.tag ((Option.map _ _).getD "") (alignment.align? limit stop) >>= _) =
        (orOverflow decl.tag ((Option.map _ _).getD "") (alignment.align? limit stop) >>= _).map _
      rw [hlast]
      cases orOverflow decl.tag _ (alignment.align? limit stop) with
      | error e => rfl
      | ok size =>
        show (checkPlacement decl.tag decl.form size (placed.map _) >>= _) =
          (checkPlacement decl.tag decl.form size placed >>= _).map _
        rw [checkPlacement_map hf _ _ _ (hshare placed stop hplaced)]
        cases checkPlacement decl.tag decl.form size placed with
        | error e => rfl
        | ok _ =>
          refine congrArg Except.ok ?_
          rw [Layout.ofMembers, hcoverage]
          rfl

end Map

end NativeRecord
