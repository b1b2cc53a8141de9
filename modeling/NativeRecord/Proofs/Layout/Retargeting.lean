import Mathlib.Data.List.Nodup
import NativeRecord.Proofs.Layout.Soundness

/-!
# The targets of pointers

What a pointer points to is named in the type of a field and kept in the layout, but a layout does
not depend on it: a pointer takes the same place whatever its target, which need not even be
declared.

New targets are a replacement of types, scalars and embedded layouts, and builds with and without a
replacement have been related to each other.  There a member is known by its name; a target goes by
the position of the field.  The two agree as long as no name occurs twice, and a declaration in
which one does has no layout either way.

## What is here

* `Retargeting` — other targets for the pointers in the fields of records.
* `CType.retarget`, `RecordDecl.retarget`, `Layout.retarget` — all pointers given their new targets,
  and nothing else changed.
* `build?_retarget` — the retargeted declaration has the retargeted layout, if what it embeds has.
-/

set_option autoImplicit false
namespace NativeRecord

/-- Other targets for pointers, by the record and the position of the field that a pointer lies in
and by what it points to so far. -/
abbrev Retargeting := Tag → Nat → CType → CType

/-! ## New targets

A pointer that is the target of another one is not in the record by value, so its own target is left
alone. -/

/-- The type with other targets for the pointers that lie in it by value. -/
def CType.retarget (f : CType → CType) : CType → CType
  | arith a => arith a
  | pointer target => pointer (f target)
  | record tag => record tag
  | array element length => array (element.retarget f) length

def Scalar.retarget (f : CType → CType) : Scalar → Scalar
  | arith a => arith a
  | pointer target => pointer (f target)

def MemberDecl.retarget (f : CType → CType) (m : MemberDecl) : MemberDecl :=
  { m with type := m.type.retarget f }

def RecordDecl.retarget (ρ : Retargeting) (d : RecordDecl) : RecordDecl :=
  { d with members := d.members.mapIdx fun i m => m.retarget (ρ d.tag i) }

theorem RecordDecl.names_retarget (ρ : Retargeting) (d : RecordDecl) :
    (d.retarget ρ).members.map (·.name) = d.members.map (·.name) := by
  refine List.ext_getElem (by simp [retarget]) fun i _ _ => ?_
  simp [retarget, MemberDecl.retarget]

mutual

/-- The shape with other targets for the pointers in it, and for those of the records in it. -/
def Shape.retarget (ρ : Retargeting) (f : CType → CType) : Shape → Shape
  | .scalar type size alignment => .scalar (type.retarget f) size alignment
  | .record l => .record (l.retarget ρ)
  | .array element length => .array (element.retarget ρ f) length

def MemberLayout.retarget (ρ : Retargeting) (f : CType → CType) : MemberLayout → MemberLayout
  | ⟨name, type, shape, offset, alignment, bits, fixed, unionGroup⟩ =>
    ⟨name, type.retarget f, shape.retarget ρ f, offset, alignment, bits, fixed, unionGroup⟩

/-- The layout with other targets for its pointers, and for those of the records that it embeds.
Places, sizes and coverage are the same. -/
def Layout.retarget (ρ : Retargeting) : Layout → Layout
  | ⟨tag, form, members, size, alignment, coverage, serial⟩ =>
    ⟨tag, form, retargetMembers ρ tag 0 members, size, alignment, coverage, serial⟩

/-- The fields of the record `owner` from the one at the position `index` on. -/
def retargetMembers (ρ : Retargeting) (owner : Tag) (index : Nat) :
    List MemberLayout → List MemberLayout
  | [] => []
  | m :: ms => m.retarget ρ (ρ owner index) :: retargetMembers ρ owner (index + 1) ms

end

theorem retargetMembers_eq (ρ : Retargeting) (owner : Tag) (index : Nat) (ms : List MemberLayout) :
    retargetMembers ρ owner index ms =
      ms.mapIdx fun i m => m.retarget ρ (ρ owner (index + i)) := by
  induction ms generalizing index with
  | nil => rfl
  | cons m ms ih =>
    rw [retargetMembers, ih, List.mapIdx_cons]
    simp only [Nat.add_zero, Nat.add_assoc, Nat.add_comm 1]

/-! ## New targets as a replacement

The replacement for one record, by the names of its fields. -/

/-- Without repeated names, the position of a field is that of its name. -/
theorem mapIdx_eq_map_of_nodup {α β : Type} {key : α → String} {xs : List α}
    (h : (xs.map key).Nodup) (f : Nat → α → β) :
    xs.mapIdx f = xs.map fun x => f ((xs.map key).idxOf (key x)) x := by
  refine List.ext_getElem (by simp) fun i hi _ => ?_
  have hi : i < xs.length := by simpa using hi
  have hidx := h.idxOf_getElem i (by simpa using hi)
  rw [List.getElem_map] at hidx
  rw [List.getElem_mapIdx, List.getElem_map, hidx]

section Replacement

variable (ρ : Retargeting)

theorem Layout.agrees_retarget : Layout.Agrees (·.retarget ρ) where
  size l := by cases l; rw [retarget]
  alignment l := by cases l; rw [retarget]
  coverage l := by cases l; rw [retarget]

/-- In a record with fields of these names, pointers get their new targets, and so do embedded
layouts. -/
def Replacement.targets (owner : Tag) (names : List String) : Replacement where
  type name := CType.retarget (ρ owner (names.idxOf name))
  scalar name := Scalar.retarget (ρ owner (names.idxOf name))
  record := Layout.retarget ρ
  type_scalar _ s := by cases s <;> rfl
  type_record _ _ := rfl
  type_array _ _ _ := rfl
  scalar_arith _ _ := rfl
  isPointer_scalar _ s := by cases s <;> rfl
  agrees := Layout.agrees_retarget ρ

namespace Replacement

theorem decl_targets {d : RecordDecl} (h : (d.members.map (·.name)).Nodup) :
    (targets ρ d.tag (d.members.map (·.name))).decl d = d.retarget ρ := by
  rw [RecordDecl.retarget, mapIdx_eq_map_of_nodup h]
  rfl

theorem shape_targets (owner : Tag) (names : List String) (name : String) (s : Shape) :
    (targets ρ owner names).shape name s = s.retarget ρ (ρ owner (names.idxOf name)) := by
  induction s using Shape.arrayInduction with
  | scalar | record => rw [Shape.retarget]; rfl
  | array element length ih => rw [Shape.retarget, ← ih]; rfl

theorem layout_targets {l : Layout} (h : (l.members.map (·.name)).Nodup) :
    (targets ρ l.tag (l.members.map (·.name))).layout l = l.retarget ρ := by
  have hplaced (names : List String) (m : MemberLayout) :
      (targets ρ l.tag names).placed m = m.retarget ρ (ρ l.tag (names.idxOf m.name)) := by
    rw [placed, shape_targets]
    cases m
    rw [MemberLayout.retarget]
    rfl
  have hmembers : l.members.map (targets ρ l.tag (l.members.map (·.name))).placed =
      retargetMembers ρ l.tag 0 l.members := by
    rw [retargetMembers_eq, mapIdx_eq_map_of_nodup h]
    simp only [Nat.zero_add]
    exact List.map_congr_left fun m _ => hplaced _ m
  rw [layout, hmembers]
  cases l
  rw [Layout.retarget]

end Replacement

end Replacement

/-- Two answers: a layout and the same with new targets, or two failures. -/
abbrev Retargeted (ρ : Retargeting) (answer answer' : Except LayoutError Layout) : Prop :=
  Outcomes (fun _ _ => True) (fun l l' => l' = l.retarget ρ) answer answer'

/-- **The layout of a retargeted declaration is the retargeted layout of the declaration,** if it
has one, and none otherwise. -/
theorem build?_retarget (ρ : Retargeting) {answer answer' : Tag → Except LayoutError Layout}
    (h : ∀ tag, Retargeted ρ (answer tag) (answer' tag)) (config : Config)
    (decl : RecordDecl) :
    Retargeted ρ (build? config answer decl) (build? config answer' (decl.retarget ρ)) := by
  by_cases hnames : (decl.members.map (·.name)).Nodup
  · have hE : (Replacement.targets ρ decl.tag (decl.members.map (·.name))).Excuses
        fun _ _ => True := ⟨fun _ _ => trivial, fun _ _ _ _ => trivial⟩
    have hbuild := build?_relates hE config decl fun tag _ => h tag
    rw [Replacement.decl_targets ρ hnames] at hbuild
    refine hbuild.imp ?_
    rintro l _ hl rfl
    have hbuilds := build?_eq_ok_iff.1 hl
    have htag : l.tag = decl.tag := hbuilds.exists_members.1
    rw [← htag, ← hbuilds.names_eq, Replacement.layout_targets ρ hbuilds.wellPlaced.names]
  · -- Neither declaration has a layout, since a name comes twice.
    have hnone (answer : Tag → Except LayoutError Layout) (d : RecordDecl)
        (hd : d.members.map (·.name) = decl.members.map (·.name)) :
        ∃ e, build? config answer d = .error e := by
      cases hbuild : build? config answer d with
      | error e => exact ⟨e, rfl⟩
      | ok l =>
        obtain ⟨-, -, -, hd', -⟩ := build?_eq_ok_iff.1 hbuild
        exact (hnames (hd ▸ hd'.2)).elim
    obtain ⟨e, he⟩ := hnone answer decl rfl
    obtain ⟨e', he'⟩ := hnone answer' (decl.retarget ρ) (decl.names_retarget ρ)
    rw [he, he']
    exact .error trivial

end NativeRecord
