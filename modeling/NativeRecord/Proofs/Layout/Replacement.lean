import NativeRecord.Proofs.Layout.MemberMap

/-!
# Replacing what a layout does not look at

A layout is put together from the sizes, the alignments and the coverage of the records that it
embeds, and of a pointer only the width matters.  If embedded layouts are replaced by others that
agree in that, or pointers by pointers, the layout is the same but for them.

The statement is an equation between two runs, failures included: to replace and then put together
is to put together and then replace.  Every step of the builder that looks at a member looks at its
size, its alignment, its bits or where it lies, and `Replacement` has one field for each reason why
these stay.  From there, every function on the way — cutting into units, placing, checking,
computing the coverage — commutes with the replacement, and the equations chain by rewriting.  The
check and the coverage are handled by the lemmas about maps of members that keep places, in
`Layout/MemberMap.lean`.

A scalar may be replaced as well as a record, since a change of what a pointer points to changes its
type and its scalar together, and the name of the member decides where.  The case of embedded
layouts alone is the instance at the end.

## What is here

* `Replacement` — what is put in the place of types, scalars and embedded layouts, and why an
  embedding layout does not notice.
* `Replacement.shape`, `Replacement.placed`, `Replacement.layout` — the replacement carried out.
* `Replacement.assemble_resolved` — replacing before the members are put together and after it
  comes to the same, failures included.  Each step of the placement has a lemma like it.
* `Shape.mapRecords`, `MemberLayout.mapRecords`, `Layout.mapRecords` — only the embedded layouts
  replaced, by others that agree with them (`Layout.Agrees`); `assemble_mapRecords`.
-/

set_option autoImplicit false
namespace NativeRecord

/-- A replacement of layouts that keeps what an embedding layout looks at. -/
structure Layout.Agrees (φ : Layout → Layout) : Prop where
  size : ∀ l, (φ l).size = l.size
  alignment : ∀ l, (φ l).alignment = l.alignment
  coverage : ∀ l, (φ l).coverage = l.coverage

/-- What is put in the place of types, scalars and embedded layouts.  Pointers give way to
pointers, and what is put for a type or a scalar may depend on the name of the member. -/
structure Replacement where
  type : String → CType → CType
  scalar : String → Scalar → Scalar
  record : Layout → Layout
  type_scalar : ∀ name s, type name s.type = (scalar name s).type
  type_record : ∀ name tag, type name (.record tag) = .record tag
  type_array : ∀ name element length,
    type name (.array element length) = .array (type name element) length
  scalar_arith : ∀ name a, scalar name (.arith a) = .arith a
  isPointer_scalar : ∀ name s, (scalar name s).isPointer = s.isPointer
  agrees : Layout.Agrees record

/-- The shape with its scalars and its outermost records replaced. -/
def Shape.map (scalar : Scalar → Scalar) (record : Layout → Layout) : Shape → Shape
  | .scalar type size alignment => .scalar (scalar type) size alignment
  | .record layout => .record (record layout)
  | .array element length => .array (element.map scalar record) length

/-- Induction on the arrays around a scalar or a record. -/
@[elab_as_elim]
theorem Shape.arrayInduction {P : Shape → Prop}
    (scalar : ∀ type size alignment, P (.scalar type size alignment))
    (record : ∀ l, P (.record l))
    (array : ∀ element length, P element → P (.array element length)) :
    ∀ s, P s
  | .scalar type size alignment => scalar type size alignment
  | .record l => record l
  | .array element length => array element length (element.arrayInduction scalar record array)

/-- Induction on all that a shape is made of, the members of its records included. -/
@[elab_as_elim]
theorem Shape.memberInduction {P : Shape → Prop}
    (scalar : ∀ type size alignment, P (.scalar type size alignment))
    (record : ∀ l : Layout, (∀ m ∈ l.members, P m.shape) → P (.record l))
    (array : ∀ element length, P element → P (.array element length)) : ∀ s, P s :=
  @Shape.rec P (fun m => P m.shape) (fun l => ∀ m ∈ l.members, P m.shape)
    (fun ms => ∀ m ∈ ms, P m.shape) scalar record array (fun _ _ _ _ _ _ _ _ h => h)
    (fun _ _ _ _ _ _ _ h => h) nofun (fun _ _ hm hms => List.forall_mem_cons.2 ⟨hm, hms⟩)

namespace Replacement

variable (ρ : Replacement)

/-- A shape in the member of that name. -/
def shape (name : String) (s : Shape) : Shape := s.map (ρ.scalar name) ρ.record

/-- The declaration of a member with its type replaced. -/
def member (m : MemberDecl) : MemberDecl := { m with type := ρ.type m.name m.type }

/-- The declaration of a record with the types of its members replaced. -/
def decl (d : RecordDecl) : RecordDecl := { d with members := d.members.map ρ.member }

def resolved (m : ResolvedMember) : ResolvedMember :=
  { m with decl := ρ.member m.decl, shape := ρ.shape m.decl.name m.shape }

def placed (m : MemberLayout) : MemberLayout :=
  { m with type := ρ.type m.name m.type, shape := ρ.shape m.name m.shape }

/-- The layout with its members replaced. -/
def layout (l : Layout) : Layout := { l with members := l.members.map ρ.placed }

/-- A unit with its members replaced, still of the same kind. -/
def unit : PlacementUnit → PlacementUnit
  | .fixed m offset => .fixed (ρ.resolved m) offset
  | .overlay first rest => .overlay (ρ.resolved first) (rest.map ρ.resolved)
  | .bitField m bits => .bitField (ρ.resolved m) bits
  | .plain m => .plain (ρ.resolved m)

/-! ## What stays

The size, the alignment and the coverage of a shape, by induction on the arrays around what is
replaced. -/

/-- Scalars are replaced by scalars of one size: pointers by pointers, and others by themselves. -/
theorem size_scalar (name : String) (s : Scalar) (platform : Platform) :
    (ρ.scalar name s).size platform = s.size platform := by
  cases s with
  | arith a => rw [ρ.scalar_arith]
  | pointer target =>
    have hpointer := ρ.isPointer_scalar name (.pointer target)
    cases hscalar : ρ.scalar name (.pointer target) with
    | pointer => rfl
    | arith a => rw [hscalar] at hpointer; cases hpointer

/-- What may be a bit-field may be one afterwards, and nothing else. -/
theorem allowsBitField_type (name : String) (t : CType) :
    (ρ.type name t).allowsBitField = t.allowsBitField := by
  cases t with
  | arith a =>
    have htype := ρ.type_scalar name (.arith a)
    rw [ρ.scalar_arith] at htype
    exact congrArg CType.allowsBitField htype
  | pointer target =>
    have hpointer := ρ.isPointer_scalar name (.pointer target)
    refine (congrArg CType.allowsBitField (ρ.type_scalar name (.pointer target))).trans ?_
    cases hscalar : ρ.scalar name (.pointer target) with
    | pointer => rfl
    | arith a => rw [hscalar] at hpointer; cases hpointer
  | record tag => rw [ρ.type_record]
  | array element length => rw [ρ.type_array]; rfl

section Shape

variable (name : String) (s : Shape)

@[simp] theorem size_shape : (ρ.shape name s).size = s.size := by
  induction s using Shape.arrayInduction with
  | scalar => rfl
  | record l => exact ρ.agrees.size l
  | array element length ih =>
    rw [Shape.size, ← ih]
    rfl

@[simp] theorem alignment_shape : (ρ.shape name s).alignment = s.alignment := by
  induction s using Shape.arrayInduction with
  | scalar => rfl
  | record l => exact ρ.agrees.alignment l
  | array element length ih => exact ih

@[simp] theorem hasPointers_shape : (ρ.shape name s).hasPointers = s.hasPointers := by
  induction s using Shape.arrayInduction with
  | scalar type => exact ρ.isPointer_scalar name type
  | record l => exact congrArg Coverage.hasPointers (ρ.agrees.coverage l)
  | array element length ih => exact ih

@[simp] theorem solid_shape : (ρ.shape name s).solid = s.solid := by
  induction s using Shape.arrayInduction with
  | scalar => rfl
  | record l => exact congrArg Coverage.solid (ρ.agrees.coverage l)
  | array element length ih =>
    rw [Shape.solid, ← ih, ← ρ.size_shape name element]
    rfl

@[simp] theorem occupied_shape : (ρ.shape name s).occupied = s.occupied := by
  induction s using Shape.arrayInduction with
  | scalar => rfl
  | record l =>
    show complementSpans (ρ.record l).size (ρ.record l).coverage.padding = _
    rw [ρ.agrees.size, ρ.agrees.coverage]
    rfl
  | array element length ih =>
    rw [Shape.occupied, ← ih, ← ρ.size_shape name element]
    rfl

end Shape

/-! ## Placing

Each function of the placement commutes with the replacement. -/

section Resolved

variable (m : ResolvedMember)

@[simp] theorem name_resolved : (ρ.resolved m).decl.name = m.decl.name := rfl

@[simp] theorem offset_resolved : (ρ.resolved m).decl.offset = m.decl.offset := rfl

@[simp] theorem inUnion_resolved : (ρ.resolved m).decl.inUnion = m.decl.inUnion := rfl

@[simp] theorem bits_resolved : (ρ.resolved m).decl.bits = m.decl.bits := rfl

@[simp] theorem alignment_resolved : (ρ.resolved m).alignment = m.alignment := rfl

end Resolved

/-- Replaced members join the same overlays. -/
theorem consOverlay_unit (m : ResolvedMember) (units : List PlacementUnit) :
    PlacementUnit.consOverlay (ρ.resolved m) (units.map ρ.unit) =
      (PlacementUnit.consOverlay m units).map ρ.unit := by
  cases units with
  | nil => rfl
  | cons unit units => cases unit <;> rfl

/-- They are cut into the same units. -/
theorem placementUnits_resolved (ms : List ResolvedMember) :
    placementUnits (ms.map ρ.resolved) = (placementUnits ms).map ρ.unit := by
  induction ms with
  | nil => rfl
  | cons m ms ih =>
    rw [List.map_cons, placementUnits, placementUnits, ih, offset_resolved, inUnion_resolved,
      bits_resolved]
    cases m.decl.offset with
    | some offset => rfl
    | none =>
      dsimp only
      split
      · exact ρ.consOverlay_unit m _
      · cases m.decl.bits <;> rfl

section Place

variable {limit : SizeLimit} {order : BitOrder} {owner : Tag}

theorem size_resolved (m : ResolvedMember) : (ρ.resolved m).size = m.size := ρ.size_shape _ _

/-- Their sizes are the same, one by one. -/
theorem sizes_resolved (ms : List ResolvedMember) :
    (ms.map ρ.resolved).map (·.size) = ms.map (·.size) := by
  rw [List.map_map]
  exact List.map_congr_left fun m _ => ρ.size_resolved m

/-- The bits of a member that has its word to itself stay. -/
theorem aloneInWord_resolved (m : ResolvedMember) :
    aloneInWord order (ρ.resolved m) = aloneInWord order m := by
  rw [aloneInWord, ρ.size_resolved]
  rfl

/-- **One unit is placed alike.** -/
theorem placeUnit_unit (index : Nat) (cursor : Cursor) (unit : PlacementUnit) :
    placeUnit limit order owner index cursor (ρ.unit unit) =
      (placeUnit limit order owner index cursor unit).map
        fun (placed, cursor) => (placed.map ρ.placed, cursor) := by
  cases unit with
  | fixed m offset =>
    simp only [unit, placeUnit, ρ.size_resolved, ρ.aloneInWord_resolved, name_resolved]
    cases orOverflow owner m.decl.name (limit.add? offset m.size) <;> rfl
  | plain m =>
    simp only [unit, placeUnit, ρ.size_resolved, name_resolved, alignment_resolved]
    cases orOverflow owner m.decl.name (nextPlace limit cursor.close m.alignment m.size) <;> rfl
  | bitField m bits =>
    simp only [unit, placeUnit, ρ.size_resolved, name_resolved, alignment_resolved]
    cases cursor.room? m.size bits with
    | some word => rfl
    | none =>
      cases orOverflow owner m.decl.name (nextPlace limit cursor.close m.alignment m.size) <;> rfl
  | overlay first rest =>
    have halignments : ((first :: rest).map ρ.resolved).map (·.alignment) =
        (first :: rest).map (·.alignment) := by
      rw [List.map_map]
      rfl
    simp only [unit, placeUnit, ← List.map_cons, ρ.sizes_resolved, halignments, name_resolved]
    cases orOverflow owner first.decl.name (nextPlace limit cursor.close _ _) with
    | error e => rfl
    | ok place =>
      refine congrArg (fun placed => Except.ok (placed, _)) ?_
      rw [List.map_map, List.map_map]
      refine List.map_congr_left ?_
      intro m _
      simp only [Function.comp_apply, ρ.aloneInWord_resolved]
      rfl

/-- So are the members of a union. -/
theorem overlayMembers_resolved (members : List ResolvedMember) :
    overlayMembers order owner (members.map ρ.resolved) =
      (overlayMembers order owner members).map
        fun (placed, size) => (placed.map ρ.placed, size) := by
  let place (m : ResolvedMember) : Except LayoutError MemberLayout :=
    if m.decl.offset.all (· = 0) then .ok (m.placedAt 0 (aloneInWord order m))
    else .error (.invalidMember owner m.decl.name .unionOffset)
  have hplace : ∀ m, place (ρ.resolved m) = (place m).map ρ.placed := by
    intro m
    simp only [place, offset_resolved, name_resolved, ρ.aloneInWord_resolved]
    split <;> rfl
  show ((members.map _).mapM place >>= _) = (members.mapM place >>= _).map _
  rw [mapM_map_eq hplace, ρ.sizes_resolved]
  cases members.mapM place <;> rfl

/-- So are all members, by the form of the record. -/
theorem placeMembers_resolved (decl : RecordDecl) (members : List ResolvedMember) :
    placeMembers limit order decl (members.map ρ.resolved) =
      (placeMembers limit order decl members).map
        fun (placed, stop) => (placed.map ρ.placed, stop) := by
  rw [placeMembers, placeMembers]
  cases decl.form with
  | struct =>
    show placeInSequence limit order decl.tag _ = (placeInSequence limit order decl.tag _).map _
    rw [placeInSequence, placeInSequence, ρ.placementUnits_resolved]
    exact placeUnits_map 0 (fun index _ => ρ.placeUnit_unit index) (Nat.zero_le 0) .start _
  | union => exact ρ.overlayMembers_resolved members

end Place

/-! ## Checking

Placed members keep their places, and it is still the same ones that may share storage. -/

theorem length_placed (m : MemberLayout) : (ρ.placed m).length = m.length := ρ.size_shape _ _

theorem keepsPlace_placed : MemberLayout.KeepsPlace ρ.placed :=
  ⟨fun _ => rfl, fun _ => rfl, ρ.length_placed, fun _ => rfl, fun _ => rfl⟩

theorem keepsSharing_placed (members : List MemberLayout) :
    MemberLayout.KeepsSharing ρ.placed members := by
  intro a _ b _
  rw [MemberLayout.mayShare, ρ.keepsPlace_placed.span, ρ.keepsPlace_placed.span]
  rfl

/-! ## Putting a layout together -/

/-- **Replacing before the members are put together and after it comes to the same,** failures
included. -/
theorem assemble_resolved (limit : SizeLimit) (order : BitOrder) (decl : RecordDecl)
    (members : List ResolvedMember) :
    assemble limit order decl (members.map ρ.resolved) =
      (assemble limit order decl members).map ρ.layout := by
  have hcoverage := Coverage.ofMembers_map ρ.keepsPlace_placed (fun _ => ρ.hasPointers_shape _ _)
    (fun _ => ρ.solid_shape _ _) fun _ => ρ.occupied_shape _ _
  exact assemble_map ρ.keepsPlace_placed hcoverage (ρ.placeMembers_resolved decl members)
    fun placed _ _ => ρ.keepsSharing_placed placed

end Replacement

/-! ## Embedded layouts alone

The instance in which types and scalars stay. -/

/-- The shape with its outermost records replaced. -/
def Shape.mapRecords (φ : Layout → Layout) (s : Shape) : Shape := s.map id φ

/-- A resolved member with the records in its shape replaced. -/
def ResolvedMember.mapRecords (φ : Layout → Layout) (m : ResolvedMember) : ResolvedMember :=
  { m with shape := m.shape.mapRecords φ }

/-- A placed member with the records in its shape replaced. -/
def MemberLayout.mapRecords (φ : Layout → Layout) (m : MemberLayout) : MemberLayout :=
  { m with shape := m.shape.mapRecords φ }

/-- The layout with the records in its members replaced. -/
def Layout.mapRecords (φ : Layout → Layout) (l : Layout) : Layout :=
  { l with members := l.members.map (·.mapRecords φ) }

theorem Shape.mapRecords_id (s : Shape) : s.mapRecords id = s := by
  induction s using Shape.arrayInduction with
  | scalar | record => rfl
  | array element length ih => exact congrArg (Shape.array · length) ih

theorem Layout.mapRecords_id (l : Layout) : l.mapRecords id = l := by
  have hmember : ∀ m : MemberLayout, m.mapRecords id = m := by
    intro m
    obtain ⟨_, _, shape, _, _, _, _, _⟩ := m
    simp only [MemberLayout.mapRecords, Shape.mapRecords_id]
  obtain ⟨_, _, members, _, _, _, _⟩ := l
  simp only [mapRecords, hmember, List.map_id']

theorem Layout.agrees_id : Layout.Agrees id := ⟨fun _ => rfl, fun _ => rfl, fun _ => rfl⟩

section Records

variable {φ : Layout → Layout} (h : Layout.Agrees φ)

/-- Types and scalars stay, and embedded layouts are replaced. -/
def Replacement.records : Replacement where
  type _ t := t
  scalar _ s := s
  record := φ
  type_scalar _ _ := rfl
  type_record _ _ := rfl
  type_array _ _ _ := rfl
  scalar_arith _ _ := rfl
  isPointer_scalar _ _ := rfl
  agrees := h

@[simp] theorem Replacement.decl_records (d : RecordDecl) : (records h).decl d = d := by
  have hmembers : d.members.map (records h).member = d.members := List.map_id' d.members
  rw [decl, hmembers]

include h

theorem Shape.size_mapRecords (s : Shape) : (s.mapRecords φ).size = s.size :=
  (Replacement.records h).size_shape "" s

theorem Shape.alignment_mapRecords (s : Shape) : (s.mapRecords φ).alignment = s.alignment :=
  (Replacement.records h).alignment_shape "" s

/-- **Replacing embedded layouts before the members are put together and after it comes to the
same,** failures included. -/
theorem assemble_mapRecords (limit : SizeLimit) (order : BitOrder) (decl : RecordDecl)
    (members : List ResolvedMember) :
    assemble limit order decl (members.map (·.mapRecords φ)) =
      (assemble limit order decl members).map (·.mapRecords φ) :=
  (Replacement.records h).assemble_resolved limit order decl members

end Records

end NativeRecord
