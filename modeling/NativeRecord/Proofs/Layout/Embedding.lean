import NativeRecord.Proofs.Layout.Soundness

/-!
# Embedded records

A layout carries the layouts of the records that it embeds.  What is said of it at every depth is
proved by induction over these: they are parts of the term, so they are smaller, and one embedded in
an embedded one is embedded itself.

The second part is about what a build makes of them.  It asks for their size, alignment and
coverage, and passes them on; nothing else about them enters.  So when they are replaced by others
that agree in these three, the same declaration builds the layout with the others in their place.
The relation of tags to layouts is narrowed on the way to those that the layout really embeds,
because only of these can an induction hypothesis speak.

## What is here

* `Shape.Holds`, `Layout.Embeds` — the records that lie in a shape or a layout by value, at any
  depth.  They are smaller than what they lie in (`Layout.Embeds.sizeOf_lt`).
* `Builds.mapRecords` — a layout that builds depends on what is known of the records that it embeds,
  and builds just so when these are replaced.
-/

set_option autoImplicit false
namespace NativeRecord

/-- The records that lie in a shape by value, at any depth. -/
inductive Shape.Holds : Shape → Layout → Prop
  | record (l : Layout) : Holds (.record l) l
  | deeper {l inner : Layout} {m : MemberLayout} (hm : m ∈ l.members) (h : m.shape.Holds inner) :
      Holds (.record l) inner
  | array {element : Shape} {length : Nat} {inner : Layout} (h : element.Holds inner) :
      Holds (.array element length) inner

/-- A record embeds another one: directly, through arrays, or deeper. -/
def Layout.Embeds (l inner : Layout) : Prop := ∃ m ∈ l.members, m.shape.Holds inner

/-- The shape of a member is a part of the layout. -/
theorem MemberLayout.sizeOf_shape_lt {l : Layout} {m : MemberLayout} (hm : m ∈ l.members) :
    sizeOf m.shape < sizeOf l := by
  have hmem := List.sizeOf_lt_of_mem hm
  have hshape : sizeOf m.shape < sizeOf m := by cases m; simp +arith
  have hmembers : sizeOf l.members < sizeOf l := by cases l; simp +arith
  omega

theorem Shape.Holds.sizeOf_lt {s : Shape} {inner : Layout} (h : s.Holds inner) :
    sizeOf inner < sizeOf s := by
  induction h with
  | record l => simp
  | deeper hm _ ih =>
    have := MemberLayout.sizeOf_shape_lt hm
    simp only [Shape.record.sizeOf_spec]
    omega
  | array _ ih =>
    simp only [Shape.array.sizeOf_spec]
    omega

theorem Layout.Embeds.sizeOf_lt {l inner : Layout} (h : l.Embeds inner) :
    sizeOf inner < sizeOf l := by
  obtain ⟨m, hm, hholds⟩ := h
  exact Nat.lt_trans hholds.sizeOf_lt (MemberLayout.sizeOf_shape_lt hm)

/-- What is held by a record that is held is held. -/
theorem Shape.Holds.trans {s : Shape} {l inner : Layout} (h : s.Holds l) (h' : l.Embeds inner) :
    s.Holds inner := by
  induction h with
  | record l => obtain ⟨m, hm, hholds⟩ := h'; exact .deeper hm hholds
  | deeper hm _ ih => exact .deeper hm (ih h')
  | array _ ih => exact .array (ih h')

/-- Embedding is transitive, since it is at any depth to begin with. -/
theorem Layout.Embeds.trans {l l' inner : Layout} (h : l.Embeds l') (h' : l'.Embeds inner) :
    l.Embeds inner := by
  obtain ⟨m, hm, hholds⟩ := h
  exact ⟨m, hm, hholds.trans h'⟩

/-! ## What building depends on

One lemma for each of the three things that are built on each other: the shape of a type, a resolved
member, and the layout. -/

section Replace

variable {limit : SizeLimit} {platform : Platform} {owner : Tag} {Has : Tag → Layout → Prop}
  {φ : Layout → Layout}

/-- The shape of a type, with its records replaced, is a shape of it given the new records. -/
theorem ShapeOf.mapRecords (hφ : Layout.Agrees φ) {name : String} {type : CType} {shape : Shape}
    (h : ShapeOf limit platform owner Has name type shape) :
    ShapeOf limit platform owner
      (fun tag l => ∃ inner, Has tag inner ∧ shape.Holds inner ∧ l = φ inner) name type
      (shape.mapRecords φ) := by
  induction h with
  | arith hs => obtain ⟨_, rfl⟩ := scalarShape_eq_ok hs; exact .arith hs
  | pointer hs => obtain ⟨_, rfl⟩ := scalarShape_eq_ok hs; exact .pointer hs
  | record hl => exact .record ⟨_, hl, .record _, rfl⟩
  | @array _ _ shape _ hsize ih =>
    have hsame := shape.size_mapRecords hφ
    refine .array (ih.mono fun tag l => ?_) (hsame.symm ▸ hsize)
    rintro ⟨inner, hinner, hholds, rfl⟩
    exact ⟨inner, hinner, .array hholds, rfl⟩

/-- So it is with a resolved member: the width of a bit-field and the alignment depend on the size
and the natural alignment of the shape, which are kept. -/
theorem MemberOf.mapRecords (hφ : Layout.Agrees φ) {pack : Option Alignment} {decl : MemberDecl}
    {m : ResolvedMember} (h : MemberOf limit platform owner Has pack decl m) :
    MemberOf limit platform owner
      (fun tag l => ∃ inner, Has tag inner ∧ m.shape.Holds inner ∧ l = φ inner) pack decl
      (m.mapRecords φ) where
  decl_eq := h.decl_eq
  shape := h.shape.mapRecords hφ
  bits := by rw [ResolvedMember.mapRecords, Shape.size_mapRecords hφ]; exact h.bits
  alignment := by rw [ResolvedMember.mapRecords, Shape.alignment_mapRecords hφ]; exact h.alignment

/-- Lists that are related element by element are so with elements of the second one. -/
theorem forall₂_mem_right {α β : Type} {R : α → β → Prop} {xs : List α} {ys : List β}
    (h : List.Forall₂ R xs ys) : List.Forall₂ (fun x y => y ∈ ys ∧ R x y) xs ys := by
  induction h with
  | nil => exact .nil
  | cons hab _ ih =>
    exact .cons ⟨List.mem_cons_self, hab⟩ (ih.imp fun _ _ h => ⟨List.mem_cons_of_mem _ h.1, h.2⟩)

/-- **A layout that builds does so from the records that it embeds,** and builds in the same way
when these are replaced. -/
theorem Builds.mapRecords (hφ : Layout.Agrees φ) {config : Config} {decl : RecordDecl} {l : Layout}
    (h : Builds limit Has config decl l) :
    Builds limit (fun tag l' => ∃ inner, Has tag inner ∧ l.Embeds inner ∧ l' = φ inner) config decl
      (l.mapRecords φ) := by
  obtain ⟨pack, members, hpack, hnames, hmembers, hlayout⟩ := h
  have hplaced : List.Forall₂ PlacedAs members l.members := by
    obtain ⟨placed, stop, size, alignment, hplaced, -, -, -, rfl⟩ := assemble_eq_ok hlayout
    exact placeMembers_forall₂ (membersOf_bitsFit hmembers) hplaced
  refine ⟨pack, members.map (·.mapRecords φ), hpack, hnames, ?_, ?_⟩
  · rw [List.forall₂_map_right_iff]
    refine (forall₂_mem_right hmembers).imp fun d m ⟨hm, hd⟩ => (hd.mapRecords hφ).mono ?_
    rintro tag l' ⟨inner, hinner, hholds, rfl⟩
    obtain ⟨p, hp, hpm⟩ := exists_mem_of_forall₂ hplaced.flip hm
    exact ⟨inner, hinner, ⟨p, hp, hpm.shape ▸ hholds⟩, rfl⟩
  · rw [assemble_mapRecords hφ, hlayout]
    rfl

end Replace

end NativeRecord
