import NativeRecord.Proofs.Layout.Arrangement
import NativeRecord.Proofs.Layout.Coverage

/-!
# Natural alignment

Native code expects to find each scalar at an offset that is a multiple of its natural alignment.
The builder checks the offsets of a record's members and no others.  For the scalars of embedded
records and of array elements it takes more: the size of every shape is a multiple of its alignment,
so the elements of an array are all aligned like the first one, and an alignment is at least as
strict as that of everything within.

## What is here

* `Shape.ScalarAt` — a scalar lies at an offset of a shape, at any depth.
* `Shape.NaturallyAligned` — what is kept from a shape to those that hold it.
* `Layout.Natural` — a layout in which, at every depth, nothing is asked of the placement of
  members; its scalars lie at multiples of their natural alignments
  (`Layout.Natural.scalars_aligned`).
-/

set_option autoImplicit false
namespace NativeRecord

/-! ## Scalars at offsets -/

/-- A scalar of a type and a size lies at an offset of a shape: the shape is that scalar, or the
scalar lies in a member of a record or in an element of an array. -/
inductive Shape.ScalarAt (type : Scalar) (size : Nat) : Shape → Nat → Prop
  | scalar (alignment : Alignment) : ScalarAt type size (.scalar type size alignment) 0
  | record {l : Layout} {m : MemberLayout} {offset : Nat} (hm : m ∈ l.members)
      (h : ScalarAt type size m.shape offset) : ScalarAt type size (.record l) (m.offset + offset)
  | array {element : Shape} {length i offset : Nat} (hi : i < length)
      (h : ScalarAt type size element offset) :
      ScalarAt type size (.array element length) (i * element.size + offset)

/-- The size of a shape is a multiple of its alignment, its scalars lie at multiples of their
natural alignments, and these go into the alignment of the shape. -/
structure Shape.NaturallyAligned (p : Platform) (s : Shape) : Prop where
  size_dvd : s.alignment.bytes ∣ s.size
  scalars : ∀ {type size offset}, s.ScalarAt type size offset →
    p.naturalAlignment size ∣ offset ∧ p.naturalAlignment size ∣ s.alignment.bytes

namespace Shape.NaturallyAligned

variable {p : Platform}

/-- A scalar whose size is a power of two has an alignment that goes into it. -/
theorem scalar {owner : Tag} {name : String} {type : Scalar} {shape : Shape}
    (hwidth : AccessWidth (type.size p)) (h : scalarShape p owner name type = .ok shape) :
    shape.NaturallyAligned p := by
  obtain ⟨hbytes, hdvd⟩ := natural_of_scalarShape hwidth h
  obtain ⟨alignment, rfl⟩ := scalarShape_eq_ok h
  refine ⟨hdvd, fun hscalar => ?_⟩
  cases hscalar
  exact ⟨Nat.dvd_zero _, hbytes ▸ Nat.dvd_refl _⟩

/-- The elements of an array are aligned like the first one. -/
theorem array {element : Shape} (h : element.NaturallyAligned p) (length : Nat) :
    (Shape.array element length).NaturallyAligned p := by
  refine ⟨Nat.dvd_mul_right_of_dvd h.size_dvd length, fun hscalar => ?_⟩
  cases hscalar with
  | @array _ _ i offset hi hscalar =>
    obtain ⟨hoffset, halignment⟩ := h.scalars hscalar
    have hstart := Nat.dvd_mul_left_of_dvd (Nat.dvd_trans halignment h.size_dvd) i
    exact ⟨Nat.dvd_add hstart hoffset, halignment⟩

/-- A record is aligned if its members are, at offsets that are aligned for their shapes. -/
theorem record {l : Layout} (hsize : l.alignment.bytes ∣ l.size)
    (hmembers : ∀ m ∈ l.members, m.shape.NaturallyAligned p ∧
      m.shape.alignment.bytes ∣ m.offset ∧ m.shape.alignment.bytes ∣ l.alignment.bytes) :
    (Shape.record l).NaturallyAligned p := by
  refine ⟨hsize, fun hscalar => ?_⟩
  cases hscalar with
  | @record _ m offset hm hscalar =>
    obtain ⟨hshape, hstart, hrecord⟩ := hmembers m hm
    obtain ⟨hoffset, halignment⟩ := hshape.scalars hscalar
    exact ⟨Nat.dvd_add (Nat.dvd_trans halignment hstart) hoffset, Nat.dvd_trans halignment hrecord⟩

end Shape.NaturallyAligned

/-! ## Layouts that nothing is asked of -/

/-- Members that leave their places to the builder, under no pack. -/
structure RecordDecl.Natural (d : RecordDecl) : Prop where
  pack : d.pack = none
  alignment : ∀ m ∈ d.members, m.alignment = none
  offset : ∀ m ∈ d.members, m.offset = none

/-- A layout of such a declaration, built from layouts of that kind: only the records that the
declaration embeds matter, whatever the resolver knows besides.  The serial number is that of the
one who keeps it. -/
inductive Layout.Natural (config : Config) : Layout → Prop
  | intro {σ : Type} {resolve : Resolver (StateM σ)} {decl : RecordDecl} {l : Layout} {s s' : σ}
      (hdecl : decl.Natural)
      (nested : ∀ tag, decl.Embeds tag → ∀ t inner t',
        (resolve tag).run t = (.ok inner, t') → Natural config inner)
      (run : (build .word64 config resolve decl).run s = (.ok l, s')) (serial : Nat) :
      Natural config { l with serial := serial }

section Natural

variable {limit : SizeLimit} {Has : Tag → Layout → Prop} {config : Config}

theorem ShapeOf.naturallyAligned {platform : Platform} {owner : Tag} {name : String} {type : CType}
    {shape : Shape} (husable : platform.Usable)
    (hhas : ∀ tag l, Has tag l → (Shape.record l).NaturallyAligned platform)
    (h : ShapeOf limit platform owner Has name type shape) : shape.NaturallyAligned platform := by
  induction h with
  | arith h | pointer h => exact .scalar (husable.accessWidth _) h
  | record h => exact hhas _ _ h
  | array _ _ ih => exact ih.array _

/-- A declaration that asks for nothing has a naturally aligned layout if the records that it embeds
have. -/
theorem Builds.naturallyAligned {decl : RecordDecl} {l : Layout} (husable : config.platform.Usable)
    (hpack : config.defaultPack = none) (hdecl : decl.Natural)
    (hhas : ∀ tag, decl.Embeds tag → ∀ l, Has tag l →
      (Shape.record l).NaturallyAligned config.platform)
    (h : Builds limit Has config decl l) (serial : Nat) :
    (Shape.record { l with serial := serial }).NaturallyAligned config.platform := by
  have harranged := h.arranged
  refine .record harranged.size_dvd fun p hp => ?_
  obtain ⟨pack, members, stop, heffective, hmembers, hplaced, -⟩ := h.exists_placed
  obtain rfl : pack = none := by
    rw [effectivePack_eq_ok_iff, hdecl.pack, hpack] at heffective
    exact Option.map_eq_none_iff.1 heffective.symm
  have hplaced := placeMembers_forall₂ (membersOf_bitsFit hmembers) hplaced
  obtain ⟨m, hm, hmp⟩ := exists_mem_of_forall₂ hplaced hp
  obtain ⟨d, hd, hdm⟩ := exists_mem_of_forall₂ hmembers hm
  have hshape : p.shape.NaturallyAligned config.platform := by
    rw [hmp.shape]
    have hnested := hdm.shape.mono_of_embeds fun tag htag l hl => hhas tag ⟨d, hd, htag⟩ l hl
    exact hnested.naturallyAligned husable fun _ _ h => h
  have halignment : p.shape.alignment = p.alignment := by
    rw [hmp.shape, hmp.alignment]
    exact (hdm.alignment_eq (hdecl.alignment d hd)).symm
  have hfree : p.fixed = false := hmp.unfixed (by rw [hdm.decl_eq, hdecl.offset d hd])
  rw [halignment]
  exact ⟨hshape, harranged.aligned p hp hfree, harranged.alignment_dvd p hp⟩

theorem Layout.Natural.naturallyAligned {l : Layout} (hvalid : config.validate = .ok ())
    (hpack : config.defaultPack = none) (h : l.Natural config) :
    (Shape.record l).NaturallyAligned config.platform := by
  induction h with
  | @intro σ resolve decl l s s' hdecl _ run serial ih =>
    have hinforms : resolve.Informs (fun _ _ => True) fun _ tag inner =>
        decl.Embeds tag → (Shape.record inner).NaturallyAligned config.platform :=
      ⟨fun _ => trivial, fun _ _ _ _ _ => trivial, fun _ _ _ h => h,
        fun tag t => ⟨trivial, fun inner hinner htag =>
          ih tag htag t inner _ (Prod.ext hinner rfl)⟩⟩
    have hbuilds := (build_ensures hinforms config decl s).2 l (by rw [run])
    exact hbuilds.naturallyAligned (Config.usable_of_validate hvalid) hpack hdecl
      (fun tag htag l hl => hl htag) serial

/-- **Where nothing is asked of the placement, every scalar is naturally aligned,** at every depth:
it lies at a multiple of the natural alignment of its size, counted from the start of the outermost
record, and the alignment of that record is a multiple of it as well. -/
theorem Layout.Natural.scalars_aligned {l : Layout} (hvalid : config.validate = .ok ())
    (hpack : config.defaultPack = none) (h : l.Natural config) {type : Scalar} {size offset : Nat}
    (hscalar : (Shape.record l).ScalarAt type size offset) :
    config.platform.naturalAlignment size ∣ offset ∧
      config.platform.naturalAlignment size ∣ l.alignment.bytes :=
  (h.naturallyAligned hvalid hpack).scalars hscalar

end Natural

/-! ## A scalar in an array of records in a record -/

theorem Layout.Natural.of_answers {config : Config} {answer : Tag → Except LayoutError Layout}
    {decl : RecordDecl} {l : Layout} (hdecl : decl.Natural)
    (nested : ∀ tag, decl.Embeds tag → ∀ inner, answer tag = .ok inner → inner.Natural config)
    (h : build? config answer decl = .ok l) (serial : Nat) :
    Layout.Natural config { l with serial := serial } := by
  let resolve : Resolver (StateM Unit) := fun tag => liftM (answer tag)
  have hrun : (build .word64 config resolve decl).run () = (.ok l, ()) := by rw [build_lift, h]
  have hnested : ∀ tag, decl.Embeds tag → ∀ t inner t',
      (resolve tag).run t = (.ok inner, t') → inner.Natural config :=
    fun tag htag _ inner _ hinner => nested tag htag inner (congrArg Prod.fst hinner)
  exact .intro hdecl hnested hrun serial

theorem natural_gappedRow : gappedRowLayout.Natural .standard := by
  have hgapped : gappedLayout.Natural .standard :=
    .of_answers ⟨rfl, by decide, by decide⟩ (fun _ _ _ h => by cases h)
      (show build? .standard (fun tag => .error (.unknownTag tag)) gapped = .ok _ from rfl) 0
  exact .of_answers ⟨rfl, by decide, by decide⟩ (fun _ _ _ h => by cases h; exact hgapped)
    (show build? .standard (fun _ => .ok gappedLayout) gappedRow = .ok _ from rfl) 0

/-- The second number of two bytes in the row lies at offset 6. -/
theorem gappedRow_scalarAt :
    (Shape.record gappedRowLayout).ScalarAt (.arith (.unsigned .w16)) 2 6 := by
  have hnumber : (Shape.record gappedLayout).ScalarAt (.arith (.unsigned .w16)) 2 2 :=
    .record (List.getElem_mem (l := gappedLayout.members) (n := 1) (by decide)) (.scalar _)
  have hitem : (Shape.array (.record gappedLayout) 2).ScalarAt (.arith (.unsigned .w16)) 2 6 :=
    .array (show 1 < 2 by decide) hnumber
  exact .record (List.getElem_mem (l := gappedRowLayout.members) (n := 0) (by decide)) hitem

theorem scalars_aligned_gappedRow :
    Config.standard.validate = .ok () ∧ Config.standard.defaultPack = none ∧
      gappedRowLayout.Natural .standard ∧
      (Shape.record gappedRowLayout).ScalarAt (.arith (.unsigned .w16)) 2 6 ∧
      Config.standard.platform.naturalAlignment 2 = 2 ∧ 2 ∣ 6 ∧
      2 ∣ gappedRowLayout.alignment.bytes :=
  ⟨rfl, rfl, natural_gappedRow, gappedRow_scalarAt, rfl,
    natural_gappedRow.scalars_aligned rfl rfl gappedRow_scalarAt⟩

end NativeRecord
