import NativeRecord.Memory.View
import NativeRecord.Proofs.Layout.Overlap
import NativeRecord.Proofs.Layout.Placement

/-!
# Soundness of built layouts

Nothing about reading or writing a record can be said of an arbitrary `Layout`: the record is plain
data, and a hand-made one may have members that overlap, lie outside it or have bits that no word of
theirs holds.  What every later theorem assumes is therefore not the shape of a layout but where it
comes from, and this file turns the one into the other.

`Built` says that the builder answered with the layout.  The builder asks a resolver for the types
that a declaration embeds, so the definition is inductive: whatever the resolver answers must be
built too.  It may keep a state, as the registry does, and give different answers over time; a
single answering function would exclude that.  `Built.of_answers` and `Built.of_builds` go the other
way, from a function or a relation of answers to a built layout.

The proof does not unfold the builder.  Each check of it is inverted once, to what its success means
(`checkAlignment_eq_ok_iff` to `checkPlacement_eq_ok_iff`), and `assemble_eq_ok` lists the steps
that a success has taken; from there on the development reads off these lemmas.  What placing gives
comes from `Layout/Placement.lean`: the members stand in `PlacedAs` to the resolved ones, whichever
of the two ways of placing was taken.  Soundness at every depth is then the induction over `Built`.

## What is here

* `Built` — a layout that the builder answers with, asking for layouts that were built the same
  way.
* `Layout.WellPlaced` — the members of a layout have distinct names, lie within it, keep their bits
  in their words, and are compatible with each other in a struct.
* `Shape.Sound`, `Layout.Sound` — every record in a shape is well placed, and every scalar has the
  size that the platform gives it, one that memory can access.
* `Builds.exists_members`, `Builds.exists_placed` — the two views of a successful run that later
  files take: what was checked at its end, and how its numbers came about.
* `Built.wellPlaced`, `Built.sound` — built layouts are sound; the first needs no assumption about
  the platform.
-/

set_option autoImplicit false
namespace NativeRecord

/-- A layout that the builder has answered with, whatever state it asks in, as long as it is only
told of layouts that were built as well.  The serial number is that of the one who keeps it. -/
inductive Built (config : Config) : Layout → Prop
  | intro {σ : Type} {resolve : Resolver (StateM σ)} {decl : RecordDecl} {l : Layout} {s s' : σ}
      (nested : ∀ tag t inner t', (resolve tag).run t = (.ok inner, t') → Built config inner)
      (run : (build .word64 config resolve decl).run s = (.ok l, s')) (serial : Nat) :
      Built config { l with serial := serial }

/-- A layout that builds from the answers of a function is built if these answers are.  The function
becomes a resolver without a state. -/
theorem Built.of_answers {config : Config} {answer : Tag → Except LayoutError Layout}
    {decl : RecordDecl} {l : Layout}
    (nested : ∀ tag inner, answer tag = .ok inner → Built config inner)
    (h : build? config answer decl = .ok l) (serial : Nat) :
    Built config { l with serial := serial } := by
  let resolve : Resolver (StateM Unit) := fun tag => liftM (answer tag)
  have hrun : (build .word64 config resolve decl).run () = (.ok l, ()) := by rw [build_lift, h]
  have hnested : ∀ tag t inner t', (resolve tag).run t = (.ok inner, t') → Built config inner :=
    fun tag _ inner _ hinner => nested tag inner (congrArg Prod.fst hinner)
  exact .intro hnested hrun serial

/-- A layout that builds with one answer at most for each type is built if the answers are. -/
theorem Built.of_builds {config : Config} {Has : Tag → Layout → Prop} {decl : RecordDecl}
    {l : Layout} (hone : ∀ tag inner inner', Has tag inner → Has tag inner' → inner = inner')
    (nested : ∀ tag inner, Has tag inner → Built config inner)
    (h : Builds .word64 Has config decl l) (serial : Nat) :
    Built config { l with serial := serial } := by
  -- The relation becomes a function by choice; as it has one answer at most for each type, whatever
  -- it relates is what was chosen.
  classical
  let answer : Tag → Except LayoutError Layout := fun tag =>
    if h : ∃ inner, Has tag inner then .ok h.choose else .error (.unknownTag tag)
  have hanswer : ∀ tag inner, Has tag inner → answer tag = .ok inner := by
    intro tag inner hinner
    have hsome : ∃ inner, Has tag inner := ⟨inner, hinner⟩
    simp only [answer, dif_pos hsome]
    exact congrArg Except.ok (hone tag _ inner hsome.choose_spec hinner)
  have hbuilt : ∀ tag inner, answer tag = .ok inner → Built config inner := by
    intro tag inner hinner
    simp only [answer] at hinner
    split at hinner
    · rename_i hsome
      cases hinner
      exact nested tag _ hsome.choose_spec
    · cases hinner
  exact .of_answers hbuilt (build?_eq_ok_iff.2 (h.mono hanswer)) serial

/-! ## Platforms

A configuration that is valid has a platform whose own types are four or eight bytes wide.  All
other scalars have a width that the language fixes, so on such a platform memory can access every
scalar there is. -/

/-- A platform whose own types have widths that memory can access. -/
structure Platform.Usable (p : Platform) : Prop where
  pointer : p.pointerWidth = 4 ∨ p.pointerWidth = 8
  sizeT : p.sizeTWidth = 4 ∨ p.sizeTWidth = 8
  long : p.longWidth = 4 ∨ p.longWidth = 8
  timeT : p.timeTWidth = 4 ∨ p.timeTWidth = 8

/-- The validation of a configuration checks the four widths one after the other. -/
theorem Config.usable_of_validate {c : Config} (h : c.validate = .ok ()) : c.platform.Usable := by
  have width {n : Nat} {flaw : Nat → ConfigFlaw} {u : Unit}
      (h : (if n = 4 ∨ n = 8 then (.ok () : Except ConfigFlaw Unit) else .error (flaw n)) = .ok u) :
      n = 4 ∨ n = 8 := by
    split at h
    · assumption
    · cases h
  simp only [validate, except_bind_eq_ok] at h
  obtain ⟨_, hpointer, _, hsizeT, _, hlong, _, htimeT, -⟩ := h
  exact ⟨width hpointer, width hsizeT, width hlong, width htimeT⟩

/-- The widths that a platform gives the types of its own. -/
def Platform.ownWidths (p : Platform) : List Nat :=
  [p.pointerWidth, p.sizeTWidth, p.longWidth, p.timeTWidth]

/-- A scalar has a width of the platform's own or one that memory can access. -/
theorem Scalar.size_mem_or_accessWidth (p : Platform) (s : Scalar) :
    s.size p ∈ p.ownWidths ∨ AccessWidth (s.size p) := by
  have hint : ∀ w : IntWidth, AccessWidth w.bytes := by intro w; cases w <;> decide
  have hfloat : ∀ w : FloatWidth, AccessWidth w.bytes := by intro w; cases w <;> decide
  cases s with
  | pointer target => exact .inl (by simp [size, Platform.ownWidths])
  | arith a =>
    cases a with
    | signed w => exact .inr (hint w)
    | unsigned w => exact .inr (hint w)
    | enum w => exact .inr (hint w)
    | bool => exact .inr (.inl rfl)
    | float w => exact .inr (hfloat w)
    | platform t =>
      left
      cases t <;> simp [size, Arith.size, TargetInt.width, Platform.ownWidths]

/-- **On a usable platform memory can access every scalar.** -/
theorem Platform.Usable.accessWidth {p : Platform} (h : p.Usable) (s : Scalar) :
    AccessWidth (s.size p) := by
  have hwidth : ∀ n, n = 4 ∨ n = 8 → AccessWidth n := by rintro n (rfl | rfl) <;> decide
  rcases Scalar.size_mem_or_accessWidth p s with hown | haccess
  · simp only [ownWidths, List.mem_cons, List.not_mem_nil, or_false] at hown
    rcases hown with hs | hs | hs | hs <;> rw [hs]
    · exact hwidth _ h.pointer
    · exact hwidth _ h.sizeT
    · exact hwidth _ h.long
    · exact hwidth _ h.timeT
  · exact haccess

/-- The sizes that memory can access are alignments. -/
theorem AccessWidth.exists_bytes {n : Nat} (h : AccessWidth n) : ∃ a : Alignment, a.bytes = n := by
  rcases h with rfl | rfl | rfl | rfl
  · exact ⟨⟨0⟩, rfl⟩
  · exact ⟨⟨1⟩, rfl⟩
  · exact ⟨⟨2⟩, rfl⟩
  · exact ⟨⟨3⟩, rfl⟩

/-! ## Sound shapes

A shape is sound if the records in it, at every depth, place their members well and the scalars in
it have the size that the platform gives them.  The predicate follows the constructors of `Shape`,
so that induction over it replaces induction over shapes wherever something about transfer is shown:
it brings the facts about the record at hand along with the induction hypothesis. -/

/-- An element of an array ends within the array. -/
theorem item_stop_le {i length : Nat} (hi : i < length) (offset size : Nat) :
    offset + i * size + size ≤ offset + size * length := by
  rw [Nat.add_assoc, ← Nat.succ_mul, Nat.mul_comm size]
  exact Nat.add_le_add_left (Nat.mul_le_mul_right _ hi) _

/-- The elements behind the first one lie at the same distances from each other. -/
theorem item_offset_succ (offset stride i : Nat) :
    offset + (i + 1) * stride = offset + stride + i * stride := by
  rw [Nat.succ_mul, Nat.add_comm (i * stride), Nat.add_assoc]

/-- The bits of a bit-field lie in the word of its own type. -/
def MemberLayout.BitsInWord (m : MemberLayout) : Prop :=
  ∀ r, m.bits = some r → ∃ a size alignment, m.shape = .scalar (.arith a) size alignment ∧
    a.allowsBitField = true ∧ 0 < r.width ∧ r.first + r.width ≤ 8 * size

/-- Where the members of a record lie. -/
structure Layout.WellPlaced (l : Layout) : Prop where
  names : (l.members.map (·.name)).Nodup
  within : ∀ m ∈ l.members, m.offset + m.length ≤ l.size
  bits : ∀ m ∈ l.members, m.BitsInWord
  apart : l.form = .struct → l.members.Pairwise MemberLayout.Compatible

/-- A member ends within every room that there is for its record. -/
theorem Layout.WellPlaced.stop_le {l : Layout} (h : l.WellPlaced) {m : MemberLayout}
    (hm : m ∈ l.members) {start limit : Nat} (hlimit : start + l.size ≤ limit) :
    start + m.offset + m.length ≤ limit := by
  have := h.within m hm
  omega

/-- A shape in which all records are well placed and all scalars have the platform's size. -/
inductive Shape.Sound (p : Platform) : Shape → Prop
  | scalar {type : Scalar} {alignment : Alignment} (h : AccessWidth (type.size p)) :
      Shape.Sound p (.scalar type (type.size p) alignment)
  | record {l : Layout} (h : l.WellPlaced) (hmembers : ∀ m ∈ l.members, m.shape.Sound p) :
      Shape.Sound p (.record l)
  | array {element : Shape} {length : Nat} (h : element.Sound p) :
      Shape.Sound p (.array element length)

/-- A layout is sound as the shape of an embedded record. -/
def Layout.Sound (p : Platform) (l : Layout) : Prop := (Shape.record l).Sound p

theorem Layout.sound_iff {p : Platform} {l : Layout} :
    l.Sound p ↔ l.WellPlaced ∧ ∀ m ∈ l.members, m.shape.Sound p :=
  ⟨fun h => by cases h; exact ⟨‹_›, ‹_›⟩, fun h => .record h.1 h.2⟩

/-- The shape of a scalar has the platform's size; only its alignment can fail to exist. -/
theorem scalarShape_eq_ok {platform : Platform} {owner : Tag} {name : String} {s : Scalar}
    {shape : Shape} (h : scalarShape platform owner name s = .ok shape) :
    ∃ alignment, shape = .scalar s (s.size platform) alignment := by
  simp only [scalarShape] at h
  split at h
  · cases h; exact ⟨_, rfl⟩
  · cases h

/-- A scalar has its natural alignment, which goes into its size if memory can access that. -/
theorem natural_of_scalarShape {platform : Platform} {owner : Tag} {name : String} {s : Scalar}
    {shape : Shape} (hwidth : AccessWidth (s.size platform))
    (h : scalarShape platform owner name s = .ok shape) :
    shape.alignment.bytes = platform.naturalAlignment (s.size platform) ∧
      shape.alignment.bytes ∣ shape.size := by
  simp only [scalarShape] at h
  split at h
  · rename_i a ha
    cases h
    have hbytes : a.bytes = platform.naturalAlignment (s.size platform) :=
      Alignment.ofBytes?_eq_some_iff.1 ha
    obtain ⟨own, hown⟩ := hwidth.exists_bytes
    have hle : a ≤ own := by
      have hpos := own.bytes_pos
      rw [← Alignment.bytes_le_bytes_iff, hbytes, Platform.naturalAlignment, ← hown]
      omega
    exact ⟨hbytes, hown ▸ Alignment.bytes_dvd_bytes hle⟩
  · cases h

/-- The shape of a type is sound if the layouts of the types it embeds are. -/
theorem ShapeOf.sound {limit : SizeLimit} {platform : Platform} {owner : Tag}
    {Has : Tag → Layout → Prop} {name : String} {type : CType} {shape : Shape}
    (husable : platform.Usable) (hhas : ∀ tag l, Has tag l → l.Sound platform)
    (h : ShapeOf limit platform owner Has name type shape) : shape.Sound platform := by
  induction h with
  | arith h => obtain ⟨_, rfl⟩ := scalarShape_eq_ok h; exact .scalar (husable.accessWidth _)
  | pointer h => obtain ⟨_, rfl⟩ := scalarShape_eq_ok h; exact .scalar (husable.accessWidth _)
  | record h => exact hhas _ _ h
  | array _ _ ih => exact .array ih

/-! ## What the checks give

Each check of the builder is an `Except` that answers nothing or the value it has checked.  These
lemmas say for each what its success comes to, in both directions where the converse is needed to
show that something builds. -/

/-- A number is an alignment if it is the number of bytes of one. -/
theorem checkAlignment_eq_ok_iff {subject : AlignmentSubject} {bytes : Nat} {a : Alignment} :
    checkAlignment subject bytes = .ok a ↔ a.bytes = bytes := by
  rw [← Alignment.ofBytes?_eq_some_iff, checkAlignment]
  cases Alignment.ofBytes? bytes with
  | some b => exact ⟨fun h => by cases h; rfl, fun h => by cases h; rfl⟩
  | none => exact ⟨nofun, nofun⟩

/-- The pack of the declaration goes before that of the configuration. -/
theorem effectivePack_eq_ok_iff {config : Config} {decl : RecordDecl} {pack : Option Alignment} :
    effectivePack config decl = .ok pack ↔
      decl.pack.or config.defaultPack = pack.map (·.bytes) := by
  rw [effectivePack]
  cases decl.pack.or config.defaultPack with
  | none =>
    show Except.ok none = Except.ok pack ↔ _
    rw [Except.ok.injEq, eq_comm, eq_comm (a := none), Option.map_eq_none_iff]
  | some bytes =>
    show some <$> checkAlignment (.record decl.tag) bytes = .ok pack ↔ _
    simp only [map_eq_pure_bind, except_bind_eq_ok, checkAlignment_eq_ok_iff]
    rw [eq_comm (a := some bytes), Option.map_eq_some_iff]
    refine exists_congr fun a => ?_
    rw [and_comm, eq_comm (a := pack)]
    exact and_congr_left' ⟨Except.ok.inj, congrArg _⟩

/-- A request is granted when the pack allows it; without one there is the natural alignment,
lowered to the pack. -/
theorem memberAlignment_eq_ok_iff {owner : Tag} {m : MemberDecl} {pack : Option Alignment}
    {natural a : Alignment} :
    memberAlignment owner m pack natural = .ok a ↔
      m.alignment = none ∧ a = natural.packed pack ∨
        m.alignment = some a.bytes ∧ ∀ p ∈ pack, a ≤ p := by
  rw [memberAlignment]
  cases m.alignment with
  | none => simp [eq_comm]
  | some bytes =>
    have hgranted (b : Alignment) : pack.filter (· < b) = none ↔ ∀ p ∈ pack, b ≤ p := by
      simp only [Option.filter_eq_none_iff, decide_eq_true_eq]
      exact forall₂_congr fun _ _ => Nat.not_lt
    simp only [except_bind_eq_ok, checkAlignment_eq_ok_iff, reduceCtorEq, false_and, false_or,
      Option.some.injEq]
    constructor
    · rintro ⟨b, rfl, h⟩
      split at h
      · cases h
      · rename_i hfilter
        cases h
        exact ⟨rfl, (hgranted a).1 hfilter⟩
    · rintro ⟨rfl, h⟩
      refine ⟨a, rfl, ?_⟩
      rw [(hgranted a).2 h]

/-- A request for a record is granted when its members allow it. -/
theorem recordAlignment_eq_ok_iff {decl : RecordDecl} {natural a : Alignment} :
    recordAlignment decl natural = .ok a ↔
      decl.alignment = none ∧ a = natural ∨ decl.alignment = some a.bytes ∧ natural ≤ a := by
  rw [recordAlignment]
  cases decl.alignment with
  | none => simp [eq_comm]
  | some bytes =>
    simp only [except_bind_eq_ok, checkAlignment_eq_ok_iff, reduceCtorEq, false_and, false_or,
      Option.some.injEq]
    constructor
    · rintro ⟨b, rfl, h⟩
      split at h
      · cases h
      · rename_i hle
        cases h
        exact ⟨rfl, Nat.le_of_not_lt hle⟩
    · rintro ⟨rfl, h⟩
      exact ⟨a, rfl, if_neg (Nat.not_lt.2 h)⟩

/-- A bit-field has a type that allows one and at least one bit, and no more than the type has. -/
theorem checkBits_eq_ok_iff {owner : Tag} {m : MemberDecl} {size : Nat} :
    checkBits owner m size = .ok () ↔
      ∀ bits, m.bits = some bits → m.type.allowsBitField = true ∧ 0 < bits ∧ bits ≤ 8 * size := by
  rw [checkBits]
  cases m.bits with
  | none => simp
  | some bits =>
    simp only [Option.some.injEq, forall_eq']
    split
    · rename_i htype
      simp only [Bool.or_eq_true, Bool.not_eq_true', decide_eq_true_eq] at htype
      refine iff_of_false (fun h => by cases h) fun h => ?_
      rcases htype with htype | rfl
      · rw [h.1] at htype
        cases htype
      · exact Nat.lt_irrefl 0 h.2.1
    · rename_i htype
      simp only [Bool.or_eq_true, Bool.not_eq_true', decide_eq_true_eq, not_or,
        Bool.not_eq_false] at htype
      split
      · rename_i hwide
        exact iff_of_false (fun h => by cases h) fun h => Nat.not_lt.2 h.2.2 hwide
      · rename_i hfits
        exact iff_of_true rfl ⟨htype.1, Nat.pos_of_ne_zero htype.2, Nat.le_of_not_lt hfits⟩

/-- A member is placed well if its offset is aligned, unless it was asked for, and it ends within
the record. -/
theorem MemberLayout.fault?_eq_none_iff {size : Nat} {m : MemberLayout} :
    m.fault? size = none ↔
      (m.fixed = true ∨ m.alignment.Aligned m.offset) ∧ m.offset + m.length ≤ size := by
  rw [fault?]
  split
  · rename_i h
    simp only [reduceCtorEq, false_iff]
    tauto
  · rename_i h
    have hplace : m.fixed = true ∨ m.alignment.Aligned m.offset := by tauto
    split
    · rename_i hsize
      rw [stop_span] at hsize
      simp only [reduceCtorEq, false_iff]
      omega
    · rename_i hsize
      rw [stop_span] at hsize
      exact ⟨fun _ => ⟨hplace, by omega⟩, fun _ => rfl⟩

/-- The final check: every member is placed well, and those of a struct are pairwise compatible. -/
theorem checkPlacement_eq_ok_iff {owner : Tag} {form : RecordForm} {size : Nat}
    {members : List MemberLayout} :
    checkPlacement owner form size members = .ok () ↔
      (∀ m ∈ members, m.fault? size = none) ∧
        (form = .struct → members.Pairwise MemberLayout.Compatible) := by
  unfold checkPlacement
  split
  · rename_i m fault hfault
    simp only [reduceCtorEq, false_iff, not_and]
    intro hnone
    obtain ⟨m', hm', hm⟩ := List.exists_of_findSome?_eq_some hfault
    simp [hnone m' hm'] at hm
  · rename_i hnone
    have hnone : ∀ m ∈ members, m.fault? size = none := by
      intro m hm
      simpa using List.findSome?_eq_none_iff.1 hnone m hm
    cases form with
    | union => simpa using hnone
    | struct =>
      simp only [← findOverlap?_eq_none_iff, forall_const]
      cases findOverlap? members with
      | none => exact ⟨fun _ => ⟨hnone, rfl⟩, fun _ => rfl⟩
      | some pair => exact ⟨nofun, fun h => nomatch h.2⟩

/-- What the check objects to: the place of a member, or two members of a struct that overlap. -/
theorem checkPlacement_eq_error {owner : Tag} {form : RecordForm} {size : Nat}
    {members : List MemberLayout} {e : LayoutError}
    (h : checkPlacement owner form size members = .error e) :
    (∃ m ∈ members, ∃ fault, m.fault? size = some fault ∧ e = .invalidMember owner m.name fault) ∨
      form = .struct ∧ ∃ a b, findOverlap? members = some (a, b) ∧
        e = .overlap owner a.name b.name := by
  unfold checkPlacement at h
  split at h
  · rename_i m fault hfirst
    cases h
    obtain ⟨p, hp, hfault⟩ := List.exists_of_findSome?_eq_some hfirst
    obtain ⟨_, hfault, hpair⟩ := Option.map_eq_some_iff.1 hfault
    cases hpair
    exact .inl ⟨m, hp, fault, hfault, rfl⟩
  · cases form with
    | union => cases h
    | struct =>
      dsimp only at h
      split at h
      · rename_i a b hoverlap
        cases h
        exact .inr ⟨rfl, a, b, hoverlap, rfl⟩
      · cases h

/-- The steps of putting a layout together, from its end. -/
theorem assemble_eq_ok {limit : SizeLimit} {order : BitOrder} {decl : RecordDecl}
    {members : List ResolvedMember} {l : Layout} (h : assemble limit order decl members = .ok l) :
    ∃ placed stop size alignment,
      placeMembers limit order decl members = .ok (placed, stop) ∧
      recordAlignment decl (Alignment.strictest (placed.map (·.alignment))) = .ok alignment ∧
      size = alignment.align stop ∧
      checkPlacement decl.tag decl.form size placed = .ok () ∧
      l = .ofMembers decl.tag decl.form placed size alignment := by
  simp only [assemble, except_bind_eq_ok, orOverflow_eq_ok_iff] at h
  obtain ⟨⟨placed, stop⟩, hplaced, alignment, halign, size, hsize, _, hcheck, h⟩ := h
  cases h
  exact ⟨placed, stop, size, alignment, hplaced, halign, Alignment.align?_eq_some hsize, hcheck,
    rfl⟩

/-- Whether the members are placed in sequence or overlaid, they are placed as they were resolved.
-/
theorem placeMembers_forall₂ {limit : SizeLimit} {order : BitOrder} {decl : RecordDecl}
    {members : List ResolvedMember} {placed : List MemberLayout} {stop : Nat}
    (hfit : ∀ m ∈ members, m.BitsFit)
    (h : placeMembers limit order decl members = .ok (placed, stop)) :
    List.Forall₂ PlacedAs members placed := by
  rw [placeMembers] at h
  split at h
  · exact placeInSequence_forall₂ hfit h
  · exact overlayMembers_forall₂ hfit h

/-- Lists that are related one by one agree in what related elements agree in. -/
theorem map_eq_map_of_forall₂ {α β γ : Type} {R : α → β → Prop} {f : α → γ} {g : β → γ}
    (hR : ∀ a b, R a b → f a = g b) {xs : List α} {ys : List β} (h : List.Forall₂ R xs ys) :
    xs.map f = ys.map g := by
  induction h with
  | nil => rfl
  | cons hab _ ih => rw [List.map_cons, List.map_cons, hR _ _ hab, ih]

theorem exists_mem_of_forall₂ {α β : Type} {R : α → β → Prop} {xs : List α} {ys : List β}
    (h : List.Forall₂ R xs ys) {y : β} (hy : y ∈ ys) : ∃ x ∈ xs, R x y := by
  induction h with
  | nil => cases hy
  | cons hab _ ih =>
    rcases List.mem_cons.1 hy with rfl | hy
    · exact ⟨_, List.mem_cons_self, hab⟩
    · obtain ⟨x, hx, hxy⟩ := ih hy
      exact ⟨x, List.mem_cons_of_mem _ hx, hxy⟩

theorem forall₂_trans {α β γ : Type} {R : α → β → Prop} {S : β → γ → Prop} {T : α → γ → Prop}
    (hT : ∀ a b c, R a b → S b c → T a c) {xs : List α} {ys : List β} {zs : List γ}
    (h : List.Forall₂ R xs ys) (h' : List.Forall₂ S ys zs) : List.Forall₂ T xs zs := by
  induction h generalizing zs with
  | nil => cases h'; exact .nil
  | cons hab _ ih =>
    cases h' with
    | cons hbc htail => exact .cons (hT _ _ _ hab hbc) (ih htail)

theorem forall₂_append_split {α β : Type} {R : α → β → Prop} {xs ys : List α} {zs : List β}
    (h : List.Forall₂ R (xs ++ ys) zs) :
    ∃ us vs, zs = us ++ vs ∧ List.Forall₂ R xs us ∧ List.Forall₂ R ys vs := by
  have hfirst := List.forall₂_take xs.length h
  have hrest := List.forall₂_drop xs.length h
  rw [List.take_left] at hfirst
  rw [List.drop_left] at hrest
  exact ⟨_, _, (List.take_append_drop _ _).symm, hfirst, hrest⟩

/-! ## Built layouts

`Builds` has the resolved members hidden behind an existential, and the layout mentions only the
placed ones.  The lemmas about `MemberOf` say what resolving a declaration checks of it; together
with `PlacedAs` they carry a fact about a declaration over to the member that it ends up as. -/

section Builds

variable {limit : SizeLimit} {Has : Tag → Layout → Prop} {config : Config} {decl : RecordDecl}
  {l : Layout}

/-- The width of a bit-field was checked against its type before it was placed. -/
theorem MemberOf.bitsFit {platform : Platform} {owner : Tag} {pack : Option Alignment}
    {decl : MemberDecl} {m : ResolvedMember} (h : MemberOf limit platform owner Has pack decl m) :
    m.BitsFit := by
  intro bits hbits
  rw [h.decl_eq] at hbits
  exact (checkBits_eq_ok_iff.1 h.bits bits hbits).2.2

section MembersOf

variable {platform : Platform} {owner : Tag} {pack : Option Alignment} {decls : List MemberDecl}
  {ms : List ResolvedMember}

theorem decls_of_membersOf (h : List.Forall₂ (MemberOf limit platform owner Has pack) decls ms) :
    ms.map (·.decl) = decls :=
  (map_eq_map_of_forall₂ (f := id) (fun _ _ hm => hm.decl_eq.symm) h).symm.trans (List.map_id _)

theorem membersOf_bitsFit (h : List.Forall₂ (MemberOf limit platform owner Has pack) decls ms) :
    ∀ m ∈ ms, m.BitsFit :=
  fun _ hm => (exists_mem_of_forall₂ h hm).elim fun _ h => h.2.bitsFit

end MembersOf

/-- Without a request of its own, a member has the alignment of its type under the pack. -/
theorem MemberOf.alignment_eq {platform : Platform} {owner : Tag} {pack : Option Alignment}
    {decl : MemberDecl} {m : ResolvedMember} (h : MemberOf limit platform owner Has pack decl m)
    (hfree : decl.alignment = none) : m.alignment = m.shape.alignment.packed pack := by
  rcases memberAlignment_eq_ok_iff.1 h.alignment with ⟨-, hnatural⟩ | ⟨hsome, -⟩
  · exact hnatural
  · exact nomatch hfree.symm.trans hsome

/-- **A placed bit-field lies in the word of its own type.**  That the type allows bits and that
there is a bit at all was checked when the member was resolved; that they lie in the word comes from
placing. -/
theorem MemberOf.bitsInWord {platform : Platform} {owner : Tag} {pack : Option Alignment}
    {decl : MemberDecl} {m : ResolvedMember} {p : MemberLayout}
    (h : MemberOf limit platform owner Has pack decl m) (hp : PlacedAs m p) : p.BitsInWord := by
  intro r hr
  have hbits : decl.bits = some r.width := by rw [← h.decl_eq, ← hp.bits, hr]; rfl
  obtain ⟨htype, hpos, -⟩ := checkBits_eq_ok_iff.1 h.bits _ hbits
  have hshape := h.shape
  cases htyped : decl.type with
  | arith a =>
    rw [htyped] at htype hshape
    cases hshape with
    | arith hscalar =>
      obtain ⟨alignment, hshape⟩ := scalarShape_eq_ok hscalar
      refine ⟨a, _, alignment, hp.shape.trans hshape, htype, hpos, ?_⟩
      have hfits := hp.fits r hr
      rwa [ResolvedMember.size, hshape] at hfits
  | _ => rw [htyped] at htype; cases htype

/-- The members of a layout that builds: what they are placed from, and what was checked. -/
theorem Builds.exists_members (h : Builds limit Has config decl l) :
    l.tag = decl.tag ∧ l.form = decl.form ∧ l.serial = 0 ∧
      ∃ pack members, List.Forall₂ (MemberOf limit config.platform decl.tag Has pack)
          decl.members members ∧
        List.Forall₂ PlacedAs members l.members ∧ UsableNames [] decl.members ∧
        checkPlacement decl.tag decl.form l.size l.members = .ok () := by
  obtain ⟨pack, members, -, hnames, hmembers, hassemble⟩ := h
  obtain ⟨placed, stop, size, alignment, hplaced, -, -, hcheck, rfl⟩ := assemble_eq_ok hassemble
  have hforall := placeMembers_forall₂ (membersOf_bitsFit hmembers) hplaced
  exact ⟨rfl, rfl, rfl, pack, members, hmembers, hforall, hnames, hcheck⟩

/-- The steps of laying out a declaration, from its end. -/
theorem Builds.exists_placed (h : Builds limit Has config decl l) :
    ∃ pack members stop, effectivePack config decl = .ok pack ∧
      List.Forall₂ (MemberOf limit config.platform decl.tag Has pack) decl.members members ∧
      placeMembers limit config.bitOrder decl members = .ok (l.members, stop) ∧
      l.members.map (·.length) = members.map (·.size) ∧
      l.members.map (·.alignment) = members.map (·.alignment) ∧
      recordAlignment decl (Alignment.strictest (members.map (·.alignment))) = .ok l.alignment ∧
      l.size = l.alignment.align stop := by
  obtain ⟨pack, members, hpack, -, hmembers, hassemble⟩ := h
  obtain ⟨placed, stop, size, alignment, hplaced, halignment, hsize, -, rfl⟩ :=
    assemble_eq_ok hassemble
  have hforall := placeMembers_forall₂ (membersOf_bitsFit hmembers) hplaced
  have halignments : placed.map (·.alignment) = members.map (·.alignment) :=
    (map_eq_map_of_forall₂ (fun _ _ hp => hp.alignment.symm) hforall).symm
  have hlengths : placed.map (·.length) = members.map (·.size) :=
    (map_eq_map_of_forall₂ (fun _ _ hp => congrArg Shape.size hp.shape.symm) hforall).symm
  rw [halignments] at halignment
  exact ⟨pack, members, stop, hpack, hmembers, hplaced, hlengths, halignments, halignment, hsize⟩

/-- The members have the names of the declaration, in its order. -/
theorem Builds.names_eq (h : Builds limit Has config decl l) :
    l.members.map (·.name) = decl.members.map (·.name) := by
  obtain ⟨-, -, -, pack, members, hmembers, hplaced, -, -⟩ := h.exists_members
  have hdecl : decl.members.map (·.name) = members.map (·.decl.name) :=
    map_eq_map_of_forall₂ (fun d m hm => by rw [hm.decl_eq]) hmembers
  have hname : members.map (·.decl.name) = l.members.map (·.name) :=
    map_eq_map_of_forall₂ (fun m p hp => hp.name.symm) hplaced
  rw [hdecl, hname]

/-- **The members of a layout that builds are well placed,** whatever is known of the layouts
inside. -/
theorem Builds.wellPlaced (h : Builds limit Has config decl l) : l.WellPlaced := by
  have hnames_eq := h.names_eq
  obtain ⟨-, hform, -, pack, members, hmembers, hplaced, hnames, hcheck⟩ := h.exists_members
  obtain ⟨hfault, hapart⟩ := checkPlacement_eq_ok_iff.1 hcheck
  refine ⟨hnames_eq ▸ hnames.2,
    fun m hm => (MemberLayout.fault?_eq_none_iff.1 (hfault m hm)).2, ?_, hform ▸ hapart⟩
  intro p hp
  obtain ⟨m, hm, hmp⟩ := exists_mem_of_forall₂ hplaced hp
  obtain ⟨d, -, hd⟩ := exists_mem_of_forall₂ hmembers hm
  exact hd.bitsInWord hmp

/-- A type that is a scalar has that scalar for its shape. -/
theorem ShapeOf.scalar_of_type {platform : Platform} {owner : Tag} {name : String} {type : CType}
    {shape : Shape} (h : ShapeOf limit platform owner Has name type shape) {s : Scalar}
    (hs : type.scalar? = some s) : ∃ alignment, shape = .scalar s (s.size platform) alignment := by
  cases h with
  | arith h | pointer h => cases hs; exact scalarShape_eq_ok h
  | record | array => cases hs

/-- A member of a scalar type is that scalar, of the platform's size. -/
theorem Builds.scalar_of_type (h : Builds limit Has config decl l) {p : MemberLayout}
    (hp : p ∈ l.members) {s : Scalar} (hs : p.type.scalar? = some s) :
    ∃ alignment, p.shape = .scalar s (s.size config.platform) alignment := by
  obtain ⟨-, -, -, pack, members, hmembers, hplaced, -, -⟩ := h.exists_members
  obtain ⟨m, hm, hmp⟩ := exists_mem_of_forall₂ hplaced hp
  obtain ⟨d, -, hd⟩ := exists_mem_of_forall₂ hmembers hm
  rw [hmp.type, hd.decl_eq] at hs
  rw [hmp.shape]
  exact hd.shape.scalar_of_type hs

/-- One level of soundness: a layout that builds is sound if what it embeds is. -/
theorem Builds.sound (husable : config.platform.Usable)
    (hhas : ∀ tag inner, Has tag inner → inner.Sound config.platform)
    (h : Builds limit Has config decl l) : l.Sound config.platform := by
  obtain ⟨-, -, -, pack, members, hmembers, hplaced, -, -⟩ := h.exists_members
  refine Layout.sound_iff.2 ⟨h.wellPlaced, fun p hp => ?_⟩
  obtain ⟨m, hm, hmp⟩ := exists_mem_of_forall₂ hplaced hp
  obtain ⟨d, -, hd⟩ := exists_mem_of_forall₂ hmembers hm
  rw [hmp.shape]
  exact hd.shape.sound husable hhas

end Builds

theorem Layout.WellPlaced.renumber {l : Layout} (h : l.WellPlaced) (serial : Nat) :
    { l with serial := serial }.WellPlaced := ⟨h.names, h.within, h.bits, h.apart⟩

/-- Whatever the platform, the members of built layouts are well placed. -/
theorem Built.wellPlaced {config : Config} {l : Layout} (h : Built config l) : l.WellPlaced := by
  cases h with
  | intro nested run serial => exact (builds_of_run nested run).wellPlaced.renumber serial

theorem Built.scalar_of_type {config : Config} {l : Layout} (h : Built config l) {m : MemberLayout}
    (hm : m ∈ l.members) {s : Scalar} (hs : m.type.scalar? = some s) :
    ∃ alignment, m.shape = .scalar s (s.size config.platform) alignment := by
  cases h with
  | intro nested run serial => exact (builds_of_run nested run).scalar_of_type hm hs

/-- **Built layouts are sound,** at every depth. -/
theorem Built.sound {config : Config} {l : Layout} (husable : config.platform.Usable)
    (h : Built config l) : l.Sound config.platform := by
  induction h with
  | intro _ run serial ih =>
    -- The induction hypothesis speaks of all answers of the resolver, which is what `ShapeOf` was
    -- told.
    have hbuilds := builds_of_run ih run
    obtain ⟨hplaced, hmembers⟩ := Layout.sound_iff.1 (hbuilds.sound husable fun _ _ h => h)
    exact Layout.sound_iff.2 ⟨hplaced.renumber serial, hmembers⟩

end NativeRecord
