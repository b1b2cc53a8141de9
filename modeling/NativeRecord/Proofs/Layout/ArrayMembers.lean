import NativeRecord.Proofs.Layout.Arrangement
import NativeRecord.Proofs.Layout.Coverage
import NativeRecord.Proofs.Layout.Unrolling

/-!
# Arrays are laid out like their elements in a row

An array among the members of a struct may be written out, as one member for each of its elements.
The struct is laid out as before, unless it was the name of the array that it was refused for: the
names of the elements are others.

The two declarations are resolved to members that differ in one place, and what placing makes of
such members is known (`ResolvedMember.Unrolls`).  It needs the size of the element to be a multiple
of its alignment, so that one element ends where the next one may start.  For scalars this holds of
the platform, and for records by the rounding of their size.

What is left is to go from a layout of the one declaration to one of the other, in both directions.
The element is asked for once for an array and once for each member of a row, so the resolver has to
answer always alike for the two to be compared.  Given this, it may be replaced by a function, and
everything is said of `build?`.

## What is here

* `ArrayMember` — an array among the members of a struct that asks for nothing;
  `RecordDecl.unrolled` — the struct with members for its elements; `NewNames` — names for these.
* `ShapeOf.size_dvd` — the size of a type is a multiple of its alignment, whatever it is built from.
* `Builds.unroll`, `Builds.reroll` — a layout of the one declaration is a layout of the other.
* `builds_iff_unrolled_builds` — building the one and building the other.
-/

set_option autoImplicit false
namespace NativeRecord

/-! ## The two declarations

Names are the one thing in which the two differ for good: the array has one of its own, and so has
each of the members of the row. -/

/-- A struct with an array of at least one element between other members, which asks for nothing. -/
structure ArrayMember (d : RecordDecl) (before : List MemberDecl) (name : String) (element : CType)
    (length : Nat) (after : List MemberDecl) : Prop where
  form : d.form = .struct
  members : d.members = before ++ { name := name, type := .array element length } :: after
  nonempty : 1 ≤ length

/-- The struct with members of the element's type between the others. -/
def RecordDecl.unrolled (d : RecordDecl) (before : List MemberDecl) (names : List String)
    (element : CType) (after : List MemberDecl) : RecordDecl :=
  { d with
    members := before ++ (names.map (fun name => { name := name, type := element }) ++ after) }

/-- Names that members may have beside others. -/
structure NewNames (around : List MemberDecl) (names : List String) : Prop where
  usable : ∀ name ∈ names, name ≠ "" ∧ ∀ m ∈ around, m.name ≠ name
  distinct : names.Nodup

/-- Members have usable names if some of them have, and the others have new ones. -/
theorem usableNames_between_iff {before middle after : List MemberDecl} :
    UsableNames [] (before ++ (middle ++ after)) ↔
      NewNames (before ++ after) (middle.map (·.name)) ∧ UsableNames [] (before ++ after) := by
  have hperm : (before ++ (middle ++ after)).Perm (middle ++ (before ++ after)) :=
    List.perm_append_comm_assoc before middle after
  have hfront : UsableNames [] (before ++ (middle ++ after)) ↔
      UsableNames [] (middle ++ (before ++ after)) := by
    rw [UsableNames, UsableNames, (hperm.map _).nodup_iff]
    simp only [hperm.mem_iff]
  rw [hfront]
  generalize before ++ after = around
  simp only [UsableNames, List.forall_mem_append, List.map_append, List.nodup_append,
    List.not_mem_nil, not_false_eq_true, and_true]
  constructor
  · rintro ⟨⟨hmiddle, haround⟩, hdistinct, hnodup, hapart⟩
    refine ⟨⟨List.forall_mem_map.2 fun d hd => ⟨hmiddle d hd, fun m hm hname => ?_⟩, hdistinct⟩,
      haround, hnodup⟩
    exact hapart _ (List.mem_map_of_mem hd) _ (List.mem_map_of_mem hm) hname.symm
  · rintro ⟨⟨husable, hdistinct⟩, haround, hnodup⟩
    refine ⟨⟨fun d hd => (husable _ (List.mem_map_of_mem hd)).1, haround⟩, hdistinct, hnodup, ?_⟩
    intro x hx y hy hxy
    obtain ⟨m, hm, rfl⟩ := List.mem_map.1 hy
    exact (husable x hx).2 m hm hxy.symm

/-! ## Resolving

Members that ask for nothing are given by their shape and their name alone, so a row of them is a
`map` over the names. -/

section Resolve

variable {limit : SizeLimit} {platform : Platform} {owner : Tag} {Has : Tag → Layout → Prop}

/-- The shape of a type does not depend on the name of the member. -/
theorem ShapeOf.rename {name : String} {type : CType} {shape : Shape}
    (h : ShapeOf limit platform owner Has name type shape) (name' : String) :
    ShapeOf limit platform owner Has name' type shape := by
  have hscalar {s : Scalar} {shape : Shape} (h : scalarShape platform owner name s = .ok shape) :
      scalarShape platform owner name' s = .ok shape := by
    simp only [scalarShape] at h ⊢
    split at h
    · exact h
    · cases h
  induction h with
  | arith h => exact .arith (hscalar h)
  | pointer h => exact .pointer (hscalar h)
  | record h => exact .record h
  | array _ hsize ih => exact .array ih hsize

/-- A type has one shape if each embedded record has one layout. -/
theorem ShapeOf.unique (hhas : ∀ tag l l', Has tag l → Has tag l' → l = l') {name : String}
    {type : CType} {shape shape' : Shape} (h : ShapeOf limit platform owner Has name type shape)
    (h' : ShapeOf limit platform owner Has name type shape') : shape = shape' := by
  induction h generalizing shape' with
  | arith h => cases h' with | arith h' => exact Except.ok.inj (h.symm.trans h')
  | pointer h => cases h' with | pointer h' => exact Except.ok.inj (h.symm.trans h')
  | record h => cases h' with | record h' => exact congrArg Shape.record (hhas _ _ _ h h')
  | array _ _ ih => cases h' with | array h' => exact congrArg (Shape.array · _) (ih h')

/-- **The size of a type is a multiple of its alignment.** -/
theorem ShapeOf.size_dvd (husable : platform.Usable)
    (hhas : ∀ tag l, Has tag l → l.alignment.bytes ∣ l.size) {name : String} {type : CType}
    {shape : Shape} (h : ShapeOf limit platform owner Has name type shape) :
    shape.alignment.bytes ∣ shape.size := by
  induction h with
  | arith h | pointer h => exact (natural_of_scalarShape (husable.accessWidth _) h).2
  | record h => exact hhas _ _ h
  | array _ _ ih => exact Nat.dvd_mul_right_of_dvd ih _

/-- The member of a type that asks for nothing, under a pack. -/
def ResolvedMember.natural (pack : Option Alignment) (type : CType) (shape : Shape)
    (name : String) : ResolvedMember :=
  ⟨{ name := name, type := type }, shape, shape.alignment.packed pack⟩

/-- A member that asks for nothing is resolved to the natural one of its shape. -/
theorem memberOf_natural_iff {pack : Option Alignment} {name : String} {type : CType}
    {m : ResolvedMember} :
    MemberOf limit platform owner Has pack { name := name, type := type } m ↔
      ∃ shape, ShapeOf limit platform owner Has name type shape ∧
        m = .natural pack type shape name := by
  constructor
  · intro h
    refine ⟨m.shape, h.shape, ?_⟩
    have halignment := h.alignment_eq rfl
    have hdecl := h.decl_eq
    obtain ⟨decl, shape, alignment⟩ := m
    cases hdecl
    exact congrArg (ResolvedMember.mk _ shape) halignment
  · rintro ⟨shape, hshape, rfl⟩
    exact ⟨rfl, hshape, rfl, rfl⟩

/-- The members of a row have one shape if each embedded record has one layout. -/
theorem exists_shape_of_row (hhas : ∀ tag l l', Has tag l → Has tag l' → l = l')
    {pack : Option Alignment} {element : CType} {names : List String} (hne : names ≠ [])
    {es : List ResolvedMember}
    (h : List.Forall₂ (MemberOf limit platform owner Has pack)
      (names.map fun name => { name := name, type := element }) es) :
    ∃ shape, (∀ name, ShapeOf limit platform owner Has name element shape) ∧
      es = names.map (.natural pack element shape) := by
  rw [List.forall₂_map_left_iff] at h
  obtain ⟨first, rest, rfl⟩ := List.exists_cons_of_ne_nil hne
  obtain ⟨e, es, hfirst, hrest, rfl⟩ := List.forall₂_cons_left_iff.1 h
  obtain ⟨shape, hshape, rfl⟩ := memberOf_natural_iff.1 hfirst
  have hall : List.Forall₂ (fun name m => m = .natural pack element shape name) rest es := by
    refine hrest.imp fun name m hm => ?_
    obtain ⟨shape', hshape', rfl⟩ := memberOf_natural_iff.1 hm
    rw [hshape'.unique hhas (hshape.rename name)]
  refine ⟨shape, hshape.rename, congrArg (List.cons _) ?_⟩
  exact ((map_eq_map_of_forall₂ (fun _ _ hm => hm.symm) hall).trans (List.map_id _)).symm

/-- An array and a row of its elements, resolved under one pack. -/
theorem ResolvedMember.unrolls_natural {pack : Option Alignment} {element : CType} {shape : Shape}
    (hdvd : shape.alignment.bytes ∣ shape.size) (name : String) {names : List String}
    (hne : names ≠ []) :
    (natural pack (.array element names.length) (.array shape names.length) name).Unrolls shape
      (names.map (natural pack element shape)) where
  plain := ⟨rfl, rfl, rfl⟩
  shape := by
    rw [List.length_map]
    rfl
  stride := Nat.dvd_trans (Alignment.bytes_dvd_bytes (Alignment.packed_le_self _ pack)) hdvd
  nonempty := by
    rw [Ne, List.map_eq_nil_iff]
    exact hne
  elements := List.forall_mem_map.2 fun _ _ => ⟨⟨rfl, rfl, rfl⟩, rfl, rfl⟩

end Resolve

/-! ## Building

In both directions the members around the array are resolved as they were, and those in its place
are made from the shape that is already known. -/

/-- The size of a built layout is rounded up to its alignment. -/
theorem Built.size_dvd {config : Config} {l : Layout} (h : Built config l) :
    l.alignment.bytes ∣ l.size := by
  cases h with
  | intro _ run => exact (build_arranged run).size_dvd

section Builds

variable {config : Config} {answer : Tag → Except LayoutError Layout} {d : RecordDecl}
  {before after : List MemberDecl} {name : String} {element : CType} {names : List String}
  {l l' : Layout}

/-- The members of the two structs, resolved under one pack, are put together alike. -/
theorem assemble_natural_unrolls (hvalid : config.validate = .ok ())
    (hbuilt : ∀ tag l, answer tag = .ok l → Built config l)
    (harray : ArrayMember d before name element names.length after) {shape : Shape}
    (hshape : ShapeOf .word64 config.platform d.tag (fun tag l => answer tag = .ok l) name element
      shape) (pack : Option Alignment) (bs as : List ResolvedMember) :
    Outcomes (fun _ _ => True)
      (fun l l' => SizeLimit.word64.Admits (shape.size * names.length) ∧
        l.Unrolled l' bs.length names.length)
      (assemble .word64 config.bitOrder d
        (bs ++ .natural pack (.array element names.length) (.array shape names.length) name :: as))
      (assemble .word64 config.bitOrder (d.unrolled before names element after)
        (bs ++ (names.map (.natural pack element shape) ++ as))) := by
  have hdvd := hshape.size_dvd (Config.usable_of_validate hvalid) fun tag l hl =>
    (hbuilt tag l hl).size_dvd
  have hsurveyed := hshape.surveyed fun tag l hl => (hbuilt tag l hl).constructed.surveyed
  have hunrolls : (ResolvedMember.natural pack (.array element names.length)
      (.array shape names.length) name).Unrolls shape _ :=
    ResolvedMember.unrolls_natural hdvd name (List.length_pos_iff.1 harray.nonempty)
  have hassemble : Outcomes _ _ (assemble .word64 config.bitOrder d _) _ :=
    assemble_unrolls hunrolls hsurveyed harray.form
      (d.unrolled before names element after).members bs as
  rwa [List.length_map] at hassemble

/-- **A struct that is laid out with an array is laid out with a row in its place.** -/
theorem build?_unroll (hvalid : config.validate = .ok ())
    (hbuilt : ∀ tag l, answer tag = .ok l → Built config l)
    (harray : ArrayMember d before name element names.length after)
    (hnew : NewNames (before ++ after) names) (h : build? config answer d = .ok l) :
    NewNames (before ++ after) [name] ∧
      ∃ l', build? config answer (d.unrolled before names element after) = .ok l' ∧
        l.Unrolled l' before.length names.length := by
  obtain ⟨pack, ms, hpack, hnames, hms, hl⟩ := build?_eq_ok_iff.1 h
  rw [harray.members] at hnames hms
  have hnames : UsableNames [] (before ++ ([_] ++ after)) := hnames
  obtain ⟨hname, hothers⟩ := usableNames_between_iff.1 hnames
  obtain ⟨bs, _, rfl, hbs, hms⟩ := forall₂_append_split hms
  obtain ⟨a, as, ha, has, rfl⟩ := List.forall₂_cons_left_iff.1 hms
  obtain ⟨_, harrayShape, rfl⟩ := memberOf_natural_iff.1 ha
  cases harrayShape with
  | @array _ _ shape hshape hsize =>
    obtain ⟨l', hl', -, hunrolled⟩ :=
      (assemble_natural_unrolls hvalid hbuilt harray hshape pack bs as).exists_right hl
    have hes : List.Forall₂ (MemberOf .word64 config.platform d.tag
        (fun tag l => answer tag = .ok l) pack)
        (names.map fun name => { name := name, type := element })
        (names.map (.natural pack element shape)) := by
      rw [List.forall₂_map_left_iff, List.forall₂_map_right_iff, List.forall₂_same]
      exact fun name _ => memberOf_natural_iff.2 ⟨shape, hshape.rename name, rfl⟩
    have hnames' : UsableNames [] (d.unrolled before names element after).members := by
      refine usableNames_between_iff.2 ⟨?_, hothers⟩
      rw [List.map_map]
      exact (List.map_id names).symm ▸ hnew
    rw [← hbs.length_eq] at hunrolled
    exact ⟨hname, l', build?_eq_ok_iff.2 ⟨pack, _, hpack, hnames',
      List.rel_append hbs (List.rel_append hes has), hl'⟩, hunrolled⟩

/-- **A struct that is laid out with a row is laid out with an array in its place,** if that has a
name for it. -/
theorem build?_reroll (hvalid : config.validate = .ok ())
    (hbuilt : ∀ tag l, answer tag = .ok l → Built config l)
    (harray : ArrayMember d before name element names.length after)
    (hname : NewNames (before ++ after) [name])
    (h : build? config answer (d.unrolled before names element after) = .ok l') :
    ∃ l, build? config answer d = .ok l := by
  obtain ⟨pack, ms, hpack, hnames, hms, hl'⟩ := build?_eq_ok_iff.1 h
  obtain ⟨-, hothers⟩ := usableNames_between_iff.1 hnames
  obtain ⟨bs, _, rfl, hbs, hms⟩ := forall₂_append_split hms
  obtain ⟨es, as, rfl, hes, has⟩ := forall₂_append_split hms
  obtain ⟨shape, hshape, rfl⟩ := exists_shape_of_row
    (fun tag l l' hl hl' => Except.ok.inj (hl.symm.trans hl'))
    (List.length_pos_iff.1 harray.nonempty) hes
  obtain ⟨l, hl, hsize, -⟩ :=
    (assemble_natural_unrolls hvalid hbuilt harray (hshape name) pack bs as).exists_left hl'
  have ha : MemberOf .word64 config.platform d.tag (fun tag l => answer tag = .ok l) pack _ _ :=
    memberOf_natural_iff.2 ⟨_, .array (hshape name) hsize, rfl⟩
  refine ⟨l, build?_eq_ok_iff.2 ⟨pack, _, hpack, ?_, ?_, hl⟩⟩
  · rw [harray.members]
    have hbetween : UsableNames []
        (before ++ ([{ name := name, type := .array element names.length }] ++ after)) :=
      usableNames_between_iff.2 ⟨hname, hothers⟩
    exact hbetween
  · rw [harray.members]
    exact List.rel_append hbs (.cons ha has)

end Builds

theorem MemberLayout.keepsSlot_mapRecords {φ : Layout → Layout} (hφ : Layout.Agrees φ) :
    KeepsSlot (·.mapRecords φ) where
  toKeepsPlace := (Replacement.records hφ).keepsPlace_placed
  bits _ := rfl
  elementSize m := by
    rw [elementSize, elementSize, MemberLayout.mapRecords]
    cases m.shape with
    | array element length => exact element.size_mapRecords hφ
    | scalar | record => exact Shape.size_mapRecords hφ _

/-- **An array is laid out like as many members of its element's type in a row.**  The resolver may
have a state, but answers a question always alike, up to what an embedding layout does not look at,
and with built layouts.  The struct with the array builds exactly when the one with the row does,
except that the array's own name must be usable; if they build, all other members lie at the same
places, and the members of the row at those of the elements. -/
theorem builds_iff_unrolled_builds {σ : Type} {config : Config} (hvalid : config.validate = .ok ())
    {Inv : σ → Prop} {resolve : Resolver (StateM σ)} {φ : Layout → Layout} (hφ : Layout.Agrees φ)
    {answer : Tag → Except LayoutError Layout}
    (hanswers : ∀ tag, Follows Inv φ (resolve tag) (liftM (answer tag)))
    (hbuilt : ∀ tag l, answer tag = .ok l → Built config l)
    {d : RecordDecl} {before after : List MemberDecl} {name : String} {element : CType}
    {length : Nat} (harray : ArrayMember d before name element length after) {names : List String}
    (hlength : names.length = length) (hnew : NewNames (before ++ after) names) {s s' : σ}
    (hs : Inv s) (hs' : Inv s') :
    let whole := ((build .word64 config resolve d).run s).1
    let row := ((build .word64 config resolve (d.unrolled before names element after)).run s').1
    ((∃ l, whole = .ok l) ↔ NewNames (before ++ after) [name] ∧ ∃ l', row = .ok l') ∧
      ∀ l l', whole = .ok l → row = .ok l' → l.Unrolled l' before.length length := by
  intro whole row
  subst hlength
  have hwhole : whole.map (·.mapRecords φ) = build? config answer d :=
    (build_follows hφ hanswers config d s hs).1
  have hrow : row.map (·.mapRecords φ) = build? config answer _ :=
    (build_follows hφ hanswers config _ s' hs').1
  have hunroll {l : Layout} (hl : whole = .ok l) :
      NewNames (before ++ after) [name] ∧ ∃ l', row = .ok l' ∧
        (l.mapRecords φ).Unrolled (l'.mapRecords φ) before.length names.length := by
    rw [hl] at hwhole
    obtain ⟨hname, _, hbuild, hunrolled⟩ := build?_unroll hvalid hbuilt harray hnew hwhole.symm
    obtain ⟨l', hl', rfl⟩ := except_map_eq_ok_iff.1 (hrow.trans hbuild)
    exact ⟨hname, l', hl', hunrolled⟩
  refine ⟨⟨?_, ?_⟩, ?_⟩
  · rintro ⟨l, hl⟩
    obtain ⟨hname, l', hl', -⟩ := hunroll hl
    exact ⟨hname, l', hl'⟩
  · rintro ⟨hname, l', hl'⟩
    rw [hl'] at hrow
    obtain ⟨_, hbuild⟩ := build?_reroll hvalid hbuilt harray hname hrow.symm
    obtain ⟨l, hl, -⟩ := except_map_eq_ok_iff.1 (hwhole.trans hbuild)
    exact ⟨l, hl⟩
  · intro l l' hl hl'
    obtain ⟨-, _, hrow', hunrolled⟩ := hunroll hl
    cases hl'.symm.trans hrow'
    exact .of_mapMembers (MemberLayout.keepsSlot_mapRecords hφ)
      (MemberLayout.keepsSlot_mapRecords hφ) hunrolled

/-! ## Records in a row -/

/-- The row of two records with a gap, written out. -/
theorem builds_iff_unrolled_builds_gappedRow :
    let after := gappedRow.members.drop 1
    let unrolled := gappedRow.unrolled [] ["first", "second"] (.record ⟨"gapped"⟩) after
    let answer : Tag → Except LayoutError Layout := fun _ => .ok gappedLayout
    let resolve : Resolver (StateM Unit) := fun tag => liftM (answer tag)
    ArrayMember gappedRow [] "items" (.record ⟨"gapped"⟩) 2 after ∧
      NewNames ([] ++ after) ["first", "second"] ∧ NewNames ([] ++ after) ["items"] ∧
      ((build .word64 .standard resolve gappedRow).run ()).1 = .ok gappedRowLayout ∧
      ∃ l', ((build .word64 .standard resolve unrolled).run ()).1 = .ok l' ∧
        gappedRowLayout.Unrolled l' 0 2 := by
  intro after unrolled answer resolve
  have harray : ArrayMember gappedRow [] "items" (.record ⟨"gapped"⟩) 2 after :=
    ⟨rfl, rfl, by decide⟩
  have hnew : NewNames ([] ++ after) ["first", "second"] := ⟨by decide, by decide⟩
  have hanswers : ∀ tag, Follows (fun _ => True) id (resolve tag) (liftM (answer tag)) :=
    fun _ => .lift rfl
  have hbuilt : ∀ tag l, answer tag = .ok l → Built .standard l :=
    fun _ _ h => by cases h; exact built_gapped
  have hrun : ((build .word64 .standard resolve gappedRow).run ()).1 = .ok gappedRowLayout := rfl
  have hboth : ((∃ l, ((build .word64 .standard resolve gappedRow).run ()).1 = .ok l) ↔
      _ ∧ ∃ l', ((build .word64 .standard resolve unrolled).run ()).1 = .ok l') ∧ _ :=
    builds_iff_unrolled_builds rfl Layout.agrees_id hanswers hbuilt harray rfl hnew trivial trivial
  obtain ⟨hname, l', hl'⟩ := hboth.1.1 ⟨_, hrun⟩
  exact ⟨harray, hnew, hname, hrun, l', hl', hboth.2 _ _ hrun hl'⟩

/-- Two bytes without a name. -/
def unnamedBytes : RecordDecl where
  tag := ⟨"r"⟩
  members := [{ name := "", type := .array (.arith (.unsigned .w8)) 2 }]

/-- Two records. -/
def gappedPair : RecordDecl where
  tag := ⟨"pair"⟩
  members := [{ name := "items", type := .array (.record ⟨"gapped"⟩) 2 }]

/-- Answers with one built layout when it is asked first, and with another one from then on. -/
def fickle : Resolver (StateM Bool) := fun _ => do
  let asked ← get
  set true
  return if asked then gappedRowLayout else gappedLayout

theorem built_fickle (tag : Tag) (asked : Bool) (l : Layout) (t : Bool)
    (h : (fickle tag).run asked = (.ok l, t)) : Built .standard l := by
  cases asked with
  | false => cases h; exact built_gapped
  | true => cases h; exact built_gappedRow

/-- **An array and a row may differ in what they are called and in what they are told.**  The array
is refused for its own name, which is none of the row's.  And the array asks for its element once
where the row asks for each: told something else the second time, it takes fourteen bytes instead of
eight. -/
theorem unnamedBytes_refused_fickle_differs :
    let noAnswer : Tag → Except LayoutError Layout := fun tag => .error (.unknownTag tag)
    (ArrayMember unnamedBytes [] "" (.arith (.unsigned .w8)) 2 [] ∧ NewNames [] ["a0", "a1"] ∧
      build? .standard noAnswer unnamedBytes = .error (.invalidMember ⟨"r"⟩ "" .unusableName) ∧
      ∃ l', build? .standard noAnswer (unnamedBytes.unrolled [] ["a0", "a1"]
        (.arith (.unsigned .w8)) []) = .ok l' ∧ l'.size = 2) ∧
    ArrayMember gappedPair [] "items" (.record ⟨"gapped"⟩) 2 [] ∧
      (∀ tag asked l t, (fickle tag).run asked = (.ok l, t) → Built .standard l) ∧
      ∃ l l', ((build .word64 .standard fickle gappedPair).run false).1 = .ok l ∧
        ((build .word64 .standard fickle (gappedPair.unrolled [] ["a0", "a1"]
          (.record ⟨"gapped"⟩) [])).run false).1 = .ok l' ∧ l.size = 8 ∧ l'.size = 14 :=
  ⟨⟨⟨rfl, rfl, by decide⟩, ⟨by decide, by decide⟩, rfl, _, rfl, rfl⟩, ⟨rfl, rfl, by decide⟩,
    built_fickle, _, _, rfl, rfl, rfl, rfl⟩

end NativeRecord
