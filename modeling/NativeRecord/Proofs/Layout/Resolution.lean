import Mathlib.Data.List.Forall2
import NativeRecord.Proofs.Layout.Failures
import NativeRecord.Proofs.Layout.Replacement
import NativeRecord.Proofs.Run

/-!
# What building a layout comes to

`build` asks for the layouts of embedded records while it resolves the members, in a monad in which
asking may change the state and may be answered differently each time.  Its answer depends on what
it was told and on nothing else.

So there are two descriptions.  The relations `ShapeOf`, `MemberOf` and `Builds` say what a
declaration comes to, given which layouts the embedded records have; they mention no state and no
order.  The function asks on the way.  `build_ensures` leads from the function to the relation: what
a run answers with is described by the relation with what is known in the end, as nothing that is
known is forgotten.  Most theorems about layouts need only this direction, and go by
`builds_of_run`.

The other kind of theorem compares two runs — a resolver with a state beside one without, one depth
of recursion beside another, declarations in which something was replaced.  `build_relates` is one
theorem for all of these: in whatever way runs are compared (`Comparison`), if the answers for
embedded records compare, so do the builds, up to a replacement.  It goes through the code of the
builder once.

## What is here

* `ShapeOf`, `MemberOf` — resolution as relations, over what is known about embedded records.
* `Builds` — a declaration has a layout, given such knowledge.
* `resolveDecl` — the first half of `build`; `MembersOf` — what it answers with.
* `build_ensures` — what a run of `build` does to the state, and that its answer is one that
  `Builds` describes.
* `CType.Embeds`, `RecordDecl.Embeds` — the records that a declaration needs to be laid out.
* `build_relates` — resolvers that answer these alike give builds that come to the same.
* `build?_eq_ok_iff` — with a pure resolver, `Builds` is all there is;
  `exists_of_build?_eq_error` — what it fails for.
-/

set_option autoImplicit false
namespace NativeRecord

section Relations

variable (limit : SizeLimit) (platform : Platform) (owner : Tag) (Has : Tag → Layout → Prop)

/-- The shape of a member's type, where records have one of the layouts that they are known to
have. -/
inductive ShapeOf (name : String) : CType → Shape → Prop
  | arith {a : Arith} {shape : Shape} (h : scalarShape platform owner name (.arith a) = .ok shape) :
      ShapeOf name (.arith a) shape
  | pointer {target : CType} {shape : Shape}
      (h : scalarShape platform owner name (.pointer target) = .ok shape) :
      ShapeOf name (.pointer target) shape
  | record {tag : Tag} {layout : Layout} (h : Has tag layout) :
      ShapeOf name (.record tag) (.record layout)
  | array {element : CType} {length : Nat} {shape : Shape} (h : ShapeOf name element shape)
      (hsize : limit.Admits (shape.size * length)) :
      ShapeOf name (.array element length) (.array shape length)

/-- A member that passes its checks, resolved. -/
structure MemberOf (pack : Option Alignment) (decl : MemberDecl) (m : ResolvedMember) : Prop where
  decl_eq : m.decl = decl
  shape : ShapeOf limit platform owner Has decl.name decl.type m.shape
  bits : checkBits owner decl m.shape.size = .ok ()
  alignment : memberAlignment owner decl pack m.shape.alignment = .ok m.alignment

/-- Names that are not empty, and neither repeated nor among the `seen` ones. -/
def UsableNames (seen : List String) (decls : List MemberDecl) : Prop :=
  (∀ d ∈ decls, d.name ≠ "" ∧ d.name ∉ seen) ∧ (decls.map (·.name)).Nodup

/-- **A declaration has a layout,** given what is known about the records it embeds. -/
def Builds (config : Config) (decl : RecordDecl) (layout : Layout) : Prop :=
  ∃ pack members, effectivePack config decl = .ok pack ∧ UsableNames [] decl.members ∧
    List.Forall₂ (MemberOf limit config.platform decl.tag Has pack) decl.members members ∧
    assemble limit config.bitOrder decl members = .ok layout

end Relations

variable {limit : SizeLimit} {platform : Platform} {owner : Tag}

/-- More that is known gives more shapes. -/
theorem ShapeOf.mono {Has Has' : Tag → Layout → Prop} (h : ∀ tag l, Has tag l → Has' tag l)
    {name : String} {type : CType} {shape : Shape}
    (hs : ShapeOf limit platform owner Has name type shape) :
    ShapeOf limit platform owner Has' name type shape := by
  induction hs with
  | arith hs => exact .arith hs
  | pointer hs => exact .pointer hs
  | record hs => exact .record (h _ _ hs)
  | array _ hsize ih => exact .array ih hsize

theorem MemberOf.mono {Has Has' : Tag → Layout → Prop} (h : ∀ tag l, Has tag l → Has' tag l)
    {pack : Option Alignment} {decl : MemberDecl} {m : ResolvedMember}
    (hm : MemberOf limit platform owner Has pack decl m) :
    MemberOf limit platform owner Has' pack decl m :=
  { hm with shape := hm.shape.mono h }

/-- More that is known lets more declarations build. -/
theorem Builds.mono {Has Has' : Tag → Layout → Prop} (h : ∀ tag l, Has tag l → Has' tag l)
    {config : Config} {decl : RecordDecl} {layout : Layout}
    (hb : Builds limit Has config decl layout) : Builds limit Has' config decl layout := by
  obtain ⟨pack, members, hpack, hnames, hmembers, hlayout⟩ := hb
  exact ⟨pack, members, hpack, hnames, hmembers.imp fun _ _ hm => hm.mono h, hlayout⟩

/-- The names are tested one by one, each against those before it. -/
theorem usableNames_cons {seen : List String} {decl : MemberDecl} {decls : List MemberDecl} :
    UsableNames seen (decl :: decls) ↔
      ¬ (decl.name = "" ∨ decl.name ∈ seen) ∧ UsableNames (decl.name :: seen) decls := by
  simp only [UsableNames, List.map_cons, List.nodup_cons, List.mem_map, List.mem_cons, not_or,
    not_exists, not_and, forall_eq_or_imp]
  constructor
  · rintro ⟨⟨hdecl, hdecls⟩, hne, hnodup⟩
    exact ⟨hdecl, fun d hd => ⟨(hdecls d hd).1, hne d hd, (hdecls d hd).2⟩, hnodup⟩
  · rintro ⟨hdecl, hdecls, hnodup⟩
    exact ⟨⟨hdecl, fun d hd => ⟨(hdecls d hd).1, (hdecls d hd).2.2⟩⟩,
      fun d hd => (hdecls d hd).2.1, hnodup⟩

/-- A sum that is reported as an overflow unless it is there. -/
theorem orOverflow_eq_ok_iff {α : Type} {name : String} {o : Option α} {a : α} :
    orOverflow owner name o = .ok a ↔ o = some a := by
  cases o with
  | none => exact ⟨nofun, nofun⟩
  | some b => exact ⟨fun h => by cases h; rfl, fun h => by cases h; rfl⟩

/-! ## Runs of the builder

From the function to the relations, one lemma for each function of the builder. -/

/-- What is known about a resolver with a state: asking it leads to a later state, in which the
answer is known, and what is known stays so. -/
structure Resolver.Informs {σ : Type} (resolve : Resolver (StateM σ)) (Later : σ → σ → Prop)
    (Has : σ → Tag → Layout → Prop) : Prop where
  refl : ∀ s, Later s s
  trans : ∀ s t u, Later s t → Later t u → Later s u
  mono : ∀ {s t}, Later s t → ∀ tag l, Has s tag l → Has t tag l
  ask : ∀ tag, Ensures (resolve tag) Later fun s l => Has s tag l

section Run

variable {σ : Type} {resolve : Resolver (StateM σ)} {Later : σ → σ → Prop}
  {Has : σ → Tag → Layout → Prop}

/-- A type resolves to a shape that it has by what is known then. -/
theorem resolveShape_ensures (h : resolve.Informs Later Has) (name : String) (type : CType) :
    Ensures (resolveShape limit platform resolve owner name type) Later
      fun s shape => ShapeOf limit platform owner (Has s) name type shape := by
  induction type with
  | arith a => exact .lift h.refl fun _ _ hs => .arith hs
  | pointer target => exact .lift h.refl fun _ _ hs => .pointer hs
  | record tag =>
    rw [resolveShape]
    refine Ensures.bind h.trans (h.ask tag) fun l => Ensures.pure h.refl ?_
    intro t s hlater hl
    exact .record (h.mono hlater _ _ hl)
  | array element length ih =>
    rw [resolveShape]
    refine Ensures.bind h.trans ih fun shape => ?_
    refine Ensures.bind h.trans (P := fun _ _ => limit.Admits (shape.size * length))
      (Ensures.lift h.refl fun _ n hn => ?_) fun _ => Ensures.pure h.refl ?_
    · exact (SizeLimit.check?_eq_some_iff.1 (orOverflow_eq_ok_iff.1 hn)).1
    · intro t s hlater hsize s' hlater' hshape
      exact .array (hshape.mono (h.mono hlater')) hsize

/-- A member that resolves has passed its checks. -/
theorem resolveMember_ensures (h : resolve.Informs Later Has) (pack : Option Alignment)
    (decl : MemberDecl) :
    Ensures (resolveMember limit platform resolve owner pack decl) Later
      fun s m => MemberOf limit platform owner (Has s) pack decl m := by
  refine Ensures.bind h.trans (resolveShape_ensures h _ _) fun shape => ?_
  refine Ensures.bind h.trans (P := fun _ _ => checkBits owner decl shape.size = .ok ())
    (Ensures.lift h.refl fun _ _ hb => hb) fun _ => ?_
  refine Ensures.bind h.trans
    (P := fun _ alignment => memberAlignment owner decl pack shape.alignment = .ok alignment)
    (Ensures.lift h.refl fun _ _ ha => ha) fun alignment => Ensures.pure h.refl ?_
  intro t s₃ hlater₃ halign s₂ hlater₂ hbits s₁ hlater₁ hshape
  exact ⟨rfl, hshape.mono (h.mono hlater₁), hbits, halign⟩

/-- The members in order, each name tested before its member is resolved. -/
theorem resolveMembers_cons {m : Type → Type} [Monad m] [LawfulMonad m] (resolve : Resolver m)
    (pack : Option Alignment) (seen : List String) (decl : MemberDecl) (decls : List MemberDecl) :
    resolveMembers limit platform resolve owner pack seen (decl :: decls) =
      if decl.name = "" ∨ decl.name ∈ seen then
        throw (.invalidMember owner decl.name .unusableName)
      else do
        let first ← resolveMember limit platform resolve owner pack decl
        let rest ← resolveMembers limit platform resolve owner pack (decl.name :: seen) decls
        return first :: rest := by
  rw [resolveMembers]
  split
  · exact ExceptT.bind_throw _
  · rfl

/-- So have all members, and their names are usable. -/
theorem resolveMembers_ensures (h : resolve.Informs Later Has) (pack : Option Alignment)
    (seen : List String) (decls : List MemberDecl) :
    Ensures (resolveMembers limit platform resolve owner pack seen decls) Later
      fun s ms => UsableNames seen decls ∧
        List.Forall₂ (MemberOf limit platform owner (Has s) pack) decls ms := by
  induction decls generalizing seen with
  | nil => exact .pure h.refl fun _ => ⟨by simp [UsableNames], .nil⟩
  | cons decl decls ih =>
    rw [resolveMembers_cons]
    split
    · exact fun s => ⟨h.refl s, by rintro _ ⟨⟩⟩
    · rename_i hname
      refine Ensures.bind h.trans (resolveMember_ensures h pack decl) fun first => ?_
      refine Ensures.bind h.trans (ih (decl.name :: seen)) fun rest => Ensures.pure h.refl ?_
      intro t s hlater hrest s' hlater' hfirst
      refine ⟨usableNames_cons.2 ⟨hname, hrest.1⟩, .cons (hfirst.mono (h.mono hlater')) ?_⟩
      exact hrest.2.imp fun _ _ hm => hm.mono (h.mono hlater)

/-- The members of a declaration, resolved under its pack. -/
def resolveDecl {m : Type → Type} [Monad m] (limit : SizeLimit) (config : Config)
    (resolve : Resolver m) (decl : RecordDecl) : ExceptT LayoutError m (List ResolvedMember) := do
  let pack ← effectivePack config decl
  resolveMembers limit config.platform resolve decl.tag pack [] decl.members

/-- Building a layout is resolving the members and putting them together. -/
theorem build_eq_resolveDecl {m : Type → Type} [Monad m] [LawfulMonad m] (limit : SizeLimit)
    (config : Config) (resolve : Resolver m) (decl : RecordDecl) :
    build limit config resolve decl =
      resolveDecl limit config resolve decl >>= fun members =>
        liftM (assemble limit config.bitOrder decl members) := by
  rw [build, resolveDecl, bind_assoc]

/-- Members of a declaration that pass their checks under its pack, resolved. -/
def MembersOf (limit : SizeLimit) (Has : Tag → Layout → Prop) (config : Config) (decl : RecordDecl)
    (members : List ResolvedMember) : Prop :=
  ∃ pack, effectivePack config decl = .ok pack ∧ UsableNames [] decl.members ∧
    List.Forall₂ (MemberOf limit config.platform decl.tag Has pack) decl.members members

theorem resolveDecl_ensures (h : resolve.Informs Later Has) (config : Config) (decl : RecordDecl) :
    Ensures (resolveDecl limit config resolve decl) Later
      fun s members => MembersOf limit (Has s) config decl members := by
  refine Ensures.bind h.trans (P := fun _ pack => effectivePack config decl = .ok pack)
    (Ensures.lift h.refl fun _ _ hp => hp) fun pack s => ?_
  obtain ⟨hlater, hmembers⟩ := resolveMembers_ensures h pack [] decl.members s
  exact ⟨hlater, fun members hrun _ _ hpack =>
    ⟨pack, hpack, (hmembers members hrun).1, (hmembers members hrun).2⟩⟩

/-- **What a run of the builder does to the state is what asking does,** and it answers with a
layout that the declaration has by what is known in the end. -/
theorem build_ensures (h : resolve.Informs Later Has) (config : Config) (decl : RecordDecl) :
    Ensures (build limit config resolve decl) Later
      fun s layout => Builds limit (Has s) config decl layout := by
  rw [build_eq_resolveDecl]
  refine Ensures.bind h.trans (resolveDecl_ensures h config decl) fun members => ?_
  refine Ensures.lift h.refl fun t layout hlayout s hlater hmembers => ?_
  obtain ⟨pack, hpack, hnames, hmembers⟩ := hmembers
  exact ⟨pack, members, hpack, hnames, hmembers.imp fun _ _ hm => hm.mono (h.mono hlater), hlayout⟩

/-- Members that a run resolves are those of the declaration, whatever it is told. -/
theorem membersOf_of_run {config : Config} {decl : RecordDecl} {members : List ResolvedMember}
    {s t : σ} (h : (resolveDecl limit config resolve decl).run s = (.ok members, t)) :
    MembersOf limit (fun _ _ => True) config decl members := by
  have hinforms : resolve.Informs (fun _ _ => True) (fun _ _ _ => True) :=
    ⟨fun _ => trivial, fun _ _ _ _ _ => trivial, fun _ _ _ h => h,
      fun _ _ => ⟨trivial, fun _ _ => trivial⟩⟩
  exact (resolveDecl_ensures hinforms config decl s).2 members (by rw [h])

/-- A run that is only told of layouts of one kind answers with one that the declaration has by
these. -/
theorem builds_of_run {Told : Layout → Prop}
    (nested : ∀ tag t inner t', (resolve tag).run t = (.ok inner, t') → Told inner)
    {config : Config} {decl : RecordDecl} {layout : Layout} {s s' : σ}
    (run : (build limit config resolve decl).run s = (.ok layout, s')) :
    Builds limit (fun _ inner => Told inner) config decl layout := by
  have hinforms : resolve.Informs (fun _ _ => True) (fun _ _ inner => Told inner) :=
    ⟨fun _ => trivial, fun _ _ _ _ _ => trivial, fun _ _ _ h => h,
      fun tag t => ⟨trivial, fun inner h => nested tag t inner _ (Prod.ext h rfl)⟩⟩
  exact (build_ensures hinforms config decl s).2 layout (by rw [run])

end Run

/-! ## Runs compared

The builder asks for the records that a declaration embeds and for no others, so only for these the
answers need to compare. -/

/-- The types of the records that lie in a type by value, in arrays of any length; not those that
are only pointed to. -/
inductive CType.Embeds : CType → Tag → Prop
  | record (tag : Tag) : Embeds (.record tag) tag
  | array {element : CType} {length : Nat} {tag : Tag} (h : element.Embeds tag) :
      Embeds (.array element length) tag

/-- A member of the declaration has a record of that type by value. -/
def RecordDecl.Embeds (d : RecordDecl) (tag : Tag) : Prop := ∃ m ∈ d.members, m.type.Embeds tag

/-- The shape of a type depends only on the records that lie in it. -/
theorem ShapeOf.mono_of_embeds {Has Has' : Tag → Layout → Prop} {name : String} {type : CType}
    {shape : Shape} (h : ∀ tag, type.Embeds tag → ∀ l, Has tag l → Has' tag l)
    (hs : ShapeOf limit platform owner Has name type shape) :
    ShapeOf limit platform owner Has' name type shape := by
  induction hs with
  | arith hs => exact .arith hs
  | pointer hs => exact .pointer hs
  | @record tag l hl => exact .record (h tag (.record tag) l hl)
  | array _ hsize ih => exact .array (ih fun tag htag => h tag (.array htag)) hsize

/-- Failures that may stand beside each other when types are replaced: each of the builder's own
reasons beside itself, and that of a scalar beside that of its replacement. -/
structure Replacement.Excuses (ρ : Replacement) (E : LayoutError → LayoutError → Prop) : Prop where
  own : ∀ e, ¬ e.OfLookup → E e e
  width : ∀ owner name size s, E (.invalidMember owner name (.unsupportedWidth size s.type))
    (.invalidMember owner name (.unsupportedWidth size (ρ.scalar name s).type))

section Compare

variable {m n : Type → Type} [Monad m] [Monad n] {C : Comparison m n} {ρ : Replacement}
  {E : LayoutError → LayoutError → Prop} {resolve : Resolver m} {resolve' : Resolver n}

theorem Replacement.Excuses.lift {α : Type} (hE : ρ.Excuses E) {x : Except LayoutError α}
    (hx : OwnFailure x) : C.Relates E Eq (liftM x : ExceptT LayoutError m α) (liftM x) :=
  .lift (.self (fun _ => rfl) fun e he => hE.own e (hx e he))

/-- For a scalar the resolver is not asked. -/
theorem resolveShape_scalar (name : String) (s : Scalar) :
    resolveShape limit platform resolve owner name s.type =
      liftM (scalarShape platform owner name s) := by
  cases s <;> rfl

theorem resolveShape_scalar_relates (hE : ρ.Excuses E) (name : String) (s : Scalar) :
    C.Relates E (fun shape shape' => shape' = ρ.shape name shape)
      (resolveShape limit platform resolve owner name s.type)
      (resolveShape limit platform resolve' owner name (ρ.type name s.type)) := by
  rw [ρ.type_scalar, resolveShape_scalar, resolveShape_scalar]
  refine .lift ?_
  rw [scalarShape, scalarShape, ρ.size_scalar]
  cases Alignment.ofBytes? (platform.naturalAlignment (s.size platform)) with
  | some alignment => exact .ok rfl
  | none => exact .error (hE.width owner name _ s)

/-- Shapes compare, by induction on the type. -/
theorem resolveShape_relates (hE : ρ.Excuses E) (name : String) (type : CType)
    (h : ∀ tag, type.Embeds tag →
      C.Relates E (fun l l' => l' = ρ.record l) (resolve tag) (resolve' tag)) :
    C.Relates E (fun shape shape' => shape' = ρ.shape name shape)
      (resolveShape limit platform resolve owner name type)
      (resolveShape limit platform resolve' owner name (ρ.type name type)) := by
  induction type with
  | arith a => exact resolveShape_scalar_relates hE name (.arith a)
  | pointer target => exact resolveShape_scalar_relates hE name (.pointer target)
  | record tag =>
    rw [ρ.type_record]
    refine .bind (h tag (.record tag)) ?_
    rintro l _ rfl
    exact .pure rfl
  | array element length ih =>
    rw [ρ.type_array]
    refine .bind (ih fun tag htag => h tag (.array htag)) ?_
    rintro shape _ rfl
    refine .bind (A := Eq) ?_ fun _ _ _ => .pure rfl
    rw [ρ.size_shape]
    exact hE.lift (ownFailure_orOverflow _ _ _)

/-- Members compare, since their checks see the size and the alignment only. -/
theorem resolveMember_relates (hE : ρ.Excuses E) (pack : Option Alignment) (decl : MemberDecl)
    (h : ∀ tag, decl.type.Embeds tag →
      C.Relates E (fun l l' => l' = ρ.record l) (resolve tag) (resolve' tag)) :
    C.Relates E (fun m m' => m' = ρ.resolved m)
      (resolveMember limit platform resolve owner pack decl)
      (resolveMember limit platform resolve' owner pack (ρ.member decl)) := by
  refine .bind (resolveShape_relates hE decl.name decl.type h) ?_
  rintro shape _ rfl
  have hbits : checkBits owner (ρ.member decl) shape.size = checkBits owner decl shape.size := by
    rw [checkBits, checkBits, Replacement.member, ρ.allowsBitField_type]
  rw [ρ.size_shape, ρ.alignment_shape, hbits]
  refine .bind (hE.lift (ownFailure_checkBits _ _ _)) fun _ _ _ => ?_
  refine .bind (hE.lift (ownFailure_memberAlignment _ decl _ _)) ?_
  rintro alignment _ rfl
  exact .pure rfl

variable [LawfulMonad m] [LawfulMonad n]

/-- Lists of members compare, and their names are tested alike. -/
theorem resolveMembers_relates (hE : ρ.Excuses E) (pack : Option Alignment) (seen : List String)
    (decls : List MemberDecl) (h : ∀ decl ∈ decls, ∀ tag, decl.type.Embeds tag →
      C.Relates E (fun l l' => l' = ρ.record l) (resolve tag) (resolve' tag)) :
    C.Relates E (fun ms ms' => ms' = ms.map ρ.resolved)
      (resolveMembers limit platform resolve owner pack seen decls)
      (resolveMembers limit platform resolve' owner pack seen (decls.map ρ.member)) := by
  induction decls generalizing seen with
  | nil => exact .pure rfl
  | cons decl decls ih =>
    obtain ⟨hdecl, hdecls⟩ := List.forall_mem_cons.1 h
    have hname : (ρ.member decl).name = decl.name := rfl
    rw [List.map_cons, resolveMembers_cons, resolveMembers_cons, hname]
    split
    · exact .throw (hE.own _ id)
    · refine .bind (resolveMember_relates hE pack decl hdecl) ?_
      rintro first _ rfl
      refine .bind (ih _ hdecls) ?_
      rintro rest _ rfl
      exact .pure rfl

/-- **The builder uses what surrounds it only to ask for embedded records.**  If two resolvers
answer these alike, in whatever way runs are compared, then two builds come to the same, up to what
is replaced. -/
theorem build_relates (hE : ρ.Excuses E) (config : Config) (decl : RecordDecl)
    (h : ∀ tag, decl.Embeds tag →
      C.Relates E (fun l l' => l' = ρ.record l) (resolve tag) (resolve' tag)) :
    C.Relates E (fun l l' => l' = ρ.layout l) (build limit config resolve decl)
      (build limit config resolve' (ρ.decl decl)) := by
  refine .bind (hE.lift (ownFailure_effectivePack config decl)) ?_
  rintro pack _ rfl
  refine .bind (resolveMembers_relates hE pack [] decl.members fun m hm tag htag =>
    h tag ⟨m, hm, htag⟩) ?_
  rintro members _ rfl
  refine .lift ?_
  show Outcomes E _ _ (assemble limit config.bitOrder decl (members.map ρ.resolved))
  rw [ρ.assemble_resolved]
  cases hlayout : assemble limit config.bitOrder decl members with
  | ok l => exact .ok rfl
  | error e => exact .error (hE.own e (ownFailure_assemble decl members e hlayout))

end Compare

/-! ## Pure resolvers

A resolver without a state is a function of types, and `Builds` is decided by it. -/

section Pure

variable {answer : Tag → Except LayoutError Layout}

theorem Replacement.excuses_records {φ : Layout → Layout} (hφ : Layout.Agrees φ)
    {E : LayoutError → LayoutError → Prop} (hE : ∀ e, ¬ e.OfLookup → E e e) :
    (Replacement.records hφ).Excuses E :=
  ⟨hE, fun _ _ _ _ => hE _ id⟩

/-- **A resolver that keeps to fixed answers builds what these answers give,** up to a replacement
of embedded layouts if it keeps to the answers up to that. -/
theorem build_follows {σ : Type} {Inv : σ → Prop} {resolve : Resolver (StateM σ)}
    {φ : Layout → Layout} (hφ : Layout.Agrees φ)
    (h : ∀ tag, Follows Inv φ (resolve tag) (liftM (answer tag))) (config : Config)
    (decl : RecordDecl) :
    Follows Inv (·.mapRecords φ) (build .word64 config resolve decl)
      (build? config answer decl) := by
  have hE := Replacement.excuses_records hφ (E := Eq) fun _ _ => rfl
  have hrelates : (Comparison.along Inv).Relates Eq _ (build .word64 config resolve decl) _ :=
    build_relates hE config decl fun tag _ => follows_iff.1 (h tag)
  rw [Replacement.decl_records] at hrelates
  exact follows_iff.2 hrelates

/-- Resolvers that answer alike give builds that do. -/
theorem build_relates_self {m n : Type → Type} [Monad m] [Monad n] [LawfulMonad m] [LawfulMonad n]
    {C : Comparison m n} {resolve : Resolver m} {resolve' : Resolver n} (config : Config)
    (decl : RecordDecl)
    (h : ∀ tag, decl.Embeds tag → C.Relates Eq (fun l l' => l' = l) (resolve tag) (resolve' tag)) :
    C.Relates Eq (fun l l' => l' = l) (build limit config resolve decl)
      (build limit config resolve' decl) := by
  have hE := Replacement.excuses_records Layout.agrees_id (E := Eq) fun _ _ => rfl
  have hid : (Replacement.records Layout.agrees_id).layout = id := funext Layout.mapRecords_id
  have hrelates : C.Relates Eq _ (build limit config resolve decl) _ :=
    build_relates hE config decl h
  rwa [Replacement.decl_records, hid] at hrelates

/-- **Resolvers that come to the same in all states that are met give builds that do.** -/
theorem build_congr {σ : Type} (Inv : σ → Prop) {resolve resolve' : Resolver (StateM σ)}
    (h : ∀ tag s, Inv s →
      (resolve tag).run s = (resolve' tag).run s ∧ Inv ((resolve' tag).run s).2)
    (config : Config) (decl : RecordDecl) {s : σ} (hs : Inv s) :
    (build limit config resolve decl).run s = (build limit config resolve' decl).run s := by
  have hrelates : (Comparison.together Inv).Relates Eq _ (build limit config resolve decl) _ :=
    build_relates_self config decl fun tag _ => Comparison.relates_together_iff.2 (h tag)
  exact (Comparison.relates_together_iff.1 hrelates s hs).1

/-- **Answers that are alike build what is alike.** -/
theorem build?_relates {ρ : Replacement} {E : LayoutError → LayoutError → Prop}
    {answer' : Tag → Except LayoutError Layout} (hE : ρ.Excuses E) (config : Config)
    (decl : RecordDecl) (h : ∀ tag, decl.Embeds tag →
      Outcomes E (fun l l' => l' = ρ.record l) (answer tag) (answer' tag)) :
    Outcomes E (fun l l' => l' = ρ.layout l) (build? config answer decl)
      (build? config answer' (ρ.decl decl)) :=
  build_relates (C := .stateless) hE config decl fun tag htag => .lift (h tag htag)

/-- **What a build fails for is a reason of its own or the answer for an embedded record.** -/
theorem exists_of_build?_eq_error {config : Config} {decl : RecordDecl} {e : LayoutError}
    (h : build? config answer decl = .error e) (hlookup : e.OfLookup) :
    ∃ tag, decl.Embeds tag ∧ answer tag = .error e := by
  let E (e e' : LayoutError) : Prop :=
    e = e' ∧ (e.OfLookup → ∃ tag, decl.Embeds tag ∧ answer tag = .error e)
  have hE := Replacement.excuses_records Layout.agrees_id (E := E) fun e he => ⟨rfl, (absurd · he)⟩
  have hself := build?_relates hE config decl fun tag htag =>
    .self (fun _ => rfl) fun e he => ⟨rfl, fun _ => ⟨tag, htag, he⟩⟩
  rw [Replacement.decl_records, h] at hself
  cases hself with
  | error h => exact h.2 hlookup

/-- A resolver with a state that does not use it answers like one without a state. -/
theorem build_lift (config : Config) (decl : RecordDecl) :
    (build .word64 config (fun tag => liftM (answer tag) : Resolver (StateM Unit)) decl).run () =
      (build? config answer decl, ()) := by
  have hfollows : ∀ tag, Follows (fun _ : Unit => True) id (liftM (answer tag))
      (liftM (answer tag)) := fun tag => .lift (Except.map_id ▸ rfl)
  have hanswer := (build_follows Layout.agrees_id hfollows config decl () trivial).1
  have hid : (fun l : Layout => l.mapRecords id) = id := funext Layout.mapRecords_id
  rw [hid, Except.map_id] at hanswer
  exact Prod.ext hanswer rfl

/-- From the relation back to the function. -/
theorem resolveShape_of_shapeOf {name : String} {type : CType} {shape : Shape}
    (h : ShapeOf limit platform owner (fun tag l => answer tag = .ok l) name type shape) :
    resolveShape (m := Id) limit platform (fun tag => liftM (answer tag)) owner name type =
      pure shape := by
  induction h with
  | arith h => rw [resolveShape, h]; rfl
  | pointer h => rw [resolveShape, h]; rfl
  | record h => rw [resolveShape, h]; rfl
  | @array element length shape _ hsize ih =>
    have hmul : limit.mul? shape.size length = some (shape.size * length) :=
      SizeLimit.check?_eq_some_iff.2 ⟨hsize, rfl⟩
    simp only [resolveShape, ih, pure_bind, hmul]
    rfl

/-- The same for the members, which all pass their checks. -/
theorem resolveMembers_of_forall₂ {pack : Option Alignment} {seen : List String}
    {decls : List MemberDecl} {ms : List ResolvedMember} (hnames : UsableNames seen decls)
    (h : List.Forall₂ (MemberOf limit platform owner (fun tag l => answer tag = .ok l) pack)
      decls ms) :
    resolveMembers (m := Id) limit platform (fun tag => liftM (answer tag)) owner pack seen decls =
      pure ms := by
  induction h generalizing seen with
  | nil => rfl
  | @cons decl m decls ms hm _ ih =>
    obtain ⟨hname, hrest⟩ := usableNames_cons.1 hnames
    rw [resolveMembers_cons, if_neg hname, ih hrest, resolveMember,
      resolveShape_of_shapeOf hm.shape]
    obtain ⟨_, shape, alignment⟩ := m
    obtain ⟨rfl, -, hbits, halign⟩ := hm
    simp only at hbits halign
    simp only [pure_bind, hbits, halign]
    rfl

/-- **With a pure resolver, a declaration has a layout exactly when it builds.** -/
theorem build?_eq_ok_iff {config : Config} {decl : RecordDecl} {layout : Layout} :
    build? config answer decl = .ok layout ↔
      Builds .word64 (fun tag l => answer tag = .ok l) config decl layout := by
  constructor
  · intro h
    have hinforms : Resolver.Informs (σ := Unit) (fun tag => liftM (answer tag))
        (fun _ _ => True) (fun _ tag l => answer tag = .ok l) :=
      ⟨fun _ => trivial, fun _ _ _ _ _ => trivial, fun _ _ _ h => h,
        fun _ => .lift (fun _ => trivial) fun _ _ h => h⟩
    refine (build_ensures hinforms config decl ()).2 layout ?_
    rw [build_lift, h]
  · rintro ⟨pack, members, hpack, hnames, hmembers, hlayout⟩
    have hrun := resolveMembers_of_forall₂ hnames hmembers
    show (build .word64 config (m := Id) (fun tag => liftM (answer tag)) decl).run = _
    have hbind (f : Option Alignment → ExceptT LayoutError Id Layout) :
        ((liftM (.ok pack : Except LayoutError (Option Alignment))) >>= f) = f pack := rfl
    rw [build, hpack, hbind, hrun, pure_bind, hlayout]
    rfl

end Pure

end NativeRecord
