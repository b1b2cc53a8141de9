import Mathlib.Logic.Relation
import NativeRecord.Proofs.Layout.Retargeting
import NativeRecord.Proofs.Registry.LookupOrder

/-!
# Records within records

The declarations of a registry may embed each other in any way, also in circles.  Looking a layout
up ends all the same, and tells the two apart.

What the declarations say about circles is a matter of one relation, `ByValue`, and of chains in it.
On the side of the lookup everything is read off `layoutAfresh`, the answer of a registry with an
empty cache, which has the types that are under way as a plain list, `path`.

* What has a layout reaches no circle, because all that it reaches has a layout too, on a path that
  goes on from its own.  Once round a circle a type would have one while it is on the path itself.
* What is blamed is really there, because the path leads from the type that was asked for to where
  the lookup is now.  If a type comes up that is on the path, the circle is closed by the part of
  the path that lies behind it.
* The lookup does not fail for want of depth, because all types on the path are declared and
  different.  `Room` counts those that are not on it yet.

How deep builds lie in each other is not visible in an answer.  So the lookup is written once more
with the innermost builds left open, as a parameter; up to the number of declarations, its answer
does not depend on what stands there.

## What is here

* `ByValue` — a type embeds another one; `Reaches` and `Circular` — over any number of steps, and
  back to itself.
* `layoutAfresh_not_circular` — what has a layout reaches no circle; `layoutAfresh_blames` — what
  has none for want of a declaration, or for a circle, reaches it.
* `Registry.lookupWith`, `Registry.nestedBuild` — a lookup that leaves the builds beyond a depth to
  someone else; `Registry.run_nestedBuild` — from the number of declarations on, nobody is asked.
* `layoutAfresh_retarget` — the targets of pointers do not matter.
* `Registry.recursion_decided` — all this, of a registry after any row of operations.
-/

set_option autoImplicit false
namespace NativeRecord

open Relation

/-! ## By value -/

/-- The declaration of a type embeds another type, declared or not. -/
def ByValue (decl? : Tag → Option RecordDecl) (outer inner : Tag) : Prop :=
  ∃ decl, decl? outer = some decl ∧ decl.Embeds inner

/-- A type is another one, or embeds it, at any depth. -/
def Reaches (decl? : Tag → Option RecordDecl) : Tag → Tag → Prop := ReflTransGen (ByValue decl?)

/-- A type embeds itself, at any depth. -/
def Circular (decl? : Tag → Option RecordDecl) (tag : Tag) : Prop :=
  TransGen (ByValue decl?) tag tag

/-- The shape of a type is made of the layouts of all that it embeds, those in empty arrays too. -/
theorem ShapeOf.exists_of_embeds {limit : SizeLimit} {platform : Platform} {owner : Tag}
    {Has : Tag → Layout → Prop} {name : String} {type : CType} {shape : Shape} {tag : Tag}
    (h : ShapeOf limit platform owner Has name type shape) (ht : type.Embeds tag) :
    ∃ l, Has tag l := by
  induction h with
  | arith | pointer => cases ht
  | record h => cases ht; exact ⟨_, h⟩
  | array _ _ ih => cases ht with | array ht => exact ih ht

/-- What builds knows a layout of all that it embeds. -/
theorem Builds.exists_of_embeds {limit : SizeLimit} {Has : Tag → Layout → Prop} {config : Config}
    {decl : RecordDecl} {l : Layout} {tag : Tag} (h : Builds limit Has config decl l)
    (hd : decl.Embeds tag) : ∃ l, Has tag l := by
  obtain ⟨m, hm, ht⟩ := hd
  obtain ⟨pack, members, -, -, hmembers, -⟩ := h
  obtain ⟨resolved, -, hresolved⟩ := exists_mem_of_forall₂ hmembers.flip hm
  exact hresolved.shape.exists_of_embeds ht

section Afresh

variable {config : Config} {decl? : Tag → Option RecordDecl} {depth : Nat} {path : List Tag}
  {tag inner x : Tag} {l : Layout} {e : LayoutError}

/-! ## No layout in a circle

The depth plays no part here.  A lookup that succeeds has had enough of it, and so have the lookups
in it. -/

/-- A layout is that of a declared type which is not under way, and was built from lookups with the
type on the path. -/
theorem layoutAfresh_eq_ok (h : layoutAfresh config decl? depth path tag = .ok l) :
    tag ∉ path ∧ ∃ depth' decl, decl? tag = some decl ∧
      build? config (layoutAfresh config decl? depth' (tag :: path)) decl = .ok l := by
  cases depth with
  | zero => cases h
  | succ depth =>
    rw [layoutAfresh] at h
    split at h
    · cases h
    · rename_i htag
      cases hdecl : decl? tag with
      | none => rw [hdecl] at h; cases h
      | some decl => rw [hdecl] at h; exact ⟨htag, depth, decl, rfl, h⟩

/-- What is embedded in a type with a layout has a layout on the longer path. -/
theorem exists_layoutAfresh_of_byValue (h : layoutAfresh config decl? depth path tag = .ok l)
    (hinner : ByValue decl? tag inner) :
    ∃ depth' l', layoutAfresh config decl? depth' (tag :: path) inner = .ok l' := by
  obtain ⟨-, depth', decl, hdecl, hbuild⟩ := layoutAfresh_eq_ok h
  obtain ⟨decl', hdecl', hembeds⟩ := hinner
  obtain rfl : decl = decl' := Option.some.inj (hdecl.symm.trans hdecl')
  exact ⟨depth', (build?_eq_ok_iff.1 hbuild).exists_of_embeds hembeds⟩

/-- All that a type with a layout reaches has a layout, on a path that goes on from this one. -/
theorem exists_layoutAfresh_of_reaches (h : layoutAfresh config decl? depth path tag = .ok l)
    (hreach : Reaches decl? tag x) :
    ∃ depth' path' l', path ⊆ path' ∧ layoutAfresh config decl? depth' path' x = .ok l' := by
  induction hreach using ReflTransGen.head_induction_on generalizing depth path l with
  | refl => exact ⟨depth, path, l, List.Subset.refl path, h⟩
  | head hstep _ ih =>
    obtain ⟨depth', l', h'⟩ := exists_layoutAfresh_of_byValue h hstep
    obtain ⟨depth'', path', l'', hsubset, h''⟩ := ih h'
    exact ⟨depth'', path', l'', List.Subset.trans (List.subset_cons_self _ _) hsubset, h''⟩

/-- **What has a layout reaches no circle.** -/
theorem layoutAfresh_not_circular (h : layoutAfresh config decl? depth path tag = .ok l)
    (hreach : Reaches decl? tag x) : ¬ Circular decl? x := by
  intro hcircle
  obtain ⟨depth₁, path₁, l₁, -, h₁⟩ := exists_layoutAfresh_of_reaches h hreach
  obtain ⟨y, hstep, hback⟩ := TransGen.head'_iff.1 hcircle
  obtain ⟨depth₂, l₂, h₂⟩ := exists_layoutAfresh_of_byValue h₁ hstep
  -- Once round the circle, `x` would have a layout while it is on the path itself.
  obtain ⟨depth₃, path₃, l₃, hsubset, h₃⟩ := exists_layoutAfresh_of_reaches h₂ hback
  exact (layoutAfresh_eq_ok h₃).1 (hsubset List.mem_cons_self)

/-! ## What a failure tells

A failure to look a type up may come from any depth, and is handed through unchanged.  So it is
about a type that the outer one reaches, and `Blames` is inherited from an embedded type.  Failures
of other kinds say nothing about the declarations of other types. -/

/-- What a failed lookup of a type tells about the declarations. -/
def Blames (decl? : Tag → Option RecordDecl) (tag : Tag) : LayoutError → Prop
  | .recursiveEmbedding x => Reaches decl? tag x ∧ Circular decl? x
  | .unknownTag x => Reaches decl? tag x ∧ decl? x = none
  | _ => True

/-- What is blamed by a type that is embedded is blamed by the one that embeds it. -/
theorem Blames.outer (h : Blames decl? inner e) (hstep : ByValue decl? tag inner) :
    Blames decl? tag e := by
  cases e with
  | recursiveEmbedding | unknownTag => exact ⟨.head hstep h.1, h.2⟩
  | _ => trivial

/-- Nothing has to be shown of the failures that are not of looking up. -/
theorem blames_of_not_ofLookup (h : ¬ e.OfLookup) : Blames decl? tag e := by
  cases e with
  | recursiveEmbedding | unknownTag => exact absurd trivial h
  | _ => trivial

/-- **A failure for want of a declaration, or for a circle, tells the truth,** as long as the depth
is enough and the path leads to the type. -/
theorem layoutAfresh_blames {tags : List Tag}
    (htags : ∀ tag decl, decl? tag = some decl → tag ∈ tags) (hroom : Room tags depth path)
    (hpath : ∀ p ∈ path, TransGen (ByValue decl?) p tag)
    (h : layoutAfresh config decl? depth path tag = .error e) : Blames decl? tag e := by
  induction depth generalizing path tag with
  | zero => exact hroom.depth_ne_zero.elim
  | succ depth ih =>
    rw [layoutAfresh] at h
    split at h
    · rename_i hmem
      cases h
      exact ⟨.refl, hpath tag hmem⟩
    · rename_i hfresh
      cases hdecl : decl? tag with
      | none =>
        rw [hdecl] at h
        cases h
        exact ⟨.refl, hdecl⟩
      | some decl =>
        rw [hdecl] at h
        by_cases hlookup : e.OfLookup
        · obtain ⟨inner, hembeds, hanswer⟩ := exists_of_build?_eq_error h hlookup
          have hstep : ByValue decl? tag inner := ⟨decl, hdecl, hembeds⟩
          refine (ih (hroom.push hfresh (htags tag decl hdecl)) ?_ hanswer).outer hstep
          intro p hp
          rcases List.mem_cons.1 hp with rfl | hp
          · exact .single hstep
          · exact (hpath p hp).tail hstep
        · exact blames_of_not_ofLookup hlookup

/-! ## Other targets

A pointer has the same size wherever it leads, so that its target is not looked up.  Both lookups go
through the same types, and each build is one with other targets of another one. -/

/-- **With other targets for the pointers, the same types have layouts,** and the same ones but for
these targets. -/
theorem layoutAfresh_retarget (ρ : Retargeting) (config : Config)
    (decl? : Tag → Option RecordDecl) (depth : Nat) (path : List Tag) (tag : Tag) :
    Retargeted ρ (layoutAfresh config decl? depth path tag)
      (layoutAfresh config (fun tag => (decl? tag).map (·.retarget ρ)) depth path tag) := by
  induction depth generalizing path tag with
  | zero => exact .error trivial
  | succ depth ih =>
    rw [layoutAfresh, layoutAfresh]
    split
    · exact .error trivial
    · cases decl? tag with
      | none => exact .error trivial
      | some decl => exact build?_retarget ρ (ih (tag :: path)) config decl

end Afresh

namespace Registry

variable {r s : Registry}

/-! ## How deep builds nest

`resolve` stops at a depth of its own.  To say that it never comes to this, the builds beyond a
depth are left to a parameter `beyond`; that the answer does not change with it means that it is
never asked. -/

/-- What starts the build of a declaration. -/
abbrev Start := Config → RecordDecl → ExceptT LayoutError (StateM Registry) Layout

/-- Looking a layout up, with builds that are started in a given way. -/
def lookupWith (start : Start) : Resolver (StateM Registry) := fun tag => ExceptT.mk fun r =>
  match r.kept? tag with
  | some layout => (.ok layout, r)
  | none =>
    if tag ∈ r.inProgress then (.error (.recursiveEmbedding tag), r)
    else
      match r.decl? tag with
      | none => (.error (.unknownTag tag), r)
      | some decl =>
        let (answer, r) := (start r.config decl).run (r.enter tag)
        let r := r.finish tag
        match answer with
        | .error e => (.error e, r)
        | .ok layout =>
          let (layout, r) := r.keep layout
          (.ok layout, r)

/-- Builds within builds, `depth` of them; a build that lies deeper is started by `beyond`. -/
def nestedBuild (beyond : Start) : (depth : Nat) → Start
  | 0 => beyond
  | depth + 1 => fun config decl =>
    build .word64 config (lookupWith (nestedBuild beyond depth)) decl

/-- Looking up with one more level is a lookup that builds with one level less. -/
theorem resolve_succ (depth : Nat) :
    resolve (depth + 1) = lookupWith fun config decl => build .word64 config (resolve depth) decl :=
  rfl

/-- Lookups come to the same if the builds do that they start. -/
theorem run_lookupWith_congr {start start' : Start} {tag : Tag}
    (h : ∀ decl, r.decl? tag = some decl → tag ∉ r.inProgress →
      (start r.config decl).run (r.enter tag) = (start' r.config decl).run (r.enter tag)) :
    (lookupWith start tag).run r = (lookupWith start' tag).run r := by
  rw [lookupWith, lookupWith, ExceptT.run_mk, ExceptT.run_mk]
  cases r.kept? tag with
  | some l => rfl
  | none =>
    by_cases hprogress : tag ∈ r.inProgress
    · simp only [if_pos hprogress]
    · simp only [if_neg hprogress]
      cases hdecl : r.decl? tag with
      | none => rfl
      | some decl => simp only [h decl hdecl hprogress]

/-- **As long as there is room, no build is started beyond the depth.** -/
theorem run_nestedBuild (beyond : Start) (depth : Nat) (tag : Tag)
    (hroom : Room (r.decls.map RecordDecl.tag) (depth + 1) r.inProgress) :
    (lookupWith (nestedBuild beyond depth) tag).run r = (resolve (depth + 1) tag).run r := by
  induction depth generalizing r tag with
  | zero =>
    rw [resolve_succ]
    refine run_lookupWith_congr fun decl hdecl hidle => ?_
    exact (hroom.push hidle (mem_tags_of_decl? hdecl)).depth_ne_zero.elim
  | succ depth ih =>
    rw [resolve_succ]
    refine run_lookupWith_congr fun decl hdecl hidle => ?_
    have hpush := hroom.push hidle (mem_tags_of_decl? hdecl)
    -- While the embedded records are asked for, the declarations and the path stay the same.
    refine build_congr (Grows (r.enter tag)) ?_ r.config decl (.refl _)
    intro inner s hgrows
    have hroom' : Room (s.decls.map RecordDecl.tag) (depth + 1) s.inProgress := by
      rw [hgrows.decls, hgrows.inProgress]
      exact hpush
    exact ⟨ih inner hroom', hgrows.trans (resolve_ensures (depth + 1) inner s).1.1⟩

/-! ## A registry at rest

Between operations nothing is under way, the path is empty, and the answer is that of a registry
with an empty cache (`AtRest.answer_afresh`).  What was shown above of `layoutAfresh` carries over
through this equation. -/

/-- What a registry answers for a type while declarations embed each other. -/
structure DecidesRecursion (r : Registry) (tag : Tag) : Prop where
  /-- No more builds lie in each other than there are declarations.  Whoever would start a deeper
  one is not asked. -/
  nesting : ∀ beyond, (lookupWith (nestedBuild beyond r.decls.length) tag).run r = r.layoutOf tag
  /-- What reaches a circle has no layout. -/
  circular : ∀ x, Reaches r.decl? tag x → Circular r.decl? x → ∃ e, (r.layoutOf tag).1 = .error e
  /-- A circle that is reported is there. -/
  recursive : ∀ x, (r.layoutOf tag).1 = .error (.recursiveEmbedding x) →
    Reaches r.decl? tag x ∧ Circular r.decl? x
  /-- A declaration that is reported as missing is needed, and missing. -/
  unknown : ∀ x, (r.layoutOf tag).1 = .error (.unknownTag x) →
    Reaches r.decl? tag x ∧ r.declares x = false

/-- What is said of a failure holds of the answers of a registry at rest. -/
theorem AtRest.blames (h : AtRest r) {tag : Tag} {e : LayoutError}
    (he : (r.layoutOf tag).1 = .error e) : Blames r.decl? tag e := by
  have hroom := h.room
  rw [h.idle] at hroom
  have hafresh : layoutAfresh r.config r.decl? (r.decls.length + 1) [] tag = .error e := by
    rw [← h.answer_afresh, answer, he]
    rfl
  exact layoutAfresh_blames (fun _ _ => mem_tags_of_decl?) hroom (List.forall_mem_nil _) hafresh

theorem AtRest.decidesRecursion (h : AtRest r) (tag : Tag) : r.DecidesRecursion tag where
  nesting beyond := run_nestedBuild beyond _ tag h.room
  circular x hreach hcircle := by
    cases hanswer : (r.layoutOf tag).1 with
    | error e => exact ⟨e, rfl⟩
    | ok l =>
      have hafresh := h.answer_afresh tag
      rw [answer, hanswer] at hafresh
      exact (layoutAfresh_not_circular hafresh.symm hreach hcircle).elim
  recursive x hx := h.blames hx
  unknown x hx := by
    obtain ⟨hreach, hnone⟩ := h.blames hx
    exact ⟨hreach, by rw [declares, hnone]; rfl⟩

theorem AtRest.answer_retarget (hr : AtRest r) (hs : AtRest s) (hconfig : s.config = r.config)
    {ρ : Retargeting} (h : ∀ tag, s.decl? tag = (r.decl? tag).map (·.retarget ρ)) (tag : Tag) :
    (s.answer tag).toOption = (r.answer tag).toOption.map (·.retarget ρ) := by
  have hlength := hs.length_decls_eq hr fun tag => by rw [h, Option.isSome_map]
  rw [hs.answer_afresh, hr.answer_afresh, hlength, hconfig, funext h]
  exact (layoutAfresh_retarget ρ _ _ _ _ _).toOption_eq

/-- **Embedding is decided by the declarations,** in any state that operations lead to.  A lookup
ends, with no more builds in each other than there are declarations; what reaches a circle has no
layout; a circle or a gap that is reported is there.  Pointers do not count: with other targets for
them, the same types have layouts, and the same ones but for these targets. -/
theorem recursion_decided (config : Config) (ops : List Op) (tag : Tag) :
    ((new config).afterAll ops).DecidesRecursion tag ∧
      ∀ (ρ : Retargeting) (ops' : List Op),
        (∀ tag, ((new config).afterAll ops').decl? tag =
          (((new config).afterAll ops).decl? tag).map (·.retarget ρ)) →
        (((new config).afterAll ops').answer tag).toOption =
          (((new config).afterAll ops).answer tag).toOption.map (·.retarget ρ) := by
  have hr (ops : List Op) := (atRest_new config).afterAll ops
  have hconfig (ops : List Op) := config_afterAll (new config) ops
  refine ⟨(hr ops).decidesRecursion tag, fun ρ ops' h => ?_⟩
  exact (hr ops).answer_retarget (hr ops') ((hconfig ops').trans (hconfig ops).symm) h tag

/-! ## A circle through an empty array -/

/-- A record that holds no page at all. -/
def book : RecordDecl where
  tag := ⟨"book"⟩
  members := [{ name := "title", type := .pointer (.arith (.unsigned .w8)) },
    { name := "pages", type := .array (.record ⟨"page"⟩) 0 }]

/-- A record that would hold the book that holds it. -/
def page : RecordDecl where
  tag := ⟨"page"⟩
  members := [{ name := "book", type := .record ⟨"book"⟩ }]

/-- A record that only points to others. -/
def shelf : RecordDecl where
  tag := ⟨"shelf"⟩
  members := [{ name := "books", type := .array (.pointer (.record ⟨"book"⟩)) 2 },
    { name := "next", type := .pointer (.record ⟨"shelf"⟩) }]

/-- All pointers lead to a type that is not declared. -/
def astray : Retargeting := fun _ _ _ => .record ⟨"nowhere"⟩

def libraryDecls : List RecordDecl := [book, page, shelf, mark, point]

def library : Registry := (new .standard).afterAll (libraryDecls.map .declare)

/-- The same with all pointers led astray. -/
def libraryAstray : Registry :=
  (new .standard).afterAll (libraryDecls.map fun d => .declare (d.retarget astray))

theorem recursion_decided_library :
    (library.layoutOf page.tag).1 = .error (.recursiveEmbedding page.tag) ∧
      Circular library.decl? page.tag ∧
      (∃ e, (library.layoutOf book.tag).1 = .error e) ∧
      (library.layoutOf mark.tag).1 = .error (.unknownTag style.tag) ∧
      library.declares style.tag = false ∧
      (library.answer shelf.tag).toOption.map (·.size) = some 24 ∧
      (libraryAstray.answer shelf.tag).toOption =
        (library.answer shelf.tag).toOption.map (·.retarget astray) := by
  have hdecided (tag : Tag) := recursion_decided .standard (libraryDecls.map .declare) tag
  have hcircle : (library.layoutOf page.tag).1 = .error (.recursiveEmbedding page.tag) := rfl
  have hgap : (library.layoutOf mark.tag).1 = .error (.unknownTag style.tag) := rfl
  have hstep : ByValue library.decl? book.tag page.tag :=
    ⟨book, rfl, _, List.mem_cons_of_mem _ List.mem_cons_self, .array (.record _)⟩
  have hdecls : libraryAstray.decls = library.decls.map (·.retarget astray) := rfl
  have hretargeted (tag : Tag) :
      libraryAstray.decl? tag = (library.decl? tag).map (·.retarget astray) := by
    rw [decl?, lookup?, hdecls, List.find?_map]
    rfl
  obtain ⟨-, hcircular⟩ := (hdecided page.tag).1.recursive _ hcircle
  exact ⟨hcircle, hcircular, (hdecided book.tag).1.circular page.tag (.single hstep) hcircular,
    hgap, ((hdecided mark.tag).1.unknown _ hgap).2, rfl,
    (hdecided shelf.tag).2 astray _ hretargeted⟩

end Registry

end NativeRecord
