import NativeRecord.Proofs.Layout.Embedding
import NativeRecord.Registry

/-!
# Coherence of a registry

A registry keeps layouts and builds new ones from them, while its declarations come in and its
layouts are forgotten in any order.  What it keeps is at all times what would be built anew.

Looking a layout up is a recursion through the types that embed each other, with the registry as its
state: a type is entered before it is built, kept afterwards, and left whether or not the build
succeeds.  The recursion is opened once.  `resolve_asked` says what one call comes to, in five
cases, and the induction on the depth never sees the code again.

Two things have to be said of the state in the middle of a build, and neither is an invariant by
itself.  `Grows` relates the state before to the state after: declarations stay, no layout is lost,
and the types in progress are the same again.  `Sound` speaks of one state: every kept layout was
built from its declaration with the layouts kept now.  It survives the keeping of a new layout
because nothing is lost (`Sound.keep`), and the new one was built from kept ones because its build
had them for answers; that the type was not kept in the meantime follows from its being in progress.
At rest, when nothing is in progress, soundness is coherence, and it is an invariant of all
operations.

## What is here

* `Registry.Op`, `Registry.after` — the operations that change a registry, in a row
  (`Registry.afterAll`).
* `Registry.Asked` — what one call of `Registry.resolve` does.
* `Registry.Grows` — what never changes while layouts are looked up; `Registry.Sound` — what the
  kept layouts come from, also in the middle of a build; `Registry.resolve_ensures` — looking a
  layout up respects both.
* `Registry.Coherent` — the same at rest; `Registry.coherent_afterAll` — it holds after every row of
  operations.
-/

set_option autoImplicit false
namespace NativeRecord

namespace Registry

/-! ## Operations -/

/-- The operations that can change a registry. -/
inductive Op where
  | declare (decl : RecordDecl)
  | layoutOf (tag : Tag)
  | transferOf (tag : Tag)
  | forget

/-- The registry after an operation.  A declaration that is refused leaves it as it is. -/
def after (r : Registry) : Op → Registry
  | .declare decl =>
    match r.declare decl with
    | .ok r => r
    | .error _ => r
  | .layoutOf tag => (r.layoutOf tag).2
  | .transferOf tag => (r.transferOf tag).2
  | .forget => r.forget

/-- The registry after a row of operations. -/
def afterAll (r : Registry) (ops : List Op) : Registry := ops.foldl after r

/-! ## One call of the recursion

The five ways in which asking for a type can end. -/

/-- What asking for a type comes to, one level above `depth`. -/
inductive Asked (depth : Nat) (tag : Tag) (r : Registry) :
    Except LayoutError Layout → Registry → Prop
  | kept {l : Layout} (h : r.kept? tag = some l) : Asked depth tag r (.ok l) r
  | recursive (hnone : r.kept? tag = none) (h : tag ∈ r.inProgress) :
      Asked depth tag r (.error (.recursiveEmbedding tag)) r
  | unknown (hnone : r.kept? tag = none) (hidle : tag ∉ r.inProgress) (h : r.decl? tag = none) :
      Asked depth tag r (.error (.unknownTag tag)) r
  | failed {decl : RecordDecl} {e : LayoutError} {s : Registry} (hnone : r.kept? tag = none)
      (hidle : tag ∉ r.inProgress) (hdecl : r.decl? tag = some decl)
      (hrun : (build .word64 r.config (resolve depth) decl).run (r.enter tag) = (.error e, s)) :
      Asked depth tag r (.error e) (s.finish tag)
  | built {decl : RecordDecl} {l : Layout} {s : Registry} (hnone : r.kept? tag = none)
      (hidle : tag ∉ r.inProgress) (hdecl : r.decl? tag = some decl)
      (hrun : (build .word64 r.config (resolve depth) decl).run (r.enter tag) = (.ok l, s)) :
      Asked depth tag r (.ok ((s.finish tag).keep l).1) ((s.finish tag).keep l).2

/-- **One call does one of the five things.** -/
theorem resolve_asked (depth : Nat) (tag : Tag) (r : Registry) :
    Asked depth tag r ((resolve (depth + 1) tag).run r).1 ((resolve (depth + 1) tag).run r).2 := by
  rw [resolve, ExceptT.run_mk]
  cases hkept : r.kept? tag with
  | some l => exact .kept hkept
  | none =>
    by_cases hprogress : tag ∈ r.inProgress
    · simp only [if_pos hprogress]
      exact .recursive hkept hprogress
    · simp only [if_neg hprogress]
      cases hdecl : r.decl? tag with
      | none => exact .unknown hkept hprogress hdecl
      | some decl =>
        rcases hrun : (build .word64 r.config (resolve depth) decl).run (r.enter tag)
          with ⟨e | l, s⟩
        · simp only [hrun]
          exact .failed hkept hprogress hdecl hrun
        · simp only [hrun]
          exact .built hkept hprogress hdecl hrun

/-! ## What a lookup preserves -/

/-- The state of the registry later in the same lookup, when it has finished what it began since. -/
structure Grows (r s : Registry) : Prop where
  config : s.config = r.config
  decls : s.decls = r.decls
  inProgress : s.inProgress = r.inProgress
  builds : r.builds ≤ s.builds
  kept : ∀ tag l, r.kept? tag = some l → s.kept? tag = some l

/-- The layouts that a registry keeps, also in the middle of a build: none of a type in progress,
each one built from its declaration with the others, and numbered in the order of the builds. -/
structure Sound (r : Registry) : Prop where
  unfinished : ∀ tag ∈ r.inProgress, r.kept? tag = none
  built : ∀ tag l, r.kept? tag = some l → ∃ decl, r.decl? tag = some decl ∧
    Builds .word64 (fun tag l => r.kept? tag = some l) r.config decl { l with serial := 0 }
  numbered : ∀ tag l, r.kept? tag = some l → 0 < l.serial ∧ l.serial ≤ r.builds
  distinct : ∀ tag tag' l l', r.kept? tag = some l → r.kept? tag' = some l' →
    l.serial = l'.serial → tag = tag'

variable {r s t : Registry} {tag : Tag}

theorem Grows.refl (r : Registry) : Grows r r := ⟨rfl, rfl, rfl, Nat.le_refl _, fun _ _ h => h⟩

theorem Grows.trans (h : Grows r s) (h' : Grows s t) : Grows r t where
  config := h'.config.trans h.config
  decls := h'.decls.trans h.decls
  inProgress := h'.inProgress.trans h.inProgress
  builds := Nat.le_trans h.builds h'.builds
  kept tag l hl := h'.kept tag l (h.kept tag l hl)

/-- A build that entered a type and left it has put nothing in progress. -/
theorem Grows.finish (h : Grows (r.enter tag) s) : Grows r (s.finish tag) where
  config := h.config
  decls := h.decls
  inProgress := by
    show s.inProgress.erase tag = r.inProgress
    rw [h.inProgress, enter, List.erase_cons_head]
  builds := h.builds
  kept := h.kept

/-- Keeping a layout numbers it and answers for its type from now on. -/
theorem kept?_keep (r : Registry) (l : Layout) (tag : Tag) :
    (r.keep l).2.kept? tag =
      if l.tag = tag then some { l with serial := r.builds + 1 } else r.kept? tag :=
  lookup?_upsert Layout.tag tag { l with serial := r.builds + 1 } r.layouts

theorem kept?_keep_of_kept {l l' : Layout} (s : Registry) (hnone : r.kept? l.tag = none)
    (hl' : r.kept? tag = some l') : (s.keep l).2.kept? tag = s.kept? tag := by
  rw [kept?_keep, if_neg]
  rintro rfl
  rw [hnone] at hl'
  cases hl'

/-- A layout of a type that had none is kept beside the others. -/
theorem Grows.keep {l : Layout} (h : Grows r s) (hnone : r.kept? l.tag = none) :
    Grows r (s.keep l).2 where
  config := h.config
  decls := h.decls
  inProgress := h.inProgress
  builds := Nat.le_succ_of_le h.builds
  kept tag l' hl' := (kept?_keep_of_kept s hnone hl').trans (h.kept tag l' hl')

/-- Entering a type changes no layout. -/
theorem Sound.enter (h : Sound r) (hnone : r.kept? tag = none) : Sound (r.enter tag) where
  unfinished := List.forall_mem_cons.2 ⟨hnone, h.unfinished⟩
  built := h.built
  numbered := h.numbered
  distinct := h.distinct

/-- Leaving a type changes no layout. -/
theorem Sound.finish (h : Sound r) (tag : Tag) : Sound (r.finish tag) where
  unfinished tag' htag' := h.unfinished tag' (List.mem_of_mem_erase htag')
  built := h.built
  numbered := h.numbered
  distinct := h.distinct

/-- A layout that was built from the kept ones may be kept. -/
theorem Sound.keep {l : Layout} {decl : RecordDecl} (h : Sound r) (hnone : r.kept? l.tag = none)
    (hidle : l.tag ∉ r.inProgress) (hdecl : r.decl? l.tag = some decl)
    (hbuilds : Builds .word64 (fun tag l => r.kept? tag = some l) r.config decl l) :
    Sound (r.keep l).2 := by
  have hkept := ((Grows.refl r).keep hnone).kept
  have hserial : l.serial = 0 := hbuilds.exists_members.2.2.1
  refine ⟨fun tag htag => ?_, fun tag l' hl' => ?_, fun tag l' hl' => ?_, ?_⟩
  · rw [kept?_keep, if_neg (fun htag' : l.tag = tag => hidle (htag' ▸ htag)), h.unfinished tag htag]
  · rw [kept?_keep] at hl'
    split at hl'
    · rename_i htag
      cases hl'
      have hzero : { l with serial := 0 } = l := by cases l; cases hserial; rfl
      exact ⟨decl, htag ▸ hdecl, hzero.symm ▸ hbuilds.mono hkept⟩
    · obtain ⟨decl', hdecl', hbuilds'⟩ := h.built tag l' hl'
      exact ⟨decl', hdecl', hbuilds'.mono hkept⟩
  · rw [kept?_keep] at hl'
    split at hl'
    · cases hl'
      exact ⟨Nat.succ_pos _, Nat.le_refl _⟩
    · obtain ⟨hpos, hle⟩ := h.numbered tag l' hl'
      exact ⟨hpos, Nat.le_succ_of_le hle⟩
  · intro tag tag' l' l'' hl' hl'' heq
    rw [kept?_keep] at hl' hl''
    split at hl' <;> split at hl''
    · rename_i htag htag'
      exact htag.symm.trans htag'
    · cases hl'
      have := (h.numbered tag' l'' hl'').2
      simp only at heq
      omega
    · cases hl''
      have := (h.numbered tag l' hl').2
      simp only at heq
      omega
    · exact h.distinct tag tag' l' l'' hl' hl'' heq

/-- How a lookup leaves the registry: nothing that is kept is lost, and soundness stays. -/
def Later (r s : Registry) : Prop := Grows r s ∧ (Sound r → Sound s)

theorem Later.refl (r : Registry) : Later r r := ⟨.refl r, id⟩

theorem Later.trans (h : Later r s) (h' : Later s t) : Later r t :=
  ⟨h.1.trans h'.1, h'.2 ∘ h.2⟩

/-- What asking does is what the builder needs to know of its resolver. -/
theorem informs_of_ask {resolve : Resolver (StateM Registry)}
    (h : ∀ tag, Ensures (resolve tag) Later fun r l => r.kept? tag = some l) :
    resolve.Informs Later fun r tag l => r.kept? tag = some l where
  refl := .refl
  trans _ _ _ := .trans
  mono h := h.1.kept
  ask := h

/-- **Asking for a type leads to a later state, in which what was answered is kept,** at every
depth. -/
theorem resolve_ensures (depth : Nat) (tag : Tag) :
    Ensures (resolve depth tag) Later fun r l => r.kept? tag = some l := by
  induction depth generalizing tag with
  | zero => exact fun r => ⟨.refl r, nofun⟩
  | succ depth ih =>
    intro r
    have hbuild (decl : RecordDecl) : Ensures (build .word64 r.config (resolve depth) decl) Later
        fun s l => Builds .word64 (fun tag l => s.kept? tag = some l) r.config decl l :=
      build_ensures (informs_of_ask ih) r.config decl
    have hasked := resolve_asked depth tag r
    generalize ((resolve (depth + 1) tag).run r).1 = answer at hasked ⊢
    generalize ((resolve (depth + 1) tag).run r).2 = s at hasked ⊢
    cases hasked with
    | kept h => exact ⟨.refl r, fun l hl => by cases hl; exact h⟩
    | recursive | unknown => exact ⟨.refl r, nofun⟩
    | @failed decl e s hnone hidle hdecl hrun =>
      obtain ⟨⟨hgrows, hsound⟩, -⟩ := hbuild decl (r.enter tag)
      rw [hrun] at hgrows hsound
      exact ⟨⟨hgrows.finish, fun hr => (hsound (hr.enter hnone)).finish tag⟩, nofun⟩
    | @built decl l s hnone hidle hdecl hrun =>
      obtain ⟨⟨hgrows, hsound⟩, hanswer⟩ := hbuild decl (r.enter tag)
      rw [hrun] at hgrows hsound hanswer
      have hbuilds := hanswer l rfl
      have htag : l.tag = tag := hbuilds.exists_members.1.trans (key_of_lookup? hdecl)
      refine ⟨⟨hgrows.finish.keep (htag ▸ hnone), fun hr => ?_⟩, fun l' hl' => ?_⟩
      · have hs := hsound (hr.enter hnone)
        -- The type was in progress during the build, so nobody else can have built it.
        have hunfinished : s.kept? tag = none :=
          hs.unfinished tag (hgrows.inProgress ▸ List.mem_cons_self)
        refine (hs.finish tag).keep (htag ▸ hunfinished) ?_ ?_ (hgrows.config ▸ hbuilds)
        · rwa [hgrows.finish.inProgress, htag]
        · rw [htag, decl?, hgrows.finish.decls]
          exact hdecl
      · cases hl'
        rw [kept?_keep, if_pos htag]
        rfl

/-- **Looking a layout up keeps what is kept, and keeps it sound.** -/
theorem layoutOf_later (r : Registry) (tag : Tag) : Later r (r.layoutOf tag).2 :=
  (resolve_ensures (r.decls.length + 1) tag r).1

/-! ## What the operations preserve

A registry between two operations has nothing in progress. -/

/-- A registry in which nothing is being built. -/
structure AtRest (r : Registry) : Prop where
  sound : Sound r
  idle : r.inProgress = []
  /-- No type is declared twice. -/
  single : (r.decls.map RecordDecl.tag).Nodup

/-- A new registry keeps no layouts. -/
theorem atRest_new (config : Config) : AtRest (new config) where
  sound := ⟨nofun, nofun, nofun, nofun⟩
  idle := rfl
  single := .nil

/-- A lookup, successful or not, leaves nothing in progress. -/
theorem AtRest.layoutOf (h : AtRest r) (tag : Tag) : AtRest (r.layoutOf tag).2 := by
  obtain ⟨hgrows, hsound⟩ := r.layoutOf_later tag
  exact ⟨hsound h.sound, hgrows.inProgress.trans h.idle, hgrows.decls.symm ▸ h.single⟩

/-- What it takes for a declaration to be accepted, and what it does then. -/
theorem declare_eq_ok {decl : RecordDecl} (hok : r.declare decl = .ok s) :
    (∀ old l, r.decl? decl.tag = some old → r.kept? decl.tag = some l → old = decl) ∧
      s = { r with decls := upsert RecordDecl.tag decl r.decls } := by
  rw [declare] at hok
  split at hok
  · cases hok
  · rename_i hrefused
    cases hok
    refine ⟨fun old l hold hl => ?_, rfl⟩
    by_contra hne
    exact hrefused ⟨by simp [hold, hne], by rw [hl]; rfl⟩

/-- A declaration that is accepted is new, or belongs to no kept layout, or is the one that was
there. -/
theorem AtRest.declare (h : AtRest r) {decl : RecordDecl} (hok : r.declare decl = .ok s) :
    AtRest s := by
  obtain ⟨hsame, rfl⟩ := declare_eq_ok hok
  refine ⟨⟨h.sound.unfinished, fun tag l hl => ?_, h.sound.numbered, h.sound.distinct⟩, h.idle,
    nodup_keys_upsert decl h.single⟩
  obtain ⟨old, hold, hbuilds⟩ := h.sound.built tag l hl
  refine ⟨old, ?_, hbuilds⟩
  rw [decl?, lookup?_upsert]
  split
  · rename_i htag
    subst htag
    rw [hsame old l hold hl]
  · exact hold

/-- **Every operation leads to a registry at rest.** -/
theorem AtRest.after (h : AtRest r) (op : Op) : AtRest (r.after op) := by
  cases op with
  | declare decl =>
    rw [Registry.after]
    cases hok : r.declare decl with
    | ok s => exact h.declare hok
    | error e => exact h
  | layoutOf tag | transferOf tag => exact h.layoutOf tag
  | forget => exact ⟨⟨fun _ _ => rfl, nofun, nofun, nofun⟩, h.idle, h.single⟩

theorem AtRest.afterAll (h : AtRest r) (ops : List Op) : AtRest (r.afterAll ops) := by
  induction ops generalizing r with
  | nil => exact h
  | cons op ops ih => exact ih (h.after op)

theorem config_after (r : Registry) (op : Op) : (r.after op).config = r.config := by
  cases op with
  | declare decl =>
    rw [after]
    cases hok : r.declare decl with
    | ok s => rw [(declare_eq_ok hok).2]
    | error e => rfl
  | layoutOf tag | transferOf tag => exact (r.layoutOf_later tag).1.config
  | forget => rfl

theorem config_afterAll (r : Registry) (ops : List Op) : (r.afterAll ops).config = r.config := by
  induction ops generalizing r with
  | nil => rfl
  | cons op ops ih => exact (ih (r.after op)).trans (r.config_after op)

/-! ## Coherence

What soundness at rest comes to for those who use the registry. -/

/-- A registry at rest whose layouts are what would be built now. -/
structure Coherent (r : Registry) : Prop where
  idle : r.inProgress = []
  declared : ∀ tag l, r.kept? tag = some l → r.declares tag = true
  /-- Building from the present declaration, with the kept layouts as answers, gives the layout
  again, up to the number that tells it apart. -/
  rebuilt : ∀ tag l decl, r.kept? tag = some l → r.decl? tag = some decl →
    ∀ answer, (∀ tag l, r.kept? tag = some l → answer tag = .ok l) →
      build? r.config answer decl = .ok { l with serial := 0 }
  /-- What a kept layout embeds is kept itself, under its own tag and as the same object. -/
  embedded : ∀ tag l inner, r.kept? tag = some l → l.Embeds inner → r.kept? inner.tag = some inner
  distinct : ∀ tag tag' l l', r.kept? tag = some l → r.kept? tag' = some l' →
    l.serial = l'.serial → tag = tag'

/-- What lies in a shape that was resolved with the kept layouts is kept. -/
theorem Sound.kept_of_holds (h : Sound r) {limit : SizeLimit} {platform : Platform} {owner : Tag}
    {name : String} {type : CType} {shape : Shape} {inner : Layout} (hholds : shape.Holds inner)
    (hshape : ShapeOf limit platform owner (fun tag l => r.kept? tag = some l) name type shape) :
    r.kept? inner.tag = some inner := by
  induction hholds generalizing limit platform owner name type with
  | record l =>
    cases hshape with
    | arith hs | pointer hs => obtain ⟨_, hs⟩ := scalarShape_eq_ok hs; cases hs
    | record hl => rwa [key_of_lookup? hl]
  | @deeper l inner m hm _ ih =>
    cases hshape with
    | arith hs | pointer hs => obtain ⟨_, hs⟩ := scalarShape_eq_ok hs; cases hs
    | record hl =>
      obtain ⟨decl, -, hbuilds⟩ := h.built _ _ hl
      obtain ⟨-, -, -, pack, members, hmembers, hplaced, -, -⟩ := hbuilds.exists_members
      obtain ⟨m', hm', hplaced⟩ := exists_mem_of_forall₂ hplaced hm
      obtain ⟨d, -, hd⟩ := exists_mem_of_forall₂ hmembers hm'
      exact ih (hplaced.shape ▸ hd.shape)
  | array _ ih =>
    cases hshape with
    | arith hs | pointer hs => obtain ⟨_, hs⟩ := scalarShape_eq_ok hs; cases hs
    | array hs _ => exact ih hs

/-- What lies in a kept layout is kept itself, by induction over the shape. -/
theorem Sound.kept_of_embeds (h : Sound r) {l inner : Layout} (hl : r.kept? tag = some l)
    (hinner : l.Embeds inner) : r.kept? inner.tag = some inner := by
  obtain ⟨m, hm, hholds⟩ := hinner
  have hshape : ShapeOf .word64 r.config.platform tag (fun tag l => r.kept? tag = some l) ""
      (.record tag) (.record l) := .record hl
  exact h.kept_of_holds (.deeper hm hholds) hshape

/-- A registry at rest is coherent. -/
theorem AtRest.coherent (h : AtRest r) : Coherent r where
  idle := h.idle
  declared tag l hl := by
    obtain ⟨decl, hdecl, -⟩ := h.sound.built tag l hl
    rw [declares, hdecl]
    rfl
  rebuilt tag l decl hl hdecl answer hanswer := by
    obtain ⟨decl', hdecl', hbuilds⟩ := h.sound.built tag l hl
    obtain rfl : decl' = decl := Option.some.inj (hdecl'.symm.trans hdecl)
    exact build?_eq_ok_iff.2 (hbuilds.mono hanswer)
  embedded tag l inner hl hinner := h.sound.kept_of_embeds hl hinner
  distinct := h.sound.distinct

/-- **A registry is coherent after every row of operations,** successful or not. -/
theorem coherent_afterAll (config : Config) (ops : List Op) :
    ((new config).afterAll ops).config = config ∧ ((new config).afterAll ops).Coherent :=
  ⟨config_afterAll _ _, ((atRest_new config).afterAll ops).coherent⟩

end Registry

end NativeRecord
