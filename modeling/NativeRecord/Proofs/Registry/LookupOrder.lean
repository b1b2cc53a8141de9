import Mathlib.Data.List.Perm.Subperm
import NativeRecord.Proofs.Registry.Coherence

/-!
# The order of lookups

A registry builds a layout when it is first asked for, and what it has built by then depends on
what it was asked before.  Its answers do not: they depend on the declarations alone.

To compare what was asked before with what was not, both are compared with a third: the layout built
afresh, with no state at all (`layoutAfresh`).  A lookup may find a layout that is kept, and then
that one must be what a build would give now.  It is, because the declarations of a type and of all
that it embeds cannot be replaced once its layout is kept, and none of these types is in progress,
so that the build would not be cut short by a circle.

Numbers are given out in the order of the builds and do depend on it, in the layout and in all that
it embeds.  They are taken out on both sides (`Layout.unnumbered`); since no build looks at them, a
build from layouts without numbers is the build without them.

## What is here

* `Layout.unnumbered` — a layout without the numbers that tell equal layouts apart.
* `layoutAfresh` — the layout of a type, built with nothing kept.
* `Registry.resolve_afresh` — what a registry answers, from the kept layouts or not, is the layout
  built afresh.
* `Registry.lookups_agree` — registries with the same declarations answer alike.
-/

set_option autoImplicit false
namespace NativeRecord

/-! ## Layouts without their numbers

The numbers are taken out at every depth.  What a layout tells to one that embeds it stays the same.
-/

mutual

/-- The shape with no number in the records that lie in it. -/
def Shape.unnumbered : Shape → Shape
  | .scalar type size alignment => .scalar type size alignment
  | .record l => .record l.unnumbered
  | .array element length => .array element.unnumbered length

def MemberLayout.unnumbered : MemberLayout → MemberLayout
  | ⟨name, type, shape, offset, alignment, bits, fixed, unionGroup⟩ =>
    ⟨name, type, shape.unnumbered, offset, alignment, bits, fixed, unionGroup⟩

/-- The layout with its number taken out, and those of the records that it embeds. -/
def Layout.unnumbered : Layout → Layout
  | ⟨tag, form, members, size, alignment, coverage, _⟩ =>
    ⟨tag, form, unnumberedMembers members, size, alignment, coverage, 0⟩

def unnumberedMembers : List MemberLayout → List MemberLayout
  | [] => []
  | m :: ms => m.unnumbered :: unnumberedMembers ms

end

theorem Shape.unnumbered_eq (s : Shape) : s.unnumbered = s.mapRecords Layout.unnumbered := by
  induction s using Shape.arrayInduction with
  | scalar | record => rw [unnumbered]; rfl
  | array _ _ ih => rw [unnumbered, ih]; rfl

theorem unnumberedMembers_eq (ms : List MemberLayout) :
    unnumberedMembers ms = ms.map (·.mapRecords Layout.unnumbered) := by
  induction ms with
  | nil => rfl
  | cons m ms ih =>
    have hm : m.unnumbered = m.mapRecords Layout.unnumbered := by
      obtain ⟨_, _, shape, _, _, _, _, _⟩ := m
      rw [MemberLayout.unnumbered, Shape.unnumbered_eq]
      rfl
    rw [unnumberedMembers, List.map_cons, hm, ih]

theorem Layout.unnumbered_eq (l : Layout) :
    l.unnumbered = { l.mapRecords Layout.unnumbered with serial := 0 } := by
  obtain ⟨_, _, members, _, _, _, _⟩ := l
  rw [unnumbered, unnumberedMembers_eq]
  rfl

theorem Layout.agrees_unnumbered : Layout.Agrees Layout.unnumbered where
  size l := by rw [Layout.unnumbered_eq]; rfl
  alignment l := by rw [Layout.unnumbered_eq]; rfl
  coverage l := by rw [Layout.unnumbered_eq]; rfl

/-! ## Building afresh

The induction is on the depth.  A build one level up asks for the embedded records, each of which is
answered afresh by the induction hypothesis, whatever the lookups before it have added to the
registry. -/

/-- The layout of a type, with the layouts of all embedded records built for it.  The path holds
the types that it is built for, the innermost first.  At depth zero nothing is built. -/
def layoutAfresh (config : Config) (decl? : Tag → Option RecordDecl) :
    (depth : Nat) → (path : List Tag) → Tag → Except LayoutError Layout
  | 0, _, tag => .error (.recursiveEmbedding tag)
  | depth + 1, path, tag =>
    if tag ∈ path then .error (.recursiveEmbedding tag)
    else
      match decl? tag with
      | none => .error (.unknownTag tag)
      | some decl => build? config (layoutAfresh config decl? depth (tag :: path)) decl

/-- The depth is enough for any path that goes on from this one through the given types. -/
structure Room (tags : List Tag) (depth : Nat) (path : List Tag) : Prop where
  nodup : path.Nodup
  subset : path ⊆ tags
  length_lt : tags.length < depth + path.length

theorem Room.depth_ne_zero {tags path : List Tag} (h : Room tags 0 path) : False := by
  have hle := (List.subperm_of_subset h.nodup h.subset).length_le
  have hlt := h.length_lt
  omega

theorem Room.push {tags path : List Tag} {depth : Nat} {tag : Tag}
    (h : Room tags (depth + 1) path) (hfresh : tag ∉ path) (hmem : tag ∈ tags) :
    Room tags depth (tag :: path) where
  nodup := List.nodup_cons.2 ⟨hfresh, h.nodup⟩
  subset := List.cons_subset.2 ⟨hmem, h.subset⟩
  length_lt := by
    have hlt := h.length_lt
    rw [List.length_cons]
    omega

namespace Registry

variable {r s : Registry}

theorem mem_tags_of_decl? {tag : Tag} {decl : RecordDecl} (h : r.decl? tag = some decl) :
    tag ∈ r.decls.map RecordDecl.tag :=
  isSome_lookup?_iff.1 (show (r.decl? tag).isSome from h ▸ rfl)

/-- **A kept layout is the one that is built afresh,** also while other types are built: since
neither it nor what it embeds is one of these, they are not met on the way. -/
theorem Sound.afresh_of_kept (h : Sound r) {depth : Nat} {path : List Tag} {tag : Tag} {l : Layout}
    (hl : r.kept? tag = some l) (hroom : Room (r.decls.map RecordDecl.tag) depth path)
    (htag : tag ∉ path) (hinner : ∀ inner, l.Embeds inner → inner.tag ∉ path) :
    layoutAfresh r.config r.decl? depth path tag = .ok l.unnumbered := by
  induction depth generalizing path tag l with
  | zero => exact hroom.depth_ne_zero.elim
  | succ depth ih =>
    obtain ⟨decl, hdecl, hbuilds⟩ := h.built tag l hl
    have hpush := hroom.push htag (mem_tags_of_decl? hdecl)
    -- A record that embeds one of its own type would be smaller than itself.
    have hother : ∀ inner, l.Embeds inner → inner.tag ≠ tag := by
      rintro inner hemb rfl
      obtain rfl := Option.some.inj (hl.symm.trans (h.kept_of_embeds hl hemb))
      exact Nat.lt_irrefl _ hemb.sizeOf_lt
    rw [layoutAfresh, if_neg htag, hdecl, Layout.unnumbered_eq]
    refine build?_eq_ok_iff.2 ((hbuilds.mapRecords Layout.agrees_unnumbered).mono ?_)
    rintro tag' _ ⟨inner, hkept, hemb, rfl⟩
    have htag' : inner.tag = tag' := key_of_lookup? hkept
    refine ih hkept hpush ?_ fun deeper hdeeper => ?_
    · rw [← htag']
      exact List.not_mem_cons_of_ne_of_not_mem (hother inner hemb) (hinner inner hemb)
    · have hemb' := Layout.Embeds.trans hemb hdeeper
      exact List.not_mem_cons_of_ne_of_not_mem (hother deeper hemb') (hinner deeper hemb')

/-- Nothing that a kept layout embeds is in progress, nor is its own type. -/
theorem Sound.idle_of_kept (h : Sound r) {tag : Tag} {l : Layout} (hl : r.kept? tag = some l) :
    tag ∉ r.inProgress ∧ ∀ inner, l.Embeds inner → inner.tag ∉ r.inProgress := by
  have hidle : ∀ tag l, r.kept? tag = some l → tag ∉ r.inProgress := by
    intro tag l hl hmem
    rw [h.unfinished tag hmem] at hl
    cases hl
  exact ⟨hidle tag l hl, fun inner hinner => hidle _ _ (h.kept_of_embeds hl hinner)⟩

/-- At this depth, what is answered is the layout that is built afresh, whatever is kept. -/
def AnswersAfresh (depth : Nat) : Prop :=
  ∀ tag r, Sound r → Room (r.decls.map RecordDecl.tag) depth r.inProgress →
    ((resolve depth tag).run r).1.map Layout.unnumbered =
      layoutAfresh r.config r.decl? depth r.inProgress tag

/-- One level up, a build comes to the same as one from layouts that are built afresh. -/
theorem AnswersAfresh.build {depth : Nat} (hafresh : AnswersAfresh depth) (h : Sound r) {tag : Tag}
    {decl : RecordDecl} (hroom : Room (r.decls.map RecordDecl.tag) (depth + 1) r.inProgress)
    (hnone : r.kept? tag = none) (hidle : tag ∉ r.inProgress) (hdecl : r.decl? tag = some decl) :
    ((build .word64 r.config (resolve depth) decl).run (r.enter tag)).1.map
        (·.mapRecords Layout.unnumbered) =
      build? r.config (layoutAfresh r.config r.decl? depth (tag :: r.inProgress)) decl := by
  have hpush := hroom.push hidle (mem_tags_of_decl? hdecl)
  -- While the embedded records are asked for, the declarations and the path stay the same.
  have hfollows (tag' : Tag) :
      Follows (fun s => Sound s ∧ Grows (r.enter tag) s) Layout.unnumbered (resolve depth tag')
        (liftM (layoutAfresh r.config r.decl? depth (tag :: r.inProgress) tag')) := by
    rintro s ⟨hs, hgrows⟩
    have hdecl? : s.decl? = r.decl? := funext fun tag => by
      rw [decl?, hgrows.decls]
      rfl
    have hroom' : Room (s.decls.map RecordDecl.tag) depth s.inProgress := by
      rw [hgrows.decls, hgrows.inProgress]
      exact hpush
    obtain ⟨⟨hgrows', hsound⟩, -⟩ := resolve_ensures depth tag' s
    refine ⟨?_, hsound hs, hgrows.trans hgrows'⟩
    rw [hafresh tag' s hs hroom', hdecl?, hgrows.config, hgrows.inProgress]
    rfl
  exact (build_follows Layout.agrees_unnumbered hfollows r.config decl (r.enter tag)
    ⟨h.enter hnone, .refl _⟩).1

/-- **What is answered is the layout that is built afresh,** or the error that this ends with,
whatever is kept. -/
theorem resolve_afresh (depth : Nat) : AnswersAfresh depth := by
  induction depth with
  | zero => exact fun _ _ _ _ => rfl
  | succ depth ih =>
    intro tag r h hroom
    have hasked := resolve_asked depth tag r
    generalize ((resolve (depth + 1) tag).run r).1 = answer at hasked ⊢
    generalize ((resolve (depth + 1) tag).run r).2 = s at hasked
    cases hasked with
    | kept hl =>
      obtain ⟨htag, hinner⟩ := h.idle_of_kept hl
      exact (h.afresh_of_kept hl hroom htag hinner).symm
    | recursive hnone hmem => rw [layoutAfresh, if_pos hmem]; rfl
    | unknown hnone hidle hdecl => rw [layoutAfresh, if_neg hidle, hdecl]; rfl
    | failed hnone hidle hdecl hrun =>
      rw [layoutAfresh, if_neg hidle, hdecl]
      have hanswer := ih.build h hroom hnone hidle hdecl
      rw [hrun] at hanswer
      exact hanswer
    | @built decl l s hnone hidle hdecl hrun =>
      rw [layoutAfresh, if_neg hidle, hdecl]
      have hanswer := ih.build h hroom hnone hidle hdecl
      rw [hrun] at hanswer
      have hserial : l.serial = 0 := (build?_eq_ok_iff.1 hanswer.symm).exists_members.2.2.1
      refine Eq.trans (congrArg Except.ok ?_) hanswer
      rw [Layout.unnumbered_eq, ← hserial]
      rfl

/-! ## Two registries

Both answers are the one built afresh from the declarations that the two have in common.  The depth
is taken from the number of declarations, which is the same. -/

/-- What comes of asking for a layout, up to the numbers. -/
def answer (r : Registry) (tag : Tag) : Except LayoutError Layout :=
  (r.layoutOf tag).1.map Layout.unnumbered

/-- There is a level for each declaration, and one to look the last one up. -/
theorem AtRest.room (h : AtRest r) :
    Room (r.decls.map RecordDecl.tag) (r.decls.length + 1) r.inProgress := by
  rw [h.idle]
  exact ⟨.nil, List.nil_subset _, by simp⟩

theorem AtRest.answer_afresh (h : AtRest r) (tag : Tag) :
    r.answer tag = layoutAfresh r.config r.decl? (r.decls.length + 1) [] tag := by
  rw [answer, Registry.layoutOf, resolve_afresh _ tag r h.sound h.room, h.idle]

/-- Registries that declare the same types have equally many declarations. -/
theorem AtRest.length_decls_eq (hr : AtRest r) (hs : AtRest s)
    (h : ∀ tag, (r.decl? tag).isSome = (s.decl? tag).isSome) : r.decls.length = s.decls.length := by
  have hperm : (r.decls.map RecordDecl.tag).Perm (s.decls.map RecordDecl.tag) := by
    refine (List.perm_ext_iff_of_nodup hr.single hs.single).2 ?_
    intro tag
    rw [← isSome_lookup?_iff, ← isSome_lookup?_iff]
    exact iff_of_eq (congrArg (· = true) (h tag))
  simpa using hperm.length_eq

theorem AtRest.answer_eq (hr : AtRest r) (hs : AtRest s) (hconfig : r.config = s.config)
    (h : ∀ tag, r.decl? tag = s.decl? tag) (tag : Tag) : r.answer tag = s.answer tag := by
  have hlength := hr.length_decls_eq hs fun tag => congrArg Option.isSome (h tag)
  rw [hr.answer_afresh, hs.answer_afresh, hlength, hconfig, funext h]

/-- Whether an operation is anything but a refused declaration. -/
def accepts (r : Registry) : Op → Bool
  | .declare decl => (r.declare decl).isOk
  | _ => true

/-- Two registries accept the same declarations of a row of operations. -/
def AcceptAlike : Registry → Registry → List Op → Prop
  | _, _, [] => True
  | r, s, op :: ops => r.accepts op = s.accepts op ∧ AcceptAlike (r.after op) (s.after op) ops

theorem decl?_after (r : Registry) (op : Op) (tag : Tag) :
    (r.after op).decl? tag =
      match op with
      | .declare decl => if decl.tag = tag ∧ r.accepts op then some decl else r.decl? tag
      | _ => r.decl? tag := by
  cases op with
  | declare decl =>
    cases hok : r.declare decl with
    | error e => simp [after, accepts, hok, Except.isOk, Except.toBool]
    | ok s =>
      have hs : s.decls = upsert RecordDecl.tag decl r.decls := by rw [(declare_eq_ok hok).2]
      simp [after, accepts, hok, Except.isOk, Except.toBool, decl?, hs, lookup?_upsert]
  | layoutOf tag' | transferOf tag' =>
    show lookup? _ _ (r.layoutOf tag').2.decls = _
    rw [(r.layoutOf_later tag').1.decls]
    rfl
  | forget => rfl

theorem afterAll_append (r : Registry) (ops ops' : List Op) :
    r.afterAll (ops ++ ops') = (r.afterAll ops).afterAll ops' := List.foldl_append

theorem AcceptAlike.decl?_eq {ops : List Op} (h : AcceptAlike r s ops)
    (hdecl : ∀ tag, r.decl? tag = s.decl? tag) (tag : Tag) :
    (r.afterAll ops).decl? tag = (s.afterAll ops).decl? tag := by
  induction ops generalizing r s with
  | nil => exact hdecl tag
  | cons op ops ih =>
    refine ih h.2 ?_
    intro tag
    rw [decl?_after, decl?_after, h.1, hdecl]

/-- **Registries with the same declarations answer alike,** with layouts that differ in their
numbers at most or with the same error, whatever they were asked before.  So with the same
declarations accepted after it, a lookup changes no later answer, whether it fails or not. -/
theorem lookups_agree (config : Config) :
    (∀ ops ops', (∀ tag, ((new config).afterAll ops).decl? tag =
          ((new config).afterAll ops').decl? tag) →
        ∀ tag, ((new config).afterAll ops).answer tag = ((new config).afterAll ops').answer tag) ∧
      ∀ ops asked more, AcceptAlike (((new config).afterAll ops).after (.layoutOf asked))
          ((new config).afterAll ops) more →
        ∀ tag, ((new config).afterAll (ops ++ .layoutOf asked :: more)).answer tag =
          ((new config).afterAll (ops ++ more)).answer tag := by
  have hagree (ops ops' : List Op) (h : ∀ tag, ((new config).afterAll ops).decl? tag =
      ((new config).afterAll ops').decl? tag) (tag : Tag) :=
    ((atRest_new config).afterAll ops).answer_eq ((atRest_new config).afterAll ops')
      ((config_afterAll _ ops).trans (config_afterAll _ ops').symm) h tag
  refine ⟨hagree, fun ops asked more halike => hagree _ _ fun tag => ?_⟩
  rw [afterAll_append, afterAll_append]
  exact halike.decl?_eq (fun tag => decl?_after _ _ tag) tag

/-! ## A lookup that fails half way

What was built before the failure stays kept and is used by later lookups, without an effect on any
answer. -/

/-- A record of one number. -/
def point : RecordDecl where
  tag := ⟨"point"⟩
  members := [{ name := "x", type := .arith (.unsigned .w16) }]

/-- A record that embeds the former and another one. -/
def mark : RecordDecl where
  tag := ⟨"mark"⟩
  members := [{ name := "at", type := .record ⟨"point"⟩ },
    { name := "style", type := .record ⟨"style"⟩ }]

/-- The other one. -/
def style : RecordDecl where
  tag := ⟨"style"⟩
  members := [{ name := "color", type := .arith (.unsigned .w32) }]

/-- The lookup of `mark` keeps the layout of `point` and then fails for want of `style`, which is
declared afterwards. -/
theorem lookups_agree_mark :
    ((new .standard).afterAll [.declare mark, .declare point]).answer mark.tag =
        .error (.unknownTag style.tag) ∧
      ((new .standard).afterAll [.declare mark, .declare point, .layoutOf mark.tag]).answer
          point.tag =
        ((new .standard).afterAll [.declare point, .declare mark]).answer point.tag ∧
      ((new .standard).afterAll ([.declare mark, .declare point] ++
          .layoutOf mark.tag :: [.declare style])).answer mark.tag =
        ((new .standard).afterAll ([.declare mark, .declare point] ++
          [.declare style])).answer mark.tag := by
  refine ⟨rfl, (lookups_agree .standard).1 _ _ (fun tag => ?_) _,
    (lookups_agree .standard).2 [.declare mark, .declare point] mark.tag [.declare style]
      ⟨rfl, trivial⟩ _⟩
  have hdecls : ((new .standard).afterAll
      [.declare mark, .declare point, .layoutOf mark.tag]).decls = [mark, point] := rfl
  have hdecls' : ((new .standard).afterAll [.declare point, .declare mark]).decls =
      [point, mark] := rfl
  rw [decl?, decl?, hdecls, hdecls', lookup?_cons, lookup?_cons, lookup?_cons, lookup?_cons]
  by_cases hmark : mark.tag = tag
  · subst hmark
    rfl
  · rw [if_neg hmark, if_neg hmark]

end Registry

end NativeRecord
