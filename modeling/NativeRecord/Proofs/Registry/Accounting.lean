import NativeRecord.Proofs.Registry.Coherence

/-!
# How often layouts are built

Looking up one layout may build many, and may build some and fail then.  However that goes, each
layout that is built is kept under its own tag, and none is built again until the registry forgets
them all.

The registry itself only counts its builds.  Which types they were for is written into a journal
next to it, by a recursion that does the same otherwise; erasing the journal gives back the
registry's own.  What is proved of the journal is therefore true of the registry.

A lookup appends to three lists, the kept layouts, the journal and the count, and always the same to
each of them (`Journaled.Adds`).  This is closed under doing one thing after the other, so it holds
of the nested lookups of a build, and of a build that fails in the middle.  Over time it is an
invariant of the calls, `Ledger.Balanced`, which starts anew whenever the layouts are forgotten.

## What is here

* `Registry.recording` — the recursion of `Registry.resolve` with a journal, in which each build
  that succeeds enters its tag; without the journal it is the same (`recording_erased`).
* `Journaled.Adds` — what a lookup adds: to the kept layouts, to the number of builds and to the
  journal the same ones.
* `Call`, `Ledger` — the calls that a registry takes, and what they come to over time: the journal
  and the layouts handed out since the layouts were forgotten last, and how many were dropped.
* `Ledger.built_at_most_once` — the books balance after every row of calls.
-/

set_option autoImplicit false
namespace NativeRecord

namespace Registry

/-! ## The recursion with a journal

The entry is made where the layout is kept, at the end of a build that succeeded.  Types that are
built on the way stand before it. -/

/-- A registry, and the types that were built since the journal was begun, in the order in which
their builds ended. -/
structure Journaled where
  registry : Registry
  built : List Tag

/-- The layout of a type, as `resolve` answers.  A build that succeeds is entered in the journal
when its layout is kept. -/
def recording : (depth : Nat) → Resolver (StateM Journaled)
  | 0, tag => throw (.recursiveEmbedding tag)
  | depth + 1, tag => ExceptT.mk fun s =>
    match s.registry.kept? tag with
    | some layout => (.ok layout, s)
    | none =>
      if tag ∈ s.registry.inProgress then (.error (.recursiveEmbedding tag), s)
      else
        match s.registry.decl? tag with
        | none => (.error (.unknownTag tag), s)
        | some decl =>
          let (answer, s) := (build .word64 s.registry.config (recording depth) decl).run
            { s with registry := s.registry.enter tag }
          let r := s.registry.finish tag
          match answer with
          | .error e => (.error e, ⟨r, s.built⟩)
          | .ok layout =>
            let (layout, r) := r.keep layout
            (.ok layout, ⟨r, s.built ++ [tag]⟩)

/-- **Without its journal, the recursion is that of the registry.** -/
theorem recording_erased (depth : Nat) (tag : Tag) (s : Journaled) :
    ((recording depth tag).run s).1 = ((resolve depth tag).run s.registry).1 ∧
      ((recording depth tag).run s).2.registry = ((resolve depth tag).run s.registry).2 := by
  induction depth generalizing tag s with
  | zero => exact ⟨rfl, rfl⟩
  | succ depth ih =>
    have hbuild (config : Config) (decl : RecordDecl) (t : Journaled) :
        ((build .word64 config (recording depth) decl).run t).1 =
            ((build .word64 config (resolve depth) decl).run t.registry).1 ∧
          ((build .word64 config (recording depth) decl).run t).2.registry =
            ((build .word64 config (resolve depth) decl).run t.registry).2 := by
      have hrelates : (Comparison.through Journaled.registry).Relates Eq _
          (build .word64 config (recording depth) decl) _ :=
        build_relates_self config decl fun tag _ => Comparison.relates_through_iff.2 (ih tag)
      exact Comparison.relates_through_iff.1 hrelates t
    rw [recording, resolve, ExceptT.run_mk, ExceptT.run_mk]
    cases s.registry.kept? tag with
    | some l => exact ⟨rfl, rfl⟩
    | none =>
      by_cases hprogress : tag ∈ s.registry.inProgress
      · simp only [if_pos hprogress, and_self]
      · simp only [if_neg hprogress]
        cases s.registry.decl? tag with
        | none => exact ⟨rfl, rfl⟩
        | some decl =>
          obtain ⟨hanswer, hstate⟩ := hbuild s.registry.config decl
            { s with registry := s.registry.enter tag }
          rcases hrun : (build .word64 s.registry.config (recording depth) decl).run
            { s with registry := s.registry.enter tag } with ⟨answer, t⟩
          rcases hrun' : (build .word64 s.registry.config (resolve depth) decl).run
            (s.registry.enter tag) with ⟨answer', r⟩
          simp only [hrun, hrun'] at hanswer hstate ⊢
          subst hanswer hstate
          cases answer <;> exact ⟨rfl, rfl⟩

/-! ## What a lookup adds

By induction on the depth.  A tag is free when its layout is kept, because the type was in progress
all the time and no lookup within has built it. -/

/-- Where a call of the recursion leads to, one level above `depth`: nowhere, or to the end of a
build that failed, or of one that succeeded. -/
inductive Recorded (depth : Nat) (tag : Tag) (s : Journaled) : Journaled → Prop
  | idle : Recorded depth tag s s
  | failed {decl : RecordDecl} {e : LayoutError} {t : Journaled}
      (hnone : s.registry.kept? tag = none)
      (hrun : (build .word64 s.registry.config (recording depth) decl).run
        { s with registry := s.registry.enter tag } = (.error e, t)) :
      Recorded depth tag s ⟨t.registry.finish tag, t.built⟩
  | built {decl : RecordDecl} {l : Layout} {t : Journaled} (hnone : s.registry.kept? tag = none)
      (hdecl : s.registry.decl? tag = some decl)
      (hrun : (build .word64 s.registry.config (recording depth) decl).run
        { s with registry := s.registry.enter tag } = (.ok l, t)) :
      Recorded depth tag s ⟨((t.registry.finish tag).keep l).2, t.built ++ [tag]⟩

theorem recording_recorded (depth : Nat) (tag : Tag) (s : Journaled) :
    Recorded depth tag s ((recording (depth + 1) tag).run s).2 := by
  rw [recording, ExceptT.run_mk]
  cases hkept : s.registry.kept? tag with
  | some l => exact .idle
  | none =>
    by_cases hprogress : tag ∈ s.registry.inProgress
    · simp only [if_pos hprogress]
      exact .idle
    · simp only [if_neg hprogress]
      cases hdecl : s.registry.decl? tag with
      | none => exact .idle
      | some decl =>
        rcases hrun : (build .word64 s.registry.config (recording depth) decl).run
          { s with registry := s.registry.enter tag } with ⟨e | l, t⟩
        · simp only [hrun]
          exact .failed hkept hrun
        · simp only [hrun]
          exact .built hkept hdecl hrun

/-- The layouts kept since, each one counted once and entered in the journal under its tag. -/
structure Adds (s t : Journaled) (new : List Layout) : Prop where
  layouts : t.registry.layouts = s.registry.layouts ++ new
  builds : t.registry.builds = s.registry.builds + new.length
  built : t.built = s.built ++ new.map (·.tag)
  nodup : (s.registry.layouts.map (·.tag)).Nodup → (t.registry.layouts.map (·.tag)).Nodup

theorem Adds.refl (s : Journaled) : Adds s s [] :=
  ⟨(List.append_nil _).symm, rfl, (List.append_nil _).symm, id⟩

theorem Adds.trans {s t u : Journaled} {new new' : List Layout} (h : Adds s t new)
    (h' : Adds t u new') : Adds s u (new ++ new') where
  layouts := by rw [h'.layouts, h.layouts, List.append_assoc]
  builds := by rw [h'.builds, h.builds, List.length_append, Nat.add_assoc]
  built := by rw [h'.built, h.built, List.map_append, List.append_assoc]
  nodup := h'.nodup ∘ h.nodup

/-- What is kept under a tag that was free comes to the end. -/
theorem layouts_keep {r : Registry} {l : Layout} (h : r.kept? l.tag = none) :
    (r.keep l).2.layouts = r.layouts ++ [{ l with serial := r.builds + 1 }] :=
  upsert_eq_append h

/-- A lookup leads to a later state of the registry and, if the kept layouts are sound, what it
keeps is what it builds. -/
def Records (s t : Journaled) : Prop :=
  Later s.registry t.registry ∧ (Sound s.registry → ∃ new, Adds s t new)

theorem Records.refl (s : Journaled) : Records s s := ⟨.refl _, fun _ => ⟨[], .refl s⟩⟩

theorem Records.trans {s t u : Journaled} (h : Records s t) (h' : Records t u) : Records s u := by
  refine ⟨h.1.trans h'.1, fun hs => ?_⟩
  obtain ⟨new, hnew⟩ := h.2 hs
  obtain ⟨new', hnew'⟩ := h'.2 (h.1.2 hs)
  exact ⟨new ++ new', hnew.trans hnew'⟩

theorem recording_records (depth : Nat) (tag : Tag) :
    Ensures (recording depth tag) Records fun _ _ => True := by
  induction depth generalizing tag with
  | zero => exact fun s => ⟨.refl s, fun _ _ => trivial⟩
  | succ depth ih =>
    intro s
    refine ⟨⟨?_, fun hs => ?_⟩, fun _ _ => trivial⟩
    · rw [(recording_erased (depth + 1) tag s).2]
      exact (resolve_ensures (depth + 1) tag s.registry).1
    have hinforms : (recording depth).Informs Records fun _ _ _ => True :=
      ⟨.refl, fun _ _ _ => .trans, fun _ _ _ h => h, ih⟩
    have hbuild (decl : RecordDecl) :
        Ensures (build .word64 s.registry.config (recording depth) decl) Records
          fun _ l => Builds .word64 (fun _ _ => True) s.registry.config decl l :=
      build_ensures hinforms s.registry.config decl
    have hentered (hnone : s.registry.kept? tag = none) := hs.enter hnone
    have hrecorded := recording_recorded depth tag s
    generalize ((recording (depth + 1) tag).run s).2 = t at hrecorded ⊢
    cases hrecorded with
    | idle => exact ⟨[], .refl s⟩
    | @failed decl e t hnone hrun =>
      obtain ⟨⟨-, hadds⟩, -⟩ := hbuild decl { s with registry := s.registry.enter tag }
      rw [hrun] at hadds
      obtain ⟨new, hnew⟩ := hadds (hentered hnone)
      exact ⟨new, hnew.layouts, hnew.builds, hnew.built, hnew.nodup⟩
    | @built decl l t hnone hdecl hrun =>
      obtain ⟨⟨⟨hgrows, hsound⟩, hadds⟩, hanswer⟩ :=
        hbuild decl { s with registry := s.registry.enter tag }
      rw [hrun] at hgrows hsound hadds hanswer
      obtain ⟨new, hnew⟩ := hadds (hentered hnone)
      have htag : l.tag = tag := (hanswer l rfl).exists_members.1.trans (key_of_lookup? hdecl)
      -- The type was in progress during the build, so its tag is still free.
      have hfree : (t.registry.finish tag).kept? l.tag = none := by
        refine (hsound (hentered hnone)).unfinished l.tag ?_
        rw [htag, hgrows.inProgress]
        exact List.mem_cons_self
      refine ⟨new ++ [{ l with serial := t.registry.builds + 1 }], ?_, ?_, ?_,
        fun hnodup => nodup_keys_upsert _ (hnew.nodup hnodup)⟩
      · show ((t.registry.finish tag).keep l).2.layouts = _
        rw [layouts_keep hfree, ← List.append_assoc]
        exact congrArg (· ++ _) hnew.layouts
      · rw [List.length_append, ← Nat.add_assoc]
        exact congrArg (· + 1) hnew.builds
      · rw [List.map_append, ← List.append_assoc, ← hnew.built, List.map_singleton, htag]

/-- **A lookup adds what it builds,** and takes nothing away. -/
theorem exists_adds_of_lookup {s : Journaled} (hs : Sound s.registry) (depth : Nat) (tag : Tag) :
    ∃ new, Adds s ((recording depth tag).run s).2 new := (recording_records depth tag s).1.2 hs

/-! ## Accounts over time

One step for each kind of call.  Only lookups build, and only one call takes layouts away. -/

/-- The calls that a registry takes. -/
inductive Call where
  | operate (op : Op)
  /-- The layout of a type if it is kept. -/
  | peek (tag : Tag)

namespace Call

/-- The registry after a call. -/
def perform (r : Registry) : Call → Registry
  | .operate op => r.after op
  | .peek _ => r

/-- The layout that a call hands out, and the type that it was asked for. -/
def answer (r : Registry) : Call → Option (Tag × Layout)
  | .operate (.layoutOf tag) => (r.layoutOf tag).1.toOption.map (tag, ·)
  | .operate (.transferOf tag) => (r.transferOf tag).1.toOption.map fun t => (tag, t.layout)
  | .operate (.declare _) | .operate .forget => none
  | .peek tag => (r.kept? tag).map (tag, ·)

/-- Whether a call drops the layouts. -/
def forgets : Call → Bool
  | .operate .forget => true
  | .operate (.declare _) | .operate (.layoutOf _) | .operate (.transferOf _) | .peek _ => false

end Call

/-- A registry, with what was built and what was handed out since it forgot its layouts last, and
the number of layouts that it has forgotten so far. -/
structure Ledger extends Journaled where
  dropped : Nat
  handed : List (Tag × Layout)

namespace Ledger

def new (config : Config) : Ledger := ⟨⟨Registry.new config, []⟩, 0, []⟩

/-- The journal after a call. -/
def builtAfter (s : Ledger) : Call → List Tag
  | .operate (.layoutOf tag) | .operate (.transferOf tag) =>
    ((recording (s.registry.decls.length + 1) tag).run s.toJournaled).2.built
  | .operate (.declare _) | .peek _ => s.built
  | .operate .forget => []

/-- The accounts after a call.  Forgetting the layouts opens new ones. -/
def after (s : Ledger) (call : Call) : Ledger where
  registry := call.perform s.registry
  built := s.builtAfter call
  dropped := if call.forgets then s.dropped + s.registry.size else s.dropped
  handed := if call.forgets then [] else (call.answer s.registry).toList ++ s.handed

def afterAll (s : Ledger) (calls : List Call) : Ledger := calls.foldl after s

/-- What is true of the accounts at all times. -/
structure Balanced (s : Ledger) : Prop where
  atRest : AtRest s.registry
  builds : s.registry.builds = s.registry.size + s.dropped
  built : s.built = s.registry.layouts.map (·.tag)
  nodup : s.built.Nodup
  handed : ∀ tag l, (tag, l) ∈ s.handed → s.registry.kept? tag = some l

theorem balanced_new (config : Config) : (new config).Balanced :=
  ⟨atRest_new config, rfl, rfl, .nil, nofun⟩

theorem mem_toList_pair_iff {tag tag' : Tag} {o : Option Layout} {l : Layout} :
    (tag', l) ∈ (o.map (tag, ·)).toList ↔ tag = tag' ∧ o = some l := by
  cases o with
  | none => simp
  | some l' => simp [eq_comm]

/-- What a lookup adds to the kept layouts is what it adds to the number of builds and to the
journal. -/
theorem exists_adds (s : Ledger) (hs : Sound s.registry) (tag : Tag) :
    ∃ new, Adds s.toJournaled
      ⟨(s.registry.layoutOf tag).2, s.builtAfter (.operate (.layoutOf tag))⟩ new := by
  obtain ⟨new, hnew⟩ := exists_adds_of_lookup hs (s.registry.decls.length + 1) tag
  refine ⟨new, ?_⟩
  rwa [layoutOf, ← (recording_erased _ tag s.toJournaled).2]

/-- **A lookup keeps the accounts balanced,** whether it succeeds or not. -/
theorem Balanced.look {s : Ledger} (h : s.Balanced) (tag : Tag) :
    (s.after (.operate (.layoutOf tag))).Balanced := by
  obtain ⟨new, hnew⟩ := s.exists_adds h.atRest.sound tag
  obtain ⟨⟨hgrows, -⟩, hanswer⟩ := resolve_ensures (s.registry.decls.length + 1) tag s.registry
  have hlayouts : (s.registry.layoutOf tag).2.layouts = s.registry.layouts ++ new := hnew.layouts
  have hbuilds : (s.registry.layoutOf tag).2.builds = s.registry.builds + new.length := hnew.builds
  have hbuilt : s.builtAfter (.operate (.layoutOf tag)) =
      (s.registry.layoutOf tag).2.layouts.map (·.tag) := by
    rw [hlayouts, List.map_append, ← h.built]
    exact hnew.built
  refine ⟨h.atRest.layoutOf tag, ?_, hbuilt, ?_, fun tag' l hl => ?_⟩
  · show (s.registry.layoutOf tag).2.builds = (s.registry.layoutOf tag).2.size + s.dropped
    rw [hbuilds, h.builds, size, size, hlayouts, List.length_append]
    omega
  · show (s.builtAfter (.operate (.layoutOf tag))).Nodup
    rw [hbuilt]
    exact hnew.nodup (h.built ▸ h.nodup)
  · rcases List.mem_append.1 hl with hl | hl
    · obtain ⟨rfl, hlayout⟩ := mem_toList_pair_iff.1 hl
      refine hanswer l ?_
      cases hrun : (s.registry.layoutOf tag).1 with
      | error e => rw [hrun] at hlayout; cases hlayout
      | ok l' => rw [hrun] at hlayout; cases hlayout; exact hrun
    · exact hgrows.kept tag' l (h.handed tag' l hl)

theorem Balanced.after {s : Ledger} (h : s.Balanced) (call : Call) : (s.after call).Balanced := by
  cases call with
  | peek tag =>
    refine ⟨h.atRest, h.builds, h.built, h.nodup, fun tag' l hl => ?_⟩
    rcases List.mem_append.1 hl with hl | hl
    · obtain ⟨rfl, hlayout⟩ := mem_toList_pair_iff.1 hl
      exact hlayout
    · exact h.handed tag' l hl
  | operate op =>
    cases op with
    | layoutOf tag => exact h.look tag
    | transferOf tag =>
      have hanswer : (Call.operate (.transferOf tag)).answer s.registry =
          (Call.operate (.layoutOf tag)).answer s.registry := by
        rw [Call.answer, Call.answer, transferOf]
        rcases s.registry.layoutOf tag with ⟨answer, r⟩
        cases answer <;> rfl
      have hlook := h.look tag
      rw [Ledger.after, ← hanswer] at hlook
      exact hlook
    | declare decl =>
      have hrest := h.atRest.after (.declare decl)
      have hsame : (s.registry.after (.declare decl)).layouts = s.registry.layouts ∧
          (s.registry.after (.declare decl)).builds = s.registry.builds := by
        rw [Registry.after]
        cases hok : s.registry.declare decl with
        | error e => exact ⟨rfl, rfl⟩
        | ok r => obtain ⟨-, rfl⟩ := declare_eq_ok hok; exact ⟨rfl, rfl⟩
      refine ⟨hrest, ?_, ?_, h.nodup, fun tag l hl => ?_⟩
      · show (s.registry.after (.declare decl)).builds = (s.registry.after (.declare decl)).size + _
        rw [hsame.2, size, hsame.1]
        exact h.builds
      · show s.built = (s.registry.after (.declare decl)).layouts.map (·.tag)
        rw [hsame.1]
        exact h.built
      · show (s.registry.after (.declare decl)).kept? tag = some l
        rw [kept?, hsame.1]
        exact h.handed tag l hl
    | forget =>
      refine ⟨h.atRest.after .forget, ?_, rfl, .nil, fun _ _ hl => absurd hl List.not_mem_nil⟩
      show s.registry.builds = 0 + (s.dropped + s.registry.size)
      rw [h.builds, Nat.zero_add, Nat.add_comm]

theorem Balanced.afterAll {s : Ledger} (h : s.Balanced) (calls : List Call) :
    (s.afterAll calls).Balanced := by
  induction calls generalizing s with
  | nil => exact h
  | cons call calls ih => exact ih (h.after call)

theorem registry_afterAll (s : Ledger) (calls : List Call) :
    (s.afterAll calls).registry = calls.foldl Call.perform s.registry := by
  induction calls generalizing s with
  | nil => rfl
  | cons call calls ih => exact ih (s.after call)

/-! ## The books

The invariant in the terms of the registry: what was built, what is kept and what was handed out.
-/

/-- What a lookup in a registry does to the number of builds: it goes up by the number of types that
come to be kept, while all that are kept stay. -/
def CountsBuilds (r : Registry) (tag : Tag) : Prop :=
  ∃ new : List Tag, new.Nodup ∧
    (∀ t, t ∈ new ↔ r.kept? t = none ∧ ((r.layoutOf tag).2.kept? t).isSome) ∧
    (r.layoutOf tag).2.builds = r.builds + new.length ∧
    ∀ t l, r.kept? t = some l → (r.layoutOf tag).2.kept? t = some l

/-- The books of a registry. -/
structure Accounted (s : Ledger) : Prop where
  /-- Every layout that was built is kept or was dropped. -/
  total : s.registry.builds = s.registry.size + s.dropped
  lookup : ∀ tag, CountsBuilds s.registry tag
  /-- Since the layouts were forgotten last, no type was built twice. -/
  once : s.built.Nodup
  /-- The types built since then are those that are kept. -/
  kept : ∀ tag, tag ∈ s.built ↔ (s.registry.kept? tag).isSome = true
  /-- All layouts handed out for a type since then are the same object. -/
  same : ∀ tag l l', (tag, l) ∈ s.handed → (tag, l') ∈ s.handed → l = l'
  /-- The journal is one of the lookups that the registry makes. -/
  journal : ∀ tag,
    let run := (recording (s.registry.decls.length + 1) tag).run s.toJournaled
    run.1 = (s.registry.layoutOf tag).1 ∧ run.2.registry = (s.registry.layoutOf tag).2

theorem Balanced.countsBuilds {s : Ledger} (h : s.Balanced) (tag : Tag) :
    CountsBuilds s.registry tag := by
  obtain ⟨new, hnew⟩ := s.exists_adds h.atRest.sound tag
  have hlayouts : (s.registry.layoutOf tag).2.layouts = s.registry.layouts ++ new := hnew.layouts
  have hnodup : (s.registry.layouts.map (·.tag) ++ new.map (·.tag)).Nodup := by
    rw [← List.map_append, ← hlayouts]
    exact hnew.nodup (h.built ▸ h.nodup)
  obtain ⟨-, hfresh, hapart⟩ := List.nodup_append.1 hnodup
  refine ⟨new.map (·.tag), hfresh, fun t => ?_, ?_, (s.registry.layoutOf_later tag).1.kept⟩
  · rw [kept?, kept?, ← Option.not_isSome_iff_eq_none, isSome_lookup?_iff, isSome_lookup?_iff,
      hlayouts, List.map_append, List.mem_append]
    constructor
    · exact fun ht => ⟨fun hold => hapart t hold t ht rfl, .inr ht⟩
    · exact fun ⟨hold, ht⟩ => ht.resolve_left hold
  · rw [List.length_map]
    exact hnew.builds

theorem Balanced.accounted {s : Ledger} (h : s.Balanced) : s.Accounted where
  total := h.builds
  lookup := h.countsBuilds
  once := h.nodup
  kept tag := by rw [h.built, kept?, isSome_lookup?_iff]
  same tag l l' hl hl' := Option.some.inj ((h.handed tag l hl).symm.trans (h.handed tag l' hl'))
  journal tag := recording_erased _ tag s.toJournaled

/-- **Layouts are built at most once,** however a registry is called: all that was ever built is
kept or was dropped; a lookup builds as many layouts as come to be kept, and drops none; and between
two times that the layouts are forgotten, no type is built twice, and one object is handed out for
it. -/
theorem built_at_most_once (config : Config) (calls : List Call) :
    ((new config).afterAll calls).registry = calls.foldl Call.perform (Registry.new config) ∧
      ((new config).afterAll calls).Accounted :=
  ⟨registry_afterAll _ _, ((balanced_new config).afterAll calls).accounted⟩

end Ledger

end Registry

end NativeRecord
