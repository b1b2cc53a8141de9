import NativeRecord.Proofs.Layout.Acceptance
import NativeRecord.Proofs.Layout.Arrangement

/-!
# Drafts

The check comes last when a layout is put together.  What it is given is a *draft*: the members at
their places, with the size and the alignment that they come to.  The placement alone sees to it
that every member of a draft lies within its size, and, where no offset is fixed, that no two of
them are in each other's way.

## What is here

* `assembleDraft`, `draft` — the steps before the check; `Layout.check` — the check.  Together they
  are the builder (`assemble_eq_draft`, `build_eq_draft`).
* `draft_within_and_apart` — what the check does not find in a draft, whatever is declared.
-/

set_option autoImplicit false
namespace NativeRecord

/-- The layout of resolved members, not checked yet. -/
def assembleDraft (limit : SizeLimit) (order : BitOrder) (decl : RecordDecl)
    (members : List ResolvedMember) : Except LayoutError Layout := do
  let (placed, stop) ← placeMembers limit order decl members
  let alignment ← recordAlignment decl (Alignment.strictest (placed.map (·.alignment)))
  let size ← orOverflow decl.tag ((placed.getLast?.map (·.name)).getD "")
    (alignment.align? limit stop)
  return .ofMembers decl.tag decl.form placed size alignment

/-- The layout of a declaration, not checked yet. -/
def draft {m : Type → Type} [Monad m] (limit : SizeLimit) (config : Config) (resolve : Resolver m)
    (decl : RecordDecl) : ExceptT LayoutError m Layout := do
  let members ← resolveDecl limit config resolve decl
  assembleDraft limit config.bitOrder decl members

/-- The check of a layout's placement. -/
def Layout.check (l : Layout) : Except LayoutError Unit :=
  checkPlacement l.tag l.form l.size l.members

/-! ## Draft and check -/

/-- **Putting a layout together is drafting and checking it.** -/
theorem assemble_eq_draft (limit : SizeLimit) (order : BitOrder) (decl : RecordDecl)
    (members : List ResolvedMember) :
    assemble limit order decl members =
      assembleDraft limit order decl members >>= fun l => l.check.map fun _ => l := by
  simp only [assemble, assembleDraft, bind_assoc, pure_bind]
  refine bind_congr (m := Except LayoutError) fun place =>
    bind_congr (m := Except LayoutError) fun alignment =>
      bind_congr (m := Except LayoutError) fun size => ?_
  show _ = (checkPlacement decl.tag decl.form size place.1).map _
  cases checkPlacement decl.tag decl.form size place.1 <;> rfl

/-- **Building a layout is drafting and checking it,** in every monad. -/
theorem build_eq_draft {m : Type → Type} [Monad m] [LawfulMonad m] (limit : SizeLimit)
    (config : Config) (resolve : Resolver m) (decl : RecordDecl) :
    build limit config resolve decl =
      draft limit config resolve decl >>= fun l => liftM (l.check.map fun _ => l) := by
  simp only [build_eq_resolveDecl, draft, bind_assoc, assemble_eq_draft]
  refine bind_congr (m := ExceptT LayoutError m) fun members => ?_
  cases assembleDraft limit config.bitOrder decl members with
  | error e => exact Eq.symm (ExceptT.bind_throw _)
  | ok l => exact Eq.symm (pure_bind l _)

section Check

variable {limit : SizeLimit} {order : BitOrder} {decl : RecordDecl} {members : List ResolvedMember}
  {l : Layout}

/-- The steps of drafting a layout, from its end. -/
theorem assembleDraft_eq_ok (h : assembleDraft limit order decl members = .ok l) :
    ∃ placed stop alignment, placeMembers limit order decl members = .ok (placed, stop) ∧
      l = .ofMembers decl.tag decl.form placed (alignment.align stop) alignment := by
  simp only [assembleDraft, except_bind_eq_ok, orOverflow_eq_ok_iff] at h
  obtain ⟨⟨placed, stop⟩, hplaced, alignment, -, size, hsize, h⟩ := h
  cases h
  cases Alignment.align?_eq_some hsize
  exact ⟨placed, stop, alignment, hplaced, rfl⟩

/-- **The members of a draft lie within its size,** wherever the fixed offsets are. -/
theorem assembleDraft_within (hbits : ∀ m ∈ members, m.BitsUsable)
    (h : assembleDraft limit order decl members = .ok l) :
    ∀ p ∈ l.members, p.offset + p.length ≤ l.size := by
  obtain ⟨placed, stop, alignment, hplaced, rfl⟩ := assembleDraft_eq_ok h
  exact fun p hp => Nat.le_trans (placeMembers_stop_le hbits hplaced p hp) (alignment.le_align stop)

/-- **The sweep finds nothing in the draft of a struct without fixed offsets.** -/
theorem assembleDraft_apart (hfree : ∀ m ∈ members, m.decl.offset = none)
    (hbits : ∀ m ∈ members, m.BitsUsable) (h : assembleDraft limit order decl members = .ok l)
    (hform : l.form = .struct) : findOverlap? l.members = none := by
  obtain ⟨placed, stop, alignment, hplaced, rfl⟩ := assembleDraft_eq_ok h
  exact findOverlap?_eq_none_iff.2 (placeMembers_compatible hfree hbits hplaced hform)

/-- The check blames no member for its end if none ends behind the record. -/
theorem Layout.check_ne_pastEnd (h : ∀ p ∈ l.members, p.offset + p.length ≤ l.size) (owner : Tag)
    (name : String) (size : Nat) :
    l.check ≠ .error (.invalidMember owner name (.pastEnd size)) := by
  intro hcheck
  rcases checkPlacement_eq_error hcheck with ⟨p, hp, fault, hfault, he⟩ | ⟨-, _, _, -, he⟩
  · cases he
    have hwithin : ¬ l.size < p.span.stop := Nat.not_lt.2 (h p hp)
    rw [MemberLayout.fault?, if_neg hwithin] at hfault
    split at hfault <;> cases hfault
  · cases he

/-- The check finds no overlap if the sweep finds none. -/
theorem Layout.check_ne_overlap (h : l.form = .struct → findOverlap? l.members = none) (owner : Tag)
    (first second : String) : l.check ≠ .error (.overlap owner first second) := by
  intro hcheck
  rcases checkPlacement_eq_error hcheck with ⟨_, _, _, -, he⟩ | ⟨hform, a, b, hoverlap, -⟩
  · cases he
  · rw [h hform] at hoverlap
    cases hoverlap

end Check

/-! ## Drafts of declarations -/

section Draft

variable {σ : Type} {limit : SizeLimit} {config : Config} {resolve : Resolver (StateM σ)}
  {decl : RecordDecl} {l : Layout} {s t : σ}

/-- A draft is put together from the members of the declaration, which have usable bits. -/
theorem exists_members_of_draft (h : (draft limit config resolve decl).run s = (.ok l, t)) :
    ∃ members, members.map (·.decl) = decl.members ∧ (∀ m ∈ members, m.BitsUsable) ∧
      assembleDraft limit config.bitOrder decl members = .ok l := by
  obtain ⟨members, t', hrun, h⟩ := run_bind_eq_ok.1 h
  obtain ⟨pack, -, -, hmembers⟩ := membersOf_of_run hrun
  exact ⟨members, decls_of_membersOf hmembers, membersOf_bitsUsable hmembers, congrArg Prod.fst h⟩

/-- **Every member of a draft ends within its size, so the check never finds one that ends past
it,** wherever the fixed offsets are.  **If no offset is fixed, the check finds no overlap either.**
A build that gets as far as its draft ends as the check does. -/
theorem draft_within_and_apart (h : (draft limit config resolve decl).run s = (.ok l, t)) :
    (∀ p ∈ l.members, p.offset + p.length ≤ l.size) ∧
      (∀ owner name size, l.check ≠ .error (.invalidMember owner name (.pastEnd size))) ∧
      ((∀ m ∈ decl.members, m.offset = none) →
        ∀ owner first second, l.check ≠ .error (.overlap owner first second)) ∧
      (build limit config resolve decl).run s = (l.check.map fun _ => l, t) := by
  obtain ⟨members, hdecls, hbits, hdraft⟩ := exists_members_of_draft h
  have hwithin := assembleDraft_within hbits hdraft
  refine ⟨hwithin, Layout.check_ne_pastEnd hwithin, fun hfree => ?_, ?_⟩
  · have hfree : ∀ m ∈ members, m.decl.offset = none := fun m hm =>
      hfree m.decl (hdecls ▸ List.mem_map_of_mem hm)
    exact Layout.check_ne_overlap (assembleDraft_apart hfree hbits hdraft)
  · rw [build_eq_draft, run_bind, h]
    rfl

/-- The draft of a bit-field that joins a word askew. -/
def skewedDraft : Layout := .ofMembers ⟨"r"⟩ .struct skewedMembers 2 ⟨1⟩

/-- A fixed offset does no harm here, and what is the matter with the other record is something
else. -/
theorem draft_within_and_apart_header_skewed :
    ((draft .word64 .standard noRecords header).run () = (.ok headerLayout, ()) ∧
      (∀ p ∈ headerLayout.members, p.offset + p.length ≤ headerLayout.size) ∧
      (build .word64 .standard noRecords header).run () = (.ok headerLayout, ())) ∧
    (draft .word64 .standard noRecords skewed).run () = (.ok skewedDraft, ()) ∧
      (∀ m ∈ skewed.members, m.offset = none) ∧
      (∀ owner first second, skewedDraft.check ≠ .error (.overlap owner first second)) ∧
      (build .word64 .standard noRecords skewed).run () =
        (.error (.invalidMember ⟨"r"⟩ "b" (.misaligned 1 2)), ()) := by
  have hheader : (draft .word64 .standard noRecords header).run () = (.ok headerLayout, ()) := rfl
  have hskewed : (draft .word64 .standard noRecords skewed).run () = (.ok skewedDraft, ()) := rfl
  have hfree : ∀ m ∈ skewed.members, m.offset = none := by decide
  obtain ⟨hwithin, -, -, hbuild⟩ := draft_within_and_apart hheader
  obtain ⟨-, -, hapart, hbuild'⟩ := draft_within_and_apart hskewed
  exact ⟨⟨hheader, hwithin, hbuild⟩, hskewed, hfree, hapart hfree, hbuild'⟩

end Draft

end NativeRecord
