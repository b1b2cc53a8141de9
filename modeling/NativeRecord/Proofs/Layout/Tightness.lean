import Mathlib.Order.Bounds.Defs
import NativeRecord.Proofs.Layout.Arrangement
import NativeRecord.Proofs.Layout.Sequence

/-!
# Layouts leave no more room than alignment asks for

That a layout wastes no room cannot be said of one member at a time: where a member lies depends on
all those before it.  What holds of each member is that it lies at the least offset that its
alignment allows, starting from the running maximum of the ends of those before.  The least offset
is said with `IsLeast`, on the set of all aligned offsets from a start on, so that no formula for
rounding up is part of what is stated.

The three kinds of members that take room in a struct, plain members, bit-fields and anonymous
unions, are read off `InSequence`, each by its own clause.  In a union all members lie at the start,
and only the size remains to be said.

## What is here

* `Alignment.offsetsFrom` — the aligned offsets from a start on, of which `Alignment.align` is the
  least one (`Alignment.isLeast_align`).
* `MemberLayout.Effective` — a member has the alignment that its declaration asks for or, if it asks
  for none, that of its type under the pack.
* `Layout.Tight` — every member lies as early as its alignment allows behind those before it, and
  the record ends as early as its own alignment allows.
* `build_tight` — built layouts are tight.
-/

set_option autoImplicit false
namespace NativeRecord

/-- The aligned offsets from a start on. -/
def Alignment.offsetsFrom (a : Alignment) (start : Nat) : Set Nat :=
  {offset | a.bytes ∣ offset ∧ start ≤ offset}

/-- Rounding up gives the least aligned offset. -/
theorem Alignment.isLeast_align (a : Alignment) (start : Nat) :
    IsLeast (a.offsetsFrom start) (a.align start) :=
  ⟨⟨a.bytes_dvd_align start, a.le_align start⟩, fun _ h => align_le_of_dvd h.1 h.2⟩

/-- The alignment of a member is the one that it asks for or else the natural one of its type,
lowered to the pack. -/
structure MemberLayout.Effective (pack : Option Alignment) (decl : MemberDecl) (p : MemberLayout) :
    Prop where
  natural : decl.alignment = none → p.alignment = p.shape.alignment.packed pack
  requested : ∀ bytes, decl.alignment = some bytes → p.alignment.bytes = bytes

/-- The layout of a declaration in which nothing lies later than its alignment makes it. -/
structure Layout.Tight (config : Config) (decl : RecordDecl) (l : Layout) : Prop where
  form : l.form = decl.form
  members : ∃ pack, effectivePack config decl = .ok pack ∧
    List.Forall₂ (MemberLayout.Effective pack) decl.members l.members
  kinds : l.form = .struct → List.Forall₂ MemberLayout.OfKind decl.members l.members
  plain : l.form = .struct → ∀ before p after, l.members = before ++ p :: after → p.Plain →
    IsLeast (p.alignment.offsetsFrom (stopAfter before)) p.offset
  /-- A bit-field lies in a new word behind all members before it or in the word of the last one. -/
  packed : l.form = .struct → ∀ before p after, l.members = before ++ p :: after → p.Packed →
    IsLeast (p.alignment.offsetsFrom (stopAfter before)) p.offset ∨
      ∃ g ∈ before.getLast?, g.Packed ∧ p.offset = g.offset ∧ p.length = g.length
  /-- The members of an anonymous union start together, behind all members before the first. -/
  shared : l.form = .struct → ∀ before group after, l.members = before ++ (group ++ after) →
    IsUnion before group after → ∀ p ∈ group, p.unionGroup = some before.length ∧
      IsLeast ((Alignment.strictest (group.map (·.alignment))).offsetsFrom (stopAfter before))
        p.offset
  size : l.form = .struct → IsLeast (l.alignment.offsetsFrom (stopAfter l.members)) l.size
  /-- The members of a union lie at its start, and it has room for the largest one. -/
  overlaid : l.form = .union → (∀ p ∈ l.members, p.offset = 0) ∧
    IsLeast (l.alignment.offsetsFrom ((l.members.map (·.length)).foldr max 0)) l.size
  alignment : decl.alignment = none →
    l.alignment = Alignment.strictest (l.members.map (·.alignment))
  requested : ∀ bytes, decl.alignment = some bytes → l.alignment.bytes = bytes

/-! ## Members in sequence

A bit-field that joins a word does not lie behind the members before it, so its offset is the one of
that word and nothing is said of it; what decides whether it joins is the subject of
`Layout.PacksBits`. -/

namespace InSequence

variable {order : BitOrder} {before after : List MemberLayout} {p : MemberLayout}

/-- A plain member lies at the first aligned offset behind those before it. -/
theorem offset_plain (h : InSequence order (before ++ p :: after)) (hp : p.Plain) :
    p.offset = p.alignment.align (stopAfter before) :=
  (h.placedBehind hp.2.1).of_plain hp

/-- A packed bit-field lies at the first aligned offset behind those before it, or in the word of
the last one of these. -/
theorem offset_packed (h : InSequence order (before ++ p :: after)) (hp : p.Packed) :
    p.offset = p.alignment.align (stopAfter before) ∨
      ∃ g ∈ before.getLast?, g.Packed ∧ p.span = g.span := by
  rcases ((h.placedBehind hp.2.1).of_packed hp).2 with ⟨g, hg, hroom, hspan⟩ | ⟨-, -, hoffset⟩
  · exact .inr ⟨g, hg, hroom.1, hspan⟩
  · exact .inl hoffset

/-- The members of an anonymous union lie at the first offset behind those before it that is aligned
for the strictest of them. -/
theorem offset_union {group : List MemberLayout}
    (h : InSequence order (before ++ (group ++ after))) (hunion : IsUnion before group after) :
    ∀ p ∈ group, p.unionGroup = some before.length ∧
      p.offset = (Alignment.strictest (group.map (·.alignment))).align (stopAfter before) :=
  fun p hp => (((h.placedBehind_union hunion).of_grouped hp (hunion.shared p hp)).2 p hp).2

end InSequence

/-! ## Built layouts

The alignments come from the declarations by resolution, and the offsets from the sequence.  The two
meet in `Builds.tight` only. -/

/-- A placed member has the alignment of the resolved one. -/
theorem MemberOf.effective {limit : SizeLimit} {Has : Tag → Layout → Prop} {platform : Platform}
    {owner : Tag} {pack : Option Alignment} {decl : MemberDecl} {m : ResolvedMember}
    {p : MemberLayout} (h : MemberOf limit platform owner Has pack decl m) (hp : PlacedAs m p) :
    p.Effective pack decl := by
  have halignment := memberAlignment_eq_ok_iff.1 h.alignment
  rw [← hp.shape, ← hp.alignment] at halignment
  rcases halignment with ⟨hnone, hnatural⟩ | ⟨hsome, -⟩
  · exact ⟨fun _ => hnatural, fun _ hbytes => nomatch hnone.symm.trans hbytes⟩
  · exact ⟨fun hnone => (nomatch hnone.symm.trans hsome),
      fun _ hbytes => Option.some.inj (hsome.symm.trans hbytes)⟩

section Builds

variable {limit : SizeLimit} {Has : Tag → Layout → Prop} {config : Config} {decl : RecordDecl}
  {l : Layout}

theorem Builds.effective (h : Builds limit Has config decl l) :
    ∃ pack, effectivePack config decl = .ok pack ∧
      List.Forall₂ (MemberLayout.Effective pack) decl.members l.members := by
  obtain ⟨pack, members, stop, hpack, hmembers, hplaced, -⟩ := h.exists_placed
  exact ⟨pack, hpack, forall₂_trans (fun _ _ _ hm hp => hm.effective hp) hmembers
    (placeMembers_forall₂ (membersOf_bitsFit hmembers) hplaced)⟩

/-- The alignment of the record is computed from those of the members as they are in the layout. -/
theorem Builds.recordAlignment_eq (h : Builds limit Has config decl l) :
    recordAlignment decl (Alignment.strictest (l.members.map (·.alignment))) = .ok l.alignment := by
  obtain ⟨-, members, -, -, -, -, -, halignments, halignment, -⟩ := h.exists_placed
  rwa [halignments]

/-- The members of a union that builds lie at its start, and it has room for the largest one. -/
theorem Builds.overlaid (h : Builds limit Has config decl l) (hunion : l.form = .union) :
    (∀ p ∈ l.members, p.offset = 0) ∧
      l.size = l.alignment.align ((l.members.map (·.length)).foldr max 0) := by
  have hform : l.form = decl.form := h.exists_members.2.1
  obtain ⟨pack, members, stop, -, -, hplaced, hlengths, -, -, hsize⟩ := h.exists_placed
  rw [placeMembers, ← hform, hunion] at hplaced
  obtain ⟨-, -, rfl⟩ := overlayMembers_eq_ok_iff.1 hplaced
  rw [hlengths]
  exact ⟨offset_overlayMembers hplaced, hsize⟩

theorem Builds.tight (h : Builds limit Has config decl l) : l.Tight config decl where
  form := h.exists_members.2.1
  members := h.effective
  kinds hstruct := (h.inSequence hstruct).1
  plain := by
    intro hstruct before p after hsplit hp
    obtain ⟨-, hsequence, -⟩ := h.inSequence hstruct
    rw [hsplit] at hsequence
    rw [hsequence.offset_plain hp]
    exact Alignment.isLeast_align _ _
  packed := by
    intro hstruct before p after hsplit hp
    obtain ⟨-, hsequence, -⟩ := h.inSequence hstruct
    rw [hsplit] at hsequence
    rcases hsequence.offset_packed hp with hoffset | ⟨g, hg, hpacked, hspan⟩
    · rw [hoffset]
      exact .inl (Alignment.isLeast_align _ _)
    · exact .inr ⟨g, hg, hpacked, congrArg Span.offset hspan, congrArg Span.length hspan⟩
  shared := by
    intro hstruct before group after hsplit hunion p hp
    obtain ⟨-, hsequence, -⟩ := h.inSequence hstruct
    rw [hsplit] at hsequence
    obtain ⟨hgroup, hoffset⟩ := hsequence.offset_union hunion p hp
    rw [hoffset]
    exact ⟨hgroup, Alignment.isLeast_align _ _⟩
  size := by
    intro hstruct
    rw [(h.inSequence hstruct).2.2]
    exact Alignment.isLeast_align _ _
  overlaid := by
    intro hunion
    obtain ⟨hoffset, hsize⟩ := h.overlaid hunion
    rw [hsize]
    exact ⟨hoffset, Alignment.isLeast_align _ _⟩
  alignment := by
    intro hnone
    rcases recordAlignment_eq_ok_iff.1 h.recordAlignment_eq with ⟨-, hstrictest⟩ | ⟨hsome, -⟩
    · exact hstrictest
    · exact nomatch hnone.symm.trans hsome
  requested := by
    intro bytes hbytes
    rcases recordAlignment_eq_ok_iff.1 h.recordAlignment_eq with ⟨hnone, -⟩ | ⟨hsome, -⟩
    · exact nomatch hnone.symm.trans hbytes
    · exact Option.some.inj (hsome.symm.trans hbytes)

end Builds

/-- **Built layouts are tight,** whatever the builder is told about the embedded records. -/
theorem build_tight {config : Config} {σ : Type} {resolve : Resolver (StateM σ)}
    {decl : RecordDecl} {l : Layout} {s s' : σ}
    (run : (build .word64 config resolve decl).run s = (.ok l, s')) : l.Tight config decl :=
  (builds_of_run (fun _ _ _ _ _ => trivial) run).tight

/-- In the header, the bit-fields share the first byte, and what comes behind the member at a fixed
offset starts right where that one ends. -/
theorem build_tight_header :
    (build .word64 .standard (fun tag => throw (.unknownTag tag) : Resolver (StateM Unit))
        header).run () = (.ok headerLayout, ()) ∧
      headerLayout.Tight .standard header := by
  have hrun : (build .word64 .standard (fun tag => throw (.unknownTag tag) : Resolver (StateM Unit))
      header).run () = (.ok headerLayout, ()) := rfl
  exact ⟨hrun, build_tight hrun⟩

end NativeRecord
