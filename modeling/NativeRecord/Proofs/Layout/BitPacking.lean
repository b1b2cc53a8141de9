import NativeRecord.Proofs.Layout.Arrangement
import NativeRecord.Proofs.Layout.Sequence

/-!
# How bit-fields are packed

Where a bit-field lies in its word depends on how many bits of the word were taken before it, and
the bit order decides from which end they are taken.  So the ranges of one word are built up one
behind the other, and `Stacked` follows them in just this way.  By induction over it the bits that
are taken are always one block at the end that comes first.  A new range is then disjoint from all
those before it in one step, namely from the block that they form, and no two bit-fields have to be
compared.

That the words of a built struct are filled in this way is read off `InSequence`, the description of
all members of a struct by those before them.  The placement itself is not looked at again: the two
questions that remain, which word a bit-field gets and which bits of it, are each answered by a
clause of that description.

## What is here

* `Stacked` — bit ranges that are allocated one behind the other from one end of a word: no two of
  them meet (`Stacked.disjoint`), and together they are the bits next to that end
  (`Stacked.exists_has_iff`).
* `InSequence.stacked` — the bits that are taken in each word of a struct are stacked.
* `Layout.PacksBits` — which bit-fields share a word, and which bits of it they have.
* `build_packsBits` — built structs pack their bits.
-/

set_option autoImplicit false
namespace NativeRecord

/-! ## Stacked ranges

The bit order enters in `BitOrder.has_range_iff` alone, which says that the next range has just the
bits by which the block grows.  What follows holds of both orders for the same reason. -/

/-- A bit of the range. -/
def BitRange.Has (r : BitRange) (i : Nat) : Prop := r.first ≤ i ∧ i < r.first + r.width

/-- A bit of a word of `capacity` bits is one of the `used` ones next to the end that comes
first. -/
def BitOrder.Allocated (order : BitOrder) (capacity used i : Nat) : Prop :=
  match order with
  | .lsbFirst => i < used
  | .msbFirst => i < capacity ∧ capacity ≤ i + used

/-- Ranges that are allocated one behind the other. -/
inductive Stacked (order : BitOrder) (capacity : Nat) : List BitRange → Prop
  | nil : Stacked order capacity []
  | append {rs : List BitRange} {r : BitRange} (h : Stacked order capacity rs)
      (hroom : (rs.map (·.width)).sum + r.width ≤ capacity)
      (hr : r = order.range capacity (rs.map (·.width)).sum r.width) :
      Stacked order capacity (rs ++ [r])

/-- The next range has the bits that are allocated with it and were not before. -/
theorem BitOrder.has_range_iff (order : BitOrder) {capacity used bits i : Nat}
    (h : used + bits ≤ capacity) :
    (order.range capacity used bits).Has i ↔
      order.Allocated capacity (used + bits) i ∧ ¬ order.Allocated capacity used i := by
  cases order <;> simp only [range, BitRange.Has, Allocated] <;> omega

/-- Bits that are allocated stay so when more are. -/
theorem BitOrder.Allocated.mono {order : BitOrder} {capacity used used' i : Nat}
    (h : order.Allocated capacity used i) (hle : used ≤ used') :
    order.Allocated capacity used' i := by
  cases order <;> simp only [Allocated] at h ⊢ <;> omega

namespace Stacked

variable {order : BitOrder} {capacity : Nat} {rs : List BitRange}

/-- **Stacked ranges are one block** of as many bits as they have together. -/
theorem exists_has_iff (h : Stacked order capacity rs) (i : Nat) :
    (∃ r ∈ rs, r.Has i) ↔ order.Allocated capacity (rs.map (·.width)).sum i := by
  induction h with
  | nil => cases order <;> simp [BitOrder.Allocated]
  | @append rs r _ hroom hr ih =>
    have hhas := order.has_range_iff (i := i) hroom
    rw [← hr] at hhas
    rw [List.map_append, List.sum_append, List.map_singleton, List.sum_singleton]
    simp only [List.mem_append, List.mem_singleton, or_and_right, exists_or, exists_eq_left, ih,
      hhas]
    constructor
    · rintro (hbefore | ⟨hnow, -⟩)
      · exact hbefore.mono (Nat.le_add_right _ _)
      · exact hnow
    · intro hnow
      by_cases hbefore : order.Allocated capacity (rs.map (·.width)).sum i
      · exact .inl hbefore
      · exact .inr ⟨hnow, hbefore⟩

/-- **No two stacked ranges have a bit in common.** -/
theorem disjoint (h : Stacked order capacity rs) :
    rs.Pairwise fun a b => ∀ i, ¬ (a.Has i ∧ b.Has i) := by
  induction h with
  | nil => exact .nil
  | @append rs r hstacked hroom hr ih =>
    refine List.pairwise_append.2 ⟨ih, List.pairwise_singleton _ _, fun a ha b hb i hboth => ?_⟩
    obtain rfl := List.mem_singleton.1 hb
    have hhas := order.has_range_iff (i := i) hroom
    rw [← hr] at hhas
    exact (hhas.1 hboth.2).2 ((hstacked.exists_has_iff i).1 ⟨a, ha, hboth.1⟩)

end Stacked

/-! ## Members in sequence

A unit that takes bits of a word consists of one bit-field, because an anonymous union and a member
at a fixed offset have their storage to themselves.  So going through the units appends at most one
range to those of a word. -/

namespace InSequence

variable {order : BitOrder}

/-- **The bits that are taken in a word are stacked.** -/
theorem stacked {members : List MemberLayout} (h : InSequence order members) (word : Span) :
    Stacked order (8 * word.length) (slots word members) := by
  induction h with
  | nil => exact .nil
  | @append done ps _ hps ih =>
    rw [slots_append]
    by_cases htakes : ∃ p ∈ ps, p.Packed ∧ p.span = word
    · obtain ⟨p, hp, hpacked, rfl⟩ := htakes
      obtain rfl := hps.eq_singleton hp hpacked.2.1
      obtain ⟨⟨r, hbits, hroom, hr⟩, -⟩ := hps.of_packed hpacked
      rw [slots_singleton hpacked hbits]
      exact ih.append hroom hr
    · rw [slots_eq_nil fun p hp hpacked hspan => htakes ⟨p, hp, hpacked, hspan⟩, List.append_nil]
      exact ih

variable {before after : List MemberLayout} {g p : MemberLayout}

/-- **A bit-field has the word of the member before it exactly when there is room for it.** -/
theorem span_eq_iff (h : InSequence order (before ++ g :: p :: after)) (hp : p.Packed) :
    p.span = g.span ↔ g.HasRoom (before ++ [g]) p := by
  rw [← List.singleton_append, ← List.append_assoc] at h
  have hlast : (before ++ [g]).getLast? = some g := List.getLast?_concat
  rcases ((h.placedBehind hp.2.1).of_packed hp).2 with ⟨g', hg', hroom, hspan⟩ | ⟨hfull, hopened⟩
  · obtain rfl := Option.some.inj (hg'.symm.trans hlast)
    exact iff_of_true hspan hroom
  · refine iff_of_false (fun hspan => ?_) (hfull g hlast)
    -- A new word starts where `g` has ended, or behind that.
    have hstop : g.offset + g.length ≤ stopAfter (before ++ [g]) := stop_le_stopAfter (by simp)
    have hstart := p.alignment.le_align (stopAfter (before ++ [g]))
    have hoffset : p.offset = g.offset := congrArg Span.offset hspan
    have hlength : p.length = g.length := congrArg Span.length hspan
    omega

/-- A bit-field that does not have the word of the member before it opens one. -/
theorem slots_opened (h : InSequence order (before ++ p :: after)) (hp : p.Packed)
    (hopens : ∀ g ∈ before.getLast?, p.span ≠ g.span) : slots p.span before = [] := by
  rcases ((h.placedBehind hp.2.1).of_packed hp).2 with ⟨g, hg, -, hspan⟩ | ⟨-, hlength, hoffset⟩
  · exact absurd hspan (hopens g hg)
  · have hstart := p.alignment.le_align (stopAfter before)
    rw [← hoffset] at hstart
    exact slots_eq_nil_of_le hlength hstart

/-- A bit-field has the next bits of its word. -/
theorem slotted (h : InSequence order (before ++ p :: after)) (hp : p.Packed) :
    p.Slotted order before :=
  ((h.placedBehind hp.2.1).of_packed hp).1

end InSequence

/-! ## Built layouts

The clauses of `Layout.PacksBits` are about a bit-field and the members before it, and each is one
of the lemmas above. -/

/-- How the bit-fields of a struct are packed that have no fixed offset and are of no anonymous
union. -/
structure Layout.PacksBits (order : BitOrder) (decl : RecordDecl) (l : Layout) : Prop where
  kinds : List.Forall₂ MemberLayout.OfKind decl.members l.members
  /-- A bit-field is in the word of the member before it when that is a bit-field of the same
  length, and its word has room. -/
  joins : ∀ before g p after, l.members = before ++ g :: p :: after → p.Packed →
    (p.span = g.span ↔ g.Packed ∧ g.length = p.length ∧
      usedBits g.span (before ++ [g]) + p.bitWidth ≤ 8 * p.length)
  opens : ∀ before p after, l.members = before ++ p :: after → p.Packed →
    (∀ g ∈ before.getLast?, p.span ≠ g.span) → slots p.span before = []
  /-- The bits of a bit-field come right behind those that are used. -/
  next : ∀ before p after, l.members = before ++ p :: after → p.Packed →
    ∃ r, p.bits = some r ∧ usedBits p.span before + r.width ≤ 8 * p.length ∧
      match order with
      | .lsbFirst => r.first = usedBits p.span before
      | .msbFirst => r.first + r.width + usedBits p.span before = 8 * p.length
  disjoint : ∀ word, (slots word l.members).Pairwise fun a b => ∀ i, ¬ (a.Has i ∧ b.Has i)
  /-- The bits that are used in a word are all those next to the end that comes first. -/
  block : ∀ word i, (∃ r ∈ slots word l.members, r.Has i) ↔
    order.Allocated (8 * word.length) (usedBits word l.members) i

/-- A struct that builds packs its bits: its members are in sequence, and the widths are those that
were declared. -/
theorem Builds.packsBits {limit : SizeLimit} {Has : Tag → Layout → Prop} {config : Config}
    {decl : RecordDecl} {l : Layout} (h : Builds limit Has config decl l)
    (hstruct : decl.form = .struct) : l.PacksBits config.bitOrder decl := by
  obtain ⟨hkinds, hsequence, -⟩ := h.inSequence (h.exists_members.2.1.trans hstruct)
  exact {
    kinds := hkinds
    joins := fun before g p after hsplit hp => (hsplit ▸ hsequence).span_eq_iff hp
    opens := fun before p after hsplit hp => (hsplit ▸ hsequence).slots_opened hp
    next := by
      intro before p after hsplit hp
      rw [hsplit] at hsequence
      obtain ⟨r, hbits, hroom, hr⟩ := hsequence.slotted hp
      refine ⟨r, hbits, hroom, ?_⟩
      cases horder : config.bitOrder with
      | lsbFirst =>
        rw [horder] at hr
        exact congrArg BitRange.first hr
      | msbFirst =>
        rw [horder] at hr
        have hfirst : r.first = 8 * p.length - usedBits p.span before - r.width :=
          congrArg BitRange.first hr
        simp only
        omega
    disjoint := fun word => (hsequence.stacked word).disjoint
    block := fun word i => (hsequence.stacked word).exists_has_iff i }

/-- **Built structs pack their bits,** whatever the builder is told about the embedded records. -/
theorem build_packsBits {config : Config} {σ : Type} {resolve : Resolver (StateM σ)}
    {decl : RecordDecl} {l : Layout} {s s' : σ} (hstruct : decl.form = .struct)
    (run : (build .word64 config resolve decl).run s = (.ok l, s')) :
    l.PacksBits config.bitOrder decl :=
  (builds_of_run (fun _ _ _ _ _ => trivial) run).packsBits hstruct

theorem build_packsBits_header :
    (build .word64 .standard (fun tag => throw (.unknownTag tag) : Resolver (StateM Unit))
        header).run () = (.ok headerLayout, ()) ∧
      headerLayout.PacksBits .lsbFirst header := by
  have hrun : (build .word64 .standard (fun tag => throw (.unknownTag tag) : Resolver (StateM Unit))
      header).run () = (.ok headerLayout, ()) := rfl
  exact ⟨hrun, build_packsBits rfl hrun⟩

end NativeRecord
