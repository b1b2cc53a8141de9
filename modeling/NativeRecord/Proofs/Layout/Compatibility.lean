import NativeRecord.Proofs.Layout.BitPacking

/-!
# Members in sequence get along

Without fixed offsets, a struct is placed in such a way that the validation has nothing to object
to, but for one thing: a bit-field that joins the word of the one before it lies where that word
is, whether or not the offset is aligned for it.

The induction follows `InSequence`: what one step places is compared with all that is there.  A step
that opens a word, or places something else, starts behind the end of everything before.  A
bit-field that joins a word has all members before that word behind it, and of those in the word it
differs by its bits, since the ranges of one word are stacked.

Alignment is a matter of single steps, each of which aligns what it places, except that a bit-field
takes over the offset of the word it joins.

## What is here

* `InSequence.compatible` — no two members have bytes in common that they may not share.
* `MemberLayout.JoinsAskew`, `InSequence.aligned_or_joinsAskew` — the one thing.
* `InSequence.aligned` — it does not come up among bit-fields that are aligned alike.
* `placeMembers_stop_le`, `placeMembers_compatible` — what that comes to for the members of a
  declaration, a struct or a union.
-/

set_option autoImplicit false
namespace NativeRecord

/-! ## Shared words

A mask is zero where the range has no bit, so that masks which have no bit in common come from
ranges that have none. -/

/-- Masks have the bits in common that their ranges have. -/
theorem BitRange.mask_and_mask_eq_zero_iff {a b : BitRange} :
    a.mask &&& b.mask = 0 ↔ ∀ i < 64, ¬ (a.Has i ∧ b.Has i) := by
  have hzero {i : Nat} : (0 : Word).getLsbD i = false := BitVec.getLsbD_zero
  constructor
  · intro h i hi hboth
    have hbit : (a.mask &&& b.mask).getLsbD i = false := by rw [h, hzero]
    rw [BitVec.getLsbD_and, a.getLsbD_mask, b.getLsbD_mask, decide_eq_true ⟨hi, hboth.1⟩,
      decide_eq_true ⟨hi, hboth.2⟩] at hbit
    cases hbit
  · intro h
    apply BitVec.eq_of_getLsbD_eq
    intro i hi
    rw [BitVec.getLsbD_and, a.getLsbD_mask, b.getLsbD_mask, hzero, Bool.and_eq_false_iff,
      decide_eq_false_iff_not, decide_eq_false_iff_not, ← not_and_or]
    exact fun hboth => h i hi ⟨hboth.1.2, hboth.2.2⟩

namespace InSequence

variable {order : BitOrder} {members done : List MemberLayout} {g p : MemberLayout}

/-- All members before a packed one end where its word starts, or are packed in the same word. -/
theorem stop_le_or_span_eq (h : InSequence order members) (hg : g ∈ members.getLast?)
    (hpacked : g.Packed) :
    ∀ a ∈ members, a.offset + a.length ≤ g.offset ∨ a.Packed ∧ a.span = g.span := by
  induction h generalizing g with
  | nil => cases hg
  | @append done ps h hps ih =>
    rw [List.getLast?_append_of_ne_nil _ hps.ne_nil] at hg
    obtain rfl := hps.eq_singleton (List.mem_of_getLast? hg) hpacked.2.1
    obtain ⟨-, ⟨g', hg', hroom, hspan⟩ | ⟨-, -, hoffset⟩⟩ := hps.of_packed hpacked
    · have hword : g'.offset = g.offset := congrArg Span.offset hspan.symm
      intro a ha
      rcases List.mem_append.1 ha with ha | ha
      · rw [← hword, hspan]
        exact ih hg' hroom.1 a ha
      · obtain rfl := List.mem_singleton.1 ha
        exact .inr ⟨hpacked, rfl⟩
    · intro a ha
      rcases List.mem_append.1 ha with ha | ha
      · have hstop := stop_le_stopAfter ha
        have hstart := g.alignment.le_align (stopAfter done)
        exact .inl (by omega)
      · obtain rfl := List.mem_singleton.1 ha
        exact .inr ⟨hpacked, rfl⟩

/-- Packed bit-fields of one word have no bit in common. -/
theorem mask_and_mask_eq_zero (h : InSequence order done) {a : MemberLayout} (ha : a ∈ done)
    (hpacked : a.Packed) (hspan : a.span = p.span) (hslot : p.Slotted order done) :
    ∃ x y, a.bits = some x ∧ p.bits = some y ∧ x.mask &&& y.mask = 0 := by
  obtain ⟨x, hx⟩ := Option.isSome_iff_exists.1 hpacked.2.2
  obtain ⟨r, hr, hroom, hrange⟩ := hslot
  refine ⟨x, r, hx, hr, BitRange.mask_and_mask_eq_zero_iff.2 fun i _ => ?_⟩
  have hmem : x ∈ slots p.span done := by
    refine List.mem_filterMap.2 ⟨a, List.mem_filter.2 ⟨ha, decide_eq_true ⟨hpacked, hspan⟩⟩, hx⟩
  have hstacked : Stacked order (8 * p.length) (slots p.span done ++ [r]) :=
    (h.stacked p.span).append hroom hrange
  exact (List.pairwise_append.1 hstacked.disjoint).2.2 x hmem r List.mem_cons_self i

end InSequence

/-- What is placed in a step behind all members that are done does not meet them. -/
theorem compatible_of_le {a b : MemberLayout} (h : a.offset + a.length ≤ b.offset) :
    a.Compatible b := by
  intro _ _ hmeet
  have hstart : b.offset < a.offset + a.length := hmeet.2
  omega

/-- **Members in sequence are compatible** if none of them has a fixed offset. -/
theorem InSequence.compatible {order : BitOrder} {members : List MemberLayout}
    (h : InSequence order members) (hfree : ∀ p ∈ members, p.fixed = false) :
    members.Pairwise MemberLayout.Compatible := by
  induction h with
  | nil => exact .nil
  | @append done ps hdone hps ih =>
    obtain ⟨hfree, hnew⟩ := List.forall_mem_append.1 hfree
    have hbehind {p : MemberLayout} {alignment : Alignment}
        (hoffset : p.offset = alignment.align (stopAfter done)) : ∀ a ∈ done, a.Compatible p := by
      intro a ha
      have hstop := stop_le_stopAfter ha
      have hstart := alignment.le_align (stopAfter done)
      exact compatible_of_le (by omega)
    have hsingle {p : MemberLayout} (hp : ∀ a ∈ done, a.Compatible p) :
        (done ++ [p]).Pairwise MemberLayout.Compatible :=
      List.pairwise_append.2 ⟨ih hfree, List.pairwise_singleton _ _,
        fun a ha b hb => List.mem_singleton.1 hb ▸ hp a ha⟩
    cases hps with
    | fixed hfixed => exact absurd (hfixed.symm.trans (hnew _ List.mem_cons_self)) nofun
    | plain _ hoffset => exact hsingle (hbehind hoffset)
    | opened _ _ hoffset => exact hsingle (hbehind hoffset)
    | @joined g p hp hg hroom hspan hslot =>
      refine hsingle fun a ha => ?_
      have hoffset : p.offset = g.offset := congrArg Span.offset hspan
      rcases hdone.stop_le_or_span_eq hg hroom.1 a ha with hstop | ⟨hpacked, hword⟩
      · exact compatible_of_le (hoffset ▸ hstop)
      · have hword : a.span = p.span := hword.trans hspan.symm
        obtain ⟨x, y, hx, hy, hmask⟩ := hdone.mask_and_mask_eq_zero ha hpacked hword hslot
        exact fun _ _ _ => MemberLayout.mayShare_eq_true_iff.2 (.inr ⟨x, y, hx, hy, hword, hmask⟩)
    | overlay _ _ hps =>
      refine List.pairwise_append.2 ⟨ih hfree, List.pairwise_of_forall_mem_list ?_, ?_⟩
      · intro a ha b hb _ _ _
        have hgroup : a.unionGroup = b.unionGroup := (hps a ha).2.1.trans (hps b hb).2.1.symm
        refine MemberLayout.mayShare_eq_true_iff.2 (.inl ⟨?_, hgroup⟩)
        rw [(hps a ha).2.1]
        rfl
      · exact fun a ha b hb => hbehind (hps b hb).2.2 a ha

/-! ## The members of a declaration

Members with fixed offsets may be anywhere and are left out, but for the end of the placement, which
no member exceeds. -/

section Place

variable {limit : SizeLimit} {order : BitOrder} {decl : RecordDecl} {members : List ResolvedMember}
  {placed : List MemberLayout} {stop : Nat}

/-- Members that ask for no offset get none that is fixed. -/
theorem placeMembers_unfixed (hfree : ∀ m ∈ members, m.decl.offset = none)
    (hbits : ∀ m ∈ members, m.BitsUsable)
    (h : placeMembers limit order decl members = .ok (placed, stop)) :
    ∀ p ∈ placed, p.fixed = false := by
  intro p hp
  have hforall := placeMembers_forall₂ (fun m hm => (hbits m hm).fit) h
  obtain ⟨m, hm, hmp⟩ := exists_mem_of_forall₂ hforall hp
  exact hmp.unfixed (hfree m hm)

/-- **No member ends behind the end that the placement answers with,** wherever the fixed offsets
are. -/
theorem placeMembers_stop_le (hbits : ∀ m ∈ members, m.BitsUsable)
    (h : placeMembers limit order decl members = .ok (placed, stop)) :
    ∀ p ∈ placed, p.offset + p.length ≤ stop := by
  rw [placeMembers] at h
  cases hform : decl.form with
  | struct =>
    rw [hform] at h
    obtain ⟨-, rfl⟩ := placeInSequence_inSequence hbits h
    exact fun _ => stop_le_stopAfter
  | union =>
    rw [hform] at h
    obtain ⟨-, rfl, rfl⟩ := overlayMembers_eq_ok_iff.1 h
    refine List.forall_mem_map.2 fun m hm => (Nat.zero_add _).trans_le ?_
    exact List.le_max_of_le' 0 (List.mem_map_of_mem hm) (Nat.le_refl m.size)

/-- **Without fixed offsets, the members of a struct are compatible.** -/
theorem placeMembers_compatible (hfree : ∀ m ∈ members, m.decl.offset = none)
    (hbits : ∀ m ∈ members, m.BitsUsable)
    (h : placeMembers limit order decl members = .ok (placed, stop)) (hform : decl.form = .struct) :
    placed.Pairwise MemberLayout.Compatible := by
  have hunfixed := placeMembers_unfixed hfree hbits h
  rw [placeMembers, hform] at h
  exact (placeInSequence_inSequence hbits h).1.compatible hunfixed

end Place

/-! ## Alignment

Bit-fields of one length have the same alignment unless some of them ask for another one.  Where
they have, a word that was aligned for the first of its bit-fields is so for all. -/

/-- A bit-field that joins the word of the member before it, at an offset that is not aligned for
it. -/
def MemberLayout.JoinsAskew (before : List MemberLayout) (p : MemberLayout) : Prop :=
  p.Packed ∧ (∃ g ∈ before.getLast?, g.Packed ∧ p.span = g.span) ∧ ¬ p.alignment.bytes ∣ p.offset

namespace InSequence

variable {order : BitOrder}

/-- **Members in sequence are aligned** unless they have a fixed offset or join a word askew. -/
theorem aligned_or_joinsAskew {before after : List MemberLayout} {p : MemberLayout}
    (h : InSequence order (before ++ p :: after)) (hfree : p.fixed = false) :
    p.alignment.bytes ∣ p.offset ∨ p.JoinsAskew before := by
  by_cases hgroup : p.unionGroup = none
  · have hstep := h.placedBehind hgroup
    cases hbits : p.bits with
    | none =>
      rw [hstep.of_plain ⟨hfree, hgroup, hbits⟩]
      exact .inl (p.alignment.bytes_dvd_align _)
    | some r =>
      have hpacked : p.Packed := ⟨hfree, hgroup, by rw [hbits]; rfl⟩
      obtain ⟨-, ⟨g, hg, hroom, hspan⟩ | ⟨-, -, hoffset⟩⟩ := hstep.of_packed hpacked
      · exact (Classical.em _).imp_right fun hskew => ⟨hpacked, ⟨g, hg, hroom.1, hspan⟩, hskew⟩
      · rw [hoffset]
        exact .inl (p.alignment.bytes_dvd_align _)
  · obtain ⟨done, ps, qs, tail, -, -, hstep, -⟩ := h.exists_step rfl
    have hmem : p ∈ ps ++ p :: qs := List.mem_append_right _ List.mem_cons_self
    rw [((hstep.of_grouped hmem hgroup).2 p hmem).2.2]
    have hle := Alignment.le_strictest (List.mem_map_of_mem (f := (·.alignment)) hmem)
    exact .inl (Nat.dvd_trans (Alignment.bytes_dvd_bytes hle) (Alignment.bytes_dvd_align _ _))

/-- **No bit-field is askew** where those of one length are aligned alike. -/
theorem aligned {members : List MemberLayout} (h : InSequence order members)
    (halike : ∀ p ∈ members, ∀ q ∈ members, p.Packed → q.Packed → p.length = q.length →
      p.alignment = q.alignment) :
    ∀ p ∈ members, p.Packed → p.alignment.bytes ∣ p.offset := by
  induction h with
  | nil => exact nofun
  | @append done ps _ hps ih =>
    have hdone := ih fun p hp q hq =>
      halike p (List.mem_append_left _ hp) q (List.mem_append_left _ hq)
    intro p hp hpacked
    rcases List.mem_append.1 hp with hmem | hmem
    · exact hdone p hmem hpacked
    · obtain rfl := hps.eq_singleton hmem hpacked.2.1
      obtain ⟨-, ⟨g, hg, hroom, hspan⟩ | ⟨-, -, hoffset⟩⟩ := hps.of_packed hpacked
      · have hgmem : g ∈ done := List.mem_of_getLast? hg
        have hsame : p.alignment = g.alignment := halike p hp g (List.mem_append_left _ hgmem)
          hpacked hroom.1 (congrArg Span.length hspan)
        have hoffset : p.offset = g.offset := congrArg Span.offset hspan
        rw [hsame, hoffset]
        exact hdone g hgmem hroom.1
      · rw [hoffset]
        exact p.alignment.bytes_dvd_align _

end InSequence

end NativeRecord
