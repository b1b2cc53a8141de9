import Mathlib.Data.List.Induction
import NativeRecord.Proofs.Layout.Compatibility
import NativeRecord.Proofs.Layout.Tightness

/-!
# Which bit-fields share a word

Two structs with members of the same kinds, lengths and bits may have them at different offsets,
but the same bit-fields share a word in both: whether there is room in a word depends on the bits
that are taken in it, and not on where it lies.

Which word a bit-field goes into is decided by the placement when the offsets of earlier members are
known, and a declaration may be placed at other offsets under another pack.  The proof compares two
placed structs, member by member, by induction from the front.  Suppose that the members so far
share words alike on both sides.  The next bit-field joins the word of the last member if there is
room, or opens one behind all members; room depends on the bits taken in that word, and the same
members have taken bits there on both sides, so it goes the same way on both.  This is why the
statement is about pairs of members and the induction over a list of pairs: a statement about words
by themselves would have to say which word of one side is which of the other.

A bit-field at a fixed offset is placed without regard to open words, and could come to lie over
one.  The check then finds both in each other's way, because either has the bit that is allocated
first.

## What is here

* `MemberLayout.SameKind` — members of two structs that may differ in offset and alignment alone.
* `SharedAlike` — two bit-fields share a word in both structs or in neither.
* `InSequence.pairwise_sharedAlike` — so it is for members in sequence.
* `InSequence.span_ne_of_fixed` — a bit-field at a fixed offset shares its word with no other one.
* `Builds.sharedAlike`, `Builds.span_ne_of_fixed` — both for the members of records that build.
-/

set_option autoImplicit false
namespace NativeRecord

/-- Members of two structs that may differ in offset and alignment alone. -/
structure MemberLayout.SameKind (p p' : MemberLayout) : Prop where
  name : p.name = p'.name
  type : p.type = p'.type
  length : p.length = p'.length
  bits : p.bits = p'.bits
  fixed : p.fixed = p'.fixed
  unionGroup : p.unionGroup = p'.unionGroup

namespace MemberLayout.SameKind

variable {g g' p p' : MemberLayout}

/-- Members of one kind are packed on both sides or on neither. -/
theorem packed_iff (h : p.SameKind p') : p.Packed ↔ p'.Packed := by
  rw [Packed, Packed, h.fixed, h.unionGroup, h.bits]

theorem bitWidth_eq (h : p.SameKind p') : p.bitWidth = p'.bitWidth := by
  rw [bitWidth, bitWidth, h.bits]

/-- Members at one offset each have the same bytes in both structs if they are as long. -/
theorem span_eq_iff (hg : g.SameKind g') (hp : p.SameKind p') (hoffset : g.offset = p.offset)
    (hoffset' : g'.offset = p'.offset) : g.span = p.span ↔ g'.span = p'.span := by
  rw [span, span, span, span, Span.mk.injEq, Span.mk.injEq, hg.length, hp.length]
  exact and_congr_left' (iff_of_true hoffset hoffset')

end MemberLayout.SameKind

/-- A member that ends where the other one starts does not have its bytes. -/
theorem MemberLayout.span_ne_of_le {a p : MemberLayout} (hp : 0 < p.length)
    (h : a.offset + a.length ≤ p.offset) : a.span ≠ p.span := by
  intro hspan
  have hoffset : a.offset = p.offset := congrArg Span.offset hspan
  have hlength : a.length = p.length := congrArg Span.length hspan
  omega

/-! ## Where a member lies among those before it

What `InSequence` says of one member: it has the same place as a member before it, or lies behind.
-/

namespace InSequence

variable {order : BitOrder} {before after : List MemberLayout} {a p : MemberLayout}

/-- A bit-field joins the word of the last member, if there is room, or lies behind all members. -/
theorem joins_or_behind (h : InSequence order (before ++ p :: after)) (hp : p.Packed) :
    (∃ g ∈ before.getLast?, g.HasRoom before p ∧ p.span = g.span) ∨
      (∀ g ∈ before.getLast?, ¬ g.HasRoom before p) ∧
        ∀ a ∈ before, a.offset + a.length ≤ p.offset := by
  obtain ⟨-, ⟨g, hg, hroom, hspan⟩ | ⟨hfull, -, hoffset⟩⟩ := (h.placedBehind hp.2.1).of_packed hp
  · exact .inl ⟨g, hg, hroom, hspan⟩
  · refine .inr ⟨hfull, fun a ha => ?_⟩
    rw [hoffset]
    exact Nat.le_trans (stop_le_stopAfter ha) (p.alignment.le_align _)

/-- An anonymous union is named after a member that is not behind its own ones. -/
theorem unionGroup_le (h : InSequence order (before ++ p :: after)) {i : Nat}
    (hp : p.unionGroup = some i) : i ≤ before.length := by
  obtain ⟨done, ps, qs, tail, rfl, -, hstep, -⟩ := h.exists_step rfl
  have hmem : p ∈ ps ++ p :: qs := List.mem_append_right _ List.mem_cons_self
  have hgroup := ((hstep.of_grouped hmem (by rw [hp]; exact nofun)).2 p hmem).2.1
  obtain rfl := Option.some.inj (hp.symm.trans hgroup)
  rw [List.length_append]
  exact Nat.le_add_right _ _

/-- A member before one of an anonymous union is of that union, and starts with it, or ends before
the union. -/
theorem unionGroup_eq_or_stop_le (h : InSequence order (before ++ p :: after))
    (hp : p.unionGroup ≠ none) (ha : a ∈ before) :
    a.unionGroup = p.unionGroup ∧ a.offset = p.offset ∨
      a.unionGroup ≠ p.unionGroup ∧ a.offset + a.length ≤ p.offset := by
  obtain ⟨done, ps, qs, tail, rfl, -, hstep, -⟩ := h.exists_step rfl
  have hmem : p ∈ ps ++ p :: qs := List.mem_append_right _ List.mem_cons_self
  obtain ⟨-, hshared⟩ := hstep.of_grouped hmem hp
  obtain ⟨-, hgroup, hoffset⟩ := hshared p hmem
  rcases List.mem_append.1 ha with ha | ha
  · refine .inr ⟨fun hsame => ?_, ?_⟩
    · -- The union is named after the first member behind those that are done.
      obtain ⟨front, back, rfl⟩ := List.append_of_mem ha
      rw [List.append_assoc, List.append_assoc, List.cons_append] at h
      have hle := h.unionGroup_le (hsame.trans hgroup)
      rw [List.length_append, List.length_cons] at hle
      omega
    · rw [hoffset]
      exact Nat.le_trans (stop_le_stopAfter ha) (Alignment.le_align _ _)
  · obtain ⟨-, hgroup', hoffset'⟩ := hshared a (List.mem_append_left _ ha)
    exact .inl ⟨hgroup'.trans hgroup.symm, hoffset'.trans hoffset.symm⟩

end InSequence

/-! ## Two structs side by side

The two structs are a list of pairs, and the fronts of it are what the induction has dealt with. -/

/-- A bit-field that may share its word, since it has no fixed offset. -/
def MemberLayout.Sharing (p : MemberLayout) : Prop := p.fixed = false ∧ p.isBitField = true

/-- The bit-fields at two places share a word in both structs or in neither. -/
def SharedAlike (x y : MemberLayout × MemberLayout) : Prop :=
  x.1.Sharing → y.1.Sharing → (x.1.span = y.1.span ↔ x.2.span = y.2.span)

theorem SharedAlike.refl (x : MemberLayout × MemberLayout) : SharedAlike x x :=
  fun _ _ => iff_of_true rfl rfl

instance : Std.Symm SharedAlike where
  symm x y h hy hx := by rw [eq_comm, h hx hy, eq_comm]

/-- Among all members, as soon as it is so for each and those behind it. -/
theorem sharedAlike_of_pairwise {ps : List (MemberLayout × MemberLayout)}
    (h : ps.Pairwise SharedAlike) : ∀ x ∈ ps, ∀ y ∈ ps, SharedAlike x y :=
  h.forall_of_forall fun x _ => SharedAlike.refl x

/-- The same bits are taken in a word on both sides. -/
theorem slots_eq_of_sharedAlike {ps : List (MemberLayout × MemberLayout)}
    (hkind : ∀ x ∈ ps, x.1.SameKind x.2) (hshared : ps.Pairwise SharedAlike)
    {x : MemberLayout × MemberLayout} (hx : x ∈ ps) (hpacked : x.1.Packed) :
    slots x.1.span (ps.map Prod.fst) = slots x.2.span (ps.map Prod.snd) := by
  rw [slots, slots, List.filter_map, List.filter_map, List.filterMap_map, List.filterMap_map]
  have hword : ps.filter ((fun p => decide (p.Packed ∧ p.span = x.1.span)) ∘ Prod.fst) =
      ps.filter ((fun p => decide (p.Packed ∧ p.span = x.2.span)) ∘ Prod.snd) := by
    refine List.filter_congr fun y hy => decide_eq_decide.2 ?_
    rw [← (hkind y hy).packed_iff]
    exact and_congr_right fun hp =>
      sharedAlike_of_pairwise hshared y hy x hx ⟨hp.1, hp.2.2⟩ ⟨hpacked.1, hpacked.2.2⟩
  rw [hword]
  refine List.filterMap_congr fun y hy => ?_
  exact (hkind y (List.mem_of_mem_filter hy)).bits

namespace InSequence

variable {order : BitOrder} {before after ps : List (MemberLayout × MemberLayout)}
  {a x : MemberLayout × MemberLayout}

/-- The word of the last member has room on both sides or on neither. -/
theorem hasRoom_iff (hkind : ∀ y ∈ before ++ [a], y.1.SameKind y.2)
    (hshared : (before ++ [a]).Pairwise SharedAlike) (hx : x.1.SameKind x.2) :
    a.1.HasRoom ((before ++ [a]).map Prod.fst) x.1 ↔
      a.2.HasRoom ((before ++ [a]).map Prod.snd) x.2 := by
  have hmem : a ∈ before ++ [a] := List.mem_append_right _ List.mem_cons_self
  have ha := hkind a hmem
  rw [MemberLayout.HasRoom, MemberLayout.HasRoom, ← ha.packed_iff, ← ha.length, ← hx.length,
    ← hx.bitWidth_eq]
  refine and_congr_right fun hpacked => and_congr_right fun _ => ?_
  rw [usedBits, usedBits, slots_eq_of_sharedAlike hkind hshared hmem hpacked]

/-- **The next bit-field shares a word with the same ones on both sides,** if those before it do. -/
theorem sharedAlike_step (h : InSequence order ((before ++ x :: after).map Prod.fst))
    (h' : InSequence order ((before ++ x :: after).map Prod.snd))
    (hkind : ∀ y ∈ before ++ x :: after, y.1.SameKind y.2) (hpos : 0 < x.1.length)
    (hshared : before.Pairwise SharedAlike) : ∀ a ∈ before, SharedAlike a x := by
  intro a ha hasharing hxsharing
  rw [List.map_append, List.map_cons] at h h'
  have hxkind := hkind x (List.mem_append_right _ List.mem_cons_self)
  have hakind := hkind a (List.mem_append_left _ ha)
  have hpos' : 0 < x.2.length := hxkind.length ▸ hpos
  have hmem := List.mem_map_of_mem (f := Prod.fst) ha
  have hmem' := List.mem_map_of_mem (f := Prod.snd) ha
  by_cases hgroup : x.1.unionGroup = none
  · have hpacked : x.1.Packed := ⟨hxsharing.1, hgroup, hxsharing.2⟩
    have hpacked' : x.2.Packed := hxkind.packed_iff.1 hpacked
    obtain rfl | ⟨front, g, rfl⟩ := before.eq_nil_or_concat'
    · cases ha
    have hgmem : g ∈ front ++ [g] := List.mem_append_right _ List.mem_cons_self
    have hroom := hasRoom_iff (fun y hy => hkind y (List.mem_append_left _ hy)) hshared hxkind
    have hlast : ((front ++ [g]).map Prod.fst).getLast? = some g.1 := by
      rw [List.map_append]; exact List.getLast?_concat
    have hlast' : ((front ++ [g]).map Prod.snd).getLast? = some g.2 := by
      rw [List.map_append]; exact List.getLast?_concat
    rcases h.joins_or_behind hpacked with ⟨_, hg, hjoins, hspan⟩ | ⟨hfull, hbehind⟩
    · cases hlast.symm.trans hg
      rcases h'.joins_or_behind hpacked' with ⟨_, hg', -, hspan'⟩ | ⟨hfull', -⟩
      · cases hlast'.symm.trans hg'
        rw [hspan, hspan']
        exact sharedAlike_of_pairwise hshared a ha g hgmem hasharing ⟨hjoins.1.1, hjoins.1.2.2⟩
      · exact absurd (hroom.1 hjoins) (hfull' _ hlast')
    · rcases h'.joins_or_behind hpacked' with ⟨_, hg', hjoins', -⟩ | ⟨-, hbehind'⟩
      · cases hlast'.symm.trans hg'
        exact absurd (hroom.2 hjoins') (hfull _ hlast)
      · exact iff_of_false (MemberLayout.span_ne_of_le hpos (hbehind _ hmem))
          (MemberLayout.span_ne_of_le hpos' (hbehind' _ hmem'))
  · have hgroup' : x.2.unionGroup ≠ none := hxkind.unionGroup ▸ hgroup
    rcases h.unionGroup_eq_or_stop_le hgroup hmem with ⟨hsame, hoffset⟩ | ⟨hother, hstop⟩
    · rw [hakind.unionGroup, hxkind.unionGroup] at hsame
      rcases h'.unionGroup_eq_or_stop_le hgroup' hmem' with ⟨-, hoffset'⟩ | ⟨hother, -⟩
      · exact hakind.span_eq_iff hxkind hoffset hoffset'
      · exact absurd hsame hother
    · rw [hakind.unionGroup, hxkind.unionGroup] at hother
      rcases h'.unionGroup_eq_or_stop_le hgroup' hmem' with ⟨hsame, -⟩ | ⟨-, hstop'⟩
      · exact absurd hsame hother
      · exact iff_of_false (MemberLayout.span_ne_of_le hpos hstop)
          (MemberLayout.span_ne_of_le hpos' hstop')

/-- **The same bit-fields share a word on both sides.** -/
theorem pairwise_sharedAlike (h : InSequence order (ps.map Prod.fst))
    (h' : InSequence order (ps.map Prod.snd)) (hkind : ∀ x ∈ ps, x.1.SameKind x.2)
    (hpos : ∀ x ∈ ps, x.1.isBitField = true → 0 < x.1.length) : ps.Pairwise SharedAlike := by
  suffices ∀ before after, ps = before ++ after → before.Pairwise SharedAlike from
    this ps [] (List.append_nil ps).symm
  intro before
  -- The sides go on to have the same words, one member after the other.
  induction before using List.reverseRecOn with
  | nil => exact fun _ _ => .nil
  | append_singleton before x ih =>
    rintro after rfl
    rw [List.append_assoc, List.singleton_append] at h h' hkind hpos
    have hx : x ∈ before ++ x :: after := List.mem_append_right _ List.mem_cons_self
    have hshared := ih (x :: after) (List.append_assoc ..)
    refine List.pairwise_append.2 ⟨hshared, List.pairwise_singleton _ _, fun a ha y hy => ?_⟩
    obtain rfl := List.mem_singleton.1 hy
    intro hasharing hysharing
    exact h.sharedAlike_step h' hkind (hpos y hx hysharing.2) hshared a ha hasharing hysharing

end InSequence

/-! ## Bit-fields at fixed offsets

A bit-field that is alone in its word has the bit that is allocated first, and so has the first one
of every shared word. -/

/-- The bit that is allocated first in a word of `capacity` bits. -/
def BitOrder.firstBit (order : BitOrder) (capacity : Nat) : Nat :=
  match order with
  | .lsbFirst => 0
  | .msbFirst => capacity - 1

theorem BitOrder.allocated_firstBit (order : BitOrder) {capacity used : Nat} (hused : 0 < used)
    (hcapacity : 0 < capacity) : order.Allocated capacity used (order.firstBit capacity) := by
  cases order <;> simp only [Allocated, firstBit] <;> omega

theorem BitOrder.firstBit_lt (order : BitOrder) {capacity : Nat} (h : 0 < capacity) :
    order.firstBit capacity < capacity := by
  cases order <;> simp only [firstBit] <;> omega

/-- A bit-field has the bits that are allocated first in its word. -/
def MemberLayout.FirstInWord (order : BitOrder) (p : MemberLayout) : Prop :=
  ∀ r, p.bits = some r → r = order.range (8 * p.length) 0 r.width

/-- A bit-field that has its word to itself starts at the first bit. -/
theorem ResolvedMember.firstInWord (order : BitOrder) (m : ResolvedMember) (offset : Nat)
    (fixed : Bool) (group : Option Nat) :
    (m.placedAt offset (aloneInWord order m) fixed group).FirstInWord order := by
  intro r hr
  obtain ⟨bits, -, rfl⟩ := Option.map_eq_some_iff.1 hr
  rw [order.width_range]
  rfl

/-- A bit-field that is not packed with its neighbours is alone in its word, as it was placed. -/
theorem placeInSequence_firstInWord {limit : SizeLimit} {order : BitOrder} {owner : Tag}
    {members : List ResolvedMember} {placed : List MemberLayout} {stop : Nat}
    (h : placeInSequence limit order owner members = .ok (placed, stop)) :
    ∀ p ∈ placed, p.Packed ∨ p.FirstInWord order := by
  have hrelated : List.Forall₂ (fun _ p => p.Packed ∨ p.FirstInWord order) members placed := by
    refine placeInSequence_related (fun u _ index cursor cursor' ps hps => ?_) h
    cases u with
    | fixed m offset =>
      obtain ⟨rfl, -⟩ := placeUnit_fixed_eq_ok hps
      exact .cons (.inr (m.firstInWord order _ _ _)) .nil
    | overlay first rest =>
      obtain ⟨rfl, -⟩ := placeUnit_overlay_eq_ok hps
      rw [List.forall₂_map_right_iff, PlacementUnit.members, List.forall₂_same]
      exact fun m _ => .inr (m.firstInWord order _ _ _)
    | bitField m bits =>
      obtain ⟨word, next, -, rfl, -⟩ := placeUnit_bitField_eq_ok hps
      exact .cons (.inl m.packed_slottedAt) .nil
    | plain m =>
      obtain ⟨rfl, -⟩ := placeUnit_plain_eq_ok hps
      refine .cons (.inr fun r hr => ?_) .nil
      cases hr
  intro p hp
  obtain ⟨_, -, hfirst⟩ := exists_mem_of_forall₂ hrelated hp
  exact hfirst

/-- A member has a bit of its word. -/
def MemberLayout.HasBit (p : MemberLayout) (i : Nat) : Prop := ∃ r, p.bits = some r ∧ r.Has i

namespace MemberLayout

variable {order : BitOrder} {p q : MemberLayout}

/-- A bit-field has some bits, and they fit its length. -/
theorem BitsInWord.range_fits (h : p.BitsInWord) {r : BitRange} (hr : p.bits = some r) :
    0 < r.width ∧ r.first + r.width ≤ 8 * p.length := by
  obtain ⟨a, size, alignment, hshape, -, hpos, hfits⟩ := h r hr
  rw [length, hshape]
  exact ⟨hpos, hfits⟩

/-- A bit-field has a word with at least one byte. -/
theorem BitsInWord.length_pos (h : p.BitsInWord) (hp : p.isBitField = true) : 0 < p.length := by
  obtain ⟨r, hr⟩ := Option.isSome_iff_exists.1 hp
  have hfits := h.range_fits hr
  omega

/-- A bit-field that is first in its word has the first bit of it. -/
theorem FirstInWord.hasBit (h : p.FirstInWord order) (hbits : p.BitsInWord)
    (hp : p.isBitField = true) : p.HasBit (order.firstBit (8 * p.length)) := by
  obtain ⟨r, hr⟩ := Option.isSome_iff_exists.1 hp
  obtain ⟨hpos, hfits⟩ := hbits.range_fits hr
  refine ⟨r, hr, ?_⟩
  rw [h r hr, order.has_range_iff (by omega)]
  refine ⟨order.allocated_firstBit (by omega) (by omega), ?_⟩
  cases order <;> simp only [BitOrder.Allocated] <;> omega

/-- Members that both have a bit of one word are not compatible, unless they are of one union. -/
theorem HasBit.not_compatible {i : Nat} (hp : p.HasBit i) (hq : q.HasBit i) (hi : i < 64)
    (hspan : p.span = q.span) (hlength : 0 < p.length) (hgroup : p.unionGroup = none) :
    ¬ p.Compatible q := by
  intro hcompatible
  have hlength' : p.length = q.length := congrArg Span.length hspan
  have hmeet : p.span.Intersects q.span := by
    rw [← hspan, Span.Intersects, offset_span, stop_span]
    omega
  rcases mayShare_eq_true_iff.1 (hcompatible hlength (hlength' ▸ hlength) hmeet) with
    hunion | ⟨x, y, hx, hy, -, hmask⟩
  · rw [SameUnion, hgroup] at hunion
    cases hunion.1
  · obtain ⟨r, hr, hri⟩ := hp
    obtain ⟨r', hr', hri'⟩ := hq
    obtain rfl := Option.some.inj (hx.symm.trans hr)
    obtain rfl := Option.some.inj (hy.symm.trans hr')
    exact BitRange.mask_and_mask_eq_zero_iff.1 hmask i hi ⟨hri, hri'⟩

end MemberLayout

/-- Some member of each word that is shared has the first bit of it. -/
theorem InSequence.exists_hasBit {order : BitOrder} {members : List MemberLayout}
    (h : InSequence order members) {q : MemberLayout} (hq : q ∈ members) (hpacked : q.Packed)
    (hbits : q.BitsInWord) :
    ∃ g ∈ members, g.Packed ∧ g.span = q.span ∧ g.HasBit (order.firstBit (8 * q.length)) := by
  obtain ⟨r, hr⟩ := Option.isSome_iff_exists.1 hpacked.2.2
  obtain ⟨hpos, hfits⟩ := hbits.range_fits hr
  have hused : 0 < usedBits q.span members := by
    obtain ⟨before, after, rfl⟩ := List.append_of_mem hq
    rw [← List.singleton_append, usedBits_append, usedBits_append, usedBits_singleton hpacked hr]
    omega
  have hcapacity : 0 < 8 * q.span.length := by rw [MemberLayout.length_span]; omega
  obtain ⟨r', hr', hhas⟩ := ((h.stacked q.span).exists_has_iff _).2
    (order.allocated_firstBit hused hcapacity)
  obtain ⟨g, hg, hbits'⟩ := List.mem_filterMap.1 hr'
  obtain ⟨hgmem, hword⟩ := List.mem_filter.1 hg
  obtain ⟨hgpacked, hgspan⟩ := of_decide_eq_true hword
  exact ⟨g, hgmem, hgpacked, hgspan, r', hbits', hhas⟩

instance : Std.Symm MemberLayout.Compatible := ⟨fun _ _ h => h.symm⟩

/-- **A bit-field at a fixed offset shares its word with no other one,** in a struct whose members
are compatible. -/
theorem InSequence.span_ne_of_fixed {order : BitOrder} {members : List MemberLayout}
    (h : InSequence order members) (hfirst : ∀ p ∈ members, p.Packed ∨ p.FirstInWord order)
    (hbits : ∀ p ∈ members, p.BitsInWord) (hapart : members.Pairwise MemberLayout.Compatible)
    {p q : MemberLayout} (hp : p ∈ members) (hq : q ∈ members) (hne : p ≠ q)
    (hpbits : p.isBitField = true) (hqbits : q.isBitField = true) (hfixed : p.fixed = true)
    (hgroup : p.unionGroup = none) (hlength : p.length ≤ 8) : p.span ≠ q.span := by
  intro hspan
  have hqlength : p.length = q.length := congrArg Span.length hspan
  have hpfirst : p.FirstInWord order := (hfirst p hp).resolve_left fun hpacked => by
    rw [hpacked.1] at hfixed
    cases hfixed
  have hpos := (hbits p hp).length_pos hpbits
  have hfirstBit : order.firstBit (8 * p.length) < 8 * p.length := order.firstBit_lt (by omega)
  -- Whether or not the other one is packed, a member of its word has the bit that this one has.
  obtain ⟨g, hg, hgne, hgspan, hgbit⟩ : ∃ g ∈ members, p ≠ g ∧ g.span = q.span ∧
      g.HasBit (order.firstBit (8 * p.length)) := by
    rw [hqlength]
    rcases hfirst q hq with hpacked | hqfirst
    · obtain ⟨g, hg, hgpacked, hgspan, hgbit⟩ := h.exists_hasBit hq hpacked (hbits q hq)
      refine ⟨g, hg, ?_, hgspan, hgbit⟩
      rintro rfl
      rw [hgpacked.1] at hfixed
      cases hfixed
    · exact ⟨q, hq, hne, rfl, hqfirst.hasBit (hbits q hq) hqbits⟩
  have hcompatible : p.Compatible g := hapart.forall hp hg hgne
  exact (hpfirst.hasBit (hbits p hp) hpbits).not_compatible hgbit (by omega)
    (hspan.trans hgspan.symm) hpos hgroup hcompatible

/-! ## Built layouts

The members of records that build satisfy all that is assumed above. -/

section Builds

variable {limit : SizeLimit} {Has : Tag → Layout → Prop} {config config' : Config}
  {decl decl' : RecordDecl} {l l' : Layout}

/-- **The same bit-fields share a word in two layouts** with members of the same kinds. -/
theorem Builds.sharedAlike (h : Builds limit Has config decl l)
    (h' : Builds limit Has config' decl' l') (horder : config.bitOrder = config'.bitOrder)
    (hform : l.form = l'.form) (hkind : List.Forall₂ MemberLayout.SameKind l.members l'.members) :
    ∀ x ∈ l.members.zip l'.members, ∀ y ∈ l.members.zip l'.members, SharedAlike x y := by
  obtain ⟨hlength, hzip⟩ := List.forall₂_iff_zip.1 hkind
  have hkind : ∀ x ∈ l.members.zip l'.members, x.1.SameKind x.2 := fun _ hx => hzip hx
  cases hl : l.form with
  | struct =>
    obtain ⟨-, hsequence, -⟩ := h.inSequence hl
    obtain ⟨-, hsequence', -⟩ := h'.inSequence (hform ▸ hl)
    rw [← horder, ← List.map_snd_zip hlength.ge] at hsequence'
    rw [← List.map_fst_zip hlength.le] at hsequence
    exact sharedAlike_of_pairwise (hsequence.pairwise_sharedAlike hsequence' hkind fun x hx =>
      (h.wellPlaced.bits _ (List.of_mem_zip hx).1).length_pos)
  | union =>
    intro x hx y hy _ _
    have hoffset (x : MemberLayout × MemberLayout) (hx : x ∈ l.members.zip l'.members) :
        x.1.offset = 0 ∧ x.2.offset = 0 :=
      ⟨(h.overlaid hl).1 _ (List.of_mem_zip hx).1,
        (h'.overlaid (hform ▸ hl)).1 _ (List.of_mem_zip hx).2⟩
    obtain ⟨hx0, hx0'⟩ := hoffset x hx
    obtain ⟨hy0, hy0'⟩ := hoffset y hy
    exact (hkind x hx).span_eq_iff (hkind y hy) (hx0.trans hy0.symm) (hx0'.trans hy0'.symm)

/-- **A bit-field at a fixed offset shares its word with no other one.** -/
theorem Builds.span_ne_of_fixed (h : Builds limit Has config decl l) {p q : MemberLayout}
    (hp : p ∈ l.members) (hq : q ∈ l.members) (hne : p.name ≠ q.name)
    (hpbits : p.isBitField = true) (hqbits : q.isBitField = true) (hfixed : p.fixed = true) :
    p.span ≠ q.span := by
  have hform : l.form = decl.form := h.exists_members.2.1
  obtain ⟨pack, members, stop, -, -, hplaced, -⟩ := h.exists_placed
  rw [placeMembers] at hplaced
  cases hdecl : decl.form with
  | struct =>
    rw [hdecl] at hplaced hform
    obtain ⟨hkinds, hsequence, -⟩ := h.inSequence hform
    obtain ⟨d, -, hd⟩ := exists_mem_of_forall₂ hkinds hp
    have hgroup : p.unionGroup = none := by
      rw [hd.fixed] at hfixed
      obtain ⟨offset, hoffset⟩ := Option.isSome_iff_exists.1 hfixed
      have hgrouped := hd.grouped
      rwa [hoffset, Option.isNone_some, Bool.false_and, Option.isSome_eq_false_iff,
        Option.isNone_iff_eq_none] at hgrouped
    exact hsequence.span_ne_of_fixed (placeInSequence_firstInWord hplaced) h.wellPlaced.bits
      (h.wellPlaced.apart hform) hp hq (fun hsame => hne (congrArg _ hsame)) hpbits hqbits hfixed
      hgroup (h.length_le hp hpbits)
  | union =>
    rw [hdecl] at hplaced
    obtain ⟨-, hmembers, -⟩ := overlayMembers_eq_ok_iff.1 hplaced
    rw [hmembers] at hp
    obtain ⟨m, -, rfl⟩ := List.mem_map.1 hp
    cases hfixed

end Builds

end NativeRecord
