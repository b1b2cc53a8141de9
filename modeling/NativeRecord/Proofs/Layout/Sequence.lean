import Mathlib.Data.List.Chain
import Mathlib.Data.List.MinMax
import NativeRecord.Proofs.Layout.Soundness

/-!
# The members of a struct, one step after the other

A struct is placed with a cursor that lags behind while a backing word is open and jumps where a
member has a fixed offset.  What comes of it can be said without one: where the members of a step
lie depends on the members before them alone, on where the last of these ends and on the bits that
are taken in the word of the very last one.

`PlacedBehind` says it step by step, with one constructor for each thing that can happen, and
`InSequence` is a list that came about in such steps.  Everything that is proved about structs
further on — that the offsets are least, that bit-fields are packed, how two placements compare —
starts from these two and never mentions a cursor again.

The bridge is `Cursor.Behind`.  The cursor holds less than the members do: an offset, and perhaps an
open word with the number of bits in use.  The invariant says how the members explain it: the cursor
closes where the members end, and if a word is open it is that of the very last member, with as many
bits in use as the packed members in it have.  Only the last member counts, since any other step
closes the word; it is not enough that some earlier member lies there.  Each step keeps the
invariant and places what `PlacedBehind` allows, which gives the whole run by induction over the
units.

## What is here

* `stopAfter` — the end of the last byte of some members; `slots`, `usedBits` — the bits that are
  taken in a word, and how many they are.
* `MemberLayout.Plain`, `MemberLayout.Packed`, `MemberLayout.OfKind` — the kinds of members, and
  that a placed member is of the kind that was declared (`placeInSequence_ofKind`).
* `PlacedBehind` — where the members of one step lie; `InSequence` — members in such steps.
* `Cursor.Behind` — what the cursor knows about the members before it: a step keeps it and places
  members where they follow (`placeUnit_placedBehind`), so a run places them in sequence
  (`placeInSequence_inSequence`).
* `InSequence.exists_step` — the step that a member is placed in; `InSequence.placedBehind` and
  `InSequence.placedBehind_union`, what it comes to for a member of no anonymous union and for one.
* `Builds.inSequence` — the members of a struct that builds.
-/

set_option autoImplicit false
namespace NativeRecord

/-! ## Where members end

The maximum of the ends, since a member at a fixed offset may end before those in front of it. -/

/-- The end of the last byte of some members, zero if there are none. -/
def stopAfter (ps : List MemberLayout) : Nat := (ps.map (·.span.stop)).foldr max 0

@[simp] theorem stopAfter_nil : stopAfter [] = 0 := rfl

@[simp] theorem stopAfter_cons (p : MemberLayout) (ps : List MemberLayout) :
    stopAfter (p :: ps) = max (p.offset + p.length) (stopAfter ps) := rfl

/-- The end of two lists is the later one. -/
theorem stopAfter_append (ps qs : List MemberLayout) :
    stopAfter (ps ++ qs) = max (stopAfter ps) (stopAfter qs) := by
  induction ps with
  | nil => simp
  | cons p ps ih => rw [List.cons_append, stopAfter_cons, stopAfter_cons, ih, Nat.max_assoc]

/-- Every member ends by then. -/
theorem stop_le_stopAfter {p : MemberLayout} {ps : List MemberLayout} (h : p ∈ ps) :
    p.offset + p.length ≤ stopAfter ps :=
  List.le_max_of_le' 0 (List.mem_map_of_mem (f := (·.span.stop)) h) (Nat.le_refl _)

/-- Members at one offset behind all others end with the longest of them. -/
theorem stopAfter_append_of_offset {start : Nat} {done ps : List MemberLayout} (hne : ps ≠ [])
    (hstart : stopAfter done ≤ start) (h : ∀ p ∈ ps, p.offset = start) :
    stopAfter (done ++ ps) = start + (ps.map (·.length)).foldr max 0 := by
  rw [stopAfter_append]
  induction ps with
  | nil => exact absurd rfl hne
  | cons p ps ih =>
    obtain ⟨hp, hps⟩ := List.forall_mem_cons.1 h
    rw [stopAfter_cons, hp, List.map_cons, List.foldr_cons]
    cases ps with
    | nil => simp only [stopAfter_nil, List.map_nil, List.foldr_nil]; omega
    | cons q ps => have := ih (List.cons_ne_nil _ _) hps; omega

/-! ## Kinds of members

Three things set a placed member apart: a fixed offset, an anonymous union, bits.  A fixed offset
goes first, so a member with one is neither plain nor packed, whatever else was declared. -/

namespace MemberLayout

/-- Neither a bit-field nor of an anonymous union, at no fixed offset. -/
def Plain (p : MemberLayout) : Prop :=
  p.fixed = false ∧ p.unionGroup = none ∧ p.bits = none

/-- A bit-field that is packed with its neighbours: of no anonymous union, at no fixed offset. -/
def Packed (p : MemberLayout) : Prop :=
  p.fixed = false ∧ p.unionGroup = none ∧ p.bits.isSome = true

instance (p : MemberLayout) : Decidable p.Packed := inferInstanceAs (Decidable (_ ∧ _ ∧ _))

/-- The number of bits of a bit-field, zero for any other member. -/
def bitWidth (p : MemberLayout) : Nat := p.bits.elim 0 (·.width)

/-- A placed member is the declared one, of the same kind. -/
structure OfKind (decl : MemberDecl) (p : MemberLayout) : Prop where
  name : p.name = decl.name
  type : p.type = decl.type
  width : p.bits.map (·.width) = decl.bits
  fixed : p.fixed = decl.offset.isSome
  grouped : p.unionGroup.isSome = (decl.offset.isNone && decl.inUnion)

end MemberLayout

/-! ## Bits of a word

A word is known by its bytes.  The bits in use in it are those of the packed members that have
exactly these bytes. -/

/-- The bits that packed members take in a word, in the order of the members. -/
def slots (word : Span) (ps : List MemberLayout) : List BitRange :=
  (ps.filter fun p => p.Packed ∧ p.span = word).filterMap (·.bits)

/-- The number of bits that packed members take in a word. -/
def usedBits (word : Span) (ps : List MemberLayout) : Nat := ((slots word ps).map (·.width)).sum

/-- Bits in a word, list by list. -/
theorem slots_append (word : Span) (ps qs : List MemberLayout) :
    slots word (ps ++ qs) = slots word ps ++ slots word qs := by
  rw [slots, List.filter_append, List.filterMap_append]
  rfl

theorem usedBits_append (word : Span) (ps qs : List MemberLayout) :
    usedBits word (ps ++ qs) = usedBits word ps + usedBits word qs := by
  rw [usedBits, slots_append, List.map_append, List.sum_append]
  rfl

theorem slots_singleton {p : MemberLayout} {r : BitRange} (h : p.Packed) (hbits : p.bits = some r) :
    slots p.span [p] = [r] := by
  have hword : ([p].filter fun q => q.Packed ∧ q.span = p.span) = [p] :=
    List.filter_eq_self.2 (List.forall_mem_singleton.2 (decide_eq_true ⟨h, rfl⟩))
  rw [slots, hword, List.filterMap_cons_some hbits]
  rfl

theorem usedBits_singleton {p : MemberLayout} {r : BitRange} (h : p.Packed)
    (hbits : p.bits = some r) : usedBits p.span [p] = r.width := by
  rw [usedBits, slots_singleton h hbits]
  exact Nat.add_zero _

/-- A word that no packed member has takes no bits. -/
theorem slots_eq_nil {word : Span} {ps : List MemberLayout}
    (h : ∀ p ∈ ps, p.Packed → p.span ≠ word) : slots word ps = [] := by
  have hnone : (ps.filter fun p => p.Packed ∧ p.span = word) = [] := by
    rw [List.filter_eq_nil_iff]
    intro p hp hword
    rw [decide_eq_true_eq] at hword
    exact h p hp hword.1 hword.2
  rw [slots, hnone]
  rfl

/-- No bits are taken in a word that starts where all members have ended. -/
theorem slots_eq_nil_of_le {word : Span} {ps : List MemberLayout} (hword : 0 < word.length)
    (h : stopAfter ps ≤ word.offset) : slots word ps = [] := by
  refine slots_eq_nil fun p hp _ hspan => ?_
  have hstop := stop_le_stopAfter hp
  have hoffset : p.offset = word.offset := congrArg Span.offset hspan
  have hlength : p.length = word.length := congrArg Span.length hspan
  omega

theorem usedBits_eq_zero {word : Span} {ps : List MemberLayout} (hword : 0 < word.length)
    (h : stopAfter ps ≤ word.offset) : usedBits word ps = 0 := by
  rw [usedBits, slots_eq_nil_of_le hword h]
  rfl

/-! ## Steps

How the members of one step lie behind those that are done, in five cases. -/

namespace MemberLayout

/-- The word of `g` is one for `p`, and has room for its bits behind those of `done`. -/
def HasRoom (done : List MemberLayout) (g p : MemberLayout) : Prop :=
  g.Packed ∧ g.length = p.length ∧ usedBits g.span done + p.bitWidth ≤ 8 * p.length

/-- The bits of a packed member come next to those of the members before it in its word. -/
def Slotted (order : BitOrder) (done : List MemberLayout) (p : MemberLayout) : Prop :=
  ∃ r, p.bits = some r ∧ usedBits p.span done + r.width ≤ 8 * p.length ∧
    r = order.range (8 * p.length) (usedBits p.span done) r.width

end MemberLayout

/-- Where the members that are placed in one step lie, behind those that are `done`. -/
inductive PlacedBehind (order : BitOrder) (done : List MemberLayout) : List MemberLayout → Prop
  | fixed {p : MemberLayout} (h : p.fixed = true) (hgroup : p.unionGroup = none) :
      PlacedBehind order done [p]
  | plain {p : MemberLayout} (h : p.Plain)
      (hoffset : p.offset = p.alignment.align (stopAfter done)) : PlacedBehind order done [p]
  | opened {p : MemberLayout} (h : p.Packed) (hlength : 0 < p.length)
      (hoffset : p.offset = p.alignment.align (stopAfter done))
      (hfull : ∀ g ∈ done.getLast?, ¬ g.HasRoom done p) (hslot : p.Slotted order done) :
      PlacedBehind order done [p]
  | joined {g p : MemberLayout} (h : p.Packed) (hg : g ∈ done.getLast?)
      (hroom : g.HasRoom done p) (hspan : p.span = g.span) (hslot : p.Slotted order done) :
      PlacedBehind order done [p]
  | overlay {ps : List MemberLayout} (hne : ps ≠ [])
      (hapart : ∀ g ∈ done.getLast?, g.unionGroup = none)
      (hps : ∀ p ∈ ps, p.fixed = false ∧ p.unionGroup = some done.length ∧
        p.offset = (Alignment.strictest (ps.map (·.alignment))).align (stopAfter done)) :
      PlacedBehind order done ps

/-- Members that are placed in steps, each behind those before it. -/
inductive InSequence (order : BitOrder) : List MemberLayout → Prop
  | nil : InSequence order []
  | append {done ps : List MemberLayout} (h : InSequence order done)
      (hps : PlacedBehind order done ps) : InSequence order (done ++ ps)

theorem PlacedBehind.ne_nil {order : BitOrder} {done ps : List MemberLayout}
    (h : PlacedBehind order done ps) : ps ≠ [] := by
  cases h with
  | overlay hne => exact hne
  | _ => exact List.cons_ne_nil _ _

/-! ## The cursor

The invariant, and its preservation by each kind of unit. -/

/-- What the cursor knows about the members before it: where they end, and the word of the last one
if that is packed. -/
structure Cursor.Behind (done : List MemberLayout) (c : Cursor) : Prop where
  close : c.close = stopAfter done
  opened : ∀ w, c.word = some w → ∃ g ∈ done.getLast?, g.Packed ∧ g.span = ⟨w.offset, w.size⟩ ∧
    usedBits g.span done = w.used
  closed : c.word = none → ∀ g ∈ done.getLast?, ¬ g.Packed

theorem Cursor.behind_start : Cursor.start.Behind [] := ⟨rfl, nofun, nofun⟩

/-- A resolved member whose bits, if it has any, are not none and fit its type. -/
def ResolvedMember.BitsUsable (m : ResolvedMember) : Prop :=
  ∀ bits, m.decl.bits = some bits → 0 < bits ∧ bits ≤ 8 * m.size

theorem ResolvedMember.BitsUsable.fit {m : ResolvedMember} (h : m.BitsUsable) : m.BitsFit :=
  fun bits hbits => (h bits hbits).2

/-- A bit-field that was resolved has bits, and no more than its type. -/
theorem MemberOf.bitsUsable {limit : SizeLimit} {Has : Tag → Layout → Prop} {platform : Platform}
    {owner : Tag} {pack : Option Alignment} {decl : MemberDecl} {m : ResolvedMember}
    (h : MemberOf limit platform owner Has pack decl m) : m.BitsUsable := by
  intro bits hbits
  rw [h.decl_eq] at hbits
  exact (checkBits_eq_ok_iff.1 h.bits bits hbits).2

theorem membersOf_bitsUsable {limit : SizeLimit} {Has : Tag → Layout → Prop} {platform : Platform}
    {owner : Tag} {pack : Option Alignment} {decls : List MemberDecl} {ms : List ResolvedMember}
    (h : List.Forall₂ (MemberOf limit platform owner Has pack) decls ms) :
    ∀ m ∈ ms, m.BitsUsable :=
  fun _ hm => (exists_mem_of_forall₂ h hm).elim fun _ h => h.2.bitsUsable

/-- The unit is an anonymous union. -/
def PlacementUnit.IsOverlay : PlacementUnit → Prop
  | overlay _ _ => True
  | _ => False

section Place

variable {limit : SizeLimit} {order : BitOrder} {owner : Tag} {done ps : List MemberLayout}
  {c c' : Cursor}

/-- Where no word is open behind the members of a step, the last of them is not packed. -/
theorem Cursor.behind_closed (hne : ps ≠ []) (hps : ∀ p ∈ ps, ¬ p.Packed) {next : Nat}
    (hnext : next = stopAfter (done ++ ps)) : (⟨next, none⟩ : Cursor).Behind (done ++ ps) := by
  refine ⟨hnext, nofun, fun _ g hg => hps g ?_⟩
  rw [List.getLast?_append_of_ne_nil _ hne] at hg
  exact List.mem_of_getLast? hg

section Word

variable {m : ResolvedMember} {offset used bits : Nat}

/-- A bit-field whose word starts at an offset and has `used` bits taken. -/
def ResolvedMember.slottedAt (m : ResolvedMember) (order : BitOrder) (offset used bits : Nat) :
    MemberLayout :=
  m.placedAt offset (some (order.range (8 * m.size) used bits))

theorem ResolvedMember.packed_slottedAt : (m.slottedAt order offset used bits).Packed :=
  ⟨rfl, rfl, rfl⟩

theorem ResolvedMember.bitWidth_slottedAt : (m.slottedAt order offset used bits).bitWidth = bits :=
  order.width_range ..

/-- Bits behind those in use are the next ones of the word. -/
theorem ResolvedMember.slotted_slottedAt (hused : usedBits ⟨offset, m.size⟩ done = used)
    (hroom : used + bits ≤ 8 * m.size) :
    (m.slottedAt order offset used bits).Slotted order done := by
  refine ⟨_, rfl, ?_⟩
  subst hused
  rw [order.width_range]
  exact ⟨hroom, rfl⟩

/-- The cursor keeps the word open with the new bits in use. -/
theorem ResolvedMember.behind_slottedAt (hused : usedBits ⟨offset, m.size⟩ done = used) {next : Nat}
    (hclose : max next (offset + m.size) = max (stopAfter done) (offset + m.size)) :
    (⟨next, some ⟨offset, m.size, used + bits⟩⟩ : Cursor).Behind
      (done ++ [m.slottedAt order offset used bits]) := by
  refine ⟨?_, ?_, nofun⟩
  · rw [stopAfter_append, stopAfter_cons, stopAfter_nil, Nat.max_zero]
    exact hclose
  · rintro w ⟨⟩
    refine ⟨_, List.getLast?_concat, packed_slottedAt, rfl, ?_⟩
    have htaken : usedBits _ [m.slottedAt order offset used bits] = _ :=
      usedBits_singleton packed_slottedAt rfl
    rw [order.width_range] at htaken
    rw [usedBits_append, htaken]
    exact congrArg (· + bits) hused

/-- A bit-field that shares the open word has the word of the member before it. -/
theorem placedBehind_shared (hc : c.Behind done) (hopen : c.word = some ⟨offset, m.size, used⟩)
    (hroom : used + bits ≤ 8 * m.size) :
    PlacedBehind order done [m.slottedAt order offset used bits] ∧
      (⟨c.next, some ⟨offset, m.size, used + bits⟩⟩ : Cursor).Behind
        (done ++ [m.slottedAt order offset used bits]) := by
  obtain ⟨g, hg, hpacked, hspan, hused⟩ := hc.opened _ hopen
  have hclose := hc.close
  rw [Cursor.close, hopen] at hclose
  constructor
  · refine .joined m.packed_slottedAt hg ⟨hpacked, congrArg Span.length hspan, ?_⟩ hspan.symm ?_
    · rw [hused, m.bitWidth_slottedAt]
      exact hroom
    · exact m.slotted_slottedAt (hspan ▸ hused) hroom
  · refine m.behind_slottedAt (hspan ▸ hused) ?_
    rw [← hclose]
    exact (Nat.max_eq_left (Nat.le_max_right _ _)).symm

/-- A bit-field for which there is no room opens a word behind all members. -/
theorem placedBehind_opened (hc : c.Behind done) (hbits : 0 < bits ∧ bits ≤ 8 * m.size)
    (hfull : c.room? m.size bits = none) :
    let start := m.alignment.align c.close
    PlacedBehind order done [m.slottedAt order start 0 bits] ∧
      (⟨start, some ⟨start, m.size, 0 + bits⟩⟩ : Cursor).Behind
        (done ++ [m.slottedAt order start 0 bits]) := by
  intro start
  have hsize : 0 < m.size := by omega
  have hstart : stopAfter done ≤ start := by
    rw [← hc.close]
    exact m.alignment.le_align _
  have hused : usedBits ⟨start, m.size⟩ done = 0 := usedBits_eq_zero hsize hstart
  have hroom : 0 + bits ≤ 8 * m.size := by omega
  constructor
  · refine .opened m.packed_slottedAt hsize ?_ ?_ (m.slotted_slottedAt hused hroom)
    · rw [← hc.close]
      rfl
    · rintro g hg ⟨hpacked, hlength, hfits⟩
      cases hopen : c.word with
      | none => exact hc.closed hopen g hg hpacked
      | some w =>
        obtain ⟨g', hg', -, hspan, hused⟩ := hc.opened w hopen
        cases hg.symm.trans hg'
        rw [hused, m.bitWidth_slottedAt] at hfits
        have hwsize : w.size = m.size := (congrArg Span.length hspan).symm.trans hlength
        rw [Cursor.room?, hopen, Option.filter_some, if_pos] at hfull
        · cases hfull
        · exact decide_eq_true ⟨hwsize, hfits⟩
  · exact m.behind_slottedAt hused (by omega)

end Word

/-- Members that start together behind all others leave no word open. -/
theorem Cursor.behind_placed {start : Nat} (hne : ps ≠ []) (hstart : stopAfter done ≤ start)
    (hps : ∀ p ∈ ps, p.offset = start ∧ ¬ p.Packed) :
    (⟨start + (ps.map (·.length)).foldr max 0, none⟩ : Cursor).Behind (done ++ ps) :=
  Cursor.behind_closed hne (fun p hp => (hps p hp).2)
    (stopAfter_append_of_offset hne hstart fun p hp => (hps p hp).1).symm

/-- The members of an anonymous union start together and leave no word open. -/
theorem placedBehind_overlay {ms : List ResolvedMember} (hne : ms ≠ []) (hc : c.Behind done)
    (hapart : ∀ g ∈ done.getLast?, g.unionGroup = none) :
    let start := (Alignment.strictest (ms.map (·.alignment))).align c.close
    let ps := ms.map fun m => m.placedAt start (aloneInWord order m) false (some done.length)
    PlacedBehind order done ps ∧
      (⟨start + (ms.map (·.size)).foldr max 0, none⟩ : Cursor).Behind (done ++ ps) := by
  intro start ps
  have hps : ps ≠ [] := fun hnil => hne (List.map_eq_nil_iff.1 hnil)
  have halignments : ps.map (·.alignment) = ms.map (·.alignment) := List.map_map
  have hlengths : ps.map (·.length) = ms.map (·.size) := List.map_map
  constructor
  · refine .overlay hps hapart (List.forall_mem_map.2 fun m _ => ⟨rfl, rfl, ?_⟩)
    rw [halignments, ← hc.close]
    rfl
  · rw [← hlengths]
    refine Cursor.behind_placed hps ?_ (List.forall_mem_map.2 fun m _ => ⟨rfl, ?_⟩)
    · rw [← hc.close]
      exact Alignment.le_align _ _
    · exact fun hpacked => nomatch hpacked.2.1

/-- A plain member starts behind all others and leaves no word open. -/
theorem placedBehind_plain (m : ResolvedMember) (hc : c.Behind done) :
    let start := m.alignment.align c.close
    PlacedBehind order done [m.placedAt start none] ∧
      (⟨start + m.size, none⟩ : Cursor).Behind (done ++ [m.placedAt start none]) := by
  intro start
  constructor
  · refine .plain ⟨rfl, rfl, rfl⟩ ?_
    rw [← hc.close]
    rfl
  · have hstart : stopAfter done ≤ start := by
      rw [← hc.close]
      exact m.alignment.le_align _
    have hplain : ¬ (m.placedAt start none).Packed := fun hpacked => nomatch hpacked.2.2
    have hbehind := Cursor.behind_placed (List.cons_ne_nil _ _) hstart
      (List.forall_mem_singleton.2 ⟨rfl, hplain⟩)
    rwa [List.map_singleton, List.foldr_cons, List.foldr_nil, Nat.max_zero] at hbehind

/-- **A step places its members behind those that are done,** and the cursor is behind them then. -/
theorem placeUnit_placedBehind {u : PlacementUnit} (hunit : u.Faithful)
    (hbits : ∀ m ∈ u.members, m.BitsUsable) (hc : c.Behind done)
    (hapart : u.IsOverlay → ∀ g ∈ done.getLast?, g.unionGroup = none)
    (h : placeUnit limit order owner done.length c u = .ok (ps, c')) :
    PlacedBehind order done ps ∧ c'.Behind (done ++ ps) := by
  cases u with
  | fixed m offset =>
    obtain ⟨rfl, rfl⟩ := placeUnit_fixed_eq_ok h
    refine ⟨.fixed rfl rfl, Cursor.behind_closed (List.cons_ne_nil _ _) ?_ ?_⟩
    · exact List.forall_mem_singleton.2 fun hpacked => nomatch hpacked.1
    · rw [stopAfter_append, stopAfter_cons, stopAfter_nil, Nat.max_zero, hc.close]
      rfl
  | overlay first rest =>
    obtain ⟨rfl, rfl⟩ := placeUnit_overlay_eq_ok h
    exact placedBehind_overlay (List.cons_ne_nil _ _) hc (hapart trivial)
  | bitField m bits =>
    have husable : 0 < bits ∧ bits ≤ 8 * m.size := hbits m List.mem_cons_self bits hunit.2.2
    obtain ⟨⟨offset, size, used⟩, next, hword, rfl, rfl⟩ := placeUnit_bitField_eq_ok h
    cases hword with
    | shared hopen hsize hroom =>
      obtain rfl : size = m.size := hsize
      exact placedBehind_shared hc hopen hroom
    | opened hfull => exact placedBehind_opened hc husable hfull
  | plain m =>
    obtain ⟨rfl, rfl⟩ := placeUnit_plain_eq_ok h
    exact placedBehind_plain m hc

/-! ## Runs

A run starts with no members.  Two anonymous unions in a row would be one, which is what keeps the
members of a later one apart from an earlier one. -/

/-- Behind an anonymous union comes no other one. -/
theorem isChain_placementUnits (ms : List ResolvedMember) :
    (placementUnits ms).IsChain fun u v => u.IsOverlay → ¬ v.IsOverlay := by
  induction ms with
  | nil => exact .nil
  | cons m ms ih =>
    rw [placementUnits]
    split
    · exact ih.cons fun _ _ hfixed => hfixed.elim
    · split
      · generalize placementUnits ms = units at ih
        cases units with
        | nil => exact .singleton _
        | cons u us =>
          cases u with
          | overlay first rest => exact (ih.tail).cons (List.isChain_cons.1 ih).1
          | _ => exact ih.cons (by rintro _ ⟨⟩ _ h; exact h)
      · split
        · exact ih.cons fun _ _ hbits => hbits.elim
        · exact ih.cons fun _ _ hplain => hplain.elim

/-- Behind a unit that is no anonymous union, the last member belongs to none. -/
theorem unionGroup_getLast? {u : PlacementUnit} (hunit : ¬ u.IsOverlay) {index : Nat}
    (h : placeUnit limit order owner index c u = .ok (ps, c')) :
    ∀ g ∈ (done ++ ps).getLast?, g.unionGroup = none := by
  have hsingle : ∃ p : MemberLayout, ps = [p] ∧ p.unionGroup = none := by
    cases u with
    | fixed => obtain ⟨rfl, -⟩ := placeUnit_fixed_eq_ok h; exact ⟨_, rfl, rfl⟩
    | overlay => exact absurd trivial hunit
    | bitField => obtain ⟨_, _, -, rfl, -⟩ := placeUnit_bitField_eq_ok h; exact ⟨_, rfl, rfl⟩
    | plain => obtain ⟨rfl, -⟩ := placeUnit_plain_eq_ok h; exact ⟨_, rfl, rfl⟩
  obtain ⟨p, rfl, hp⟩ := hsingle
  intro g hg
  rw [List.getLast?_concat] at hg
  cases hg
  exact hp

/-- **Placing units places their members in sequence,** and the answer tells where they end. -/
theorem placeUnits_inSequence {units : List PlacementUnit} {others : List MemberLayout} {stop : Nat}
    (hunits : ∀ u ∈ units, u.Faithful ∧ ∀ m ∈ u.members, m.BitsUsable)
    (hchain : units.IsChain fun u v => u.IsOverlay → ¬ v.IsOverlay)
    (hdone : InSequence order done) (hc : c.Behind done)
    (hapart : ∀ u ∈ units.head?, u.IsOverlay → ∀ g ∈ done.getLast?, g.unionGroup = none)
    (h : placeUnits limit order owner done.length c units = .ok (others, stop)) :
    InSequence order (done ++ others) ∧ stop = stopAfter (done ++ others) := by
  induction units generalizing done c others with
  | nil =>
    cases h
    rw [List.append_nil]
    exact ⟨hdone, hc.close⟩
  | cons u units ih =>
    obtain ⟨ps, c', others, hps, hothers, rfl⟩ := placeUnits_cons_eq_ok h
    obtain ⟨⟨hunit, hbits⟩, hunits⟩ := List.forall_mem_cons.1 hunits
    obtain ⟨hnext, hchain⟩ := List.isChain_cons.1 hchain
    obtain ⟨hbehind, hc'⟩ := placeUnit_placedBehind hunit hbits hc (hapart u rfl) hps
    rw [← List.length_append] at hothers
    rw [← List.append_assoc]
    refine ih hunits hchain (hdone.append hbehind) hc' ?_ hothers
    intro v hv hoverlay
    exact unionGroup_getLast? (fun hu => hnext v hv hu hoverlay) hps

/-- **A struct's members lie in sequence.** -/
theorem placeInSequence_inSequence {members : List ResolvedMember} {placed : List MemberLayout}
    {stop : Nat} (hbits : ∀ m ∈ members, m.BitsUsable)
    (h : placeInSequence limit order owner members = .ok (placed, stop)) :
    InSequence order placed ∧ stop = stopAfter placed := by
  have hunits : ∀ u ∈ placementUnits members, u.Faithful ∧ ∀ m ∈ u.members, m.BitsUsable :=
    fun u hu => ⟨faithful_placementUnits members u hu,
      fun m hm => hbits m (mem_of_mem_placementUnits hu hm)⟩
  have hnil : InSequence order [] := .nil
  exact placeUnits_inSequence hunits (isChain_placementUnits members) hnil Cursor.behind_start
    nofun h

/-! ## Kinds

Each unit places members of the kinds that were declared. -/

/-- A member that has its word to itself, as it was declared. -/
theorem ofKind_alone (m : ResolvedMember) (offset : Nat) {fixed : Bool} {group : Option Nat}
    (hfixed : fixed = m.decl.offset.isSome)
    (hgroup : group.isSome = (m.decl.offset.isNone && m.decl.inUnion)) :
    (m.placedAt offset (aloneInWord order m) fixed group).OfKind m.decl := by
  refine ⟨rfl, rfl, ?_, hfixed, hgroup⟩
  simp [ResolvedMember.placedAt, aloneInWord, Function.comp_def, BitOrder.width_range]

/-- The members of a unit are of the kinds of their declarations. -/
theorem placeUnit_ofKind {index : Nat} {u : PlacementUnit} (hunit : u.Faithful)
    (h : placeUnit limit order owner index c u = .ok (ps, c')) :
    List.Forall₂ (fun m p => p.OfKind m.decl) u.members ps := by
  cases u with
  | fixed m offset =>
    obtain ⟨rfl, -⟩ := placeUnit_fixed_eq_ok h
    have hoffset : m.decl.offset = some offset := hunit
    exact .cons (ofKind_alone m offset (by rw [hoffset]; rfl) (by rw [hoffset]; rfl)) .nil
  | overlay first rest =>
    obtain ⟨rfl, -⟩ := placeUnit_overlay_eq_ok h
    rw [List.forall₂_map_right_iff, PlacementUnit.members, List.forall₂_same]
    intro m hm
    obtain ⟨hoffset, hunion⟩ := hunit m hm
    exact ofKind_alone m _ (by rw [hoffset]; rfl) (by rw [hoffset, hunion]; rfl)
  | bitField m bits =>
    obtain ⟨word, next, -, rfl, -⟩ := placeUnit_bitField_eq_ok h
    obtain ⟨hoffset, hunion, hbits⟩ := hunit
    have hwidth : some (order.range (8 * m.size) word.used bits).width = m.decl.bits := by
      rw [order.width_range, hbits]
    exact .cons ⟨rfl, rfl, hwidth, by rw [hoffset]; rfl, by rw [hunion, Bool.and_false]; rfl⟩ .nil
  | plain m =>
    obtain ⟨rfl, -⟩ := placeUnit_plain_eq_ok h
    obtain ⟨hoffset, hunion, hbits⟩ := hunit
    exact .cons
      ⟨rfl, rfl, hbits.symm, by rw [hoffset]; rfl, by rw [hunion, Bool.and_false]; rfl⟩ .nil

/-- **A struct's members are of the kinds that were declared.** -/
theorem placeInSequence_ofKind {members : List ResolvedMember} {placed : List MemberLayout}
    {stop : Nat} (h : placeInSequence limit order owner members = .ok (placed, stop)) :
    List.Forall₂ (fun m p => p.OfKind m.decl) members placed :=
  placeInSequence_related
    (fun u hu _ _ _ _ => placeUnit_ofKind (faithful_placementUnits members u hu)) h

end Place

/-! ## The step of a member

Read backwards: from a member of a finished struct to the step that placed it. -/

section Step

variable {order : BitOrder} {done ps : List MemberLayout}

/-- A step with a member of an anonymous union places one, behind a member of none. -/
theorem PlacedBehind.of_grouped (h : PlacedBehind order done ps) {p : MemberLayout} (hp : p ∈ ps)
    (hgroup : p.unionGroup ≠ none) :
    (∀ g ∈ done.getLast?, g.unionGroup = none) ∧ ∀ q ∈ ps, q.fixed = false ∧
      q.unionGroup = some done.length ∧
      q.offset = (Alignment.strictest (ps.map (·.alignment))).align (stopAfter done) := by
  cases h with
  | fixed _ hnone => cases List.mem_singleton.1 hp; exact absurd hnone hgroup
  | plain hplain => cases List.mem_singleton.1 hp; exact absurd hplain.2.1 hgroup
  | opened hpacked => cases List.mem_singleton.1 hp; exact absurd hpacked.2.1 hgroup
  | joined hpacked => cases List.mem_singleton.1 hp; exact absurd hpacked.2.1 hgroup
  | overlay _ hapart hps => exact ⟨hapart, hps⟩

/-- A step with a member of no anonymous union places only that member. -/
theorem PlacedBehind.eq_singleton (h : PlacedBehind order done ps) {p : MemberLayout} (hp : p ∈ ps)
    (hgroup : p.unionGroup = none) : ps = [p] := by
  cases h with
  | overlay _ _ hps =>
    have hsome := (hps p hp).2.1
    rw [hgroup] at hsome
    cases hsome
  | _ => rw [List.mem_singleton.1 hp]

/-- A packed bit-field is placed in a step of its own: it joins the word of the member before it, or
there is no room there and it opens a word behind all members. -/
theorem PlacedBehind.of_packed {p : MemberLayout} (h : PlacedBehind order done [p])
    (hp : p.Packed) :
    p.Slotted order done ∧
      ((∃ g ∈ done.getLast?, g.HasRoom done p ∧ p.span = g.span) ∨
        (∀ g ∈ done.getLast?, ¬ g.HasRoom done p) ∧ 0 < p.length ∧
          p.offset = p.alignment.align (stopAfter done)) := by
  cases h with
  | fixed hfixed => exact absurd (hfixed.symm.trans hp.1) nofun
  | plain hplain => exact absurd hp.2.2 (by rw [hplain.2.2]; exact nofun)
  | opened _ hlength hoffset hfull hslot => exact ⟨hslot, .inr ⟨hfull, hlength, hoffset⟩⟩
  | joined _ hg hroom hspan hslot => exact ⟨hslot, .inl ⟨_, hg, hroom, hspan⟩⟩
  | overlay _ _ hps =>
    exact absurd ((hps p List.mem_cons_self).2.1.symm.trans hp.2.1) nofun

/-- A plain member is placed at the first aligned offset behind all members. -/
theorem PlacedBehind.of_plain {p : MemberLayout} (h : PlacedBehind order done [p]) (hp : p.Plain) :
    p.offset = p.alignment.align (stopAfter done) := by
  cases h with
  | fixed hfixed => exact absurd (hfixed.symm.trans hp.1) nofun
  | plain _ hoffset => exact hoffset
  | opened hpacked => exact absurd hpacked.2.2 (by rw [hp.2.2]; exact nofun)
  | joined hpacked => exact absurd hpacked.2.2 (by rw [hp.2.2]; exact nofun)
  | overlay _ _ hps =>
    exact absurd ((hps p List.mem_cons_self).2.1.symm.trans hp.2.1) nofun

/-- The next step behind an anonymous union starts with a member of none. -/
theorem PlacedBehind.head_apart (h : PlacedBehind order done ps) {g : MemberLayout}
    (hg : g ∈ done.getLast?) (hgroup : g.unionGroup ≠ none) :
    ∀ q ∈ ps.head?, q.unionGroup = none := by
  intro q hq
  by_contra hsome
  exact hgroup ((h.of_grouped (List.mem_of_mem_head? hq) hsome).1 g hg)

/-- **Each member is placed in a step,** and a step with an anonymous union has all of it. -/
theorem InSequence.exists_step {members : List MemberLayout} (h : InSequence order members)
    {before after : List MemberLayout} {p : MemberLayout}
    (hmembers : members = before ++ p :: after) :
    ∃ done ps qs tail, before = done ++ ps ∧ after = qs ++ tail ∧
      PlacedBehind order done (ps ++ p :: qs) ∧
      (p.unionGroup ≠ none → ∀ q ∈ tail.head?, q.unionGroup = none) := by
  induction h generalizing after with
  | nil => exact absurd hmembers.symm (by simp)
  | @append done step h hstep ih =>
    rcases List.append_eq_append_iff.1 hmembers with ⟨ps, rfl, rfl⟩ | ⟨rest, rfl, hrest⟩
    · exact ⟨done, ps, after, [], rfl, (List.append_nil _).symm, hstep, fun _ => nofun⟩
    · cases rest with
      | nil =>
        rw [List.nil_append] at hrest
        subst hrest
        rw [List.append_nil] at hstep
        exact ⟨before, [], after, [], (List.append_nil _).symm, (List.append_nil _).symm, hstep,
          fun _ => nofun⟩
      | cons q rest =>
        obtain ⟨rfl, rfl⟩ := List.cons.inj hrest
        obtain ⟨done, ps, qs, tail, rfl, rfl, hplaced, htail⟩ := ih rfl
        refine ⟨done, ps, qs, tail ++ step, rfl, List.append_assoc .., hplaced, fun hgroup => ?_⟩
        cases tail with
        | cons => exact htail hgroup
        | nil =>
          -- The last member before the next step is one of this union.
          rw [List.append_nil] at hstep
          obtain ⟨g, hg⟩ : ∃ g, g ∈ (p :: qs).getLast? :=
            ⟨_, List.getLast?_eq_some_getLast (List.cons_ne_nil p qs)⟩
          have hlast : g ∈ ((done ++ ps) ++ p :: qs).getLast? := by
            rw [List.getLast?_append_of_ne_nil _ (List.cons_ne_nil _ _)]
            exact hg
          have hmem : p ∈ ps ++ p :: qs := List.mem_append_right _ List.mem_cons_self
          have hgmem : g ∈ ps ++ p :: qs := List.mem_append_right _ (List.mem_of_getLast? hg)
          have hgsome := ((hplaced.of_grouped hmem hgroup).2 g hgmem).2.1
          exact hstep.head_apart hlast (by rw [hgsome]; exact nofun)

/-- **A member of no anonymous union is placed behind those before it.** -/
theorem InSequence.placedBehind {before after : List MemberLayout} {p : MemberLayout}
    (h : InSequence order (before ++ p :: after)) (hgroup : p.unionGroup = none) :
    PlacedBehind order before [p] := by
  obtain ⟨done, ps, qs, tail, rfl, -, hplaced, -⟩ := h.exists_step rfl
  have hmem : p ∈ ps ++ p :: qs := List.mem_append_right _ List.mem_cons_self
  have hsingle := hplaced.eq_singleton hmem hgroup
  obtain ⟨rfl, rfl⟩ : ps = [] ∧ qs = [] := by
    have hlength := congrArg List.length hsingle
    simp only [List.length_append, List.length_cons, List.length_nil] at hlength
    exact ⟨List.length_eq_zero_iff.1 (by omega), List.length_eq_zero_iff.1 (by omega)⟩
  rw [List.append_nil]
  exact hplaced

/-- Some neighbours that share their storage, and no further one. -/
structure IsUnion (before group after : List MemberLayout) : Prop where
  nonempty : group ≠ []
  shared : ∀ p ∈ group, p.unionGroup ≠ none
  before_apart : ∀ p ∈ before.getLast?, p.unionGroup = none
  after_apart : ∀ p ∈ after.head?, p.unionGroup = none

/-- Where the elements with a property end in a list, if it starts with them. -/
theorem append_inj_of_apart {α : Type} {P : α → Prop} {xs ys us vs : List α}
    (hxs : ∀ x ∈ xs, P x) (hys : ∀ y ∈ ys.head?, ¬ P y) (hus : ∀ u ∈ us, P u)
    (hvs : ∀ v ∈ vs.head?, ¬ P v) (h : xs ++ ys = us ++ vs) : xs = us := by
  induction xs generalizing us with
  | nil =>
    cases us with
    | nil => rfl
    | cons u us =>
      have hhead : u ∈ ys.head? := by rw [← List.nil_append ys, h]; rfl
      exact absurd (hus u List.mem_cons_self) (hys u hhead)
  | cons x xs ih =>
    cases us with
    | nil =>
      have hhead : x ∈ vs.head? := by rw [← List.nil_append vs, ← h]; rfl
      exact absurd (hxs x List.mem_cons_self) (hvs x hhead)
    | cons u us =>
      obtain ⟨rfl, hrest⟩ := List.cons.inj h
      obtain ⟨-, hxs⟩ := List.forall_mem_cons.1 hxs
      obtain ⟨-, hus⟩ := List.forall_mem_cons.1 hus
      rw [ih hxs hus hrest]

/-- **An anonymous union is placed behind the members before it.** -/
theorem InSequence.placedBehind_union {before group after : List MemberLayout}
    (h : InSequence order (before ++ (group ++ after))) (hunion : IsUnion before group after) :
    PlacedBehind order before group := by
  obtain ⟨p, rest, rfl⟩ := List.exists_cons_of_ne_nil hunion.nonempty
  obtain ⟨hp, hrest⟩ := List.forall_mem_cons.1 hunion.shared
  obtain ⟨done, ps, qs, tail, rfl, htail, hplaced, hapart⟩ := h.exists_step rfl
  have hmem : p ∈ ps ++ p :: qs := List.mem_append_right _ List.mem_cons_self
  have hshared (q : MemberLayout) (hq : q ∈ ps ++ p :: qs) : q.unionGroup ≠ none := by
    rw [((hplaced.of_grouped hmem hp).2 q hq).2.1]
    exact nofun
  -- The step starts with `p`, since no member right before it is of an anonymous union.
  obtain rfl : ps = [] := by
    by_contra hne
    have hlast : ps.getLast hne ∈ (done ++ ps).getLast? := by
      rw [List.getLast?_append_of_ne_nil _ hne]
      exact List.getLast?_eq_some_getLast hne
    exact hshared _ (List.mem_append_left _ (List.getLast_mem hne)) (hunion.before_apart _ hlast)
  obtain rfl : rest = qs :=
    append_inj_of_apart hrest (fun q hq hsome => hsome (hunion.after_apart q hq))
      (fun q hq => hshared q (List.mem_cons_of_mem _ hq)) (fun q hq hsome => hsome (hapart hp q hq))
      htail
  rw [List.append_nil]
  exact hplaced

end Step

/-! ## Built structs

What the rest of the theory assumes of a struct. -/

/-- **The members of a struct that builds are those that were declared, in sequence,** and the size
is where they end, rounded up. -/
theorem Builds.inSequence {limit : SizeLimit} {Has : Tag → Layout → Prop} {config : Config}
    {decl : RecordDecl} {l : Layout} (h : Builds limit Has config decl l)
    (hstruct : l.form = .struct) :
    List.Forall₂ MemberLayout.OfKind decl.members l.members ∧
      InSequence config.bitOrder l.members ∧ l.size = l.alignment.align (stopAfter l.members) := by
  have hform : l.form = decl.form := h.exists_members.2.1
  obtain ⟨pack, members, stop, -, hmembers, hplaced, -, -, -, hsize⟩ := h.exists_placed
  rw [placeMembers, ← hform, hstruct] at hplaced
  obtain ⟨hsequence, rfl⟩ := placeInSequence_inSequence (membersOf_bitsUsable hmembers) hplaced
  exact ⟨forall₂_trans (fun _ _ _ hm hp => hm.decl_eq ▸ hp) hmembers
    (placeInSequence_ofKind hplaced), hsequence, hsize⟩

end NativeRecord
