import Mathlib.Data.List.Forall2
import NativeRecord.Layout.Placement
import NativeRecord.Proofs.Layout.Resolution

/-!
# What placing members comes to

Placing works through a list of units with a cursor, and a unit is one of four things: a member at
an offset that it asks for, members of an anonymous union, a bit-field, or a plain member.  The
theory never unfolds that function twice.  For each kind of unit there is one inversion lemma that
says everything a successful step has done — where the members went and what the cursor became — and
everything later is a case split over these four.

Two inductions lift this to a run.  `placeUnits_related` is for what can be said of each member by
itself: if every step relates its members to where they are placed, the whole run does.  Facts about
the cursor, which the order of the members matters for, are in `Layout/Sequence.lean` and use the
same inversion lemmas.  Cutting the members into units has its own two lemmas, since the cutting
merges neighbours: the units hold the members in their order (`flatMap_placementUnits`), and they
keep what the members ask for (`faithful_placementUnits`).

## What is here

* `placeUnit_fixed_eq_ok` and the like — what placing a unit of each kind answers.
* `PlacementUnit.Faithful` — the units of a list of members are made up of these members in their
  order, and keep what they ask for.
* `placeInSequence_related` — what each step says of its members holds of all members of a run.
* `PlacedAs` — a placed member is the resolved one, at the offset and with as many bits as it asks
  for, all of them in its word.  It holds of a sequence (`placeInSequence_forall₂`) and of an
  overlay (`overlayMembers_forall₂`).
-/

set_option autoImplicit false
namespace NativeRecord

/-! ## Units

A list of members is cut into units from its end, and a member of an anonymous union joins the unit
behind it if that is an overlay. -/

namespace PlacementUnit

/-- The members of a unit, in their order. -/
def members : PlacementUnit → List ResolvedMember
  | fixed m _ | bitField m _ | plain m => [m]
  | overlay first rest => first :: rest

/-- A unit treats its members the way that their declarations ask for. -/
def Faithful : PlacementUnit → Prop
  | fixed m offset => m.decl.offset = some offset
  | overlay first rest => ∀ m ∈ first :: rest, m.decl.offset = none ∧ m.decl.inUnion = true
  | bitField m bits => m.decl.offset = none ∧ m.decl.inUnion = false ∧ m.decl.bits = some bits
  | plain m => m.decl.offset = none ∧ m.decl.inUnion = false ∧ m.decl.bits = none

/-- Joining the overlay in front or starting one puts the member first either way. -/
theorem flatMap_consOverlay (m : ResolvedMember) (units : List PlacementUnit) :
    (consOverlay m units).flatMap members = m :: units.flatMap members := by
  unfold consOverlay
  split <;> simp [members]

/-- An overlay remains faithful when one more member of a union joins it. -/
theorem faithful_consOverlay {m : ResolvedMember} {units : List PlacementUnit}
    (hm : m.decl.offset = none ∧ m.decl.inUnion = true) (h : ∀ u ∈ units, u.Faithful) :
    ∀ u ∈ consOverlay m units, u.Faithful := by
  unfold consOverlay
  split
  · rename_i first rest units
    intro u hu
    rcases List.mem_cons.1 hu with rfl | hu
    · exact List.forall_mem_cons.2 ⟨hm, h (.overlay first rest) List.mem_cons_self⟩
    · exact h u (List.mem_cons_of_mem _ hu)
  · exact List.forall_mem_cons.2 ⟨by simpa [Faithful] using hm, h⟩

end PlacementUnit

/-- **The units hold the members in their order.** -/
theorem flatMap_placementUnits (ms : List ResolvedMember) :
    (placementUnits ms).flatMap PlacementUnit.members = ms := by
  induction ms with
  | nil => rfl
  | cons m ms ih =>
    rw [placementUnits]
    split
    · simp [PlacementUnit.members, ih]
    · split
      · rw [PlacementUnit.flatMap_consOverlay, ih]
      · split <;> simp [PlacementUnit.members, ih]

/-- **The units keep what the members ask for.**  The tests are made in a fixed order, so a
bit-field asks for no offset and lies in no union, and a plain member is what is left. -/
theorem faithful_placementUnits (ms : List ResolvedMember) :
    ∀ u ∈ placementUnits ms, u.Faithful := by
  induction ms with
  | nil => simp [placementUnits]
  | cons m ms ih =>
    rw [placementUnits]
    split
    · rename_i offset hoffset
      exact List.forall_mem_cons.2 ⟨hoffset, ih⟩
    · rename_i hoffset
      split
      · rename_i hunion
        exact PlacementUnit.faithful_consOverlay ⟨hoffset, hunion⟩ ih
      · rename_i hunion
        have hunion : m.decl.inUnion = false := by simpa using hunion
        split
        · rename_i bits hbits
          exact List.forall_mem_cons.2 ⟨⟨hoffset, hunion, hbits⟩, ih⟩
        · rename_i hbits
          exact List.forall_mem_cons.2 ⟨⟨hoffset, hunion, hbits⟩, ih⟩

/-! ## Placing one unit

What placing a unit of each kind answers.  All sums are checked against the size limit, and a
success says that the checks passed; from here on offsets are plain numbers. -/

section Place

variable {limit : SizeLimit} {order : BitOrder} {owner : Tag}

/-- The next place is the next aligned offset, and its end was admitted. -/
theorem nextPlace_eq_some {next size start stop : Nat} {alignment : Alignment}
    (h : nextPlace limit next alignment size = some (start, stop)) :
    start = alignment.align next ∧ stop = start + size ∧ limit.Admits stop := by
  simp only [nextPlace, Option.bind_eq_bind, Option.bind_eq_some_iff, SizeLimit.add?,
    SizeLimit.check?_eq_some_iff, Option.pure_def, Option.some.injEq, Prod.mk.injEq] at h
  obtain ⟨_, halign, _, ⟨hadmits, rfl⟩, rfl, rfl⟩ := h
  exact ⟨Alignment.align?_eq_some halign, rfl, hadmits⟩

variable {index : Nat} {cursor cursor' : Cursor} {placed : List MemberLayout}

/-- A member with an offset of its own lies there, and the cursor ends behind it or where it was,
whichever is later. -/
theorem placeUnit_fixed_eq_ok {m : ResolvedMember} {offset : Nat}
    (h : placeUnit limit order owner index cursor (.fixed m offset) = .ok (placed, cursor')) :
    placed = [m.placedAt offset (aloneInWord order m) true] ∧
      cursor' = ⟨max cursor.close (offset + m.size), none⟩ := by
  simp only [placeUnit, except_bind_eq_ok, orOverflow_eq_ok_iff, SizeLimit.add?,
    SizeLimit.check?_eq_some_iff] at h
  obtain ⟨_, ⟨-, rfl⟩, h⟩ := h
  cases h
  exact ⟨rfl, rfl⟩

/-- The members of an anonymous union all lie at the next offset with the strictest alignment of
them, and the cursor ends behind the longest. -/
theorem placeUnit_overlay_eq_ok {first : ResolvedMember} {rest : List ResolvedMember}
    (h : placeUnit limit order owner index cursor (.overlay first rest) = .ok (placed, cursor')) :
    let alignment := Alignment.strictest ((first :: rest).map (·.alignment))
    let start := alignment.align cursor.close
    placed = (first :: rest).map (fun m =>
        m.placedAt start (aloneInWord order m) false (some index)) ∧
      cursor' = ⟨start + ((first :: rest).map (·.size)).foldr max 0, none⟩ := by
  simp only [placeUnit, except_bind_eq_ok, orOverflow_eq_ok_iff] at h
  obtain ⟨⟨start, stop⟩, hplace, h⟩ := h
  obtain ⟨rfl, rfl, -⟩ := nextPlace_eq_some hplace
  cases h
  exact ⟨rfl, rfl⟩

/-- The word that a bit-field goes into, and the offset from which the next member is placed: the
open word if there is room, or else a new one. -/
inductive Cursor.WordFor (cursor : Cursor) (m : ResolvedMember) (bits : Nat) :
    BackingWord → Nat → Prop
  | shared {word : BackingWord} (hword : cursor.word = some word) (hsize : word.size = m.size)
      (hroom : word.used + bits ≤ 8 * m.size) : WordFor cursor m bits word cursor.next
  | opened (hfull : cursor.room? m.size bits = none) :
      WordFor cursor m bits ⟨m.alignment.align cursor.close, m.size, 0⟩
        (m.alignment.align cursor.close)

/-- The open word has room for a bit-field of its own size only. -/
theorem Cursor.room?_eq_some_iff {cursor : Cursor} {size bits : Nat} {word : BackingWord} :
    cursor.room? size bits = some word ↔
      cursor.word = some word ∧ word.size = size ∧ word.used + bits ≤ 8 * size := by
  rw [room?, Option.filter_eq_some_iff, decide_eq_true_eq]

/-- A bit-field takes the next bits of the word it goes into. -/
theorem placeUnit_bitField_eq_ok {m : ResolvedMember} {bits : Nat}
    (h : placeUnit limit order owner index cursor (.bitField m bits) = .ok (placed, cursor')) :
    ∃ word next, cursor.WordFor m bits word next ∧
      placed = [m.placedAt word.offset (some (order.range (8 * m.size) word.used bits))] ∧
      cursor' = ⟨next, some { word with used := word.used + bits }⟩ := by
  rw [placeUnit] at h
  cases hroom : cursor.room? m.size bits with
  | some word =>
    simp only [hroom] at h
    cases h
    obtain ⟨hopen, hsize, hfits⟩ := Cursor.room?_eq_some_iff.1 hroom
    exact ⟨word, cursor.next, .shared hopen hsize hfits, rfl, rfl⟩
  | none =>
    simp only [hroom, except_bind_eq_ok, orOverflow_eq_ok_iff] at h
    obtain ⟨⟨start, stop⟩, hplace, _, hword, h⟩ := h
    obtain ⟨rfl, -, -⟩ := nextPlace_eq_some hplace
    cases hword
    cases h
    exact ⟨_, _, .opened hroom, rfl, rfl⟩

/-- A plain member lies at the next offset with its alignment, and closes the open word. -/
theorem placeUnit_plain_eq_ok {m : ResolvedMember}
    (h : placeUnit limit order owner index cursor (.plain m) = .ok (placed, cursor')) :
    let start := m.alignment.align cursor.close
    placed = [m.placedAt start none] ∧ cursor' = ⟨start + m.size, none⟩ := by
  simp only [placeUnit, except_bind_eq_ok, orOverflow_eq_ok_iff] at h
  obtain ⟨⟨start, stop⟩, hplace, h⟩ := h
  obtain ⟨rfl, rfl, -⟩ := nextPlace_eq_some hplace
  cases h
  exact ⟨rfl, rfl⟩

end Place

/-! ## Placed members

`PlacedAs` is the relation that `placeUnits_related` is used for most: it says of a placed member
all that does not depend on the members around it. -/

/-- A resolved member whose bits fit its type. -/
def ResolvedMember.BitsFit (m : ResolvedMember) : Prop :=
  ∀ bits, m.decl.bits = some bits → bits ≤ 8 * m.size

/-- The member as it was resolved, at the offset that it asks for, if it does; a bit-field has as
many bits as it asks for, and they lie in its word. -/
structure PlacedAs (m : ResolvedMember) (p : MemberLayout) : Prop where
  name : p.name = m.decl.name
  type : p.type = m.decl.type
  shape : p.shape = m.shape
  alignment : p.alignment = m.alignment
  bits : p.bits.map (·.width) = m.decl.bits
  fits : ∀ r, p.bits = some r → r.first + r.width ≤ 8 * m.size
  offset : ∀ offset, m.decl.offset = some offset → p.offset = offset
  fixed : p.fixed = true → m.decl.offset.isSome = true

/-- A member that asks for no offset gets none that is fixed. -/
theorem PlacedAs.unfixed {m : ResolvedMember} {p : MemberLayout} (h : PlacedAs m p)
    (hoffset : m.decl.offset = none) : p.fixed = false := by
  by_contra hfixed
  have hsome := h.fixed (by simpa using hfixed)
  rw [hoffset] at hsome
  cases hsome

theorem BitOrder.width_range (order : BitOrder) (capacity used bits : Nat) :
    (order.range capacity used bits).width = bits := by
  cases order <;> rfl

/-- The next free bits lie in the word in either order. -/
theorem BitOrder.range_fits (order : BitOrder) {capacity used bits : Nat}
    (h : used + bits ≤ capacity) :
    (order.range capacity used bits).first + bits ≤ capacity := by
  cases order <;> simp only [range] <;> omega

section PlacedAs

variable {limit : SizeLimit} {order : BitOrder} {owner : Tag} {m : ResolvedMember}

/-- A member that has its word to itself, as one with an offset and those of a union do. -/
theorem placedAs_alone (h : m.BitsFit) {offset : Nat} {fixed : Bool} {group : Option Nat}
    (hoffset : ∀ o, m.decl.offset = some o → offset = o)
    (hfixed : fixed = true → m.decl.offset.isSome = true) :
    PlacedAs m (m.placedAt offset (aloneInWord order m) fixed group) where
  name := rfl
  type := rfl
  shape := rfl
  alignment := rfl
  bits := by
    simp [ResolvedMember.placedAt, aloneInWord, Function.comp_def, BitOrder.width_range]
  fits := by
    intro r hr
    obtain ⟨bits, hbits, rfl⟩ := Option.map_eq_some_iff.1 hr
    rw [BitOrder.width_range]
    exact order.range_fits (by rw [Nat.zero_add]; exact h bits hbits)
  offset := hoffset
  fixed := hfixed

/-- A bit-field behind the bits of its word that are in use. -/
theorem placedAs_range {bits used : Nat} (hoffset : m.decl.offset = none)
    (hbits : m.decl.bits = some bits) (hroom : used + bits ≤ 8 * m.size) (offset : Nat) :
    PlacedAs m (m.placedAt offset (some (order.range (8 * m.size) used bits))) where
  name := rfl
  type := rfl
  shape := rfl
  alignment := rfl
  bits := by simp [ResolvedMember.placedAt, BitOrder.width_range, hbits]
  fits := by
    rintro r ⟨⟩
    rw [BitOrder.width_range]
    exact order.range_fits hroom
  offset := by rw [hoffset]; exact nofun
  fixed := nofun

theorem placedAs_plain (hoffset : m.decl.offset = none) (h : m.decl.bits = none) (offset : Nat) :
    PlacedAs m (m.placedAt offset none) :=
  ⟨rfl, rfl, rfl, rfl, h.symm, nofun, by rw [hoffset]; exact nofun, nofun⟩

/-- Each unit places its members as they were resolved, by the four inversion lemmas. -/
theorem placeUnit_forall₂ {index : Nat} {cursor cursor' : Cursor} {unit : PlacementUnit}
    {placed : List MemberLayout} (hunit : unit.Faithful) (hfit : ∀ m ∈ unit.members, m.BitsFit)
    (h : placeUnit limit order owner index cursor unit = .ok (placed, cursor')) :
    List.Forall₂ PlacedAs unit.members placed := by
  cases unit with
  | fixed m offset =>
    obtain ⟨rfl, -⟩ := placeUnit_fixed_eq_ok h
    have hoffset : m.decl.offset = some offset := hunit
    refine .cons (placedAs_alone (hfit m List.mem_cons_self) ?_ ?_) .nil
    · rw [hoffset]
      rintro _ ⟨⟩
      rfl
    · rw [hoffset]
      exact fun _ => rfl
  | overlay first rest =>
    obtain ⟨rfl, -⟩ := placeUnit_overlay_eq_ok h
    rw [List.forall₂_map_right_iff, PlacementUnit.members, List.forall₂_same]
    intro m hm
    refine placedAs_alone (hfit m hm) ?_ nofun
    rw [(hunit m hm).1]
    exact nofun
  | bitField m bits =>
    obtain ⟨word, next, hword, rfl, -⟩ := placeUnit_bitField_eq_ok h
    have hbits := hunit.2.2
    refine .cons (placedAs_range hunit.1 hbits ?_ _) .nil
    cases hword with
    | shared _ _ hroom => exact hroom
    | opened => rw [Nat.zero_add]; exact hfit m List.mem_cons_self bits hbits
  | plain m =>
    obtain ⟨rfl, -⟩ := placeUnit_plain_eq_ok h
    exact .cons (placedAs_plain hunit.1 hunit.2.2 _) .nil

/-- A run places its first unit and goes on from the cursor that it left. -/
theorem placeUnits_cons_eq_ok {index stop : Nat} {cursor : Cursor} {unit : PlacementUnit}
    {units : List PlacementUnit} {placed : List MemberLayout}
    (h : placeUnits limit order owner index cursor (unit :: units) = .ok (placed, stop)) :
    ∃ first cursor' others, placeUnit limit order owner index cursor unit = .ok (first, cursor') ∧
      placeUnits limit order owner (index + first.length) cursor' units = .ok (others, stop) ∧
      placed = first ++ others := by
  simp only [placeUnits, except_bind_eq_ok] at h
  obtain ⟨⟨first, cursor'⟩, hfirst, ⟨others, stop'⟩, hothers, h⟩ := h
  cases h
  exact ⟨first, cursor', others, hfirst, hothers, rfl⟩

/-- What holds between the members of each unit and where they are placed holds of all. -/
theorem placeUnits_related {R : ResolvedMember → MemberLayout → Prop} {index stop : Nat}
    {cursor : Cursor} {units : List PlacementUnit} {placed : List MemberLayout}
    (hR : ∀ u ∈ units, ∀ index cursor cursor' placed,
      placeUnit limit order owner index cursor u = .ok (placed, cursor') →
      List.Forall₂ R u.members placed)
    (h : placeUnits limit order owner index cursor units = .ok (placed, stop)) :
    List.Forall₂ R (units.flatMap PlacementUnit.members) placed := by
  induction units generalizing index cursor placed with
  | nil => cases h; exact .nil
  | cons unit units ih =>
    obtain ⟨first, cursor', others, hfirst, hothers, rfl⟩ := placeUnits_cons_eq_ok h
    obtain ⟨hunit, hunits⟩ := List.forall_mem_cons.1 hR
    rw [List.flatMap_cons]
    exact List.rel_append (hunit _ _ _ _ hfirst) (ih hunits hothers)

/-- The same of a list of members, which is placed by its units. -/
theorem placeInSequence_related {R : ResolvedMember → MemberLayout → Prop}
    {members : List ResolvedMember} {placed : List MemberLayout} {stop : Nat}
    (hR : ∀ u ∈ placementUnits members, ∀ index cursor cursor' placed,
      placeUnit limit order owner index cursor u = .ok (placed, cursor') →
      List.Forall₂ R u.members placed)
    (h : placeInSequence limit order owner members = .ok (placed, stop)) :
    List.Forall₂ R members placed := by
  have hunits := placeUnits_related hR h
  rwa [flatMap_placementUnits] at hunits

theorem mem_of_mem_placementUnits {ms : List ResolvedMember} {u : PlacementUnit}
    (hu : u ∈ placementUnits ms) {m : ResolvedMember} (hm : m ∈ u.members) : m ∈ ms := by
  rw [← flatMap_placementUnits ms]
  exact List.mem_flatMap.2 ⟨u, hu, hm⟩

/-- **A sequence holds the members as they were resolved.** -/
theorem placeInSequence_forall₂ {members : List ResolvedMember} {placed : List MemberLayout}
    {stop : Nat} (hfit : ∀ m ∈ members, m.BitsFit)
    (h : placeInSequence limit order owner members = .ok (placed, stop)) :
    List.Forall₂ PlacedAs members placed :=
  placeInSequence_related (fun u hu _ _ _ _ => placeUnit_forall₂
    (faithful_placementUnits members u hu) fun m hm => hfit m (mem_of_mem_placementUnits hu hm)) h

/-- Checking all elements before each is changed comes to changing all of them. -/
theorem mapM_ite_eq_ok_iff {ε α β : Type} {c : α → Prop} [DecidablePred c] {f : α → β} {e : α → ε}
    {xs : List α} {ys : List β} :
    (xs.mapM fun x => if c x then .ok (f x) else .error (e x)) = Except.ok ys ↔
      (∀ x ∈ xs, c x) ∧ ys = xs.map f := by
  induction xs generalizing ys with
  | nil => exact ⟨fun h => by cases h; exact ⟨nofun, rfl⟩, fun h => by rw [h.2]; rfl⟩
  | cons x xs ih =>
    simp only [List.mapM_cons, except_bind_eq_ok, ih, List.forall_mem_cons]
    constructor
    · rintro ⟨y, hy, _, ⟨hxs, rfl⟩, h⟩
      cases h
      split at hy
      · rename_i hx
        cases hy
        exact ⟨⟨hx, hxs⟩, rfl⟩
      · cases hy
    · rintro ⟨⟨hx, hxs⟩, rfl⟩
      exact ⟨f x, if_pos hx, _, ⟨hxs, rfl⟩, rfl⟩

/-- **An overlay holds all members at its start,** if none asks for another offset. -/
theorem overlayMembers_eq_ok_iff {members : List ResolvedMember} {placed : List MemberLayout}
    {stop : Nat} :
    overlayMembers order owner members = .ok (placed, stop) ↔
      (∀ m ∈ members, m.decl.offset.all (· = 0) = true) ∧
        placed = members.map (fun m => m.placedAt 0 (aloneInWord order m)) ∧
        stop = (members.map (·.size)).foldr max 0 := by
  simp only [overlayMembers, except_bind_eq_ok, mapM_ite_eq_ok_iff]
  constructor
  · rintro ⟨_, ⟨hoffset, rfl⟩, h⟩
    cases h
    exact ⟨hoffset, rfl, rfl⟩
  · rintro ⟨hoffset, rfl, rfl⟩
    exact ⟨_, ⟨hoffset, rfl⟩, rfl⟩

/-- An overlay too holds the members as they were resolved; the only offset that it grants is zero.
-/
theorem overlayMembers_forall₂ {members : List ResolvedMember} {placed : List MemberLayout}
    {stop : Nat} (hfit : ∀ m ∈ members, m.BitsFit)
    (h : overlayMembers order owner members = .ok (placed, stop)) :
    List.Forall₂ PlacedAs members placed := by
  obtain ⟨hoffset, rfl, -⟩ := overlayMembers_eq_ok_iff.1 h
  rw [List.forall₂_map_right_iff, List.forall₂_same]
  intro m hm
  refine placedAs_alone (hfit m hm) (fun o ho => ?_) nofun
  have hzero := hoffset m hm
  rw [ho] at hzero
  simpa [eq_comm] using hzero

end PlacedAs

end NativeRecord
