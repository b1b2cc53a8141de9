import Mathlib.Data.List.MinMax
import NativeRecord.Proofs.Machine.Resolution

/-!
# Placing members on a machine

The end of whatever is placed is checked at once, so the open word can be closed later without a
check, and so can bits be counted in it: it has eight bytes at most, and bits join it only while
there is room.

In the builder, a sum that does not fit is an error; on a machine it would wrap, or stop the
program.  The metered placement below does each addition, multiplication and alignment of the source
on the machine, and lets it fail where the machine cannot do it.  To show that it never does, the
sums have to be told apart.  Those that are checked report an overflow to the caller, in both
versions alike.  Those that are not — closing a word, counting its bits, counting members — must be
in range for a reason, and the reason is the invariant `Cursor.Fits`: what is placed already, the
open word included, ends by an offset that has passed a check, and the bits in use lie in a word of
eight bytes at most.

`Tracks` relates a metered computation to the builder's own and carries a fact about the answer.
Each function below has one lemma of this form, and `placeUnits_tracks` is the induction over the
units: a unit hands on the invariant of the cursor, and that no member before it ends later than the
cursor does, which is what the members placed first are known by in the end (`Placed.mono`).

## What is here

* `Metered.placeMembers` — members by the form of their record, and `Metered.placeMembers_tracks`.
* `Cursor.Fits` — what carries over from one unit to the next (`Metered.placeUnit_tracks`).
* `Metered.Placed` — what is known about a placed member: it ends by a checked offset.
-/

set_option autoImplicit false
namespace NativeRecord

/-! ## The word of a bit-field

The builder finds a word for a bit-field and takes bits from it in one definition.  On a machine
these are two steps with different reasons to succeed, so it is cut in two first. -/

section Word

variable (limit : SizeLimit) (order : BitOrder) (owner : Tag)

/-- The word for a bit-field, behind the offset from which the next member is placed. -/
def wordFor (cursor : Cursor) (m : ResolvedMember) (bits : Nat) :
    Except LayoutError (Nat × BackingWord) :=
  match cursor.room? m.size bits with
  | some word => return (cursor.next, word)
  | none => do
    let (start, _) ←
      orOverflow owner m.decl.name (nextPlace limit cursor.close m.alignment m.size)
    return (start, ⟨start, m.size, 0⟩)

/-- A bit-field is placed in two steps. -/
theorem placeUnit_bitField (index : Nat) (cursor : Cursor) (m : ResolvedMember) (bits : Nat) :
    placeUnit limit order owner index cursor (.bitField m bits) =
      wordFor limit owner cursor m bits >>= fun (next, word) =>
        return ([m.placedAt word.offset (some (order.range (8 * m.size) word.used bits))],
          ⟨next, some { word with used := word.used + bits }⟩) := by
  rw [placeUnit, wordFor]
  cases cursor.room? m.size bits with
  | some word => rfl
  | none => cases orOverflow owner m.decl.name _ <;> rfl

end Word

namespace Metered

/-! ## Metered placement

The same functions as the builder's with every operation on numbers done by the machine.  They are
in the same order and make their checks in the same places, so that the first failure is the same
one. -/

section Place

variable {M : Type → Type} [Monad M] (A : Machine) (order : BitOrder) (owner : Tag)

/-- The end of what is placed once the open word is closed. -/
def close (c : Cursor) : Option Nat :=
  match c.word with
  | none => some c.next
  | some w => do return max c.next (← A.counts.add? w.offset w.size)

/-- The open word, if there is room.  Bits are counted only in a word of the right size. -/
def room? (c : Cursor) (size bits : Nat) : Option (Option BackingWord) :=
  match c.word with
  | none => some none
  | some w =>
    if w.size = size then do
      if (← A.bits.add? w.used bits) ≤ (← capacity A size) then return some w else return none
    else return none

/-- The bits of a member that has its word to itself. -/
def aloneInWord (m : ResolvedMember) : Option (Option BitRange) :=
  match m.decl.bits with
  | none => some none
  | some bits => do return some (← range A order m.size 0 bits)

def wordFor (cursor : Cursor) (m : ResolvedMember) (bits : Nat) :
    Metering M (Nat × BackingWord) := do
  match ← unwrapped (room? A cursor m.size bits) with
  | some word => return (cursor.next, word)
  | none => do
    let floor ← unwrapped (close A cursor)
    let (start, _) ← reserve A owner m.decl.name floor m.alignment m.size
    return (start, ⟨start, m.size, 0⟩)

/-- Places one unit; all but the offset of a fixed member are at the end of what is there already.
-/
def placeUnit (index : Nat) (cursor : Cursor) :
    PlacementUnit → Metering M (List MemberLayout × Cursor)
  | .fixed m offset => do
    let floor ← unwrapped (close A cursor)
    let bits ← unwrapped (aloneInWord A order m)
    let stop ← count A owner m.decl.name (offset + m.size)
    return ([m.placedAt offset bits true], ⟨max floor stop, none⟩)
  | .overlay first rest => do
    let floor ← unwrapped (close A cursor)
    let all := first :: rest
    let alignment := Alignment.strictest (all.map (·.alignment))
    let size := (all.map (·.size)).foldr max 0
    let (start, stop) ← reserve A owner first.decl.name floor alignment size
    let placed ← unwrapped <| all.mapM fun m => do
      return m.placedAt start (← aloneInWord A order m) false (some index)
    return (placed, ⟨stop, none⟩)
  | .bitField m bits => do
    let (next, word) ← wordFor A owner cursor m bits
    let range ← unwrapped (range A order word.size word.used bits)
    let used ← unwrapped (A.bits.add? word.used bits)
    return ([m.placedAt word.offset (some range)], ⟨next, some { word with used := used }⟩)
  | .plain m => do
    let floor ← unwrapped (close A cursor)
    let (start, stop) ← reserve A owner m.decl.name floor m.alignment m.size
    return ([m.placedAt start none], ⟨stop, none⟩)

/-- Places the units in order, and counts the members on the machine too. -/
def placeUnits (index : Nat) (cursor : Cursor) :
    List PlacementUnit → Metering M (List MemberLayout × Nat)
  | [] => do return ([], ← unwrapped (close A cursor))
  | unit :: units => do
    let (members, cursor) ← placeUnit A order owner index cursor unit
    let index ← unwrapped (A.counts.add? index members.length)
    let (others, stop) ← placeUnits index cursor units
    return (members ++ others, stop)

/-- The members of a union, the ends of which are their sizes. -/
def overlayMembers : List ResolvedMember → Metering M (List MemberLayout)
  | [] => return []
  | m :: members =>
    if m.decl.offset.all (· = 0) then do
      watch m.decl.name m.size
      let bits ← unwrapped (aloneInWord A order m)
      let others ← overlayMembers members
      return m.placedAt 0 bits :: others
    else throw (.refused (.invalidMember owner m.decl.name .unionOffset))

/-- Places the members by the form of their record. -/
def placeMembers (decl : RecordDecl) (members : List ResolvedMember) :
    Metering M (List MemberLayout × Nat) :=
  match decl.form with
  | .struct => placeUnits A order decl.tag 0 .start (placementUnits members)
  | .union => do
    let placed ← overlayMembers A order decl.tag members
    return (placed, (members.map (·.size)).foldr max 0)

end Place

end Metered

/-! ## What is known about placed members

The invariant of the cursor, and what is kept of members once they are placed. -/

/-- The end of what is placed is admitted, and the bits that are taken lie in the open word. -/
structure Cursor.Fits (limit : SizeLimit) (c : Cursor) : Prop where
  close : limit.Admits c.close
  word : ∀ w, c.word = some w → w.size ≤ 8 ∧ w.used ≤ 8 * w.size

theorem Cursor.close_of_word {c : Cursor} {w : BackingWord} (h : c.word = some w) :
    c.close = max c.next (w.offset + w.size) := by rw [close, h]

/-- Without an open word, only the offset counts. -/
theorem Cursor.Fits.of_next {limit : SizeLimit} {next : Nat} (h : limit.Admits next) :
    Cursor.Fits limit ⟨next, none⟩ := ⟨h, nofun⟩

namespace Metered

/-- A member that ends by the offset `top`. -/
structure Placed (A : Machine) (top : Nat) (p : MemberLayout) : Prop extends
    Held A.counts top p where
  alignment : p.alignment.log ≤ 64

variable {A : Machine} {limit : SizeLimit} {order : BitOrder} {owner : Tag}

theorem Placed.mono {top top' : Nat} {p : MemberLayout} (h : Placed A top p) (hle : top ≤ top') :
    Placed A top' p :=
  { h with within := Nat.le_trans h.within hle }

/-- A member that fits is known to end by whatever its end was checked against. -/
theorem placed_of_fits {m : ResolvedMember} (hm : m.Fits A limit) {offset top : Nat}
    (h : offset + m.size ≤ top) {bits : Option BitRange} {fixed : Bool} {group : Option Nat} :
    Placed A top (m.placedAt offset bits fixed group) :=
  ⟨⟨hm.surveyed, hm.measured, h⟩, hm.alignment⟩

/-- What is known about members and an end. -/
structure Ends (A : Machine) (limit : SizeLimit) (length : Nat)
    (answer : List MemberLayout × Nat) : Prop where
  length : answer.1.length = length
  placed : ∀ p ∈ answer.1, Placed A answer.2 p
  stop : limit.Admits answer.2

/-- What is known about the members of a unit, and the cursor behind them. -/
structure Advances (A : Machine) (limit : SizeLimit) (cursor : Cursor) (unit : PlacementUnit)
    (answer : List MemberLayout × Cursor) : Prop where
  length : answer.1.length = unit.members.length
  placed : ∀ p ∈ answer.1, Placed A answer.2.close p
  next : answer.2.Fits limit
  close_le : cursor.close ≤ answer.2.close

section Operations

variable (hA : A.Reaches limit) {c : Cursor} {m : ResolvedMember}

include hA

/-- Closing the open word needs no check: its end has been checked before. -/
theorem close_eq (hc : c.Fits limit) : close A c = some c.close := by
  have hclose := hA.counts hc.close
  rw [close]
  cases hword : c.word with
  | none => rw [Cursor.close, hword]
  | some w =>
    rw [Cursor.close_of_word hword] at hclose ⊢
    dsimp only
    rw [SizeLimit.add?_eq (hclose.mono (Nat.le_max_right _ _))]
    rfl

/-- Neither does counting the bits, since a word has 64 of them at most. -/
theorem room?_eq (hc : c.Fits limit) {size bits : Nat} (hsize : size ≤ 8)
    (hbits : bits ≤ 8 * size) : room? A c size bits = some (c.room? size bits) := by
  rw [room?, Cursor.room?]
  cases hword : c.word with
  | none => rfl
  | some w =>
    dsimp only
    rw [Option.filter_some]
    by_cases hw : w.size = size
    · obtain ⟨-, hused⟩ := hc.word w hword
      have hsum : A.bits.Admits (w.used + bits) := hA.bits (by omega)
      rw [if_pos hw, SizeLimit.add?_eq hsum, capacity_eq hA hsize]
      dsimp only [Option.bind_eq_bind, Option.bind_some]
      by_cases hroom : w.used + bits ≤ 8 * size
      · rw [if_pos hroom, if_pos (decide_eq_true ⟨hw, hroom⟩)]
        rfl
      · rw [if_neg hroom, if_neg fun h => hroom (of_decide_eq_true h).2]
        rfl
    · rw [if_neg hw, if_neg fun h => hw (of_decide_eq_true h).1]
      rfl

/-- The range of a bit-field that has its word to itself is computed without wrapping. -/
theorem aloneInWord_eq (hm : m.Fits A limit) :
    aloneInWord A order m = some (NativeRecord.aloneInWord order m) := by
  rw [aloneInWord, NativeRecord.aloneInWord]
  cases hbits : m.decl.bits with
  | none => rfl
  | some bits =>
    obtain ⟨hsize, hpos, hle⟩ := hm.bits bits hbits
    dsimp only
    rw [range_eq hA order hsize hpos (by rwa [Nat.zero_add])]
    rfl

theorem placedAt_alone_eq (hm : m.Fits A limit) (offset : Nat) (fixed : Bool)
    (group : Option Nat) :
    (do return m.placedAt offset (← aloneInWord A order m) fixed group : Option MemberLayout) =
      some (m.placedAt offset (NativeRecord.aloneInWord order m) fixed group) := by
  rw [aloneInWord_eq hA hm]
  rfl

end Operations

/-! ## Sequences

One lemma for the word of a bit-field, one for a unit, and the induction over the units. -/

section Tracks

variable (hA : A.Reaches limit) {σ : Type} {cursor : Cursor}

include hA

/-- **The word of a bit-field ends by a checked offset,** and has room for the bits. -/
theorem wordFor_tracks (hc : cursor.Fits limit) {m : ResolvedMember} (hm : m.Fits A limit)
    {bits : Nat} (hbits : m.decl.bits = some bits) :
    Tracks A limit owner (wordFor A owner cursor m bits : Metering (StateM σ) (Nat × BackingWord))
      (liftM (NativeRecord.wordFor limit owner cursor m bits))
      fun (next, word) => word.size = m.size ∧ word.used + bits ≤ 8 * m.size ∧
        cursor.close ≤ max next (word.offset + word.size) ∧
        limit.Admits (max next (word.offset + word.size)) := by
  obtain ⟨hsize, -, hle⟩ := hm.bits bits hbits
  refine .unwrap (room?_eq hA hc hsize hle) ?_
  rw [NativeRecord.wordFor]
  cases hroom : cursor.room? m.size bits with
  | some word =>
    obtain ⟨hword, hfits⟩ := Option.filter_eq_some_iff.1 hroom
    obtain ⟨hsame, hused⟩ := of_decide_eq_true hfits
    have hclose := Cursor.close_of_word hword
    exact .pure ⟨hsame, hused, Nat.le_of_eq hclose, hclose ▸ hc.close⟩
  | none =>
    refine .unwrap (close_eq hA hc) ?_
    refine .bind_lift (.reserve hA hm.alignment _ _) ?_
    rintro _ ⟨rfl, hstop⟩
    have hstart := m.alignment.le_align cursor.close
    have hmax : max (m.alignment.align cursor.close) (m.alignment.align cursor.close + m.size) =
        m.alignment.align cursor.close + m.size := Nat.max_eq_right (Nat.le_add_right _ _)
    refine .pure ⟨rfl, by rwa [Nat.zero_add], ?_, ?_⟩
    · exact Nat.le_trans hstart (Nat.le_max_left _ _)
    · rwa [hmax]

/-- **What a unit adds ends by a checked offset.** -/
theorem placeUnit_tracks (hc : cursor.Fits limit) {unit : PlacementUnit} (hunit : unit.Faithful)
    (hfits : ∀ m ∈ unit.members, m.Fits A limit) (index : Nat) :
    Tracks A limit owner
      (placeUnit A order owner index cursor unit :
        Metering (StateM σ) (List MemberLayout × Cursor))
      (liftM (NativeRecord.placeUnit limit order owner index cursor unit))
      (Advances A limit cursor unit) := by
  cases unit with
  | fixed m offset =>
    have hm := hfits m List.mem_cons_self
    refine .unwrap (close_eq hA hc) (.unwrap (aloneInWord_eq hA hm) ?_)
    refine .bind_lift (.count hA _) ?_
    rintro stop ⟨rfl, hstop⟩
    refine .pure ⟨rfl, ?_, .of_next (SizeLimit.admits_max hc.close hstop), Nat.le_max_left _ _⟩
    exact List.forall_mem_singleton.2 (placed_of_fits hm (Nat.le_max_right _ _))
  | overlay first rest =>
    refine .unwrap (close_eq hA hc) ?_
    refine .bind_lift (.reserve hA ?_ _ _) ?_
    · exact Alignment.strictest_le (b := ⟨64⟩) (List.forall_mem_map.2 fun m hm =>
        (hfits m hm).alignment)
    rintro _ ⟨rfl, hstop⟩
    refine .unwrap (mapM_eq_some_map fun m hm => placedAt_alone_eq hA (hfits m hm) ..) ?_
    refine .pure ⟨List.length_map _, ?_, .of_next hstop, ?_⟩
    · refine List.forall_mem_map.2 fun m hm => placed_of_fits (hfits m hm) ?_
      refine Nat.add_le_add_left ?_ _
      exact List.le_max_of_le' 0 (List.mem_map_of_mem hm) (Nat.le_refl _)
    · exact Nat.le_trans (Alignment.le_align _ _) (Nat.le_add_right _ _)
  | bitField m bits =>
    have hm := hfits m List.mem_cons_self
    obtain ⟨hsize, hpos, -⟩ := hm.bits bits hunit.2.2
    rw [placeUnit_bitField]
    refine .bind_lift (wordFor_tracks hA hc hm hunit.2.2) ?_
    rintro ⟨next, start, _, used⟩ ⟨rfl, hroom, hclose, hstop⟩
    refine .unwrap (range_eq hA order hsize hpos hroom) ?_
    refine .unwrap (SizeLimit.add?_eq (hA.bits (by dsimp only at hroom ⊢; omega))) ?_
    refine .pure ⟨rfl, ?_, ⟨hstop, ?_⟩, hclose⟩
    · exact List.forall_mem_singleton.2 (placed_of_fits hm (Nat.le_max_right _ _))
    · rintro _ ⟨⟩
      exact ⟨hsize, hroom⟩
  | plain m =>
    have hm := hfits m List.mem_cons_self
    refine .unwrap (close_eq hA hc) ?_
    refine .bind_lift (.reserve hA hm.alignment _ _) ?_
    rintro _ ⟨rfl, hstop⟩
    refine .pure ⟨rfl, ?_, .of_next hstop, ?_⟩
    · exact List.forall_mem_singleton.2 (placed_of_fits hm (Nat.le_refl _))
    · exact Nat.le_trans (m.alignment.le_align _) (Nat.le_add_right _ _)

/-- **A sequence is placed as by the builder.**  The index stays below the number of members, which
a machine can count. -/
theorem placeUnits_tracks {units : List PlacementUnit} (hunits : ∀ u ∈ units, u.Faithful)
    (hfits : ∀ u ∈ units, ∀ m ∈ u.members, m.Fits A limit) (hc : cursor.Fits limit) {index : Nat}
    (hindex : index + (units.flatMap PlacementUnit.members).length < 2 ^ (64 : Nat)) :
    Tracks A limit owner
      (placeUnits A order owner index cursor units : Metering (StateM σ) (List MemberLayout × Nat))
      (liftM (NativeRecord.placeUnits limit order owner index cursor units))
      fun answer => Ends A limit (units.flatMap PlacementUnit.members).length answer ∧
        cursor.close ≤ answer.2 := by
  induction units generalizing index cursor with
  | nil =>
    exact .unwrap (close_eq hA hc) (.pure ⟨⟨rfl, nofun, hc.close⟩, Nat.le_refl _⟩)
  | cons unit units ih =>
    obtain ⟨hunit, hunits⟩ := List.forall_mem_cons.1 hunits
    obtain ⟨hfit, hfits⟩ := List.forall_mem_cons.1 hfits
    rw [List.flatMap_cons, List.length_append] at hindex ⊢
    refine .bind_lift (placeUnit_tracks hA hc hunit hfit index) ?_
    rintro ⟨members, next⟩ ⟨hlength, hplaced, hnext, hle⟩
    dsimp only at hlength hplaced hnext hle
    -- The number of members so far is bounded by that of all members, and not by any check.
    have hcount : A.counts.Admits (index + members.length) := hA.counts (hA.word (by omega))
    refine .unwrap (SizeLimit.add?_eq hcount) ?_
    refine .bind_lift (ih hunits hfits hnext (by omega)) ?_
    rintro ⟨others, stop⟩ ⟨⟨hothers, hplaced', hstop⟩, hle'⟩
    refine .pure ⟨⟨?_, List.forall_mem_append.2 ⟨?_, hplaced'⟩, hstop⟩, Nat.le_trans hle hle'⟩
    · rw [List.length_append, hlength, hothers]
    · exact fun p hp => (hplaced p hp).mono hle'

/-! ## Unions

The ends of the members of a union are their sizes, which were checked when they were resolved.  The
builder maps over the members, and the metered version goes through them one by one. -/

/-- Each member of a union is placed as by the builder, or the first that asks for another offset is
refused. -/
theorem overlayMembers_tracks {members : List ResolvedMember}
    (hfits : ∀ m ∈ members, m.Fits A limit) :
    Tracks A limit owner
      (overlayMembers A order owner members : Metering (StateM σ) (List MemberLayout))
      (liftM (members.mapM fun m =>
        (if m.decl.offset.all (· = 0) then .ok (m.placedAt 0 (NativeRecord.aloneInWord order m))
        else .error (.invalidMember owner m.decl.name .unionOffset) :
          Except LayoutError MemberLayout)))
      fun placed => placed.length = members.length ∧
        ∀ p ∈ placed, Placed A ((members.map (·.size)).foldr max 0) p := by
  induction members with
  | nil => exact .pure ⟨rfl, nofun⟩
  | cons m members ih =>
    obtain ⟨hm, hfits⟩ := List.forall_mem_cons.1 hfits
    rw [List.mapM_cons, overlayMembers]
    split
    · refine .watch hm.size (.unwrap (aloneInWord_eq hA hm) ?_)
      refine .bind_lift (ih hfits) ?_
      rintro others ⟨hlength, hplaced⟩
      refine .pure ⟨congrArg (· + 1) hlength, List.forall_mem_cons.2 ⟨?_, fun p hp => ?_⟩⟩
      · refine placed_of_fits hm ?_
        rw [Nat.zero_add]
        exact Nat.le_max_left _ _
      · exact (hplaced p hp).mono (Nat.le_max_right _ _)
    · exact .throw

/-- The largest size was checked, since each of them was. -/
theorem admits_largest {members : List ResolvedMember} (hfits : ∀ m ∈ members, m.Fits A limit) :
    limit.Admits ((members.map (·.size)).foldr max 0) := by
  induction members with
  | nil => exact hA.word (Nat.two_pow_pos 64)
  | cons m members ih =>
    obtain ⟨hm, hfits⟩ := List.forall_mem_cons.1 hfits
    exact SizeLimit.admits_max hm.size (ih hfits)

/-- **Placing tracks the builder,** and all members end by an offset that is admitted. -/
theorem placeMembers_tracks (decl : RecordDecl) {members : List ResolvedMember}
    (hfits : ∀ m ∈ members, m.Fits A limit) (hlength : members.length < 2 ^ (64 : Nat)) :
    Tracks A limit decl.tag
      (placeMembers A order decl members : Metering (StateM σ) (List MemberLayout × Nat))
      (liftM (NativeRecord.placeMembers limit order decl members))
      (Ends A limit members.length) := by
  rw [placeMembers, NativeRecord.placeMembers]
  cases decl.form with
  | struct =>
    have hunits := flatMap_placementUnits members
    have hstart : Cursor.start.Fits limit := .of_next (hA.word (Nat.two_pow_pos 64))
    have hunit : ∀ u ∈ placementUnits members, ∀ m ∈ u.members, m.Fits A limit := by
      intro u hu m hm
      refine hfits m ?_
      rw [← hunits]
      exact List.mem_flatMap.2 ⟨u, hu, hm⟩
    have hindex : 0 + ((placementUnits members).flatMap PlacementUnit.members).length <
        2 ^ (64 : Nat) := by
      rwa [hunits, Nat.zero_add]
    refine (placeUnits_tracks hA (faithful_placementUnits members) hunit hstart hindex).imp ?_
    rw [hunits]
    exact fun _ h => h.1
  | union =>
    refine .bind_lift (overlayMembers_tracks hA hfits) ?_
    rintro placed ⟨hlength, hplaced⟩
    exact .pure ⟨hlength, hplaced, admits_largest hA hfits⟩

end Tracks

end Metered

end NativeRecord
