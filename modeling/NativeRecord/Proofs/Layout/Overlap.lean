import Mathlib.Data.List.Pairwise
import Mathlib.Data.List.Perm.Subperm
import NativeRecord.Layout.Validation

/-!
# The overlap sweep

The sweep looks at the members in the order of their offsets and compares each one with those that
start before it ends.  That finds as much as comparing every member with every other one.

The sweep leaves most pairs out, and that it misses nothing is due to the order.  If a later member
does not start before an earlier one ends, no member behind it does, so one may stop there
(`mem_takeWhile_iff_of_sorted`).  For two members in order, meeting is the same as starting before
the other's end, once both have bytes; so the comparison that the sweep makes is the one that
`Compatible` asks for.

`Compatible` does not look at the order and holds of members without bytes.  Therefore it makes no
difference that the sweep sorts the members and drops some of them.

## What is here

* `MemberLayout.SameUnion` — two members of one anonymous union.
* `MemberLayout.Compatible` — two members that lie apart, or may share the bytes they have in
  common; a symmetric relation.
* `sweepOrder` — the members in the order of the sweep, which loses no relation between members that
  have bytes (`pairwise_sweepOrder_iff`).
* `findOverlap?_eq_none_iff` — the sweep finds nothing exactly when all members that have bytes are
  compatible.
* `findOverlap?_eq_some` — what it finds are two members that are not, and `findOverlap?_first`: no
  conflict starts before the one found.
-/

set_option autoImplicit false
namespace NativeRecord

/-- Members of one anonymous union. -/
def MemberLayout.SameUnion (a b : MemberLayout) : Prop :=
  a.unionGroup.isSome ∧ a.unionGroup = b.unionGroup

instance (a b : MemberLayout) : Decidable (a.SameUnion b) :=
  inferInstanceAs (Decidable (_ ∧ _))

namespace MemberLayout

theorem mayShare_eq_true_iff {a b : MemberLayout} :
    a.mayShare b = true ↔ a.SameUnion b ∨ ∃ x y, a.bits = some x ∧ b.bits = some y ∧
      a.span = b.span ∧ x.mask &&& y.mask = 0 := by
  rw [mayShare, SameUnion]
  rw [Bool.or_eq_true, Bool.and_eq_true, beq_iff_eq]
  refine or_congr_right ?_
  cases a.bits with
  | none => simp
  | some x =>
    cases b.bits with
    | none => simp
    | some y => simp

/-- Members with bytes that lie apart or may share them. -/
def Compatible (a b : MemberLayout) : Prop :=
  0 < a.length → 0 < b.length → a.span.Intersects b.span → a.mayShare b = true

theorem mayShare_comm (a b : MemberLayout) : a.mayShare b = b.mayShare a := by
  have hgroup : (a.unionGroup.isSome && a.unionGroup == b.unionGroup) =
      (b.unionGroup.isSome && b.unionGroup == a.unionGroup) := by
    cases a.unionGroup <;> cases b.unionGroup <;> simp [eq_comm]
  rw [mayShare, mayShare, hgroup, Bool.beq_comm (a := a.span)]
  cases a.bits <;> cases b.bits <;> simp only [BitVec.and_comm]

theorem not_compatible_iff {a b : MemberLayout} : ¬ a.Compatible b ↔
    0 < a.length ∧ 0 < b.length ∧ a.span.Intersects b.span ∧ a.mayShare b = false := by
  simp only [Compatible, Classical.not_imp, Bool.not_eq_true]

theorem compatible_of_empty {a b : MemberLayout} (h : ¬ (0 < a.length ∧ 0 < b.length)) :
    a.Compatible b := fun ha hb => absurd ⟨ha, hb⟩ h

theorem Compatible.symm {a b : MemberLayout} (h : a.Compatible b) : b.Compatible a :=
  fun hb ha hi => (mayShare_comm b a).trans (h ha hb (Span.intersects_comm.1 hi))

/-- A member that does not start first meets the other one when it starts before that one ends. -/
theorem intersects_iff_of_le {a b : MemberLayout} (hle : a.offset ≤ b.offset) (hb : 0 < b.length) :
    a.span.Intersects b.span ↔ b.offset < a.span.stop := by
  simp only [Span.Intersects, offset_span, stop_span]
  omega

end MemberLayout

/-! ## The sweep over members in order

By induction over the sorted list, with no other fact about the order than that it ascends. -/

theorem mem_takeWhile_iff_of_sorted {stop : Nat} {later : List MemberLayout} {b : MemberLayout}
    (hsorted : later.Pairwise (·.offset ≤ ·.offset)) :
    b ∈ later.takeWhile (·.offset < stop) ↔ b ∈ later ∧ b.offset < stop := by
  induction later with
  | nil => simp
  | cons c later ih =>
    obtain ⟨hfirst, hrest⟩ := List.pairwise_cons.1 hsorted
    rw [List.takeWhile_cons]
    split
    · rename_i hc
      rw [List.mem_cons, List.mem_cons, ih hrest]
      constructor
      · rintro (rfl | ⟨hb, hstop⟩)
        · exact ⟨.inl rfl, by simpa using hc⟩
        · exact ⟨.inr hb, hstop⟩
      · rintro ⟨rfl | hb, hstop⟩
        · exact .inl rfl
        · exact .inr ⟨hb, hstop⟩
    · rename_i hc
      have hc : stop ≤ c.offset := by simpa using hc
      refine ⟨nofun, fun ⟨hb, hstop⟩ => ?_⟩
      rcases List.mem_cons.1 hb with rfl | hb
      · omega
      · have := hfirst b hb
        omega

/-- A member is in conflict with no later one that starts before it ends. -/
theorem conflictWith?_eq_none_iff {a : MemberLayout} {later : List MemberLayout}
    (hsorted : later.Pairwise (·.offset ≤ ·.offset)) :
    conflictWith? a later = none ↔ ∀ b ∈ later, b.offset < a.span.stop → a.mayShare b = true := by
  simp only [conflictWith?, List.find?_eq_none, mem_takeWhile_iff_of_sorted hsorted, and_imp,
    Bool.not_eq_true', Bool.not_eq_false]

/-- So it is for all members, each with those behind it. -/
theorem sweep?_eq_none_iff {members : List MemberLayout}
    (hsorted : members.Pairwise (·.offset ≤ ·.offset)) :
    sweep? members = none ↔
      members.Pairwise fun a b => b.offset < a.span.stop → a.mayShare b = true := by
  induction members with
  | nil => simp [sweep?]
  | cons a later ih =>
    obtain ⟨-, hrest⟩ := List.pairwise_cons.1 hsorted
    rw [List.pairwise_cons, ← ih hrest, ← conflictWith?_eq_none_iff hrest, sweep?]
    cases conflictWith? a later <;> simp

/-! ## The order of the sweep

The sweep sorts stably, and of the sorted list no more is used than that it is a permutation in
ascending order. -/

/-- The members in the order in which the sweep takes them: those without bytes are left out. -/
def sweepOrder (members : List MemberLayout) : List MemberLayout :=
  stableSort (·.offset ≤ ·.offset) (members.filter (0 < ·.length))

section SweepOrder

variable {members : List MemberLayout}

theorem findOverlap?_eq_sweep? (members : List MemberLayout) :
    findOverlap? members = sweep? (sweepOrder members) := rfl

theorem mem_sweepOrder {m : MemberLayout} :
    m ∈ sweepOrder members ↔ m ∈ members ∧ 0 < m.length := by
  rw [sweepOrder, mem_stableSort, List.mem_filter, decide_eq_true_eq]

theorem sweepOrder_subperm (members : List MemberLayout) : (sweepOrder members).Subperm members :=
  (stableSort_perm _ _).subperm.trans List.filter_sublist.subperm

theorem pairwise_sweepOrder (members : List MemberLayout) :
    (sweepOrder members).Pairwise (·.offset ≤ ·.offset) := by
  have h := @pairwise_stableSort MemberLayout (fun a b => decide (a.offset ≤ b.offset))
    (fun a b => by simp only [decide_eq_true_eq]; omega)
    (fun a b c => by simp only [decide_eq_true_eq]; omega) (members.filter (0 < ·.length))
  exact h.imp fun hab => by simpa using hab

/-- Nothing gets lost of a relation that does not look at the order, and that all members without
bytes are in. -/
theorem pairwise_sweepOrder_iff {R : MemberLayout → MemberLayout → Prop}
    (hsymm : ∀ {a b}, R a b → R b a) (hempty : ∀ {a b}, ¬ (0 < a.length ∧ 0 < b.length) → R a b) :
    (sweepOrder members).Pairwise R ↔ members.Pairwise R := by
  rw [sweepOrder, (stableSort_perm _ _).pairwise_iff hsymm, List.pairwise_filter]
  refine ⟨fun h => h.imp fun {a b} hab => ?_, fun h => h.imp fun hab _ _ => hab⟩
  by_cases hlength : 0 < a.length ∧ 0 < b.length
  · exact hab (decide_eq_true hlength.1) (decide_eq_true hlength.2)
  · exact hempty hlength

/-- In the order of the sweep, the later one of two members meets the earlier one if it starts
before that one ends. -/
theorem compatible_iff_of_sweepOrder :
    (sweepOrder members).Pairwise fun a b =>
      (a.Compatible b ↔ (b.offset < a.span.stop → a.mayShare b = true)) := by
  refine (pairwise_sweepOrder members).imp_of_mem fun {a b} ha hb hle => ?_
  have ha := (mem_sweepOrder.1 ha).2
  have hb := (mem_sweepOrder.1 hb).2
  rw [MemberLayout.Compatible, MemberLayout.intersects_iff_of_le hle hb]
  exact ⟨fun h => h ha hb, fun h _ _ => h⟩

end SweepOrder

/-! ## What the sweep finds

The members stand for themselves and not for their values: two equal members are in conflict, and
both are among the members. -/

section Found

variable {members : List MemberLayout} {a b : MemberLayout}

/-- **The sweep finds nothing exactly when no two members are in conflict.** -/
theorem findOverlap?_eq_none_iff :
    findOverlap? members = none ↔ members.Pairwise MemberLayout.Compatible := by
  rw [findOverlap?_eq_sweep?, sweep?_eq_none_iff (pairwise_sweepOrder members),
    ← pairwise_sweepOrder_iff MemberLayout.Compatible.symm MemberLayout.compatible_of_empty]
  exact ⟨fun h => (compatible_iff_of_sweepOrder.and h).imp fun hab => hab.1.2 hab.2,
    fun h => (compatible_iff_of_sweepOrder.and h).imp fun hab => hab.1.1 hab.2⟩

theorem conflictWith?_eq_some {later : List MemberLayout} (h : conflictWith? a later = some b) :
    b ∈ later ∧ b.offset < a.span.stop ∧ a.mayShare b = false := by
  have hmem := List.mem_of_find?_eq_some h
  refine ⟨(List.takeWhile_sublist _).subset hmem, ?_, ?_⟩
  · exact of_decide_eq_true (List.all_eq_true.1 List.all_takeWhile b hmem)
  · simpa using List.find?_some h

/-- The sweep answers with two members in their order. -/
theorem sweep?_eq_some (h : sweep? members = some (a, b)) :
    [a, b].Sublist members ∧ b.offset < a.span.stop ∧ a.mayShare b = false := by
  induction members with
  | nil => cases h
  | cons c later ih =>
    rw [sweep?] at h
    split at h
    · rename_i d hconflict
      cases h
      obtain ⟨hmem, hmeet, hshare⟩ := conflictWith?_eq_some hconflict
      exact ⟨(List.singleton_sublist.2 hmem).cons_cons a, hmeet, hshare⟩
    · obtain ⟨hsub, hconflict⟩ := ih h
      exact ⟨hsub.cons c, hconflict⟩

/-- Members before the first one of the answer have been compared with all later ones. -/
theorem sweep?_first (hsorted : members.Pairwise (·.offset ≤ ·.offset))
    (h : sweep? members = some (a, b)) :
    members.Pairwise fun c d =>
      (d.offset < c.span.stop → c.mayShare d = true) ∨ a.offset ≤ c.offset := by
  induction members with
  | nil => cases h
  | cons c later ih =>
    obtain ⟨hleast, hrest⟩ := List.pairwise_cons.1 hsorted
    rw [sweep?] at h
    split at h
    · cases h
      -- All members start where this one does, or later.
      refine List.pairwise_cons.2 ⟨fun _ _ => .inr (Nat.le_refl _), ?_⟩
      exact hrest.imp_of_mem fun hc _ _ => .inr (hleast _ hc)
    · rename_i hnone
      refine List.pairwise_cons.2 ⟨fun d hd => .inl ?_, ih hrest h⟩
      exact (conflictWith?_eq_none_iff hrest).1 hnone d hd

/-- **What the sweep finds is a conflict** between two members, the first of which starts no later
than the second. -/
theorem findOverlap?_eq_some (h : findOverlap? members = some (a, b)) :
    [a, b].Subperm members ∧ a.offset ≤ b.offset ∧ ¬ a.Compatible b := by
  obtain ⟨hsub, hmeet, hshare⟩ := sweep?_eq_some h
  refine ⟨hsub.subperm.trans (sweepOrder_subperm members),
    List.pairwise_iff_forall_sublist.1 (pairwise_sweepOrder members) hsub, fun hcompatible => ?_⟩
  have hiff := List.pairwise_iff_forall_sublist.1 compatible_iff_of_sweepOrder hsub
  rw [hiff.1 hcompatible hmeet] at hshare
  cases hshare

/-- **No conflict starts before the one that is found.** -/
theorem findOverlap?_first (h : findOverlap? members = some (a, b)) :
    members.Pairwise fun c d =>
      ¬ c.Compatible d → a.offset ≤ c.offset ∧ a.offset ≤ d.offset := by
  have hsorted := pairwise_sweepOrder members
  refine (pairwise_sweepOrder_iff (fun hab hba => ?_) fun hempty hconflict => ?_).1 ?_
  · exact (hab fun hcompatible => hba hcompatible.symm).symm
  · exact absurd (MemberLayout.compatible_of_empty hempty) hconflict
  · refine ((hsorted.and compatible_iff_of_sweepOrder).and (sweep?_first hsorted h)).imp ?_
    rintro c d ⟨⟨hle, hiff⟩, hfirst⟩ hconflict
    have hac : a.offset ≤ c.offset := hfirst.resolve_left fun hmeet => hconflict (hiff.2 hmeet)
    exact ⟨hac, Nat.le_trans hac hle⟩

end Found

end NativeRecord
