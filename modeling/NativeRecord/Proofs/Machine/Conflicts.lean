import Mathlib.Data.List.NodupEquivFin
import Mathlib.Data.List.Permutation
import NativeRecord.Proofs.Machine.Build

/-!
# Conflicts between members

The sweep stops early twice: at the first member that starts behind the one it looks at, and at the
first conflict.  Members may start together, a long one may reach over many short ones, and some
have no bytes at all; still the sweep answers as if every two members were compared.

What the sweep finds has been described for lists in terms of pairs that stand one behind the other.
Here it is put into terms that do not depend on the order of the list at all, by talking of every
two elements at different places.

## What is here

* `TwoOf` — two elements of a list, by their places in it, so that equal ones are told apart.
* `DecidesConflicts`, `sweep_decidesConflicts` — what the sweep decides about the members of any
  list, and what a check of their places makes of it.
-/

set_option autoImplicit false
namespace NativeRecord

/-! ## Two elements of a list

A list may have one element twice, and then these are two. -/

section TwoOf

variable {α : Type} {xs : List α} {a b : α}

/-- The elements stand at different places of the list. -/
def TwoOf (xs : List α) (a b : α) : Prop :=
  ∃ i j : Nat, i ≠ j ∧ xs[i]? = some a ∧ xs[j]? = some b

theorem TwoOf.of_subperm (h : [a, b].Subperm xs) : TwoOf xs a b := by
  obtain ⟨pair, hpair, hsub⟩ := h
  obtain ⟨place, hplace⟩ := List.sublist_iff_exists_orderEmbedding_getElem?_eq.1 hsub
  have hne : place 0 ≠ place 1 := place.injective.ne Nat.zero_ne_one
  rcases List.perm_pair.1 hpair with rfl | rfl
  · exact ⟨place 0, place 1, hne, (hplace 0).symm, (hplace 1).symm⟩
  · exact ⟨place 1, place 0, hne.symm, (hplace 1).symm, (hplace 0).symm⟩

/-- What holds of each element and all later ones holds of every two, if the order does not
matter. -/
theorem pairwise_iff_twoOf {R : α → α → Prop} (hsymm : ∀ {a b}, R a b → R b a) :
    xs.Pairwise R ↔ ∀ a b, TwoOf xs a b → R a b := by
  rw [List.pairwise_iff_getElem]
  constructor
  · rintro h a b ⟨i, j, hne, ha, hb⟩
    obtain ⟨hi, rfl⟩ := List.getElem?_eq_some_iff.1 ha
    obtain ⟨hj, rfl⟩ := List.getElem?_eq_some_iff.1 hb
    rcases Nat.lt_or_gt_of_ne hne with hlt | hgt
    · exact h i j hi hj hlt
    · exact hsymm (h j i hj hi hgt)
  · intro h i j hi hj hlt
    exact h _ _ ⟨i, j, Nat.ne_of_lt hlt, List.getElem?_eq_getElem hi, List.getElem?_eq_getElem hj⟩

end TwoOf

/-! ## What the sweep decides -/

/-- The sweep over the members of a list decides as much as comparing every two of them. -/
structure DecidesConflicts (members : List MemberLayout) : Prop where
  /-- It does not matter which of two members is asked about the other. -/
  symmetric : ∀ a b : MemberLayout, a.mayShare b = b.mayShare a
  /-- Nothing is found exactly if every two members that have bytes in common may share them. -/
  clear : findOverlap? members = none ↔ ∀ a b, TwoOf members a b →
    0 < a.length → 0 < b.length → a.span.Intersects b.span → a.mayShare b = true
  /-- Two members that are found have bytes in common and may not share them.  No member that is in
  conflict with another starts before the first of them. -/
  found : ∀ a b, findOverlap? members = some (a, b) →
    TwoOf members a b ∧ 0 < a.length ∧ 0 < b.length ∧ a.span.Intersects b.span ∧
      a.mayShare b = false ∧ a.offset ≤ b.offset ∧
        ∀ c d, TwoOf members c d → ¬ c.Compatible d → a.offset ≤ c.offset
  /-- A struct passes if each member is in its place and no two are in conflict. -/
  passes : ∀ owner size, checkPlacement owner .struct size members = .ok () ↔
    (∀ m ∈ members, m.fault? size = none) ∧ ∀ a b, TwoOf members a b → a.Compatible b
  /-- An overlap is reported with the names of the two members that were found. -/
  reports : ∀ owner form size tag first second,
    checkPlacement owner form size members = .error (.overlap tag first second) →
      tag = owner ∧ form = .struct ∧
        ∃ a b, findOverlap? members = some (a, b) ∧ a.name = first ∧ b.name = second
  /-- On a machine that has the ends of the members and an index for each, no sum wraps, neither in
  the sweep nor in comparing two of them. -/
  machine : ∀ limit : SizeLimit, (∀ m ∈ members, limit.Admits m.span.stop) →
    limit.Admits members.length →
      Metered.sweep? limit 0 (sweepOrder members) = some (findOverlap? members) ∧
        ∀ a ∈ members, ∀ b ∈ members,
          Metered.intersects limit a.span b.span = some (decide (a.span.Intersects b.span))

/-- **The sweep decides conflicts** in every list of members, whatever the order of these. -/
theorem sweep_decidesConflicts (members : List MemberLayout) : DecidesConflicts members where
  symmetric := MemberLayout.mayShare_comm
  clear := findOverlap?_eq_none_iff.trans (pairwise_iff_twoOf MemberLayout.Compatible.symm)
  found a b h := by
    obtain ⟨hsub, hle, hconflict⟩ := findOverlap?_eq_some h
    obtain ⟨ha, hb, hmeet, hshare⟩ := MemberLayout.not_compatible_iff.1 hconflict
    refine ⟨.of_subperm hsub, ha, hb, hmeet, hshare, hle, fun c d hcd hconflict => ?_⟩
    have hfirst := (pairwise_iff_twoOf fun {c d} hcd hdc => ?_).1 (findOverlap?_first h) c d hcd
    · exact (hfirst hconflict).1
    · exact (hcd fun hcompatible => hdc hcompatible.symm).symm
  passes owner size := by
    rw [checkPlacement_eq_ok_iff, ← pairwise_iff_twoOf MemberLayout.Compatible.symm, eq_self,
      true_implies]
  reports owner form size tag first second h := by
    rcases checkPlacement_eq_error h with ⟨_, _, _, _, he⟩ | ⟨hform, a, b, hfound, he⟩
    · cases he
    · cases he
      exact ⟨rfl, hform, a, b, hfound, rfl, rfl⟩
  machine _ hfit hlength := ⟨Metered.sweep?_sweepOrder_eq hfit hlength,
    fun a ha b hb => Metered.intersects_eq (hfit a ha) (hfit b hb)⟩

/-- The longest member reaches over all others.  It may share bytes with the second one, and the
third one has none; the conflict is with the last one, though that was declared first. -/
example :
    let row (name : String) (offset length : Nat) (unionGroup : Option Nat) : MemberLayout :=
      { name, offset, unionGroup, type := .array (.arith .bool) length,
        shape := .array (.scalar (.arith .bool) 1 ⟨0⟩) length, alignment := ⟨0⟩, bits := none,
        fixed := true }
    (findOverlap? [row "last" 6 2 none, row "all" 0 8 (some 1), row "second" 0 4 (some 1),
      row "third" 2 0 none]).map (fun (a, b) => (a.name, b.name)) = some ("all", "last") := by
  decide

end NativeRecord
