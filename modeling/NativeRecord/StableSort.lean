/-!
# Stable sorting

Merge sort by a test `le`.  Elements that the test does not tell apart keep their order, and
stretches that are in order already are passed over once.

The library has such a sort, but one whose running time on lists that are in order already is no
better than on others, and members of a record mostly are.  This one looks for such stretches first.
It is shown to be the library's sort for the tests that matter, and everything that is known of that
one carries over.

## What is here

* `stableSort`, a rearrangement of its input (`stableSort_perm`).
* For a transitive test it gives the same lists as `List.mergeSort` (`stableSort_eq_mergeSort`), so
  that when the test is total too, every element is `le` to all later ones (`pairwise_stableSort`).
-/

set_option autoImplicit false
namespace NativeRecord

variable {α : Type}

/-! ## Merging -/

/-- Merges two sorted lists behind `done`, which stands in reverse.  Of elements that the test does
not tell apart, those of the first list come first.  At most `fuel` elements are compared. -/
def mergeSorted (le : α → α → Bool) : (fuel : Nat) → (done xs ys : List α) → List α
  | fuel + 1, done, x :: xs, y :: ys =>
    if le x y then mergeSorted le fuel (x :: done) xs (y :: ys)
    else mergeSorted le fuel (y :: done) (x :: xs) ys
  | _, done, xs, ys => done.reverse ++ (xs ++ ys)

theorem mergeSorted_eq_merge (le : α → α → Bool) {fuel : Nat} {xs ys : List α}
    (h : xs.length + ys.length ≤ fuel) (done : List α) :
    mergeSorted le fuel done xs ys = done.reverse ++ xs.merge ys le := by
  induction fuel generalizing done xs ys with
  | zero =>
    obtain rfl : xs = [] := List.eq_nil_of_length_eq_zero (by omega)
    obtain rfl : ys = [] := List.eq_nil_of_length_eq_zero (by omega)
    simp [mergeSorted]
  | succ fuel ih =>
    cases xs with
    | nil => simp [mergeSorted]
    | cons x xs =>
      cases ys with
      | nil => simp [mergeSorted]
      | cons y ys =>
        simp only [List.length_cons] at h
        rw [mergeSorted, List.cons_merge_cons]
        split
        · rw [ih (by simp only [List.length_cons]; omega)]; simp
        · rw [ih (by simp only [List.length_cons]; omega)]; simp

/-! ## Sorting -/

/-- Whether each element is `le` to the next one. -/
def isAscending (le : α → α → Bool) : List α → Bool
  | x :: y :: xs => le x y && isAscending le (y :: xs)
  | _ => true

theorem pairwise_of_isAscending {le : α → α → Bool}
    (trans : ∀ a b c, le a b = true → le b c = true → le a c = true) {xs : List α}
    (h : isAscending le xs = true) : xs.Pairwise (le · · = true) := by
  induction xs with
  | nil => exact List.Pairwise.nil
  | cons x xs ih =>
    cases xs with
    | nil => exact List.pairwise_singleton _ x
    | cons y ys =>
      rw [isAscending, Bool.and_eq_true] at h
      have hys := ih h.2
      refine List.pairwise_cons.2 ⟨fun z hz => ?_, hys⟩
      rcases List.mem_cons.1 hz with rfl | hz
      · exact h.1
      · exact trans _ _ _ h.1 (List.rel_of_pairwise_cons hys hz)

/-- Sorts the two halves and merges them, halving at most `depth` times in a row.  What is in order
already is left alone. -/
def sortHalves (le : α → α → Bool) : (depth : Nat) → List α → List α
  | 0, xs => xs
  | depth + 1, xs =>
    if isAscending le xs then xs
    else
      let half := (xs.length + 1) / 2
      mergeSorted le xs.length []
        (sortHalves le depth (xs.take half)) (sortHalves le depth (xs.drop half))

/-- Sorts, keeping the order of elements that are `le` to each other. -/
def stableSort (le : α → α → Bool) (xs : List α) : List α := sortHalves le xs.length xs

theorem sortHalves_perm (le : α → α → Bool) (depth : Nat) (xs : List α) :
    (sortHalves le depth xs).Perm xs := by
  induction depth generalizing xs with
  | zero => exact List.Perm.refl _
  | succ depth ih =>
    rw [sortHalves]
    split
    · exact List.Perm.refl _
    · have hleft := ih (xs.take ((xs.length + 1) / 2))
      have hright := ih (xs.drop ((xs.length + 1) / 2))
      have hlength : (sortHalves le depth (xs.take ((xs.length + 1) / 2))).length +
          (sortHalves le depth (xs.drop ((xs.length + 1) / 2))).length = xs.length := by
        rw [hleft.length_eq, hright.length_eq, ← List.length_append, List.take_append_drop]
      rw [mergeSorted_eq_merge le (Nat.le_of_eq hlength), List.reverse_nil, List.nil_append]
      refine (List.merge_perm_append le).trans ((hleft.append hright).trans ?_)
      rw [List.take_append_drop]

/-- **Sorting rearranges.** -/
theorem stableSort_perm (le : α → α → Bool) (xs : List α) : (stableSort le xs).Perm xs :=
  sortHalves_perm le xs.length xs

theorem mem_stableSort {le : α → α → Bool} {xs : List α} {x : α} :
    x ∈ stableSort le xs ↔ x ∈ xs := (stableSort_perm le xs).mem_iff

theorem sortHalves_eq_mergeSort {le : α → α → Bool}
    (trans : ∀ a b c, le a b = true → le b c = true → le a c = true) {depth : Nat} {xs : List α}
    (h : xs.length ≤ depth) : sortHalves le depth xs = xs.mergeSort le := by
  induction depth generalizing xs with
  | zero =>
    obtain rfl : xs = [] := List.eq_nil_of_length_eq_zero (by omega)
    simp [sortHalves]
  | succ depth ih =>
    rw [sortHalves]
    split
    · rename_i hxs
      exact (List.mergeSort_of_pairwise (pairwise_of_isAscending trans hxs)).symm
    · rename_i hxs
      match xs with
      | [] => simp [isAscending] at hxs
      | [x] => simp [isAscending] at hxs
      | x :: y :: xs =>
        simp only [List.length_cons] at h
        dsimp only
        rw [List.mergeSort, ih (by simp only [List.length_take, List.length_cons]; omega),
          ih (by simp only [List.length_drop, List.length_cons]; omega), mergeSorted_eq_merge]
        · simp only [List.reverse_nil, List.nil_append, List.MergeSort.Internal.splitInTwo_fst,
            List.MergeSort.Internal.splitInTwo_snd]
        · simp only [List.length_mergeSort, List.length_take, List.length_drop]
          omega

/-- **Sorting is merge sort,** for a transitive test. -/
theorem stableSort_eq_mergeSort {le : α → α → Bool}
    (trans : ∀ a b c, le a b = true → le b c = true → le a c = true) (xs : List α) :
    stableSort le xs = xs.mergeSort le := sortHalves_eq_mergeSort trans (Nat.le_refl _)

/-- **Sorting sorts,** for a total and transitive test. -/
theorem pairwise_stableSort {le : α → α → Bool}
    (total : ∀ a b, le a b = true ∨ le b a = true)
    (trans : ∀ a b c, le a b = true → le b c = true → le a c = true) (xs : List α) :
    (stableSort le xs).Pairwise (le · · = true) := by
  rw [stableSort_eq_mergeSort trans]
  exact List.pairwise_mergeSort trans (fun a b => by simpa using total a b) xs

end NativeRecord
