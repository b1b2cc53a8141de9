/-!
# Keyed lists

Lists in which an element is found by a key that it carries, in the order in which the keys first
came in.

The registry keeps declarations and layouts by type, and a record keeps values by name.  Both need
the order in which keys came in to stay the same when something is replaced, and neither is large,
so a list serves.  The laws say that these lists behave as finite maps; the order is what they do
not see.

## What is here

* `lookup?`, `upsert`, `removeKey`, with a law for each of the latter two (`lookup?_upsert`,
  `lookup?_removeKey`).
* `nodup_keys_upsert` — no key comes twice.
-/

set_option autoImplicit false
namespace NativeRecord

variable {α κ : Type} [DecidableEq κ]

/-- The first element with the key. -/
def lookup? (key : α → κ) (k : κ) (xs : List α) : Option α := xs.find? (key · = k)

/-- Replaces the first element with the same key, or adds the element at the end. -/
def upsert (key : α → κ) (x : α) : List α → List α
  | [] => [x]
  | y :: ys => if key y = key x then x :: ys else y :: upsert key x ys

/-- Takes out the elements with the key; the others keep their order. -/
def removeKey (key : α → κ) (k : κ) (xs : List α) : List α := xs.filter (key · ≠ k)

@[simp] theorem lookup?_nil (key : α → κ) (k : κ) : lookup? key k ([] : List α) = none := rfl

theorem lookup?_cons (key : α → κ) (k : κ) (x : α) (xs : List α) :
    lookup? key k (x :: xs) = if key x = k then some x else lookup? key k xs := by
  unfold lookup?
  rw [List.find?_cons]
  by_cases h : key x = k <;> simp [h]

/-- **A new element is found under its key, and all others as before.** -/
theorem lookup?_upsert (key : α → κ) (k : κ) (x : α) (xs : List α) :
    lookup? key k (upsert key x xs) = if key x = k then some x else lookup? key k xs := by
  induction xs with
  | nil => simp [upsert, lookup?_cons]
  | cons y ys ih =>
    unfold upsert
    split
    · rename_i h
      by_cases hk : key x = k <;> simp [lookup?_cons, h, hk]
    · rename_i h
      rw [lookup?_cons, ih, lookup?_cons]
      by_cases hy : key y = k
      · have : key x ≠ k := fun hx => h (hy.trans hx.symm)
        simp [hy, this]
      · simp [hy]

/-- **A removed key is not found, and all others are as before.** -/
theorem lookup?_removeKey (key : α → κ) (k k' : κ) (xs : List α) :
    lookup? key k (removeKey key k' xs) = if k' = k then none else lookup? key k xs := by
  induction xs with
  | nil => simp [removeKey]
  | cons x xs ih =>
    unfold removeKey at ih ⊢
    rw [List.filter_cons]
    by_cases hx : key x = k'
    · by_cases hk : k' = k <;> simp_all [lookup?_cons]
    · by_cases hk : k' = k <;> simp_all [lookup?_cons]

theorem key_of_lookup? {key : α → κ} {k : κ} {xs : List α} {x : α}
    (h : lookup? key k xs = some x) : key x = k := by
  simpa using List.find?_some h

theorem mem_of_lookup? {key : α → κ} {k : κ} {xs : List α} {x : α}
    (h : lookup? key k xs = some x) : x ∈ xs := List.mem_of_find?_eq_some h

theorem isSome_lookup?_iff {key : α → κ} {k : κ} {xs : List α} :
    (lookup? key k xs).isSome ↔ k ∈ xs.map key := by
  simp [lookup?]

theorem mem_keys_upsert_iff {key : α → κ} {k : κ} {x : α} {xs : List α} :
    k ∈ (upsert key x xs).map key ↔ key x = k ∨ k ∈ xs.map key := by
  rw [← isSome_lookup?_iff, ← isSome_lookup?_iff, lookup?_upsert]
  split <;> simp_all

/-- An element with a key that is free comes to the end. -/
theorem upsert_eq_append {key : α → κ} {x : α} {xs : List α} (h : lookup? key (key x) xs = none) :
    upsert key x xs = xs ++ [x] := by
  induction xs with
  | nil => rfl
  | cons y ys ih =>
    rw [lookup?_cons] at h
    split at h
    · cases h
    · rename_i hne
      rw [upsert, if_neg hne, ih h]
      rfl

/-- **If no key comes twice, then none does with a new element.** -/
theorem nodup_keys_upsert {key : α → κ} (x : α) {xs : List α} (h : (xs.map key).Nodup) :
    ((upsert key x xs).map key).Nodup := by
  induction xs with
  | nil => simp [upsert]
  | cons y ys ih =>
    obtain ⟨hy, hys⟩ := List.nodup_cons.1 h
    unfold upsert
    split
    · rename_i heq
      exact List.nodup_cons.2 ⟨heq ▸ hy, hys⟩
    · rename_i hne
      refine List.nodup_cons.2 ⟨fun hmem => ?_, ih hys⟩
      exact (mem_keys_upsert_iff.1 hmem).elim (fun heq => hne heq.symm) hy

end NativeRecord
