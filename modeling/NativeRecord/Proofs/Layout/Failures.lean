import NativeRecord.Layout.Build

/-!
# Reasons for which a layout fails

That a type has no declaration or embeds itself is found when the type is looked up.  Putting a
layout together fails for other reasons only.

The registry relies on this difference.  An error that blames a type for being unknown, or for being
part of itself, must be traced to the graph of the declarations, and it can be only if no step of
the builder comes up with one of its own.  The builder is a long chain of checks, so the fact is
shown as a predicate on outcomes that is closed under sequencing (`OwnFailure.bind`), with one lemma
for each check; none of these lemmas has anything to say about what the check does when it succeeds.

## What is here

* `LayoutError.OfLookup` — the two reasons that a lookup gives.
* `OwnFailure` — a step of the builder fails for neither of them.  There is a lemma for each of its
  steps, up to `ownFailure_assemble`.
-/

set_option autoImplicit false
namespace NativeRecord

/-- A reason that comes from looking a type up. -/
def LayoutError.OfLookup : LayoutError → Prop
  | unknownTag _ | recursiveEmbedding _ => True
  | _ => False

variable {α β : Type}

/-- If it fails, then not for a reason of a lookup. -/
def OwnFailure (x : Except LayoutError α) : Prop := ∀ e, x = .error e → ¬ e.OfLookup

theorem ownFailure_ok (a : α) : OwnFailure (.ok a) := nofun

/-- An error that a step makes up itself is not one of a lookup. -/
theorem ownFailure_error {e : LayoutError} (h : ¬ e.OfLookup) :
    OwnFailure (.error e : Except LayoutError α) := by
  rintro _ ⟨⟩
  exact h

/-- Steps in a row fail for their own reasons if each of them does. -/
theorem OwnFailure.bind {x : Except LayoutError α} {f : α → Except LayoutError β}
    (hx : OwnFailure x) (hf : ∀ a, OwnFailure (f a)) : OwnFailure (x >>= f) := by
  cases x with
  | ok a => exact hf a
  | error e => exact ownFailure_error (hx e rfl)

theorem OwnFailure.mapM {f : α → Except LayoutError β} (hf : ∀ a, OwnFailure (f a))
    (xs : List α) : OwnFailure (xs.mapM f) := by
  induction xs with
  | nil => exact ownFailure_ok []
  | cons x xs ih =>
    rw [List.mapM_cons]
    exact (hf x).bind fun _ => ih.bind fun _ => ownFailure_ok _

/-! ## Resolving

The checks that are made of a member before it is placed, apart from asking for its type. -/

theorem ownFailure_orOverflow (owner : Tag) (name : String) (o : Option α) :
    OwnFailure (orOverflow owner name o) := by
  cases o with
  | none => exact ownFailure_error id
  | some a => exact ownFailure_ok a

theorem ownFailure_checkAlignment (subject : AlignmentSubject) (bytes : Nat) :
    OwnFailure (checkAlignment subject bytes) := by
  unfold checkAlignment
  split
  · exact ownFailure_ok _
  · exact ownFailure_error id

theorem ownFailure_effectivePack (config : Config) (decl : RecordDecl) :
    OwnFailure (effectivePack config decl) := by
  unfold effectivePack
  split
  · exact (ownFailure_checkAlignment _ _).bind fun _ => ownFailure_ok _
  · exact ownFailure_ok none

theorem ownFailure_checkBits (owner : Tag) (m : MemberDecl) (size : Nat) :
    OwnFailure (checkBits owner m size) := by
  unfold checkBits
  split
  · exact ownFailure_ok ()
  · split
    · exact ownFailure_error id
    · split
      · exact ownFailure_error id
      · exact ownFailure_ok ()

theorem ownFailure_memberAlignment (owner : Tag) (m : MemberDecl) (pack : Option Alignment)
    (natural : Alignment) : OwnFailure (memberAlignment owner m pack natural) := by
  unfold memberAlignment
  split
  · exact ownFailure_ok _
  · refine (ownFailure_checkAlignment _ _).bind fun requested => ?_
    split
    · exact ownFailure_error id
    · exact ownFailure_ok requested

/-! ## Placing and checking

Nothing from here on asks for a type at all. -/

section Place

variable {limit : SizeLimit} {order : BitOrder} {owner : Tag}

theorem ownFailure_placeUnit (index : Nat) (cursor : Cursor) (unit : PlacementUnit) :
    OwnFailure (placeUnit limit order owner index cursor unit) := by
  cases unit with
  | fixed m offset => exact (ownFailure_orOverflow _ _ _).bind fun _ => ownFailure_ok _
  | overlay first rest => exact (ownFailure_orOverflow _ _ _).bind fun _ => ownFailure_ok _
  | plain m => exact (ownFailure_orOverflow _ _ _).bind fun _ => ownFailure_ok _
  | bitField m bits =>
    rw [placeUnit]
    cases cursor.room? m.size bits with
    | some word => exact ownFailure_ok _
    | none => exact (ownFailure_orOverflow _ _ _).bind fun _ => ownFailure_ok _

theorem ownFailure_placeUnits (index : Nat) (cursor : Cursor) (units : List PlacementUnit) :
    OwnFailure (placeUnits limit order owner index cursor units) := by
  induction units generalizing index cursor with
  | nil => exact ownFailure_ok _
  | cons unit units ih =>
    exact (ownFailure_placeUnit index cursor unit).bind fun _ =>
      (ih _ _).bind fun _ => ownFailure_ok _

theorem ownFailure_overlayMembers (members : List ResolvedMember) :
    OwnFailure (overlayMembers order owner members) := by
  refine (OwnFailure.mapM (fun m => ?_) members).bind fun _ => ownFailure_ok _
  split
  · exact ownFailure_ok _
  · exact ownFailure_error id

theorem ownFailure_placeMembers (decl : RecordDecl) (members : List ResolvedMember) :
    OwnFailure (placeMembers limit order decl members) := by
  unfold placeMembers
  split
  · exact ownFailure_placeUnits _ _ _
  · exact ownFailure_overlayMembers members

theorem ownFailure_recordAlignment (decl : RecordDecl) (natural : Alignment) :
    OwnFailure (recordAlignment decl natural) := by
  unfold recordAlignment
  split
  · exact ownFailure_ok natural
  · refine (ownFailure_checkAlignment _ _).bind fun requested => ?_
    split
    · exact ownFailure_error id
    · exact ownFailure_ok requested

theorem ownFailure_checkPlacement (form : RecordForm) (size : Nat) (members : List MemberLayout) :
    OwnFailure (checkPlacement owner form size members) := by
  unfold checkPlacement
  split
  · exact ownFailure_error id
  · split
    · exact ownFailure_ok ()
    · split
      · exact ownFailure_error id
      · exact ownFailure_ok ()

theorem ownFailure_assemble (decl : RecordDecl) (members : List ResolvedMember) :
    OwnFailure (assemble limit order decl members) :=
  (ownFailure_placeMembers decl members).bind fun _ =>
    (ownFailure_recordAlignment decl _).bind fun _ =>
      (ownFailure_orOverflow _ _ _).bind fun _ =>
        (ownFailure_checkPlacement _ _ _).bind fun _ => ownFailure_ok _

end Place

end NativeRecord
