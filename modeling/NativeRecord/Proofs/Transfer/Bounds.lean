import NativeRecord.Proofs.Transfer.Conformance

/-!
# Accesses within bounds

On memory that is there and long enough, nothing that is done with a record can run past the end of
the record or of the memory: reading always succeeds, and writing fails for other reasons only.

Conformance has shown that a write to a sound slot fails for the value's sake only.  Here this is
carried over to all accessors, whose own failures before the access, an index or an element that
does not exist, are not of the memory either.  That all offsets lie within the record comes from the
walk along paths, for places at any depth at once.

## What is here

* `TransferError.BlamesMemory` — failures of the memory and accesses past the end of the record;
  `Writing.Spares` — steps without such failures.
* `Layout.Confines` — what it means that all accesses stay within a record, and
  `Layout.confines` — that they do.
-/

set_option autoImplicit false
namespace NativeRecord

open Writing

/-! ## Failures of the memory

A failure is reported by each record that it happened in, so it is the innermost cause that is
looked at. -/

/-- The failure, below the records that it happened in, is one of the memory or an access past the
end of the record. -/
def TransferError.BlamesMemory (e : TransferError) : Prop :=
  (∃ cause, e.root = .memory cause) ∨ ∃ offset length size, e.root = .outOfBounds offset length size

theorem TransferError.BlamesValue.not_blamesMemory {e : TransferError} (h : e.BlamesValue) :
    ¬ e.BlamesMemory := by
  rintro (⟨cause, hroot⟩ | ⟨offset, length, size, hroot⟩) <;>
    rcases h with ⟨name, h⟩ | ⟨field, expected, given, h⟩ | ⟨field, expected, given, h⟩ <;>
    cases hroot.symm.trans h

namespace Writing

variable {step : Writing Unit} {v : View}

/-- From this view, the step does not fail because of the memory. -/
def Spares (step : Writing Unit) (v : View) : Prop :=
  ∀ e, (step.run v).1 = .error e → ¬ e.BlamesMemory

theorem Decides.spares {C : Prop} (h : step.Decides v C) : step.Spares v :=
  fun _ he => (h.blamesValue he).not_blamesMemory

/-- What comes before a step without looking at the memory may fail in its own ways. -/
theorem Spares.lift_bind {α : Type} {x : Except TransferError α} {f : α → Writing Unit}
    (herror : ∀ e, x = .error e → ¬ e.BlamesMemory) (h : ∀ a, x = .ok a → (f a).Spares v) :
    (liftM x >>= f : Writing Unit).Spares v := by
  cases x with
  | error e =>
    rintro _ ⟨⟩
    exact herror e rfl
  | ok a => exact h a rfl

end Writing

namespace Layout

variable {l : Layout}

theorem not_blamesMemory_of_memberAt {i : Nat} {e : TransferError} (h : l.memberAt i = .error e) :
    ¬ e.BlamesMemory := by
  rw [memberAt] at h
  split at h <;> cases h
  rintro (⟨_, ⟨⟩⟩ | ⟨_, _, _, ⟨⟩⟩)

theorem not_blamesMemory_of_elementAt {i j : Nat} {e : TransferError}
    (h : l.elementAt i j = .error e) : ¬ e.BlamesMemory := by
  rcases except_bind_eq_error.1 h with h | ⟨m, -, h⟩
  · exact not_blamesMemory_of_memberAt h
  · split at h
    · split at h <;> cases h
      rintro (⟨_, ⟨⟩⟩ | ⟨_, _, _, ⟨⟩⟩)
    · cases h
      exact (blamesValue_kindMismatch ..).not_blamesMemory

/-- Found are the elements of array members, each at its distance from the first one. -/
theorem elementAt_eq_ok_iff {i j : Nat} {m : MemberLayout} {element : Shape} {offset : Nat} :
    l.elementAt i j = .ok (m, element, offset) ↔
      l.members[i]? = some m ∧ offset = m.offset + j * element.size ∧
        ∃ length, m.shape = .array element length ∧ j < length := by
  rw [elementAt, except_bind_eq_ok]
  constructor
  · rintro ⟨m', hm, h⟩
    split at h
    · rename_i element' length hshape
      split at h <;> cases h
      exact ⟨memberAt_eq_ok_iff.1 hm, rfl, length, hshape, ‹_›⟩
    · cases h
  · rintro ⟨hm, rfl, length, hshape, hj⟩
    refine ⟨m, memberAt_eq_ok_iff.2 hm, ?_⟩
    simp only [hshape, if_pos hj]

/-- All accesses to a record at the start of a view stay within the record. -/
structure Confines (l : Layout) (view : View) : Prop where
  /-- The record is read, and so is every member and every element of an array. -/
  read : ∃ r, l.read view = .ok r
  get : ∀ i < l.members.length, ∃ y, l.get view i = .ok y
  getElement : ∀ i m element length, l.members[i]? = some m → m.shape = .array element length →
    ∀ j < length, ∃ y, l.getElement view i j = .ok y
  /-- Whatever the value, its writing does not fail because of the memory. -/
  write : ∀ zeroFill r e, (l.write zeroFill r view).1 = .error e → ¬ e.BlamesMemory
  set : ∀ i x e, ((l.set i x).run view).1 = .error e → ¬ e.BlamesMemory
  setElement : ∀ i j x e, ((l.setElement i j x).run view).1 = .error e → ¬ e.BlamesMemory
  /-- Every place that the recursion comes by lies within the record, and what is read for the path
  to it is read there. -/
  places : ∀ path place, Place.at? ⟨l.slot, 0⟩ path = some place →
    place.offset + place.slot.size ≤ l.size ∧
      ∃ r y, l.read view = .ok r ∧ (Value.record r).at? path = some y ∧
        place.slot.read view l.size place.offset = .ok y

variable {platform : Platform} {v : View}

theorem exists_read (h : v.Readable platform) (hs : l.Sound platform) (hsize : l.size ≤ v.size) :
    ∃ r, l.read v = .ok r := by
  obtain ⟨y, hy⟩ := Shape.exists_read h hs (Nat.le_of_eq (Nat.zero_add l.size)) hsize
  have hread := l.read_slot v
  rw [slot, Slot.read_plain, hy] at hread
  cases hl : l.read v with
  | ok r => exact ⟨r, rfl⟩
  | error e => rw [hl] at hread; cases hread

theorem exists_get (h : v.Readable platform) (hs : l.Sound platform) (hsize : l.size ≤ v.size)
    {i : Nat} (hi : i < l.members.length) : ∃ y, l.get v i = .ok y := by
  obtain ⟨hplaced, hmembers⟩ := sound_iff.1 hs
  have hm : l.members[i] ∈ l.members := List.getElem_mem hi
  have hwithin := hplaced.within _ hm
  obtain ⟨y, hy⟩ := (l.members[i]).exists_read h (hplaced.bits _ hm) (hmembers _ hm)
    (by rwa [Nat.zero_add]) hsize
  refine ⟨y, ?_⟩
  rw [get, memberAt_eq_ok_iff.2 (List.getElem?_eq_getElem hi)]
  exact hy

/-- An element that is found lies within the record. -/
theorem elementAt_within (hs : l.Sound platform) {i j : Nat} {m : MemberLayout} {element : Shape}
    {offset : Nat} (h : l.elementAt i j = .ok (m, element, offset)) :
    element.Sound platform ∧ offset + element.size ≤ l.size := by
  obtain ⟨hplaced, hmembers⟩ := sound_iff.1 hs
  obtain ⟨hm, rfl, length, hshape, hj⟩ := elementAt_eq_ok_iff.1 h
  have hmem := List.mem_of_getElem? hm
  have hsound := hmembers m hmem
  have hwithin := hplaced.within m hmem
  rw [MemberLayout.length, hshape, Shape.size] at hwithin
  rw [hshape] at hsound
  cases hsound with
  | array hsound => exact ⟨hsound, Nat.le_trans (item_stop_le hj m.offset element.size) hwithin⟩

theorem exists_getElement (h : v.Readable platform) (hs : l.Sound platform)
    (hsize : l.size ≤ v.size) {i j : Nat} {m : MemberLayout} {element : Shape} {length : Nat}
    (hm : l.members[i]? = some m) (hshape : m.shape = .array element length) (hj : j < length) :
    ∃ y, l.getElement v i j = .ok y := by
  have hfound := elementAt_eq_ok_iff.2 ⟨hm, rfl, length, hshape, hj⟩
  obtain ⟨hsound, hwithin⟩ := elementAt_within hs hfound
  rw [getElement, hfound]
  exact Shape.exists_read h hsound hwithin hsize

theorem set_spares (h : v.Writable platform) (hs : l.Sound platform) (hsize : l.size ≤ v.size)
    (i : Nat) (x : Value) : (l.set i x).Spares v := by
  refine .lift_bind (fun _ => not_blamesMemory_of_memberAt) fun m hm => ?_
  have hmem := List.mem_of_getElem? (memberAt_eq_ok_iff.1 hm)
  exact (writeMember_decides h hs hsize hmem x).spares

theorem setElement_spares (h : v.Writable platform) (hs : l.Sound platform)
    (hsize : l.size ≤ v.size) (i j : Nat) (x : Value) : (l.setElement i j x).Spares v := by
  refine .lift_bind (fun _ => not_blamesMemory_of_elementAt) fun ⟨m, element, offset⟩ hfound => ?_
  obtain ⟨hsound, hwithin⟩ := elementAt_within hs hfound
  have hdecides := Slot.write_decides h hsound.slot m.name hwithin hsize x
  rw [Slot.write_plain] at hdecides
  exact hdecides.spares

/-- **Nothing that is done with a record runs past its end or the end of the memory,** on every view
with the platform's pointer width that is long enough and in which no access is made to fail,
whatever it holds and whatever value is written. -/
theorem confines {config : Config} (hvalid : config.validate = .ok ()) (hbuilt : Built config l)
    {view : View} (hview : view.Writable config.platform) (hsize : l.size ≤ view.size) :
    l.Confines view := by
  have hs := hbuilt.sound (Config.usable_of_validate hvalid)
  have hpadding := hbuilt.constructed.surveyed.stop_padding_le
  obtain ⟨r, hr⟩ := exists_read hview.toReadable hs hsize
  refine ⟨⟨r, hr⟩, ?_, ?_, ?_, ?_, ?_, ?_⟩
  · exact fun i hi => exists_get hview.toReadable hs hsize hi
  · exact fun i m element length hm hshape j hj =>
      exists_getElement hview.toReadable hs hsize hm hshape hj
  · exact fun zeroFill r => (write_decides hview hs hpadding hsize zeroFill r).spares
  · exact fun i x => set_spares hview hs hsize i x
  · exact fun i j x => setElement_spares hview hs hsize i j x
  · intro path place hpath
    have hwithin := (Place.within_at? hs.slot hpath).2.2
    have hslot : l.slot.read view l.size 0 = .ok (.record r) := by rw [read_slot, hr]; rfl
    obtain ⟨y, hy, hread⟩ := Place.read_at? (q := ⟨l.slot, 0⟩) hs.slot hslot hpath
    refine ⟨?_, r, y, hr, hy, hread⟩
    rwa [Nat.zero_add] at hwithin

end Layout

/-- The second item of the row in the record has its number behind a gap. -/
theorem confines_overlaid :
    (Place.at? ⟨overlaidLayout.slot, 0⟩ [.field "row", .field "items", .item 1, .field "b"]).map
        (·.offset) = some 6 ∧
      overlaidLayout.Confines overlaidView :=
  ⟨rfl, Layout.confines (show Config.standard.validate = .ok () by decide) built_overlaid
    writable_overlaid (show 24 ≤ overlaidView.size from Nat.le_refl 24)⟩

end NativeRecord
