import NativeRecord.Proofs.Transfer.Places

/-!
# The address of a record

What a write does to the memory does not depend on where the memory lies.  Of the address, only what
a failure reports does.

An embedded record is written at an offset in the view of the record around it, while the same
record can also be written through a view of its own, at offset zero.  The two differ in the address
that they report when something goes wrong, and in nothing else.  To say so, a run from a view is
compared with a run from the view moved elsewhere.  `Comparison.moved` is that comparison, so the
lemmas about steps in a row come from the general ones; what is to be shown is that single accesses
do not look at the address, and that naming a record in an error touches only the error.

## What is here

* `View.moveTo` — the same memory at another address.
* `Writing.Unaddressed` — steps that do the same at all addresses; `Slot.write_unaddressed` and
  `zeroSpans_unaddressed` show it of the steps of a write.
-/

set_option autoImplicit false
namespace NativeRecord

open Writing

/-! ## Moved memory

Moving changes the address of a view and none of its bytes. -/

/-- The same memory at another address. -/
def View.moveTo (v : View) (base : Address) : View := { v with base }

/-- Alike views stay alike when both are moved. -/
theorem View.Alike.moveTo {v w : View} (h : v.Alike w) (base : Address) :
    (v.moveTo base).Alike (w.moveTo base) := by
  obtain ⟨bytes, hsize, rfl⟩ := h
  exact ⟨bytes, hsize, rfl⟩

/-- A run from a view beside a run from the same view at another address, which lead to such views
again. -/
def Comparison.moved (base : Address) : Comparison (StateM View) (StateM View) where
  Rel A x y := ∀ v : View, A (x.run v).1 (y.run (v.moveTo base)).1 ∧
    (y.run (v.moveTo base)).2 = (x.run v).2.moveTo base
  pure h _ := ⟨h, rfl⟩
  bind {α β γ δ A B x y f g} hx hf v := by
    obtain ⟨hanswer, hview⟩ := hx v
    show B _ ((g (y.run (v.moveTo base)).1).run (y.run (v.moveTo base)).2).1 ∧
      ((g (y.run (v.moveTo base)).1).run (y.run (v.moveTo base)).2).2 = _
    rw [hview]
    exact hf _ _ hanswer _

namespace Writing

/-- The step succeeds, fails and writes the same wherever the memory lies.  Its failures may name
another address. -/
def Unaddressed (step : Writing Unit) : Prop :=
  ∀ base, (Comparison.moved base).Relates (fun _ _ => True) Eq step step

variable {step next : Writing Unit}

theorem unaddressed_iff :
    step.Unaddressed ↔ ∀ base (v : View),
      Outcomes (fun _ _ => True) Eq (step.run v).1 (step.run (v.moveTo base)).1 ∧
        (step.run (v.moveTo base)).2 = (step.run v).2.moveTo base := Iff.rfl

theorem Unaddressed.pure : (pure () : Writing Unit).Unaddressed := fun _ => .pure rfl

theorem Unaddressed.throw (e : TransferError) : (throw e : Writing Unit).Unaddressed :=
  fun _ => .throw trivial

theorem Unaddressed.lift_bind {α : Type} (x : Except TransferError α) {f : α → Writing Unit}
    (h : ∀ a, (f a).Unaddressed) : (liftM x >>= f : Writing Unit).Unaddressed := by
  refine fun base => .bind (.lift (A := Eq) (.self (fun _ => rfl) fun _ _ => trivial)) ?_
  rintro a _ rfl
  exact h a base

/-- Two steps in a row do the same at all addresses if both do. -/
theorem Unaddressed.bind (hstep : step.Unaddressed) (hnext : next.Unaddressed) :
    (step >>= fun _ => next).Unaddressed :=
  fun base => .bind (hstep base) fun _ _ _ => hnext base

/-- The name of a record comes with its address, which only the error shows. -/
theorem Unaddressed.within (tag : Tag) (start : Nat) (h : step.Unaddressed) :
    (within tag start step).Unaddressed := by
  refine unaddressed_iff.2 fun base v => ?_
  obtain ⟨hanswer, hview⟩ := unaddressed_iff.1 h base v
  rw [run_within, run_within]
  exact ⟨hanswer.mapError fun _ _ _ => trivial, hview⟩

/-- An access does, if it does not look at the address. -/
theorem Unaddressed.access {f : View → Except AccessError Unit × View}
    (h : ∀ (v : View) base, f (v.moveTo base) = ((f v).1, (f v).2.moveTo base)) :
    (access f).Unaddressed := by
  refine unaddressed_iff.2 fun base v => ?_
  rw [run_access, run_access, h]
  exact ⟨.self (fun _ => rfl) fun _ _ => trivial, rfl⟩

end Writing

section Moved

variable (v : View) (base : Address) (offset : Nat)

/-- Storing does not look at the address. -/
theorem View.store_moveTo (width : Nat) (w : Word) :
    (v.moveTo base).store offset width w =
      ((v.store offset width w).1, (v.store offset width w).2.moveTo base) := by
  have hcheck : (v.moveTo base).checkStore offset width = v.checkStore offset width := rfl
  rw [store, store, hcheck]
  cases v.checkStore offset width <;> rfl

theorem View.storeEach_moveTo (new : List Byte) :
    (v.moveTo base).storeEach offset new =
      ((v.storeEach offset new).1, (v.storeEach offset new).2.moveTo base) := by
  induction new generalizing v offset with
  | nil => rfl
  | cons b new ih =>
    rw [storeEach, storeEach, store_moveTo]
    rcases v.store offset 1 (b.setWidth 64) with ⟨e | ⟨⟩, w⟩
    · rfl
    · exact ih w (offset + 1)

/-- Neither does filling, in one block or byte by byte. -/
theorem View.fillBlock_moveTo (length : Nat) (b : Byte) :
    (v.moveTo base).fillBlock offset length b =
      ((v.fillBlock offset length b).1, (v.fillBlock offset length b).2.moveTo base) := by
  have hcheck : (v.moveTo base).checkSpan offset length = v.checkSpan offset length := rfl
  have hbytewise : (v.moveTo base).bytewise = v.bytewise := rfl
  rw [fillBlock, fillBlock, hbytewise, hcheck, fillEach_eq_storeEach, fillEach_eq_storeEach,
    storeEach_moveTo]
  cases v.bytewise with
  | true => rfl
  | false => cases v.checkSpan offset length <;> rfl

end Moved

/-- Replacing a range loads and stores at offsets. -/
theorem replaceBits_unaddressed (size offset : Nat) (range : BitRange) (bits : Word) :
    (replaceBits size offset range bits).Unaddressed := by
  refine .access fun v base => ?_
  have hload : (v.moveTo base).load offset size = v.load offset size := rfl
  rw [hload]
  cases v.load offset size with
  | error e => rfl
  | ok word => exact v.store_moveTo base offset size _

/-- A scalar is written alike at all addresses, a pointer too. -/
theorem writeScalar_unaddressed (field : String) (type : Scalar) (size limit offset : Nat)
    (x : Value) : (writeScalar field type size limit offset x).Unaddressed := by
  refine .lift_bind _ fun _ => .lift_bind _ fun w => ?_
  cases type with
  | arith a => exact .access fun v base => v.store_moveTo base offset size w
  | pointer target => exact .access fun v base => v.store_moveTo base offset v.pointerWidth _

theorem writeBits_unaddressed (field : String) (type : Scalar) (size limit : Nat)
    (range : BitRange) (offset : Nat) (x : Value) :
    (writeBits field type size limit range offset x).Unaddressed :=
  .lift_bind _ fun _ => .lift_bind _ fun _ => replaceBits_unaddressed size offset range _

/-- So are zeros for padding. -/
theorem zeroSpans_unaddressed (limit start : Nat) (spans : List Span) :
    (zeroSpans limit start spans).Unaddressed := by
  induction spans with
  | nil => exact .pure
  | cons s spans ih =>
    exact .lift_bind _ fun _ => .bind (.access fun v base => v.fillBlock_moveTo base _ _ _) ih

/-- **So is every value,** by induction over the shape it is written to. -/
theorem Slot.write_unaddressed {platform : Platform} {s : Slot} (hs : s.Sound platform)
    (field : String) (limit offset : Nat) (x : Value) :
    (s.write field limit offset x).Unaddressed := by
  induction hs generalizing field offset x with
  | scalar => exact writeScalar_unaddressed field _ _ limit offset x
  | bitField => exact writeBits_unaddressed field _ _ limit _ offset x
  | @record l _ _ ih =>
    cases x with
    | record r =>
      rw [write_plain, Shape.write]
      refine Layout.writeAt_induction (P := Unaddressed) .pure .throw .bind .within
        (fun h => by cases h) fun m hm x _ => ?_
      rw [m.write_slot]
      exact ih m hm _ _ x
    | _ => exact .throw _
  | @array element length _ ih =>
    cases x with
    | array items =>
      rw [write_plain, Shape.write]
      split
      · refine writeItems_induction (P := Unaddressed) .pure .bind fun i x _ => ?_
        rw [← write_plain]
        exact ih field _ x
      · exact .throw _
    | _ => exact .throw _

end NativeRecord
