import NativeRecord.Proofs.Transfer.Places

/-!
# Bits that a write assigns

That a step is confined to some bits bounds what it sets from above, and a step that does nothing is
confined to every set of bits.  This module bounds it from below: a step that succeeds sets all bits
of the scalars that the value has parts for, whatever they were before.

The two bounds cannot be one relation that is weakened on the way: confinement is kept when bits
come in, and assignment when they go.  So where confinement proves everything for one set of bits
that is large enough, here two steps in a row assign the bits of the first and those of the second,
and the set grows along the recursion.  Only success is asked for, because a step that fails may
have stopped anywhere; what a failing write has assigned is found from the part of it that
succeeded.

## What is here

* `Writing.Sets.isSome_of_sets` — two patches for one step have the same bits in the view.
* `Writing.Assigns` — if the step succeeds, it sets all of the given bits; single accesses do
  (`store_assigns`, `replaceBits_assigns`, `fillBlock_assigns`), and rows of steps.
* `Place.Reached` — the bits of the scalars that a value has parts for; `Slot.write_assigns` — a
  write that succeeds sets all of them.
-/

set_option autoImplicit false
namespace NativeRecord

open NativeRecord.Span (Covers)
open Writing

/-! ## Steps

The patch of a step is not unique outside of the view, but inside it is.  So once a step is known to
set a bit by one patch, it does by every other one that describes it. -/

namespace Writing

variable {step next : Writing Unit} {v w : View} {S T : Nat → Prop}
  {answer answer' : Except TransferError Unit} {f g : Patch}

/-- **Two patches that describe one step have the same bits in the view.** -/
theorem Sets.isSome_of_sets (h : step.Sets v answer g) (h' : step.Sets v answer' f) {p : Nat}
    (hp : p < 8 * v.size) (hf : (f p).isSome) : (g p).isSome := by
  obtain ⟨b, hb⟩ := Option.isSome_iff_exists.1 hf
  -- If only `f` sets this bit, the two patches differ on a view with the other bit there.
  let flip : Patch := fun q => if q = p then some !b else none
  have hflip : (v.patch flip).bit p = !b := by rw [View.bit_patch flip hp]; simp [flip]
  have hp' : p < 8 * (v.patch flip).size := by rwa [View.size_patch]
  have hrun := (h' _ (v.alike_patch flip)).symm.trans (h _ (v.alike_patch flip))
  have hbit : ((v.patch flip).patch f).bit p = ((v.patch flip).patch g).bit p :=
    congrArg (fun result => result.2.bit p) hrun
  rw [View.bit_patch f hp', View.bit_patch g hp', hb, hflip] at hbit
  cases hg : g p with
  | some b' => rfl
  | none => rw [hg] at hbit; cases b <;> cases hbit

/-- If the step succeeds on a view that differs from `v` in its content at most, then all of these
bits lie in the view, and the step sets them. -/
def Assigns (step : Writing Unit) (v : View) (bits : Nat → Prop) : Prop :=
  ∀ u w, v.Alike u → step.run u = (.ok (), w) →
    ∃ f, step.Sets v (.ok ()) f ∧ ∀ p, bits p → p < 8 * v.size ∧ (f p).isSome

/-- Fewer bits are assigned as well. -/
theorem Assigns.mono (h : step.Assigns v S) (hTS : ∀ p, T p → S p) : step.Assigns v T := by
  intro u w hu hrun
  obtain ⟨f, hsets, hf⟩ := h u w hu hrun
  exact ⟨f, hsets, fun p hp => hf p (hTS p hp)⟩

/-- Steps that do the same to all these views assign the same bits. -/
theorem Assigns.congr (h : step.Assigns v S) (hrun : ∀ w, v.Alike w → next.run w = step.run w) :
    next.Assigns v S := by
  intro u w hu hnext
  obtain ⟨f, hsets, hf⟩ := h u w hu ((hrun u hu).symm.trans hnext)
  exact ⟨f, fun w hw => (hrun w hw).trans (hsets w hw), hf⟩

/-- A step that does nothing assigns nothing. -/
theorem Assigns.pure : (pure () : Writing Unit).Assigns v fun _ => False :=
  fun _ _ _ _ => ⟨.empty, fun w _ => by rw [View.patch_empty]; rfl, fun _ => False.elim⟩

/-- A step that fails assigns whatever is asked for, since it never succeeds. -/
theorem Assigns.throw (e : TransferError) : (throw e : Writing Unit).Assigns v S :=
  fun _ _ _ hrun => nomatch hrun

theorem Assigns.lift_bind {α : Type} {x : Except TransferError α} {f : α → Writing Unit}
    (h : ∀ a, x = .ok a → (f a).Assigns v S) : (liftM x >>= f : Writing Unit).Assigns v S := by
  cases x with
  | error e => exact .throw e
  | ok a => exact h a rfl

/-- **Two steps in a row assign the bits of the first and those of the second.** -/
theorem Assigns.bind (hstep : step.Assigns v S) (hnext : next.Assigns v T) :
    (step >>= fun _ => next).Assigns v fun p => S p ∨ T p := by
  intro u w hu hrun
  obtain ⟨⟨⟩, t, hstep', hnext'⟩ := run_bind_eq_ok.1 hrun
  obtain ⟨f, hsets, hf⟩ := hstep u t hu hstep'
  have ht : v.Alike t := by
    rw [hsets u hu] at hstep'
    cases hstep'
    exact hu.trans (u.alike_patch f)
  obtain ⟨g, hsets', hg⟩ := hnext t w ht hnext'
  refine ⟨f.andThen g, hsets.bind hsets', fun p hp => ?_⟩
  rw [Patch.isSome_andThen]
  rcases hp with hp | hp
  · exact ⟨(hf p hp).1, .inl (hf p hp).2⟩
  · exact ⟨(hg p hp).1, .inr (hg p hp).2⟩

/-- The report of a record changes the failures only. -/
theorem Assigns.within (tag : Tag) (start : Nat) (h : step.Assigns v S) :
    (within tag start step).Assigns v S := by
  intro u w hu hrun
  rw [run_within] at hrun
  rcases hstep : step.run u with ⟨e | ⟨⟩, t⟩
  · rw [hstep] at hrun
    cases hrun
  · obtain ⟨f, hsets, hf⟩ := h u t hu hstep
    exact ⟨f, hsets.within tag start, hf⟩

/-- **What the first of two steps assigns, they set together,** also when the second one fails. -/
theorem Assigns.exists_sets_bind (hstep : step.Assigns v S) (hnext : next.Confined v T)
    (hrun : step.run v = (.ok (), w)) :
    ∃ answer f, (step >>= fun _ => next).Sets v answer f ∧
      ∀ p, S p → p < 8 * v.size ∧ (f p).isSome := by
  obtain ⟨f, hf, hS⟩ := hstep v w (.refl v) hrun
  obtain ⟨answer, g, hg, -⟩ := hnext
  refine ⟨answer, f.andThen g, hf.bind hg, fun p hp => ?_⟩
  exact ⟨(hS p hp).1, Patch.isSome_andThen.2 (.inl (hS p hp).2)⟩

end Writing

/-! ## Rows of steps

By induction over the row, with `Assigns.bind` for one more step. -/

theorem writeItems_assigns {v : View} {S : Nat → Value → Nat → Prop}
    {write : Nat → Value → Writing Unit} {stride offset : Nat} {items : List Value}
    (h : ∀ i x, items[i]? = some x → (write (offset + i * stride) x).Assigns v (S i x)) :
    (writeItems write stride offset items).Assigns v fun p =>
      ∃ i x, items[i]? = some x ∧ S i x p := by
  induction items generalizing offset S with
  | nil => exact Assigns.pure.mono fun p ⟨_, _, hx, _⟩ => nomatch hx
  | cons x items ih =>
    have hfirst : (write offset x).Assigns v (S 0 x) := by simpa using h 0 x rfl
    have hbehind : ∀ i y, items[i]? = some y →
        (write (offset + stride + i * stride) y).Assigns v (S (i + 1) y) := by
      intro i y hy
      have hnext := h (i + 1) y hy
      rwa [item_offset_succ] at hnext
    have hrest := ih hbehind
    rw [writeItems]
    refine (hfirst.bind hrest).mono ?_
    rintro p ⟨i, y, hy, hp⟩
    cases i with
    | zero => cases hy; exact .inl hp
    | succ i => exact .inr ⟨i, y, hy, hp⟩

theorem writeMembers_assigns {v : View} {S : MemberLayout → Value → Nat → Prop}
    {ms : List MemberLayout} {limit start : Nat} {r : Record}
    (h : ∀ m ∈ ms, ∀ x, r.get? m.name = some x → (m.write limit start x).Assigns v (S m x)) :
    (writeMembers limit ms start r).Assigns v fun p =>
      ∃ m ∈ ms, ∃ x, r.get? m.name = some x ∧ S m x p := by
  induction ms with
  | nil => exact Assigns.pure.mono fun p ⟨_, hm, _⟩ => nomatch hm
  | cons m ms ih =>
    have hfirst : ((r.get? m.name).elim (pure ()) (m.write limit start) : Writing Unit).Assigns v
        fun p => ∃ x, r.get? m.name = some x ∧ S m x p := by
      cases hx : r.get? m.name with
      | none => exact Assigns.pure.mono fun p ⟨_, hx, _⟩ => nomatch hx
      | some x =>
        refine (h m List.mem_cons_self x hx).mono ?_
        rintro p ⟨_, ⟨⟩, hp⟩
        exact hp
    have hrest := ih fun m' hm' => h m' (List.mem_cons_of_mem _ hm')
    rw [writeMembers_cons]
    refine (hfirst.bind hrest).mono ?_
    rintro p ⟨m', hm', x, hx, hp⟩
    rcases List.mem_cons.1 hm' with rfl | hm'
    · exact .inl ⟨x, hx, hp⟩
    · exact .inr ⟨m', hm', x, hx, hp⟩

/-! ## Single accesses

A store overwrites the bits of its word one for one, so there is nothing to show but that the view
has room for the word if the store succeeds. -/

section Access

variable {v : View} {offset size : Nat}

theorem store_assigns (v : View) (offset size : Nat) (w : Word) :
    (access fun view => view.store offset size w).Assigns v (InBytes offset size) := by
  intro u t hu hrun
  rw [run_access, View.store_eq, hu.checkStore_eq] at hrun
  rcases hcheck : v.checkStore offset size with e | ⟨⟩
  · rw [hcheck] at hrun
    cases hrun
  · obtain ⟨-, hwidth, hsize⟩ := View.checkStore_eq_ok_iff.1 hcheck
    refine ⟨_, store_sets hcheck w, fun p hp => ⟨?_, isSome_word_allOnes hwidth hp⟩⟩
    exact Nat.lt_of_lt_of_le hp.2 (Nat.mul_le_mul_left 8 hsize)

theorem replaceBits_assigns (v : View) (size offset : Nat) (range : BitRange) (bits : Word) :
    (replaceBits size offset range bits).Assigns v (InRange v.endianness range offset size) := by
  intro u t hu hrun
  rw [replaceBits, run_access] at hrun
  rcases hload : u.load offset size with e | word
  · simp only [hload] at hrun
    cases hrun
  · simp only [hload, View.store_eq, hu.checkStore_eq] at hrun
    rcases hcheck : v.checkStore offset size with e | ⟨⟩
    · rw [hcheck] at hrun
      cases hrun
    · have hread : v.readFails offset = false := hu.readFails_eq ▸ (View.load_eq_ok_iff.1 hload).1
      have hsize := (View.checkStore_eq_ok_iff.1 hcheck).2.2
      refine ⟨_, replaceBits_sets hread hcheck range bits, fun p hp => ⟨?_, isSome_word_iff.2 hp⟩⟩
      exact Nat.lt_of_lt_of_le hp.1.2 (Nat.mul_le_mul_left 8 hsize)

end Access

/-! ## The bits that a value reaches -/

namespace Place

/-- The bit lies in a scalar of the place, at a path at which the value has a part. -/
def Reached (e : Endianness) (q : Place) (x : Value) (p : Nat) : Prop :=
  ∃ path part scalar, x.at? path = some part ∧ q.at? path = some scalar ∧ scalar.IsScalar ∧
    scalar.Owns e p

/-- The bit is among those that `bits` gives to a scalar of the place, at a path at which the value
has a part. -/
def ReachedBy (bits : Place → Nat → Prop) (q : Place) (x : Value) (p : Nat) : Prop :=
  ∃ path part scalar, x.at? path = some part ∧ q.at? path = some scalar ∧ scalar.IsScalar ∧
    bits scalar p

variable {e : Endianness} {bits : Place → Nat → Prop} {q part : Place} {x y : Value} {p : Nat}

/-- **A value reaches a bit of the place itself or, through one of its parts, of a part of it.** -/
theorem Reached.owns_or_part (h : q.Reached e x p) :
    q.IsScalar ∧ q.Owns e p ∨
      ∃ step y part, x.part? step = some y ∧ q.part? step = some part ∧ part.Reached e y p := by
  obtain ⟨path, part, scalar, hpart, hplace, hscalar, howns⟩ := h
  cases path with
  | nil => cases hplace; exact .inl ⟨hscalar, howns⟩
  | cons step path =>
    obtain ⟨y, hy, hpart⟩ := Option.bind_eq_some_iff.1 hpart
    obtain ⟨place, hstep, hplace⟩ := Option.bind_eq_some_iff.1 hplace
    exact .inr ⟨step, y, place, hy, hstep, path, part, scalar, hpart, hplace, hscalar, howns⟩

/-- A scalar has no parts. -/
theorem Reached.owns_of_isScalar (hq : q.IsScalar) (h : q.Reached e x p) : q.Owns e p := by
  rcases h.owns_or_part with ⟨-, howns⟩ | ⟨step, y, part, -, hpart, -⟩
  · exact howns
  · obtain ⟨⟨shape, bits⟩, offset⟩ := q
    obtain ⟨type, size, alignment, hshape⟩ := hq
    cases hshape
    cases step <;> cases hpart

/-- What a record's value reaches, it reaches through an entry for a member. -/
theorem Reached.exists_member {l : Layout} {r : Record} {bits : Option BitRange} {offset : Nat}
    (h : Reached e ⟨⟨.record l, bits⟩, offset⟩ (.record r) p) :
    ∃ m ∈ l.members, ∃ y, r.get? m.name = some y ∧ Reached e ⟨m.slot, offset + m.offset⟩ y p := by
  rcases h.owns_or_part with ⟨⟨_, _, _, ⟨⟩⟩, -⟩ | ⟨step, y, part, hy, hpart, hreached⟩
  cases step with
  | item i => cases hpart
  | field name =>
    obtain ⟨m, hm, rfl⟩ := Option.map_eq_some_iff.1 hpart
    have hname : m.name = name := by simpa using List.find?_some hm
    exact ⟨m, List.mem_of_find?_eq_some hm, y, hname ▸ hy, hreached⟩

/-- What an array's value reaches, it reaches through an item. -/
theorem Reached.exists_item {element : Shape} {length : Nat} {items : List Value}
    {bits : Option BitRange} {offset : Nat}
    (h : Reached e ⟨⟨.array element length, bits⟩, offset⟩ (.array items) p) :
    ∃ i y, items[i]? = some y ∧
      Reached e ⟨⟨element, none⟩, offset + i * element.size⟩ y p := by
  rcases h.owns_or_part with ⟨⟨_, _, _, ⟨⟩⟩, -⟩ | ⟨step, y, part, hy, hpart, hreached⟩
  cases step with
  | field name => cases hpart
  | item i =>
    obtain ⟨-, hpart⟩ := Option.ite_none_right_eq_some.1 hpart
    cases hpart
    exact ⟨i, y, hy, hreached⟩

/-- What is reached lies in a scalar of the place, whatever the value is. -/
theorem Reached.holds (h : q.Reached e x p) : q.Holds e p := by
  obtain ⟨path, _, scalar, -, hscalar⟩ := h
  exact ⟨path, scalar, hscalar⟩

theorem ReachedBy.here (hq : q.IsScalar) (hbits : bits q p) : q.ReachedBy bits x p :=
  ⟨[], x, q, rfl, rfl, hq, hbits⟩

theorem ReachedBy.of_part {step : Step} (hx : x.part? step = some y)
    (hq : q.part? step = some part) (h : part.ReachedBy bits y p) : q.ReachedBy bits x p := by
  obtain ⟨path, z, scalar, hz, hscalar, hbits⟩ := h
  exact ⟨step :: path, z, scalar, Option.bind_eq_some_iff.2 ⟨y, hx, hz⟩,
    Option.bind_eq_some_iff.2 ⟨part, hq, hscalar⟩, hbits⟩

end Place

/-! ## Whole writes

By induction over the shape.  A record or an array is a row of steps, one for each part that the
value has, and the bits that the value reaches are those that its parts do. -/

section Write

variable {platform : Platform} {v : View}

theorem writeScalar_assigns (hpointers : v.pointerWidth = platform.pointerWidth) (field : String)
    (type : Scalar) (limit offset : Nat) (x : Value) :
    (writeScalar field type (type.size platform) limit offset x).Assigns v
      (InBytes offset (type.size platform)) := by
  refine Assigns.congr ?_ fun w hw => writeScalar_run (hw.pointerWidth_eq.trans hpointers)
  exact .lift_bind fun _ _ => .lift_bind fun w _ => store_assigns v offset _ w

theorem Layout.writeAt_assigns {S : MemberLayout → Value → Nat → Prop} {l : Layout}
    {limit start : Nat} {r : Record}
    (h : ∀ m ∈ l.members, ∀ x, r.get? m.name = some x → (m.write limit start x).Assigns v (S m x)) :
    (l.writeAt limit false start r).Assigns v fun p =>
      ∃ m ∈ l.members, ∃ x, r.get? m.name = some x ∧ S m x p := by
  rw [Layout.writeAt_eq]
  refine .within _ _ ?_
  split
  · exact .throw _
  · exact writeMembers_assigns h

/-- **A write that succeeds sets all bits of the scalars that the value has parts for,** at every
depth. -/
theorem Slot.write_assigns (hpointers : v.pointerWidth = platform.pointerWidth) {s : Slot}
    (hs : s.Sound platform) (field : String) (limit offset : Nat) (x : Value) :
    (s.write field limit offset x).Assigns v (Place.Reached v.endianness ⟨s, offset⟩ x) := by
  induction hs generalizing field offset x with
  | @scalar type alignment _ =>
    refine (writeScalar_assigns hpointers field type limit offset x).mono fun p hp => ?_
    exact (hp.owns_of_isScalar ⟨_, _, _, rfl⟩).1
  | @bitField a alignment range _ _ _ _ =>
    have hbits : (writeBits field (.arith a) (a.size platform) limit range offset x).Assigns v
        (InRange v.endianness range offset (a.size platform)) :=
      .lift_bind fun _ _ => .lift_bind fun bits _ => replaceBits_assigns v _ offset range bits
    refine hbits.mono fun p hp => ?_
    obtain ⟨hin, hrange⟩ := hp.owns_of_isScalar ⟨_, _, _, rfl⟩
    exact ⟨hin, hrange range rfl⟩
  | @record l hplaced _ ih =>
    cases x with
    | record r =>
      rw [write_plain, Shape.write]
      refine (Layout.writeAt_assigns fun m hm x _ => ?_).mono fun p hp => hp.exists_member
      rw [m.write_slot]
      exact ih m hm m.name (offset + m.offset) x
    | _ => exact .throw _
  | @array element length _ ih =>
    cases x with
    | array items =>
      rw [write_plain, Shape.write]
      split
      · refine (writeItems_assigns fun i x _ => ?_).mono fun p hp => hp.exists_item
        rw [← write_plain]
        exact ih field (offset + i * element.size) x
      · exact .throw _
    | _ => exact .throw _

end Write

/-! ## Padding

Zeroing a span sets its bits too, which a value never does.  Filled in one piece, it is one patch;
byte by byte, it is a row of stores. -/

/-- Storing bytes one by one is a step for the first and a step for the others. -/
theorem run_storeEach_cons (offset : Nat) (b : Byte) (new : List Byte) (v : View) :
    (access fun view => view.storeEach offset (b :: new)).run v =
      ((access fun view => view.store offset 1 (b.setWidth 64)) >>= fun _ =>
        access fun view => view.storeEach (offset + 1) new : Writing Unit).run v := by
  rw [run_bind, run_access, run_access, View.storeEach]
  rcases v.store offset 1 (b.setWidth 64) with ⟨e | ⟨⟩, u⟩
  · rfl
  · exact (run_access (fun view => view.storeEach (offset + 1) new) u).symm

theorem storeEach_assigns (v : View) (offset : Nat) (new : List Byte) :
    (access fun view => view.storeEach offset new).Assigns v (InBytes offset new.length) := by
  induction new generalizing offset with
  | nil =>
    refine (Assigns.pure.congr fun _ _ => rfl).mono fun p hp => ?_
    rw [InBytes, List.length_nil] at hp
    omega
  | cons b new ih =>
    have hboth := (store_assigns v offset 1 (b.setWidth 64)).bind (ih (offset + 1))
    refine (hboth.congr fun w _ => run_storeEach_cons offset b new w).mono fun p hp => ?_
    rw [InBytes, List.length_cons] at hp
    rw [InBytes, InBytes]
    omega

/-- Where blocks are not moved in one piece, filling is storing byte by byte. -/
theorem run_fillBlock_of_bytewise {v : View} (h : v.bytewise = true) (offset length : Nat)
    (b : Byte) : (access fun view => view.fillBlock offset length b).run v =
      (access fun view => view.storeEach offset (List.replicate length b)).run v := by
  rw [run_access, run_access, View.fillBlock, h, if_pos rfl, View.fillEach_eq_storeEach]

/-- Where they are, a run that lies in the view is filled by one patch. -/
theorem fillBlock_sets {v : View} (h : v.bytewise = false) {offset length : Nat}
    (hsize : offset + length ≤ v.size) (b : Byte) :
    (access fun view => view.fillBlock offset length b).Sets v (.ok ())
      (.bytes offset (List.replicate length b)) := by
  refine access_sets (.ok ()) fun w hw => ?_
  rw [View.fillBlock, hw.bytewise_eq, h, hw.checkSpan_eq, View.checkSpan_eq_ok_iff.2 hsize,
    ← View.put_eq (by rwa [List.length_replicate, hw.size_eq])]
  rfl

theorem fillBlock_assigns (v : View) (offset length : Nat) (b : Byte) :
    (access fun view => view.fillBlock offset length b).Assigns v (InBytes offset length) := by
  cases hbytewise : v.bytewise with
  | true =>
    have heach := storeEach_assigns v offset (List.replicate length b)
    rw [List.length_replicate] at heach
    exact heach.congr fun w hw =>
      run_fillBlock_of_bytewise (hw.bytewise_eq.trans hbytewise) offset length b
  | false =>
    intro u w hu hrun
    rw [run_access, View.fillBlock, hu.bytewise_eq, hbytewise, hu.checkSpan_eq] at hrun
    rcases hcheck : v.checkSpan offset length with e | ⟨⟩
    · rw [hcheck] at hrun
      cases hrun
    · have hsize := View.checkSpan_eq_ok_iff.1 hcheck
      refine ⟨_, fillBlock_sets hbytewise hsize b, fun p hp => ⟨?_, ?_⟩⟩
      · exact Nat.lt_of_lt_of_le hp.2 (Nat.mul_le_mul_left 8 hsize)
      · rwa [isSome_bytes_iff, List.length_replicate]

theorem zeroSpans_assigns (v : View) (limit start : Nat) (spans : List Span) :
    (zeroSpans limit start spans).Assigns v fun p =>
      start ≤ p / 8 ∧ Covers spans (p / 8 - start) := by
  induction spans with
  | nil => exact Assigns.pure.mono fun p hp => Span.not_covers_nil _ hp.2
  | cons s spans ih =>
    rw [zeroSpans]
    refine .lift_bind fun _ _ => ((fillBlock_assigns v _ _ 0).bind ih).mono fun p hp => ?_
    rcases Span.covers_cons.1 hp.2 with hs | hrest
    · left
      rw [Span.mem_def, Span.stop] at hs
      rw [InBytes]
      omega
    · exact .inr ⟨hp.1, hrest⟩

end NativeRecord
