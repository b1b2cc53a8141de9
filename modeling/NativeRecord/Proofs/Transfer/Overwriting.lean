import NativeRecord.Proofs.Layout.Coverage
import NativeRecord.Proofs.Transfer.Addresses
import NativeRecord.Proofs.Transfer.Assignment

/-!
# Writing as overwriting

A write sets some bits and leaves the others alone.  Neither which bits it sets nor their new values
depend on what the memory held before or on the address of the record.

The bits are bounded from both sides.  From above, a write is confined to the bits of the scalars
that the value has parts for (`Place.Reached`); from below, it assigns all of them if it succeeds
(`Slot.write_assigns`).  Both are said of a record and the members before an index, so that they can
be used of a write that fails as well: what comes before the failing member was written
successfully, and of what comes behind it nothing was.

The patch itself is not computed.  It exists because a step that is confined to some bits and does
not look at the content or the address sets the same bits with the same values everywhere
(`Confined.sets_moved`), and a layout that builds is written by such steps.

## What is here

* `Writing.Sets.subset`, `Writing.Confined.sets_moved` — the bits that a step sets, from what it is
  confined to, and the same bits at every address.
* `Slot.write_reachedBy` — a write sets the bits that single scalars are written to;
  `Slot.write_reached` — it sets no others than those of the scalars that the value has parts for.
* `Layout.Footprint`, `Layout.FailsAt` — the bits that the members before an index may be written
  to, with the padding; and where a write fails.
* `Layout.writeBefore_assigns`, `Layout.isSome_of_writeBefore` — what was written before an index is
  set in full, also if the write fails at a later member.
* `Layout.Overwrites`, `Layout.write_overwrites` — writing a record is overwriting bits.
-/

set_option autoImplicit false
namespace NativeRecord

open NativeRecord.Span (Covers)
open Writing

/-! ## The bits that a step sets

A patch gives the new values of the bits that it is about.  `Sets` says of a step that it overwrites
a view, and all views that are like it, by a patch. -/

namespace Writing

variable {step : Writing Unit} {v w : View} {S : Nat → Prop} {answer : Except TransferError Unit}
  {f : Patch}

/-- **What a step sets lies among any bits that it is confined to.** -/
theorem Sets.subset (h : step.Sets v answer f) (hconfined : step.Confined v S) {p : Nat}
    (hp : p < 8 * v.size) (hf : (f p).isSome) : S p := by
  obtain ⟨answer', g, hsets, hS⟩ := hconfined
  exact hS p (hsets.isSome_of_sets h hp hf)

/-- A step does nothing when it is made again. -/
theorem Sets.run_again (h : step.Sets v answer f) : step.run (step.run v).2 = step.run v := by
  rw [h v (.refl v), h _ (v.alike_patch f), View.patch_patch]
  congr 2
  funext p
  rw [Patch.andThen, Option.or_self]

/-- A patch is one for all views that are alike. -/
theorem Sets.of_alike (h : step.Sets v answer f) (hvw : v.Alike w) : step.Sets w answer f :=
  fun u hu => h u (hvw.trans hu)

/-- **A step that is nowhere affected by the content or the address sets the same bits at all
addresses.** -/
theorem Confined.sets_moved (h : ∀ base, step.Confined (v.moveTo base) S)
    (hstep : step.Unaddressed) :
    ∃ f : Patch, (∀ p, (f p).isSome → p < 8 * v.size) ∧
      ∀ base, ∃ answer, step.Sets (v.moveTo base) answer f := by
  obtain ⟨answer, g, hsets, -⟩ := h v.base
  refine ⟨fun p => if p < 8 * v.size then g p else none, fun p hp => ?_, fun base => ?_⟩
  · by_contra hge
    simp [hge] at hp
  · obtain ⟨answer', g', hsets', -⟩ := h base
    refine ⟨answer', fun w hw => ?_⟩
    have hback : v.Alike (w.moveTo v.base) := hw.moveTo v.base
    have hreturn : (w.moveTo v.base).moveTo base = w := by obtain ⟨bytes, -, rfl⟩ := hw; rfl
    have hview : (step.run w).2 = w.patch g := by
      have hmoved := (unaddressed_iff.1 hstep base (w.moveTo v.base)).2
      rw [hsets _ hback, hreturn] at hmoved
      rw [hmoved, ← hreturn]
      rfl
    have hwithin : w.patch g = w.patch fun p => if p < 8 * v.size then g p else none := by
      refine View.eq_patch (w.alike_patch g) fun p hp => ?_
      have hsize : w.size = v.size := hw.size_eq
      rw [View.bit_patch g hp, if_pos (hsize ▸ hp)]
    rw [hsets' w hw] at hview ⊢
    exact congrArg (Prod.mk answer') (hview.trans hwithin)

end Writing

/-! ## The bits that a value reaches

The induction over the shape is done once, for any assignment of bits to scalars: what a scalar may
be written to is given as a hypothesis.  It is used with the bits that a scalar owns, when pointers
have the width of the view. -/

section Reached

variable {platform : Platform} {v : View}

/-- **A write sets the bits that scalars are written to, and of those only the ones of scalars that
the value has parts for,** wherever it fails. -/
theorem Slot.write_reachedBy {bits : Place → Nat → Prop}
    (hscalar : ∀ q : Place, q.IsScalar → q.slot.Sound platform → ∀ field limit x,
      (q.slot.write field limit q.offset x).Confined v (bits q))
    {s : Slot} (hs : s.Sound platform) (field : String) (limit offset : Nat) (x : Value) :
    (s.write field limit offset x).Confined v (Place.ReachedBy bits ⟨s, offset⟩ x) := by
  induction hs generalizing field offset x with
  | @scalar type alignment hwidth =>
    let q : Place := ⟨⟨.scalar type (type.size platform) alignment, none⟩, offset⟩
    have hq : q.IsScalar := ⟨_, _, _, rfl⟩
    exact (hscalar q hq (.scalar hwidth) field limit x).mono fun p hp => .here hq hp
  | @bitField a alignment range hwidth htype hpos hfits =>
    let q : Place := ⟨⟨.scalar (.arith a) (a.size platform) alignment, some range⟩, offset⟩
    have hq : q.IsScalar := ⟨_, _, _, rfl⟩
    have hs : q.slot.Sound platform := .bitField hwidth htype hpos hfits
    exact (hscalar q hq hs field limit x).mono fun p hp => .here hq hp
  | @record l hplaced _ ih =>
    cases x with
    | record r =>
      rw [write_plain, Shape.write]
      refine Layout.writeAt_confined (fun h => by cases h) fun m hm x hx => ?_
      rw [m.write_slot]
      refine (ih m hm _ _ x).mono fun p hp => ?_
      exact .of_part (show (Value.record r).part? (.field m.name) = _ from hx)
        (Place.part?_field hplaced hm none offset) hp
    | _ => exact .throw _
  | @array element length _ ih =>
    cases x with
    | array items =>
      rw [write_plain, Shape.write]
      split
      · rename_i hlength
        refine writeItems_confined fun i x hx => ?_
        rw [← write_plain]
        have hi : i < length := hlength ▸ (List.getElem?_eq_some_iff.1 hx).1
        refine (ih field _ x).mono fun p hp => ?_
        exact .of_part (show (Value.array items).part? (.item i) = _ from hx)
          (Place.part?_item hi none offset) hp
      · exact .throw _
    | _ => exact .throw _

/-- A scalar is written to its own bits; a pointer, if it has the width of the view's pointers. -/
theorem Place.write_owns {q : Place} (hq : q.IsScalar)
    (hpointers : q.IsPointer → v.pointerWidth = platform.pointerWidth)
    (hs : q.slot.Sound platform) (field : String) (limit : Nat) (x : Value) :
    (q.slot.write field limit q.offset x).Confined v (q.Owns v.endianness) := by
  obtain ⟨s, offset⟩ := q
  cases hs with
  | @scalar type =>
    cases type with
    | arith a =>
      exact .lift_bind fun _ _ => .lift_bind fun _ _ =>
        (store_confined ..).mono fun p hp => ⟨hp, nofun⟩
    | pointer target =>
      have hwidth := hpointers ⟨_, _, _, rfl⟩
      exact (writeScalar_confined hwidth).mono fun p hp => ⟨hp, nofun⟩
  | bitField =>
    refine (writeBits_confined ..).mono fun p hp => ⟨hp.1, ?_⟩
    rintro _ ⟨⟩
    exact hp.2
  | record | array => obtain ⟨_, _, _, ⟨⟩⟩ := hq

/-- **A write sets bits of the scalars that the value has parts for and no others,** wherever it
fails. -/
theorem Slot.write_reached (hpointers : v.pointerWidth = platform.pointerWidth) {s : Slot}
    (hs : s.Sound platform) (field : String) (limit offset : Nat) (x : Value) :
    (s.write field limit offset x).Confined v (Place.Reached v.endianness ⟨s, offset⟩ x) :=
  Slot.write_reachedBy (fun _ hq => Place.write_owns hq fun _ => hpointers) hs field limit offset x

end Reached

/-! ## Padding

Padding is zeroed by blocks, or byte by byte where there are no blocks, and is confined to its bytes
either way. -/

/-- Storing bytes one by one is confined to their run, by induction over the bytes. -/
theorem storeEach_confined (v : View) (offset : Nat) (new : List Byte) :
    (access fun view => view.storeEach offset new).Confined v (InBytes offset new.length) := by
  induction new generalizing offset with
  | nil => exact Confined.pure.congr fun _ _ => rfl
  | cons b new ih =>
    have hfirst : (access fun view => view.store offset 1 (b.setWidth 64)).Confined v
        (InBytes offset (new.length + 1)) :=
      (store_confined ..).mono fun p hp => hp.mono (Nat.le_refl _) (by omega)
    have hrest : (access fun view => view.storeEach (offset + 1) new).Confined v
        (InBytes offset (new.length + 1)) :=
      (ih (offset + 1)).mono fun p hp => hp.mono (Nat.le_add_right _ _) (by omega)
    exact (hfirst.bind hrest).congr fun w _ => run_storeEach_cons offset b new w

theorem fillBlock_confined (v : View) (offset length : Nat) (b : Byte) :
    (access fun view => view.fillBlock offset length b).Confined v (InBytes offset length) := by
  cases hbytewise : v.bytewise with
  | true =>
    have heach := storeEach_confined v offset (List.replicate length b)
    rw [List.length_replicate] at heach
    exact heach.congr fun w hw =>
      run_fillBlock_of_bytewise (hw.bytewise_eq.trans hbytewise) offset length b
  | false =>
    rcases hcheck : v.checkSpan offset length with e | ⟨⟩
    · refine access_confined_of_error e fun w hw => ?_
      rw [View.fillBlock, hw.bytewise_eq, hbytewise, hw.checkSpan_eq, hcheck]
      rfl
    · have hsize := View.checkSpan_eq_ok_iff.1 hcheck
      refine ⟨_, _, fillBlock_sets hbytewise hsize b, fun p hp => ?_⟩
      rwa [isSome_bytes_iff, List.length_replicate] at hp

/-- Zeroing spans is confined to the bytes in them. -/
theorem zeroSpans_confined (v : View) (limit start : Nat) (spans : List Span) :
    (zeroSpans limit start spans).Confined v fun p =>
      start ≤ p / 8 ∧ Covers spans (p / 8 - start) := by
  induction spans with
  | nil => exact .pure
  | cons s spans ih =>
    rw [zeroSpans]
    refine .lift_bind fun _ _ => .bind ((fillBlock_confined ..).mono fun p hp => ?_)
      (ih.mono fun p hp => ⟨hp.1, Span.covers_cons.2 (.inr hp.2)⟩)
    rw [InBytes] at hp
    refine ⟨by omega, Span.covers_cons.2 (.inl ?_)⟩
    rw [Span.mem_def, Span.stop]
    omega

/-! ## Records

A record is written member by member.  To speak of a write that fails, the part of it before an
index is a step of its own, `writeBefore`, with the padding in front. -/

/-- Members are written one after the other, so those of two lists are. -/
theorem writeMembers_append (limit start : Nat) (ms ns : List MemberLayout) (r : Record) :
    writeMembers limit (ms ++ ns) start r =
      writeMembers limit ms start r >>= fun _ => writeMembers limit ns start r := by
  induction ms with
  | nil => rfl
  | cons m ms ih => rw [List.cons_append, writeMembers_cons, writeMembers_cons, ih, bind_assoc]

namespace Layout

/-- Zeroes the padding if asked for, then writes the members before an index. -/
def writeBefore (l : Layout) (zeroFill : Bool) (r : Record) (k : Nat) : Writing Unit := do
  if zeroFill then zeroSpans l.size 0 l.padding
  writeMembers l.size (l.members.take k) 0 r

/-- The write of a record fails at the member of an index: its names are all known, its padding and
the members before this one are written, and then writing this one fails. -/
def FailsAt (l : Layout) (zeroFill : Bool) (r : Record) (v : View) (k : Nat) : Prop :=
  unknownName? l.members r = none ∧ ∃ m x w e u,
    l.members[k]? = some m ∧ r.get? m.name = some x ∧
      (l.writeBefore zeroFill r k).run v = (.ok (), w) ∧
      (m.write l.size 0 x).run w = (.error e, u)

/-- The bits that writing the members before an index may set: those of the padding if it is zeroed,
and of each of these members those that its value reaches, if the record has one. -/
def Footprint (e : Endianness) (l : Layout) (zeroFill : Bool) (r : Record) (k p : Nat) : Prop :=
  (zeroFill = true ∧ Covers l.padding (p / 8)) ∨
    ∃ i < k, ∃ m x, l.members[i]? = some m ∧ r.get? m.name = some x ∧
      Place.Reached e ⟨m.slot, m.offset⟩ x p

/-- The bits in the scalars of the member at an index. -/
def HoldsAt (e : Endianness) (l : Layout) (i p : Nat) : Prop :=
  ∃ m, l.members[i]? = some m ∧ Place.Holds e ⟨m.slot, m.offset⟩ p

variable {platform : Platform} {l : Layout} {v w : View} {zeroFill : Bool} {r : Record}

/-- With no unknown name, a write is the one of all members, with the tag in its errors. -/
theorem writeAt_known (hknown : unknownName? l.members r = none) :
    l.writeAt l.size zeroFill 0 r =
      within l.tag 0 (l.writeBefore zeroFill r l.members.length) := by
  rw [writeAt_eq, hknown, writeBefore, List.take_length]

/-- A member is written to the bits that its value reaches. -/
theorem writeMember_confined (hpointers : v.pointerWidth = platform.pointerWidth)
    (h : l.Sound platform) {m : MemberLayout} (hm : m ∈ l.members) (x : Value) :
    (m.write l.size 0 x).Confined v (Place.Reached v.endianness ⟨m.slot, m.offset⟩ x) := by
  rw [m.write_slot, Nat.zero_add]
  cases h.slot with
  | record _ hmembers => exact Slot.write_reached hpointers (hmembers m hm) ..

/-- From above: what is written before an index lies in the footprint up to it. -/
theorem writeBefore_confined (hpointers : v.pointerWidth = platform.pointerWidth)
    (h : l.Sound platform) (zeroFill : Bool) (r : Record) (k : Nat) :
    (l.writeBefore zeroFill r k).Confined v (l.Footprint v.endianness zeroFill r k) := by
  have hmembers : (writeMembers l.size (l.members.take k) 0 r).Confined v
      (l.Footprint v.endianness zeroFill r k) := by
    refine writeMembers_confined fun m hm x hx => ?_
    refine (writeMember_confined hpointers h (List.mem_of_mem_take hm) x).mono fun p hp => .inr ?_
    obtain ⟨i, hi, hget⟩ := List.mem_take_iff_getElem.1 hm
    exact ⟨i, by omega, m, x, List.getElem?_eq_some_iff.2 ⟨by omega, hget⟩, hx, hp⟩
  cases zeroFill with
  | false => exact hmembers
  | true => exact .bind ((zeroSpans_confined ..).mono fun p hp => .inl ⟨rfl, hp.2⟩) hmembers

/-- What is written before an index is set in full, if it is written successfully. -/
theorem writeBefore_assigns (hpointers : v.pointerWidth = platform.pointerWidth)
    (h : l.Sound platform) (zeroFill : Bool) (r : Record) (k : Nat) :
    (l.writeBefore zeroFill r k).Assigns v (l.Footprint v.endianness zeroFill r k) := by
  have hmembers : (writeMembers l.size (l.members.take k) 0 r).Assigns v fun p =>
      ∃ m ∈ l.members.take k, ∃ x, r.get? m.name = some x ∧
        Place.Reached v.endianness ⟨m.slot, m.offset⟩ x p := by
    refine writeMembers_assigns fun m hm x _ => ?_
    rw [m.write_slot, Nat.zero_add]
    cases h.slot with
    | record _ hslots =>
      exact Slot.write_assigns hpointers (hslots m (List.mem_of_mem_take hm)) m.name l.size _ x
  have hreached : ∀ p, (∃ i < k, ∃ m x, l.members[i]? = some m ∧ r.get? m.name = some x ∧
      Place.Reached v.endianness ⟨m.slot, m.offset⟩ x p) →
      ∃ m ∈ l.members.take k, ∃ x, r.get? m.name = some x ∧
        Place.Reached v.endianness ⟨m.slot, m.offset⟩ x p := by
    rintro p ⟨i, hi, m, x, hm, hx, hp⟩
    obtain ⟨hlt, hget⟩ := List.getElem?_eq_some_iff.1 hm
    exact ⟨m, List.mem_take_iff_getElem.2 ⟨i, by omega, hget⟩, x, hx, hp⟩
  cases zeroFill with
  | false => exact hmembers.mono fun p hp => hreached p (hp.resolve_left nofun)
  | true =>
    refine ((zeroSpans_assigns v l.size 0 l.padding).bind hmembers).mono fun p hp => ?_
    exact hp.imp (fun hpadding => ⟨Nat.zero_le _, hpadding.2⟩) (hreached p)

/-- From above, for the whole write: the footprint of all members. -/
theorem write_confined (hpointers : v.pointerWidth = platform.pointerWidth) (h : l.Sound platform) :
    (l.writeAt l.size zeroFill 0 r).Confined v
      (l.Footprint v.endianness zeroFill r l.members.length) := by
  cases hknown : unknownName? l.members r with
  | none =>
    rw [writeAt_known hknown]
    exact .within _ _ (writeBefore_confined hpointers h ..)
  | some name =>
    rw [writeAt_eq, hknown]
    exact .within _ _ (.throw _)

/-- The address of the view shows in errors only. -/
theorem write_unaddressed (h : l.Sound platform) :
    (l.writeAt l.size zeroFill 0 r).Unaddressed := by
  refine writeAt_induction (P := Unaddressed) .pure .throw .bind .within
    (fun _ => zeroSpans_unaddressed _ _ _) fun m hm x _ => ?_
  rw [m.write_slot]
  cases h.slot with
  | record _ hslots => exact Slot.write_unaddressed (hslots m hm) _ _ _ x

/-! ### Where a write fails

A write can fail at three places: before it starts, for a name that no member has; while the padding
is zeroed; and at a member.  In the last case, what it does is what writing up to and including that
member does. -/

theorem writeBefore_add (l : Layout) (zeroFill : Bool) (r : Record) (k n : Nat) :
    l.writeBefore zeroFill r (k + n) =
      l.writeBefore zeroFill r k >>= fun _ =>
        writeMembers l.size ((l.members.drop k).take n) 0 r := by
  simp only [writeBefore, List.take_add, writeMembers_append]
  cases zeroFill with
  | false => rfl
  | true => exact (bind_assoc ..).symm

/-- The write goes on with the member at the index, if the record has a value for it. -/
theorem writeBefore_succ {m : MemberLayout} {k : Nat} (hm : l.members[k]? = some m)
    (zeroFill : Bool) (r : Record) :
    l.writeBefore zeroFill r (k + 1) =
      l.writeBefore zeroFill r k >>= fun _ =>
        (r.get? m.name).elim (pure ()) (m.write l.size 0) := by
  have hdrop : (l.members.drop k).take 1 = [m] := by
    rw [List.take_one, List.head?_drop, hm, Option.toList_some]
  rw [writeBefore_add, hdrop, writeMembers_cons]
  exact congrArg (_ >>= ·) (funext fun _ => bind_pure_unit)

/-- A failure before an index is one of the whole write. -/
theorem writeBefore_of_error {k n : Nat} {e : TransferError} (hkn : k ≤ n)
    (h : (l.writeBefore zeroFill r k).run v = (.error e, w)) :
    (l.writeBefore zeroFill r n).run v = (.error e, w) := by
  obtain ⟨n, rfl⟩ := Nat.exists_eq_add_of_le hkn
  rw [writeBefore_add, run_bind, h]

/-- **What was written before an index is set by the whole write,** whether or not this fails at a
later member. -/
theorem isSome_of_writeBefore (hpointers : v.pointerWidth = platform.pointerWidth)
    (h : l.Sound platform) (hknown : unknownName? l.members r = none) {k : Nat}
    (hk : k ≤ l.members.length) (hrun : (l.writeBefore zeroFill r k).run v = (.ok (), w))
    {answer : Except TransferError Unit} {f : Patch}
    (hsets : (l.writeAt l.size zeroFill 0 r).Sets v answer f) {p : Nat}
    (hp : l.Footprint v.endianness zeroFill r k p) : (f p).isSome := by
  obtain ⟨n, hn⟩ := Nat.exists_eq_add_of_le hk
  have hrest : (writeMembers l.size ((l.members.drop k).take n) 0 r).Confined v fun _ => True :=
    writeMembers_confined fun m hm x _ => (writeMember_confined hpointers h
      (List.mem_of_mem_drop (List.mem_of_mem_take hm)) x).mono fun _ _ => trivial
  obtain ⟨answer', g, hg, hassigned⟩ :=
    (writeBefore_assigns hpointers h zeroFill r k).exists_sets_bind hrest hrun
  obtain ⟨hlt, hsome⟩ := hassigned p hp
  rw [writeAt_known hknown, hn, writeBefore_add] at hsets
  exact hsets.isSome_of_sets (hg.within l.tag 0) hlt hsome

/-- A write that fails at a member does what writing the members up to this one does. -/
theorem FailsAt.run_eq {k : Nat} (h : l.FailsAt zeroFill r v k) :
    (l.writeAt l.size zeroFill 0 r).run v =
      (within l.tag 0 (l.writeBefore zeroFill r (k + 1))).run v := by
  obtain ⟨hknown, m, x, w, e, u, hm, hx, hbefore, hwrite⟩ := h
  have hlength : k + 1 ≤ l.members.length := (List.getElem?_eq_some_iff.1 hm).1
  have hfails : (l.writeBefore zeroFill r (k + 1)).run v = (.error e, u) := by
    rw [writeBefore_succ hm, run_bind, hbefore, hx]
    exact hwrite
  rw [writeAt_known hknown, run_within, run_within, hfails, writeBefore_of_error hlength hfails]

/-- Where a write fails does not depend on the content of the view. -/
theorem FailsAt.of_alike {k : Nat} (hpointers : v.pointerWidth = platform.pointerWidth)
    (hs : l.Sound platform) (h : l.FailsAt zeroFill r v k) (hvw : v.Alike w) :
    l.FailsAt zeroFill r w k := by
  obtain ⟨hknown, m, x, u, e, t, hm, hx, hbefore, hwrite⟩ := h
  obtain ⟨answer, f, hsets, -⟩ := writeBefore_confined hpointers hs zeroFill r k
  have hu : v.Alike u := (writeBefore_confined hpointers hs zeroFill r k).alike_of_run hbefore
  rw [hsets v (.refl v)] at hbefore
  obtain ⟨answer', g, hsets', -⟩ := writeMember_confined (hu.pointerWidth_eq.trans hpointers) hs
    (List.mem_of_getElem? hm) x
  rw [hsets' u (.refl u)] at hwrite
  have hanswer : answer = .ok () := congrArg Prod.fst hbefore
  have hanswer' : answer' = .error e := congrArg Prod.fst hwrite
  refine ⟨hknown, m, x, w.patch f, e, (w.patch f).patch g, hm, hx, ?_, ?_⟩
  · rw [hsets w hvw, hanswer]
  · rw [hsets' _ (hu.symm.trans (hvw.trans (w.alike_patch f))), hanswer']

/-- A write that fails at a member sets bits for this one and those before it. -/
theorem FailsAt.confined {k : Nat} (hpointers : v.pointerWidth = platform.pointerWidth)
    (hs : l.Sound platform) (h : l.FailsAt zeroFill r v k) :
    (l.writeAt l.size zeroFill 0 r).Confined v (l.Footprint v.endianness zeroFill r (k + 1)) :=
  ((writeBefore_confined hpointers hs zeroFill r (k + 1)).within l.tag 0).congr fun _ hw =>
    (h.of_alike hpointers hs hw).run_eq

/-- **A write that fails after its padding does so at some member.** -/
theorem exists_failsAt (hknown : unknownName? l.members r = none) {n : Nat}
    (hn : n ≤ l.members.length) {e : TransferError}
    (h : (l.writeBefore zeroFill r n).run v = (.error e, w)) :
    (∃ e u, (l.writeBefore zeroFill r 0).run v = (.error e, u)) ∨
      ∃ k, l.FailsAt zeroFill r v k := by
  induction n generalizing e w with
  | zero => exact .inl ⟨e, w, h⟩
  | succ k ih =>
    have hm := List.getElem?_eq_getElem (Nat.lt_of_succ_le hn)
    rw [writeBefore_succ hm, run_bind] at h
    rcases hrun : (l.writeBefore zeroFill r k).run v with ⟨e' | ⟨⟩, u⟩
    · exact ih (Nat.le_of_succ_le hn) hrun
    · rw [hrun] at h
      cases hx : r.get? l.members[k].name with
      | none => rw [hx] at h; cases h
      | some x => rw [hx] at h; exact .inr ⟨k, hknown, _, x, u, e, w, hm, hx, hrun, h⟩

/-- With a name that no member has, nothing is written. -/
theorem write_unknown_confined (h : ∃ name ∈ r.names, ∀ m ∈ l.members, m.name ≠ name) :
    (l.writeAt l.size zeroFill 0 r).Confined v fun _ => False := by
  obtain ⟨name, hname, hunknown⟩ := h
  rw [writeAt_eq]
  refine .within _ _ ?_
  split
  · exact .throw _
  · rename_i hknown
    obtain ⟨m, hm, hmname⟩ := unknownName?_eq_none_iff.1 hknown name hname
    exact absurd hmname (hunknown m hm)

/-- Where a write of a record fails: at its names, at its padding, or at some member. -/
theorem exists_of_write_error {e : TransferError} (h : (l.write zeroFill r v).1 = .error e) :
    (∃ name ∈ r.names, ∀ m ∈ l.members, m.name ≠ name) ∨
      (∃ e u, (l.writeBefore zeroFill r 0).run v = (.error e, u)) ∨
      ∃ k, l.FailsAt zeroFill r v k := by
  cases hknown : unknownName? l.members r with
  | some name =>
    left
    by_contra hknown'
    rw [unknownName?_eq_none_iff.2 (by simpa using hknown')] at hknown
    cases hknown
  | none =>
    rw [write, writeAt_known hknown, run_within] at h
    rcases hrun : (l.writeBefore zeroFill r l.members.length).run v with ⟨e' | ⟨⟩, u⟩
    · exact .inr (exists_failsAt hknown (Nat.le_refl _) hrun)
    · rw [hrun] at h; cases h

/-- A write that succeeds has written its padding and all of its members. -/
theorem exists_of_write_ok (h : (l.write zeroFill r v).1 = .ok ()) :
    unknownName? l.members r = none ∧
      ∃ w, (l.writeBefore zeroFill r l.members.length).run v = (.ok (), w) := by
  cases hknown : unknownName? l.members r with
  | some name =>
    rw [write, writeAt_eq, hknown] at h
    cases h
  | none =>
    rw [write, writeAt_known hknown, run_within] at h
    rcases hrun : (l.writeBefore zeroFill r l.members.length).run v with ⟨e | ⟨⟩, w⟩
    · rw [hrun] at h
      cases h
    · exact ⟨rfl, w, rfl⟩

/-- No bit of the padding lies in a scalar of a member. -/
theorem HoldsAt.not_covers_padding (hs : (Shape.record l).Surveyed) {e : Endianness} {i p : Nat}
    (h : l.HoldsAt e i p) : ¬ Covers l.padding (p / 8) := by
  obtain ⟨m, hm, path, scalar, hpath, hscalar, howns⟩ := h
  obtain ⟨hle, hleaf⟩ := Place.leafAt_of_at? hpath hscalar howns
  have hrecord : (Shape.record l).LeafAt (p / 8) :=
    Shape.leafAt_record_iff.2 ⟨m, List.mem_of_getElem? hm, hle, hleaf⟩
  exact fun hpadding => (hs.covers_padding.1 hpadding).2 hrecord

/-- A bit in scalars of later members only is not among those of the padding and the members up to
an index. -/
theorem not_footprint (hs : (Shape.record l).Surveyed) {e : Endianness} {k p : Nat}
    (hlater : ∃ i, k < i ∧ l.HoldsAt e i p) (hearlier : ∀ i ≤ k, ¬ l.HoldsAt e i p) :
    ¬ l.Footprint e zeroFill r (k + 1) p := by
  rintro (⟨-, hpadding⟩ | ⟨i, hi, m, x, hm, -, hreached⟩)
  · obtain ⟨i, -, hholds⟩ := hlater
    exact hholds.not_covers_padding hs hpadding
  · exact hearlier i (Nat.le_of_lt_succ hi) ⟨m, hm, hreached.holds⟩

/-- Writing a record to views like `v`, at any address and with any content, sets the bits of a
patch. -/
structure Overwrites (l : Layout) (zeroFill : Bool) (r : Record) (v : View) (f : Patch) : Prop where
  /-- The answer does not depend on the content, and the patch not on the address either. -/
  sets : ∀ base, ∃ answer, ∀ bytes : Array Byte, bytes.size = v.size →
    l.write zeroFill r { v with base, bytes } = (answer, View.patch { v with base, bytes } f)
  /-- The bits lie in the view, in scalars that the record has a value for or in padding that is
  zeroed. -/
  within : ∀ p, (f p).isSome →
    p < 8 * v.size ∧ l.Footprint v.endianness zeroFill r l.members.length p
  /-- A write that succeeds sets all of them. -/
  succeeds : ∀ base (bytes : Array Byte), bytes.size = v.size →
    (l.write zeroFill r { v with base, bytes }).1 = .ok () → ∀ p,
      l.Footprint v.endianness zeroFill r l.members.length p → (f p).isSome
  /-- A write that fails at a member has set those of the members before that. -/
  before : ∀ base (bytes : Array Byte) k, bytes.size = v.size →
    l.FailsAt zeroFill r { v with base, bytes } k → ∀ p,
      l.Footprint v.endianness zeroFill r k p → (f p).isSome
  /-- No bit is set that lies in scalars of later members only than the one at which the write
  fails. -/
  fails : ∀ base (bytes : Array Byte) k, bytes.size = v.size →
    l.FailsAt zeroFill r { v with base, bytes } k → ∀ p,
      (∃ i, k < i ∧ l.HoldsAt v.endianness i p) → (∀ i ≤ k, ¬ l.HoldsAt v.endianness i p) →
        f p = none
  /-- A name that no member has leaves all bits as they are. -/
  unknown : (∃ name ∈ r.names, ∀ m ∈ l.members, m.name ≠ name) → ∀ p, f p = none
  /-- Any other failure happens when the padding is zeroed, or at some member. -/
  failsAt : ∀ base (bytes : Array Byte) e, bytes.size = v.size →
    (l.write zeroFill r { v with base, bytes }).1 = .error e →
      (∃ name ∈ r.names, ∀ m ∈ l.members, m.name ≠ name) ∨
        (∃ e u, (l.writeBefore zeroFill r 0).run { v with base, bytes } = (.error e, u)) ∨
        ∃ k, l.FailsAt zeroFill r { v with base, bytes } k
  /-- Writing the record again answers the same and changes nothing. -/
  again : ∀ w, (∃ base bytes, bytes.size = v.size ∧ w = { v with base, bytes }) →
    l.write zeroFill r (l.write zeroFill r w).2 = l.write zeroFill r w

/-- **Writing a record is overwriting some bits with given values.**  On every view with the
platform's pointer width, however long it is, the bits and their values do not depend on what the
view holds. -/
theorem write_overwrites {config : Config} (hvalid : config.validate = .ok ())
    (hbuilt : Built config l) (zeroFill : Bool) (r : Record)
    (hpointers : v.pointerWidth = config.platform.pointerWidth) :
    ∃ f, l.Overwrites zeroFill r v f := by
  have hs := hbuilt.sound (Config.usable_of_validate hvalid)
  have hconfined : ∀ base, (l.writeAt l.size zeroFill 0 r).Confined (v.moveTo base)
      (l.Footprint v.endianness zeroFill r l.members.length) :=
    fun base => write_confined (show (v.moveTo base).pointerWidth = _ from hpointers) hs
  obtain ⟨f, hview, hmoved⟩ := Confined.sets_moved hconfined (write_unaddressed hs)
  have hsets : ∀ base (bytes : Array Byte), bytes.size = v.size →
      ∃ answer, (l.writeAt l.size zeroFill 0 r).Sets { v with base, bytes } answer f := by
    intro base bytes hsize
    obtain ⟨answer, hanswer⟩ := hmoved base
    exact ⟨answer, hanswer.of_alike ⟨bytes, hsize, rfl⟩⟩
  refine ⟨f, ?_, ?_, ?_, ?_, ?_, ?_, ?_, ?_⟩
  · intro base
    obtain ⟨answer, hanswer⟩ := hmoved base
    exact ⟨answer, fun bytes hsize => hanswer _ ⟨bytes, hsize, rfl⟩⟩
  · intro p hp
    obtain ⟨answer, hanswer⟩ := hsets v.base v.bytes rfl
    exact ⟨hview p hp, hanswer.subset (hconfined v.base) (hview p hp) hp⟩
  · intro base bytes hsize hok p hp
    obtain ⟨answer, hanswer⟩ := hsets base bytes hsize
    obtain ⟨hknown, w, hrun⟩ := exists_of_write_ok hok
    exact isSome_of_writeBefore (v := { v with base, bytes }) hpointers hs hknown (Nat.le_refl _)
      hrun hanswer hp
  · rintro base bytes k hsize ⟨hknown, m, x, w, e, u, hm, -, hrun, -⟩ p hp
    obtain ⟨answer, hanswer⟩ := hsets base bytes hsize
    have hk : k ≤ l.members.length := Nat.le_of_lt (List.getElem?_eq_some_iff.1 hm).1
    exact isSome_of_writeBefore (v := { v with base, bytes }) hpointers hs hknown hk hrun hanswer hp
  · intro base bytes k hsize hfails p hlater hearlier
    obtain ⟨answer, hanswer⟩ := hsets base bytes hsize
    have hupto := FailsAt.confined (v := { v with base, bytes }) hpointers hs hfails
    refine Option.not_isSome_iff_eq_none.1 fun hp => ?_
    have hin : p < 8 * View.size { v with base, bytes } := by
      rw [View.size, hsize]
      exact hview p hp
    exact not_footprint hbuilt.constructed.surveyed hlater hearlier (hanswer.subset hupto hin hp)
  · intro hunknown p
    obtain ⟨answer, hanswer⟩ := hsets v.base v.bytes rfl
    refine Option.not_isSome_iff_eq_none.1 fun hp => ?_
    exact hanswer.subset (write_unknown_confined hunknown) (hview p hp) hp
  · exact fun _ _ _ _ herror => exists_of_write_error herror
  · rintro w ⟨base, bytes, hsize, rfl⟩
    obtain ⟨answer, hanswer⟩ := hsets base bytes hsize
    exact hanswer.run_again

end Layout

/-- A number for the first of the two bit-fields, and for the second one a truth value, which it
does not take. -/
def mismatchedRecord : Record := ⟨[⟨"high", .bool true⟩, ⟨"low", .uint 2⟩]⟩

/-- A number for the first of the two bit-fields alone. -/
def lowRecord : Record := ⟨[⟨"low", .uint 2⟩]⟩

/-- The bits of the first bit-field are the low three of the byte. -/
theorem owns_low_iff {p : Nat} :
    Place.Owns .little ⟨⟨.scalar (.arith (.unsigned .w8)) 1 ⟨0⟩, some ⟨0, 3⟩⟩, 0⟩ p ↔ p < 3 := by
  have hmask : (BitRange.mask ⟨0, 3⟩).getLsbD (Endianness.little.wordBit 0 1 p) = true ↔ p < 3 := by
    have hbit : Endianness.little.wordBit 0 1 p = p := Nat.sub_zero p
    rw [hbit, BitRange.getLsbD_mask, decide_eq_true_eq]
    show p < 64 ∧ 0 ≤ p ∧ p < 0 + 3 ↔ p < 3
    omega
  constructor
  · exact fun howns => hmask.1 (howns.2 _ rfl)
  · intro hp
    refine ⟨⟨Nat.zero_le _, show p < 8 by omega⟩, ?_⟩
    rintro _ ⟨⟩
    exact hmask.2 hp

theorem footprint_sharedByte {r : Record} (hr : r.get? "low" = some (.uint 2)) {k p : Nat}
    (hk : 0 < k) (hp : p < 3) : sharedByteLayout.Footprint .little true r k p :=
  .inr ⟨0, hk, _, _, rfl, hr, [], _, _, rfl, rfl, ⟨_, _, _, rfl⟩, owns_low_iff.2 hp⟩

/-- The write of both values sets the bits of the first one and then fails at the second; the write
of the first one alone sets its bits and no others. -/
theorem write_overwrites_sharedByte :
    sharedByteLayout.FailsAt true mismatchedRecord sharedByteView 1 ∧
      (∃ f, sharedByteLayout.Overwrites true mismatchedRecord sharedByteView f ∧
        ∀ p < 3, (f p).isSome) ∧
      ∃ f, sharedByteLayout.Overwrites true lowRecord sharedByteView f ∧
        ∀ p, (f p).isSome ↔ p < 3 := by
  have hvalid : Config.standard.validate = .ok () := by decide
  have hfails : sharedByteLayout.FailsAt true mismatchedRecord sharedByteView 1 :=
    ⟨rfl, _, _, _, _, _, rfl, rfl, rfl, rfl⟩
  obtain ⟨f, hf⟩ := Layout.write_overwrites hvalid built_sharedByte (v := sharedByteView) true
    mismatchedRecord rfl
  obtain ⟨g, hg⟩ := Layout.write_overwrites hvalid built_sharedByte (v := sharedByteView) true
    lowRecord rfl
  refine ⟨hfails, ⟨f, hf, fun p hp => ?_⟩, g, hg, fun p => ⟨fun hp => ?_, fun hp => ?_⟩⟩
  · exact hf.before sharedByteView.base sharedByteView.bytes 1 rfl hfails p
      (footprint_sharedByte rfl Nat.one_pos hp)
  · obtain ⟨-, ⟨-, s, hs, -⟩ | ⟨i, hi, m, x, hm, hx, hreached⟩⟩ := hg.within p hp
    · cases hs
    · match i, hi with
      | 0, _ =>
        cases hm
        exact owns_low_iff.1 (hreached.owns_of_isScalar ⟨_, _, _, rfl⟩)
      | 1, _ =>
        cases hm
        cases hx
  · exact hg.succeeds sharedByteView.base sharedByteView.bytes rfl rfl p
      (footprint_sharedByte rfl Nat.two_pos hp)

end NativeRecord
