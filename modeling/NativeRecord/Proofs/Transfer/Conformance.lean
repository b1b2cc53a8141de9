import NativeRecord.Proofs.Layout.Coverage
import NativeRecord.Proofs.Transfer.Places

/-!
# The values that a record takes

On memory that is there and long enough, whether a write succeeds is a matter of the value alone.

`Value.ConformsTo` says what fits a shape without mentioning a view, an offset or a byte: a scalar
takes values of its sorts, an array as many items as it has elements, a record values for members of
its own.  That a write succeeds exactly then is shown of every step that a write is made of.  The
notion for this is `Writing.Decides`: on all views that are alike, the step succeeds if a condition
holds, and reports a fault of the value if not.  It is stronger than an equivalence for one view,
because the steps in front have changed the view by the time a step is reached, and it is closed
under sequencing, with the conjunction of the conditions (`Decides.bind`): the second condition need
only be decided once the first is known to hold, as the second step is not reached otherwise.

## What is here

* `View.Writable` — memory in which no access is made to fail, and what the writes of a scalar, of a
  bit-field and of a run of zeros do there.
* `Value.ConformsTo` — the values of the right kind for a shape, with arrays of the right length and
  records without unknown names.
* `Writing.Decides` — steps that succeed under a condition and otherwise report a fault of the
  value; `Slot.write_decides` shows it of all writes.
* `Slot.conformsTo_of_read` — what is read conforms, by induction over the shape: what the decoder
  gives is of a sort that the encoder takes.
* `Layout.write_accepts` — a record is written exactly if it conforms.
-/

set_option autoImplicit false
namespace NativeRecord

open Writing

/-! ## Memory in which all accesses succeed

With no access made to fail and the view long enough, the checks on the way to the bytes are all
passed.  What is left of a write is the encoding of its value. -/

/-- A view in which no access is made to fail, with the platform's pointer width. -/
structure View.Writable (v : View) (platform : Platform) : Prop extends v.Readable platform where
  writes : ∀ offset, v.writeFails offset = false

section Writable

variable {platform : Platform} {v w : View}

theorem View.Writable.of_alike (h : v.Writable platform) (hvw : v.Alike w) :
    w.Writable platform := by
  refine ⟨h.toReadable.of_alike hvw, ?_⟩
  obtain ⟨bytes, -, rfl⟩ := hvw
  exact h.writes

/-- A store that is within the view may be made. -/
theorem View.Writable.checkStore (h : v.Writable platform) {offset width : Nat}
    (hwidth : AccessWidth width) (hsize : offset + width ≤ v.size) :
    v.checkStore offset width = .ok () :=
  checkStore_eq_ok_iff.2 ⟨h.writes offset, hwidth, hsize⟩

variable {field : String} {type : Scalar} {limit offset : Nat} {x : Value}

/-- A scalar is written if the value is of its kind. -/
theorem writeScalar_run_writable (h : v.Writable platform)
    (hwidth : AccessWidth (type.size platform)) (hlimit : offset + type.size platform ≤ limit)
    (hsize : limit ≤ v.size) :
    (writeScalar field type (type.size platform) limit offset x).run v =
      match encodeFor field type (type.size platform) x with
      | .ok w =>
        (.ok (), v.patch (.word v.endianness offset (type.size platform) (BitVec.allOnes 64) w))
      | .error e => (.error e, v) := by
  rw [writeScalar_run h.pointers, checkWithin_eq_ok_iff.2 hlimit]
  cases encodeFor field type (type.size platform) x with
  | error e => rfl
  | ok w =>
    exact store_sets (h.checkStore hwidth (Nat.le_trans hlimit hsize)) w v (.refl v)

/-- A bit-field is written if the value is of its kind. -/
theorem writeBits_run_writable (h : v.Writable platform) {size : Nat} {range : BitRange}
    (hwidth : AccessWidth size) (hlimit : offset + size ≤ limit) (hsize : limit ≤ v.size) :
    (writeBits field type size limit range offset x).run v =
      match encodeFor field type size x with
      | .ok w => (.ok (), v.patch (.word v.endianness offset size range.mask (w <<< range.first)))
      | .error e => (.error e, v) := by
  rw [writeBits, checkWithin_eq_ok_iff.2 hlimit]
  cases encodeFor field type size x with
  | error e => rfl
  | ok w =>
    have hcheck := h.checkStore hwidth (Nat.le_trans hlimit hsize)
    exact replaceBits_sets (h.reads offset) hcheck range w v (.refl v)

/-- Filling succeeds and is one patch, whether in one block or byte by byte. -/
theorem View.fillBlock_eq_patch (h : v.Writable platform) {length : Nat} (b : Byte)
    (hsize : offset + length ≤ v.size) :
    v.fillBlock offset length b =
      (.ok (), v.patch (.bytes offset (List.replicate length b))) := by
  have hlength : offset + (List.replicate length b).length ≤ v.size := by
    rwa [List.length_replicate]
  rw [← put_eq hlength, fillBlock]
  cases v.bytewise with
  | true =>
    exact (v.fillEach_eq_storeEach offset length b).trans (storeEach_eq_put h.writes hlength)
  | false => rw [checkSpan_eq_ok_iff.2 hsize]; rfl

end Writable

/-! ## Conforming values

The predicate follows the constructors of shapes; one of the three rules applies to each. -/

/-- The sorts of values that a scalar takes. -/
def Scalar.takes : Scalar → ValueSort → Bool
  | .pointer _, .pointer | .pointer _, .uint => true
  | .arith (.float _), .float => true
  | .arith .bool, .bool => true
  | .arith a, .int | .arith a, .uint => a.isInteger
  | _, _ => false

namespace Scalar

/-- A value can be encoded if it is of a sort that the scalar takes; its magnitude does not matter.
-/
theorem isSome_encode? (type : Scalar) (size : Nat) (x : Value) :
    (type.encode? size x).isSome = type.takes x.sort := by
  rw [encode?, Option.isSome_map]
  cases type with
  | pointer target => cases x <;> rfl
  | arith a =>
    cases a with
    | float n => cases n <;> cases x <;> rfl
    | _ => cases x <;> rfl

/-- What is decoded is of a sort that is taken. -/
theorem takes_decode (type : Scalar) (bits : Nat) (w : Word) :
    type.takes (type.decode bits w).sort = true := by
  cases type with
  | pointer target => rfl
  | arith a =>
    cases a using Arith.casesInteger with
    | integer a ha =>
      rw [decode_of_isInteger ha]
      split <;> cases a <;> first | rfl | cases ha
    | bool => rfl
    | float n => cases n <;> rfl

end Scalar

/-- The value fits the shape: a scalar takes values of its sorts, an array takes exactly as many
items as it has elements, and a record has values for members only, though not for all of them. -/
inductive Value.ConformsTo : Value → Shape → Prop
  | scalar {x : Value} {type : Scalar} {size : Nat} {alignment : Alignment}
      (h : type.takes x.sort = true) : ConformsTo x (.scalar type size alignment)
  | record {r : Record} {l : Layout} (hnames : ∀ name ∈ r.names, ∃ m ∈ l.members, m.name = name)
      (hvalues : ∀ m ∈ l.members, ∀ x, r.get? m.name = some x → x.ConformsTo m.shape) :
      ConformsTo (.record r) (.record l)
  | array {items : List Value} {element : Shape} (hitems : ∀ x ∈ items, x.ConformsTo element) :
      ConformsTo (.array items) (.array element items.length)

namespace Value

theorem conformsTo_scalar_iff {x : Value} {type : Scalar} {size : Nat} {alignment : Alignment} :
    x.ConformsTo (.scalar type size alignment) ↔ type.takes x.sort = true :=
  ⟨fun h => by cases h; assumption, .scalar⟩

theorem conformsTo_record_iff {r : Record} {l : Layout} :
    (record r).ConformsTo (.record l) ↔ (∀ name ∈ r.names, ∃ m ∈ l.members, m.name = name) ∧
      ∀ m ∈ l.members, ∀ x, r.get? m.name = some x → x.ConformsTo m.shape :=
  ⟨fun h => by cases h; exact ⟨‹_›, ‹_›⟩, fun h => .record h.1 h.2⟩

theorem conformsTo_array_iff {items : List Value} {element : Shape} {length : Nat} :
    (array items).ConformsTo (.array element length) ↔
      items.length = length ∧ ∀ x ∈ items, x.ConformsTo element := by
  constructor
  · rintro ⟨⟩
    exact ⟨rfl, ‹_›⟩
  · rintro ⟨rfl, hitems⟩
    exact .array hitems

end Value

/-! ## Steps that decide

Failures name the record they happened in, so a fault of the value is looked for below these names.
-/

/-- The failure, below the records that it happened in, is a fault of the value: a name that the
record does not have, a value of another kind, or an array of another length. -/
def TransferError.BlamesValue (e : TransferError) : Prop :=
  (∃ name, e.root = .noSuchName name) ∨
    (∃ field expected given, e.root = .kindMismatch field expected given) ∨
    ∃ field expected given, e.root = .arrayLength field expected given

namespace Writing

/-- The answer is success if the condition holds, and a failure that blames the value if not. -/
inductive Verdict (C : Prop) : Except TransferError Unit → Prop
  | ok (h : C) : Verdict C (.ok ())
  | error {e : TransferError} (h : ¬ C) (he : e.BlamesValue) : Verdict C (.error e)

/-- On all views that differ from `v` in their content at most, the step succeeds exactly if the
condition holds, and otherwise blames the value. -/
def Decides (step : Writing Unit) (v : View) (C : Prop) : Prop :=
  ∀ w, v.Alike w → v.Alike (step.run w).2 ∧ Verdict C (step.run w).1

variable {step next : Writing Unit} {v : View} {C D : Prop}

theorem Decides.of_iff (h : step.Decides v C) (hCD : C ↔ D) : step.Decides v D := by
  rwa [← propext hCD]

theorem Decides.pure (h : C) : (pure () : Writing Unit).Decides v C := fun _ hw => ⟨hw, .ok h⟩

theorem Decides.throw {e : TransferError} (h : ¬ C) (he : e.BlamesValue) :
    (throw e : Writing Unit).Decides v C := fun _ hw => ⟨hw, .error h he⟩

/-- Two steps in a row decide both conditions; the second is asked only where the first holds. -/
theorem Decides.bind (hstep : step.Decides v C) (hnext : C → next.Decides v D) :
    (step >>= fun _ => next).Decides v (C ∧ D) := by
  intro w hw
  obtain ⟨halike, hverdict⟩ := hstep w hw
  rw [run_bind]
  rcases hrun : step.run w with ⟨answer, u⟩
  rw [hrun] at halike hverdict
  cases hverdict with
  | error h he => exact ⟨halike, .error (fun hboth => h hboth.1) he⟩
  | ok h =>
    obtain ⟨halike', hverdict'⟩ := hnext h u halike
    refine ⟨halike', ?_⟩
    rwa [propext (and_iff_right h)]

/-- Naming the record in an error does not change what it blames. -/
theorem Decides.within (tag : Tag) (start : Nat) (h : step.Decides v C) :
    (within tag start step).Decides v C := by
  intro w hw
  obtain ⟨halike, hverdict⟩ := h w hw
  rw [run_within]
  refine ⟨halike, ?_⟩
  generalize (step.run w).1 = answer at hverdict ⊢
  cases hverdict with
  | ok h => exact .ok h
  | error h he => exact .error h he

theorem Decides.ok_iff (h : step.Decides v C) : (step.run v).1 = .ok () ↔ C := by
  have hverdict := (h v (.refl v)).2
  generalize (step.run v).1 = answer at hverdict ⊢
  cases hverdict with
  | ok h => exact ⟨fun _ => h, fun _ => rfl⟩
  | error h => exact ⟨nofun, fun hC => absurd hC h⟩

theorem Decides.blamesValue (h : step.Decides v C) {e : TransferError}
    (he : (step.run v).1 = .error e) : e.BlamesValue := by
  have hverdict := (h v (.refl v)).2
  rw [he] at hverdict
  cases hverdict with
  | error _ he => exact he

end Writing

section Decides

variable {platform : Platform} {v : View} {field : String} {type : Scalar} {limit offset : Nat}

theorem blamesValue_kindMismatch (field : String) (expected : Expected) (given : Given) :
    (TransferError.kindMismatch field expected given).BlamesValue :=
  .inr (.inl ⟨field, expected, given, rfl⟩)

/-- A step that writes the bits of a value, if these can be had, decides whether they can. -/
theorem decides_of_encodeFor {step : Writing Unit} {size : Nat} {x : Value}
    {after : View → Word → View}
    (halike : ∀ w bits, v.Alike w → v.Alike (after w bits))
    (hrun : ∀ w, v.Alike w → step.run w =
      match encodeFor field type size x with
      | .ok bits => (.ok (), after w bits)
      | .error e => (.error e, w)) :
    step.Decides v (type.takes x.sort = true) := by
  intro w hw
  rw [hrun w hw, ← type.isSome_encode? size, encodeFor]
  cases type.encode? size x with
  | some bits => exact ⟨halike w bits hw, .ok rfl⟩
  | none => exact ⟨hw, .error Bool.false_ne_true (blamesValue_kindMismatch ..)⟩

/-- A scalar decides whether it takes the value. -/
theorem writeScalar_decides (h : v.Writable platform) (hwidth : AccessWidth (type.size platform))
    (hlimit : offset + type.size platform ≤ limit) (hsize : limit ≤ v.size) (x : Value) :
    (writeScalar field type (type.size platform) limit offset x).Decides v
      (type.takes x.sort = true) :=
  decides_of_encodeFor (fun w _ hw => hw.trans (w.alike_patch _)) fun _ hw =>
    writeScalar_run_writable (h.of_alike hw) hwidth hlimit (hw.size_eq ▸ hsize)

/-- A bit-field decides the same of its type.  A number that is too wide for it is cut off and not
refused. -/
theorem writeBits_decides (h : v.Writable platform) {size : Nat} (range : BitRange)
    (hwidth : AccessWidth size) (hlimit : offset + size ≤ limit) (hsize : limit ≤ v.size)
    (x : Value) :
    (writeBits field type size limit range offset x).Decides v (type.takes x.sort = true) :=
  decides_of_encodeFor (fun w _ hw => hw.trans (w.alike_patch _)) fun _ hw =>
    writeBits_run_writable (h.of_alike hw) hwidth hlimit (hw.size_eq ▸ hsize)

/-- Zeroing padding that lies within the record always succeeds. -/
theorem zeroSpans_decides (h : v.Writable platform) {start : Nat} {spans : List Span}
    (hlimit : ∀ s ∈ spans, start + s.stop ≤ limit) (hsize : limit ≤ v.size) :
    (zeroSpans limit start spans).Decides v True := by
  induction spans with
  | nil => exact .pure trivial
  | cons s spans ih =>
    obtain ⟨hfirst, hlimit⟩ := List.forall_mem_cons.1 hlimit
    rw [Span.stop] at hfirst
    have hwithin : start + s.offset + s.length ≤ limit := by omega
    have hfill :
        (access fun view => view.fillBlock (start + s.offset) s.length 0).Decides v True := by
      intro w hw
      have hsize' : start + s.offset + s.length ≤ w.size := by rw [hw.size_eq]; omega
      rw [run_access, View.fillBlock_eq_patch (h.of_alike hw) 0 hsize']
      exact ⟨hw.trans (w.alike_patch _), .ok trivial⟩
    rw [zeroSpans, checkWithin_eq_ok_iff.2 hwithin]
    exact (hfill.bind fun _ => ih hlimit).of_iff (and_self_iff)

/-- An array decides whether all items are taken. -/
theorem writeItems_decides {write : Nat → Value → Writing Unit} {stride : Nat}
    {C : Value → Prop} {items : List Value}
    (h : ∀ i x, items[i]? = some x → (write (offset + i * stride) x).Decides v (C x)) :
    (writeItems write stride offset items).Decides v (∀ x ∈ items, C x) := by
  induction items generalizing offset with
  | nil => exact .pure nofun
  | cons x items ih =>
    rw [writeItems]
    have hfirst : (write offset x).Decides v (C x) := by simpa using h 0 x rfl
    refine (hfirst.bind fun _ => ih fun i y hy => ?_).of_iff List.forall_mem_cons.symm
    have hnext := h (i + 1) y hy
    rwa [item_offset_succ] at hnext

/-- A record decides whether the values it has for its members are taken. -/
theorem writeMembers_decides {ms : List MemberLayout} {start : Nat} {r : Record}
    (h : ∀ m ∈ ms, ∀ x, (m.write limit start x).Decides v (x.ConformsTo m.shape)) :
    (writeMembers limit ms start r).Decides v
      (∀ m ∈ ms, ∀ x, r.get? m.name = some x → x.ConformsTo m.shape) := by
  induction ms with
  | nil => exact .pure nofun
  | cons m ms ih =>
    obtain ⟨hm, hms⟩ := List.forall_mem_cons.1 h
    rw [writeMembers_cons]
    have hfirst : ((r.get? m.name).elim (pure ()) (m.write limit start)).Decides v
        (∀ x, r.get? m.name = some x → x.ConformsTo m.shape) := by
      cases hx : r.get? m.name with
      | none => exact .pure nofun
      | some x => exact (hm x).of_iff ⟨fun h => by rintro _ ⟨⟩; exact h, fun h => h x rfl⟩
    exact (hfirst.bind fun _ => ih hms).of_iff (by rw [List.forall_mem_cons])

/-- A record is written exactly if it conforms, once this holds for its members and its padding can
be zeroed. -/
theorem Layout.writeAt_decides {l : Layout} {start : Nat} {zeroFill : Bool} {r : Record}
    (hpadding : zeroFill = true → (zeroSpans limit start l.padding).Decides v True)
    (hmembers : ∀ m ∈ l.members, ∀ x, (m.write limit start x).Decides v (x.ConformsTo m.shape)) :
    (l.writeAt limit zeroFill start r).Decides v ((Value.record r).ConformsTo (.record l)) := by
  rw [writeAt_eq, Value.conformsTo_record_iff, ← unknownName?_eq_none_iff]
  refine .within _ _ ?_
  cases unknownName? l.members r with
  | some name => exact .throw nofun (.inl ⟨name, rfl⟩)
  | none =>
    have hwrite := writeMembers_decides (r := r) hmembers
    cases zeroFill with
    | false => exact hwrite.of_iff (and_iff_right rfl).symm
    | true => exact ((hpadding rfl).bind fun _ => hwrite).of_iff (by simp)

/-- **A value is written to a place in the view exactly if it conforms to the shape.** -/
theorem Slot.write_decides (h : v.Writable platform) {s : Slot} (hs : s.Sound platform)
    (field : String) (hlimit : offset + s.size ≤ limit) (hsize : limit ≤ v.size) (x : Value) :
    (s.write field limit offset x).Decides v (x.ConformsTo s.shape) := by
  induction hs generalizing field offset x with
  | scalar hwidth =>
    exact (writeScalar_decides h hwidth hlimit hsize x).of_iff Value.conformsTo_scalar_iff.symm
  | bitField hwidth =>
    exact (writeBits_decides h _ hwidth hlimit hsize x).of_iff Value.conformsTo_scalar_iff.symm
  | @record l hplaced _ ih =>
    cases x with
    | record r =>
      rw [write_plain, Shape.write]
      refine Layout.writeAt_decides (by rintro ⟨⟩) fun m hm x => ?_
      rw [m.write_slot]
      exact ih m hm m.name (hplaced.stop_le hm hlimit) x
    | _ => exact .throw (by rintro ⟨⟩) (blamesValue_kindMismatch ..)
  | @array element length _ ih =>
    cases x with
    | array items =>
      rw [write_plain, Shape.write, Value.conformsTo_array_iff]
      split
      · rename_i hlength
        have hitem : ∀ i x, items[i]? = some x →
            (element.write field limit (offset + i * element.size) x).Decides v
              (x.ConformsTo element) := by
          intro i x hx
          have hi : i < length := hlength ▸ (List.getElem?_eq_some_iff.1 hx).1
          rw [← write_plain]
          exact ih field (Nat.le_trans (item_stop_le hi offset element.size) hlimit) x
        exact (writeItems_decides hitem).of_iff (and_iff_right hlength).symm
      · rename_i hlength
        exact .throw (fun h => hlength h.1) (.inr (.inr ⟨_, _, _, rfl⟩))
    | _ => exact .throw (by rintro ⟨⟩) (blamesValue_kindMismatch ..)

end Decides

/-! ## What is read conforms -/

/-- **What is read from a place conforms to its shape,** whatever the memory. -/
theorem Slot.conformsTo_of_read {platform : Platform} {v : View} {limit offset : Nat} {s : Slot}
    (hs : s.Sound platform) {y : Value} (h : s.read v limit offset = .ok y) :
    y.ConformsTo s.shape := by
  induction hs generalizing offset y with
  | @scalar type =>
    obtain ⟨_, -, h⟩ := except_bind_eq_ok.1 h
    refine .scalar ?_
    cases type with
    | pointer target => obtain ⟨_, -, ⟨⟩⟩ := except_bind_eq_ok.1 h; rfl
    | arith a => obtain ⟨_, -, ⟨⟩⟩ := except_bind_eq_ok.1 h; exact Scalar.takes_decode _ _ _
  | bitField =>
    obtain ⟨_, -, h⟩ := except_bind_eq_ok.1 h
    obtain ⟨_, -, ⟨⟩⟩ := except_bind_eq_ok.1 h
    exact .scalar (Scalar.takes_decode _ _ _)
  | record hplaced _ ih =>
    obtain ⟨back, rfl, hknown, hread⟩ := read_record_eq_ok hplaced.names h
    refine .record (unknownName?_eq_none_iff.1 hknown) fun m hm x hx => ?_
    obtain ⟨x', hx', hread⟩ := hread m hm
    obtain rfl : x = x' := Option.some.inj (hx.symm.trans hx')
    exact ih m hm hread
  | array _ ih =>
    obtain ⟨items, rfl, hlength, hread⟩ := read_array_eq_ok h
    refine Value.conformsTo_array_iff.2 ⟨hlength, fun x hx => ?_⟩
    obtain ⟨i, hi⟩ := List.mem_iff_getElem?.1 hx
    obtain ⟨x', hx', hread⟩ := hread i (hlength ▸ (List.getElem?_eq_some_iff.1 hi).1)
    obtain rfl : x = x' := Option.some.inj (hi.symm.trans hx')
    exact ih hread

/-! ## Records

The same of a whole record, whose padding lies within it because it was built. -/

namespace Layout

variable {platform : Platform} {l : Layout} {v : View}

/-- A member of the record at the start of the view. -/
theorem writeMember_decides (h : v.Writable platform) (hs : l.Sound platform)
    (hsize : l.size ≤ v.size) {m : MemberLayout} (hm : m ∈ l.members) (x : Value) :
    (m.write l.size 0 x).Decides v (x.ConformsTo m.shape) := by
  rw [m.write_slot, Nat.zero_add]
  cases hs.slot with
  | record hplaced hmembers =>
    exact Slot.write_decides h (hmembers m hm) m.name (hplaced.within m hm) hsize x

/-- A record at the start of the view, with its padding zeroed or not. -/
theorem write_decides (h : v.Writable platform) (hs : l.Sound platform)
    (hpadding : ∀ s ∈ l.padding, s.stop ≤ l.size) (hsize : l.size ≤ v.size) (zeroFill : Bool)
    (r : Record) :
    (l.writeAt l.size zeroFill 0 r).Decides v ((Value.record r).ConformsTo (.record l)) := by
  refine writeAt_decides (fun _ => zeroSpans_decides h (fun s hs => ?_) hsize) fun m hm x =>
    writeMember_decides h hs hsize hm x
  rw [Nat.zero_add]
  exact hpadding s hs

/-- **A record is written exactly if it conforms to the layout,** on every view with the platform's
pointer width that is long enough and in which no access is made to fail; otherwise the failure is a
fault of a name or a value in it.  What is read from any memory conforms, so writing it succeeds. -/
theorem write_accepts {config : Config} (hvalid : config.validate = .ok ())
    (hbuilt : Built config l) {view : View} (hview : view.Writable config.platform)
    (hsize : l.size ≤ view.size) (zeroFill : Bool) :
    (∀ r, (l.write zeroFill r view).1 = .ok () ↔ (Value.record r).ConformsTo (.record l)) ∧
      (∀ r e, (l.write zeroFill r view).1 = .error e → e.BlamesValue) ∧
      ∀ source r, l.read source = .ok r →
        (Value.record r).ConformsTo (.record l) ∧ (l.write zeroFill r view).1 = .ok () := by
  have hs := hbuilt.sound (Config.usable_of_validate hvalid)
  have hdecides := write_decides hview hs hbuilt.constructed.surveyed.stop_padding_le hsize zeroFill
  refine ⟨fun r => (hdecides r).ok_iff, fun r _ he => (hdecides r).blamesValue he, ?_⟩
  intro source r hread
  have hslot : l.slot.read source l.size 0 = .ok (.record r) := by rw [read_slot, hread]; rfl
  have hconforms : (Value.record r).ConformsTo (.record l) := Slot.conformsTo_of_read hs.slot hslot
  exact ⟨hconforms, (hdecides r).ok_iff.2 hconforms⟩

end Layout

/-- Memory for two gapped items, a flag, and the number in the place of a pointer. -/
def overlaidView : View :=
  .ofBytes .host (Array.ofFn fun i : Fin 24 => BitVec.ofNat 8 (i.val % 2))

theorem writable_overlaid : overlaidView.Writable Config.standard.platform :=
  ⟨⟨rfl, fun _ => rfl⟩, fun _ => rfl⟩

/-- One item, where two have their place. -/
def shortRowRecord : Record :=
  ⟨[⟨"row", .record ⟨[⟨"items", .array [.record ⟨[⟨"b", .int 3⟩]⟩]⟩]⟩⟩, ⟨"next", .uint 7⟩]⟩

theorem write_accepts_overlaid :
    ¬ (Value.record shortRowRecord).ConformsTo (.record overlaidLayout) ∧
      ∃ r, overlaidLayout.read overlaidView = .ok r ∧
        (overlaidLayout.write true r overlaidView).1 = .ok () := by
  obtain ⟨hok, -, hread⟩ := Layout.write_accepts
    (show Config.standard.validate = .ok () by decide) built_overlaid writable_overlaid
    (show 24 ≤ overlaidView.size from Nat.le_refl 24) true
  have hshort : (overlaidLayout.write true shortRowRecord overlaidView).1 =
      .error (.inRecord ⟨"overlaid"⟩ .null
        (.inRecord ⟨"row"⟩ .null (.arrayLength "items" 2 1))) := rfl
  refine ⟨fun h => ?_, _, rfl, (hread overlaidView _ rfl).2⟩
  cases hshort.symm.trans ((hok _).2 h)

end NativeRecord
