import NativeRecord.Proofs.Transfer.ForeignViews
import NativeRecord.Proofs.Transfer.Widths

/-!
# Where a failure happened

A failed transfer reports the records that it was in, from the outermost one on, each with the
address at which it starts.  The report can be followed: every record in it lies in the one before,
at the distance of the addresses, and what failed belongs to the innermost one.

A report is built from the inside: each record on the way puts its tag and its address around the
failure that comes up.  `Traces` follows it from the outside, with one constructor for a record that
reports a fault of its own and one for a record that hands a report on.  The second one demands that
the inner record is a slot of the outer one, at a distance which is that of the addresses.

Reads are followed by induction over the shape.  Writes change the view as they go, so a step that
fails does so on a view with other content; but no write looks at the content, and the fault can be
stated on the view that was given (`Slot.write_confined_anywhere`).  Nothing is asked of the layout
or the view.

## What is here

* `TransferError.Plain` — failures that are not reported of a record.
* `Layout.OwnSlot` — the slots of a record that lie in no other record: its members, and the items
  of arrays among these.
* `Layout.ReadFault`, `Slot.Refuses`, `WriteFault` — what fails in a record itself.
* `Traces` — a report that leads from a record to the one that a fault happened in.
* `Layout.failures_traced` — the failures of reading and writing are such reports.
-/

set_option autoImplicit false
namespace NativeRecord

open Writing

/-! ## Failures of no record

A report ends where the failure is none of a record, and for this the failures of single accesses
and of checks have to be known as such. -/

/-- The failure is not the report of a record. -/
def TransferError.Plain (e : TransferError) : Prop :=
  ∀ tag start cause, e ≠ .inRecord tag start cause

section Plain

variable {e : TransferError} {limit offset : Nat}

theorem plain_noSuchName (name : String) : (TransferError.noSuchName name).Plain := by
  rintro _ _ _ ⟨⟩

/-- A field out of bounds is not reported of a record. -/
theorem plain_of_checkWithin {length : Nat} (h : checkWithin offset length limit = .error e) :
    e.Plain := by
  rw [checkWithin] at h
  split at h <;> cases h
  rintro _ _ _ ⟨⟩

/-- Nor is a failed access to memory. -/
theorem plain_of_liftAccess {α : Type} {x : Except AccessError α} (h : liftAccess x = .error e) :
    e.Plain := by
  cases x <;> cases h
  rintro _ _ _ ⟨⟩

/-- Reading a scalar or a bit-field fails in no record. -/
theorem Slot.plain_of_read {v : View} {type : Scalar} {size : Nat} {alignment : Alignment}
    {bits : Option BitRange}
    (h : Slot.read v limit ⟨.scalar type size alignment, bits⟩ offset = .error e) : e.Plain := by
  have hload {α : Type} {x : Except AccessError α} {f : α → Value}
      (h : (do return f (← liftAccess x) : Except TransferError Value) = .error e) : e.Plain := by
    rcases except_bind_eq_error.1 h with h | ⟨_, -, ⟨⟩⟩
    exact plain_of_liftAccess h
  cases bits with
  | some range =>
    rcases except_bind_eq_error.1 h with h | ⟨_, -, h⟩
    · exact plain_of_checkWithin h
    · exact hload h
  | none =>
    rcases except_bind_eq_error.1 h with h | ⟨_, -, h⟩
    · exact plain_of_checkWithin h
    · cases type <;> exact hload h

/-- The failures of the step are reported of no record. -/
def Writing.FailsPlainly (step : Writing Unit) : Prop :=
  ∀ v e, (step.run v).1 = .error e → e.Plain

namespace Writing.FailsPlainly

theorem access (f : View → Except AccessError Unit × View) : (access f).FailsPlainly := by
  intro v e h
  rw [run_access] at h
  exact plain_of_liftAccess h

theorem lift_bind {α : Type} {x : Except TransferError α} {f : α → Writing Unit}
    (herror : ∀ e, x = .error e → e.Plain) (h : ∀ a, (f a).FailsPlainly) :
    (liftM x >>= f : Writing Unit).FailsPlainly := by
  cases x with
  | error e =>
    rintro v _ ⟨⟩
    exact herror e rfl
  | ok a => exact h a

theorem bind {step next : Writing Unit} (hstep : step.FailsPlainly) (hnext : next.FailsPlainly) :
    (step >>= fun _ => next).FailsPlainly := by
  intro v e h
  rcases run_bind_eq_error.1 h with h | ⟨_, w, -, h⟩
  · exact hstep v e h
  · exact hnext w e h

end Writing.FailsPlainly

theorem zeroSpans_failsPlainly (limit start : Nat) (spans : List Span) :
    (zeroSpans limit start spans).FailsPlainly := by
  induction spans with
  | nil => rintro v e ⟨⟩
  | cons s spans ih =>
    exact .lift_bind (fun _ => plain_of_checkWithin) fun _ => .bind (.access _) ih

/-- Writing a scalar or a bit-field fails in no record. -/
theorem Slot.write_failsPlainly (field : String) (type : Scalar) (size : Nat)
    (alignment : Alignment) (bits : Option BitRange) (x : Value) :
    (Slot.write field limit ⟨.scalar type size alignment, bits⟩ offset x).FailsPlainly := by
  have hencode (e : TransferError) (h : encodeFor field type size x = .error e) : e.Plain := by
    rw [encodeFor] at h
    split at h <;> cases h
    rintro _ _ _ ⟨⟩
  cases bits with
  | some range =>
    exact .lift_bind (fun _ => plain_of_checkWithin) fun _ => .lift_bind hencode fun _ => .access _
  | none =>
    refine .lift_bind (fun _ => plain_of_checkWithin) fun _ => .lift_bind hencode fun w => ?_
    cases type <;> exact .access _

end Plain

/-! ## Steps from alike views

For each row of steps: where it fails, and that the view it fails on is like the one it started
from. -/

section Alike

variable {v w : View}

/-- Views that differ in their content at most get the same answer. -/
theorem Writing.Confined.answer_eq {step : Writing Unit} {S : Nat → Prop}
    (h : step.Confined v S) (hvw : v.Alike w) : (step.run w).1 = (step.run v).1 := by
  obtain ⟨answer, f, hsets, -⟩ := h
  rw [hsets w hvw, hsets v (.refl v)]

/-- Whatever the layout and the view, no write looks at the content of the view. -/
theorem Slot.write_confined_anywhere (v : View) (s : Shape) (bits : Option BitRange)
    (field : String) (limit offset : Nat) (x : Value) :
    (Slot.write field limit ⟨s, bits⟩ offset x).Confined v fun _ => True := by
  induction s using Shape.memberInduction generalizing bits field offset x with
  | scalar type size alignment =>
    cases bits with
    | some range => exact (writeBits_confined ..).mono fun _ _ => trivial
    | none =>
      refine .lift_bind fun _ _ => .lift_bind fun w _ => ?_
      cases type with
      | arith a => exact (store_confined ..).mono fun _ _ => trivial
      | pointer target => exact (storeAddress_confined ..).mono fun _ _ => trivial
  | record l ih =>
    show (Shape.write field limit (.record l) offset x).Confined v _
    cases x with
    | record r =>
      refine Layout.writeAt_confined nofun fun m hm x _ => ?_
      rw [m.write_slot]
      exact ih m hm ..
    | _ => exact .throw _
  | array element length ih =>
    show (Shape.write field limit (.array element length) offset x).Confined v _
    cases x with
    | array items =>
      rw [Shape.write]
      split
      · refine writeItems_confined fun i x _ => ?_
        rw [← Slot.write_plain]
        exact ih ..
      · exact .throw _
    | _ => exact .throw _

/-- Writing items fails at one of them, with the others before it written. -/
theorem writeItems_eq_error {write : Nat → Value → Writing Unit} {stride offset : Nat}
    {items : List Value} {e : TransferError}
    (halike : ∀ offset x (v : View), v.Alike ((write offset x).run v).2)
    (h : ((writeItems write stride offset items).run v).1 = .error e) :
    ∃ i x w, items[i]? = some x ∧ v.Alike w ∧
      ((write (offset + i * stride) x).run w).1 = .error e := by
  induction items generalizing offset v with
  | nil => cases h
  | cons x items ih =>
    rcases run_bind_eq_error.1 h with h | ⟨_, w, hrun, h⟩
    · exact ⟨0, x, v, rfl, .refl v, by rwa [Nat.zero_mul, Nat.add_zero]⟩
    · have hw := halike offset x v
      rw [hrun] at hw
      obtain ⟨i, y, u, hy, hu, herror⟩ := ih h
      exact ⟨i + 1, y, u, hy, hw.trans hu, by rwa [item_offset_succ]⟩

/-- Writing members fails at one of them, with others before it written. -/
theorem writeMembers_eq_error {ms : List MemberLayout} {limit start : Nat} {r : Record}
    {e : TransferError} (h : ((writeMembers limit ms start r).run v).1 = .error e) :
    ∃ m ∈ ms, ∃ x w, r.get? m.name = some x ∧ v.Alike w ∧
      ((m.write limit start x).run w).1 = .error e := by
  induction ms generalizing v with
  | nil => cases h
  | cons m ms ih =>
    rw [writeMembers_cons] at h
    cases hx : r.get? m.name with
    | none =>
      rw [hx] at h
      obtain ⟨m', hm', herror⟩ := ih h
      exact ⟨m', List.mem_cons_of_mem _ hm', herror⟩
    | some x =>
      rw [hx] at h
      rcases run_bind_eq_error.1 h with h | ⟨_, w, hrun, h⟩
      · exact ⟨m, List.mem_cons_self, x, v, hx, .refl v, h⟩
      · have hw : v.Alike w := by
          rw [Option.elim, m.write_slot] at hrun
          exact (Slot.write_confined_anywhere ..).alike_of_run hrun
        obtain ⟨m', hm', y, u, hy, hu, herror⟩ := ih h
        exact ⟨m', List.mem_cons_of_mem _ hm', y, u, hy, hw.trans hu, herror⟩

/-- Writing a record fails at its names, at its padding or at a member, and the failure is reported
of the record. -/
theorem Layout.writeAt_eq_error {l : Layout} {limit start : Nat} {zeroFill : Bool} {r : Record}
    {e : TransferError} (h : ((l.writeAt limit zeroFill start r).run v).1 = .error e) :
    ∃ cause, e = .inRecord l.tag (v.base.advance start) cause ∧
      ((∃ name, unknownName? l.members r = some name ∧ cause = .noSuchName name) ∨
        zeroFill = true ∧ ((zeroSpans limit start l.padding).run v).1 = .error cause ∨
        ∃ m ∈ l.members, ∃ x w, r.get? m.name = some x ∧ v.Alike w ∧
          ((m.write limit start x).run w).1 = .error cause) := by
  have halike : v.Alike ((l.writeAt limit zeroFill start r).run v).2 := by
    refine (writeAt_confined (S := fun _ => True) (fun _ => ?_) fun m _ x _ => ?_).alike
    · exact (zeroSpans_confined ..).mono fun _ _ => trivial
    · rw [m.write_slot]
      exact Slot.write_confined_anywhere ..
  rw [writeAt_eq, run_within] at h halike
  rw [halike.base_eq] at h
  obtain ⟨cause, hcause, rfl⟩ := except_mapError_eq_error.1 h
  refine ⟨cause, rfl, ?_⟩
  cases hknown : unknownName? l.members r with
  | some name =>
    rw [hknown] at hcause
    cases hcause
    exact .inl ⟨name, rfl, rfl⟩
  | none =>
    simp only [hknown] at hcause
    cases zeroFill with
    | false => exact .inr (.inr (writeMembers_eq_error hcause))
    | true =>
      rcases run_bind_eq_error.1 hcause with hcause | ⟨_, u, hzero, hcause⟩
      · exact .inr (.inl ⟨rfl, hcause⟩)
      · have hu := (zeroSpans_confined ..).alike_of_run hzero
        obtain ⟨m, hm, x, w, hx, hw, herror⟩ := writeMembers_eq_error hcause
        exact .inr (.inr ⟨m, hm, x, w, hx, hu.trans hw, herror⟩)

end Alike

/-! ## Slots of a record

Members, items of arrays, items of arrays of arrays, and so on, but nothing inside another record:
what fails there is reported by that record. -/

/-- Without crossing another record, the steps lead to a slot at a distance from the start of the
record.  It is a member, whose name is given, or an item of an array that is such a slot. -/
inductive Layout.OwnSlot (l : Layout) : (name : String) → List Step → Slot → Nat → Prop
  | member {m : MemberLayout} (hm : m ∈ l.members) :
      OwnSlot l m.name [.field m.name] m.slot m.offset
  | item {name : String} {steps : List Step} {element : Shape} {length : Nat}
      {bits : Option BitRange} {distance i : Nat}
      (h : OwnSlot l name steps ⟨.array element length, bits⟩ distance) (hi : i < length) :
      OwnSlot l name (steps ++ [.item i]) ⟨element, none⟩ (distance + i * element.size)

/-! ## Faults

A fault is what is wrong in one record, without the records around it.  For reading it is a scalar
that cannot be read.  For writing it may also be the value: a name that is unknown, a value of the
wrong sort, or an array of the wrong length. -/

/-- Reading fails at a scalar or a bit-field of the record that starts at `start`. -/
def Layout.ReadFault (v : View) (limit : Nat) (l : Layout) (start : Nat) (e : TransferError) :
    Prop :=
  ∃ name steps type size alignment bits distance,
    l.OwnSlot name steps ⟨.scalar type size alignment, bits⟩ distance ∧
      Slot.read v limit ⟨.scalar type size alignment, bits⟩ (start + distance) = .error e

/-- A value cannot be written to the slot at an offset, for a reason that is not found in another
record. -/
inductive Slot.Refuses (v : View) (limit : Nat) (field : String) (offset : Nat) :
    Slot → Value → TransferError → Prop
  /-- Writing the scalar or the bit-field fails. -/
  | scalar {type : Scalar} {size : Nat} {alignment : Alignment} {bits : Option BitRange} {x : Value}
      {e : TransferError}
      (h : ((Slot.write field limit ⟨.scalar type size alignment, bits⟩ offset x).run v).1 =
        .error e) :
      Refuses v limit field offset ⟨.scalar type size alignment, bits⟩ x e
  /-- The value is no record. -/
  | record {l : Layout} {bits : Option BitRange} {x : Value} (hx : x.sort ≠ .record) :
      Refuses v limit field offset ⟨.record l, bits⟩ x
        (.kindMismatch field (.type (.record l.tag)) (.value x.sort))
  /-- The value is no array. -/
  | array {element : Shape} {length : Nat} {bits : Option BitRange} {x : Value}
      (hx : x.sort ≠ .array) :
      Refuses v limit field offset ⟨.array element length, bits⟩ x
        (.kindMismatch field .array (.value x.sort))
  /-- The array has another length. -/
  | length {element : Shape} {length : Nat} {bits : Option BitRange} {items : List Value}
      (h : items.length ≠ length) :
      Refuses v limit field offset ⟨.array element length, bits⟩ (.array items)
        (.arrayLength field length items.length)

/-- What can be wrong in a record when a view is written: in the one at the end of the path, which
starts at `start`, when `r` is written to the outermost one. -/
inductive WriteFault (v : View) (outer : Layout) (zeroFill : Bool) (r : Record) :
    (path : List Step) → Layout → (start : Nat) → TransferError → Prop
  /-- A name in its value is unknown. -/
  | name {path : List Step} {l : Layout} {start : Nat} {given : Record} {name : String}
      (hgiven : (Value.record r).at? path = some (.record given))
      (h : unknownName? l.members given = some name) :
      WriteFault v outer zeroFill r path l start (.noSuchName name)
  /-- The padding of the outermost record cannot be zeroed. -/
  | padding {e : TransferError} (hzero : zeroFill = true)
      (h : ((zeroSpans outer.size 0 outer.padding).run v).1 = .error e) :
      WriteFault v outer zeroFill r [] outer 0 e
  /-- The value of one of its slots cannot be written there. -/
  | slot {path : List Step} {l : Layout} {start : Nat} {given : Record} {name : String}
      {steps : List Step} {slot : Slot} {distance : Nat} {x : Value} {e : TransferError}
      (hgiven : (Value.record r).at? path = some (.record given))
      (hslot : l.OwnSlot name steps slot distance)
      (hx : (Value.record given).at? steps = some x)
      (h : slot.Refuses v outer.size name (start + distance) x e) :
      WriteFault v outer zeroFill r path l start e

/-! ## Reports

Addresses are advanced modulo the size of the address space, so that the distance between two of
them makes sense also for a view at its end. -/

/-- The failure is the report of a record that starts at `start` and has this address: of a fault of
its own, or of the report of a record that is one of its slots, at the slot's distance.  The path
leads from the outermost record to this one. -/
inductive Traces (Fault : List Step → Layout → Nat → TransferError → Prop) :
    (path : List Step) → Layout → (start : Nat) → Address → TransferError → Prop
  | here {path : List Step} {l : Layout} {start : Nat} {a : Address} {e : TransferError}
      (hplain : e.Plain) (h : Fault path l start e) :
      Traces Fault path l start a (.inRecord l.tag a e)
  | inside {path : List Step} {l : Layout} {start : Nat} {a : Address} {name : String}
      {steps : List Step} {inner : Layout} {bits : Option BitRange} {distance : Nat}
      {e : TransferError} (hslot : l.OwnSlot name steps ⟨.record inner, bits⟩ distance)
      (h : Traces Fault (path ++ steps) inner (start + distance) (a.advance distance) e) :
      Traces Fault path l start a (.inRecord l.tag a e)

/-- What a slot refuses, it refuses by itself. -/
theorem Slot.Refuses.plain {v : View} {limit offset : Nat} {field : String} {s : Slot} {x : Value}
    {e : TransferError} (h : s.Refuses v limit field offset x e) : e.Plain := by
  cases h with
  | scalar h => exact Slot.write_failsPlainly _ _ _ _ _ _ _ _ h
  | record | array | length => rintro _ _ _ ⟨⟩

namespace Layout

/-- What a slot of the record refuses is a fault of the record. -/
theorem OwnSlot.traces_refused {v : View} {outer : Layout} {zeroFill : Bool} {r given : Record}
    {l : Layout} {name : String} {steps : List Step} {s : Slot} {distance : Nat}
    (hslot : l.OwnSlot name steps s distance) {path : List Step}
    (hgiven : (Value.record r).at? path = some (.record given)) {x : Value}
    (hx : (Value.record given).at? steps = some x) {start : Nat} {a : Address} {e : TransferError}
    (h : s.Refuses v outer.size name (start + distance) x e) :
    Traces (WriteFault v outer zeroFill r) path l start a (.inRecord l.tag a e) :=
  .here h.plain (.slot hgiven hslot hx h)

/-- **A failed read of a slot leads to a fault.** -/
theorem OwnSlot.traces_read {v : View} {limit : Nat} {l : Layout} {name : String}
    {steps : List Step} {s : Shape} {bits : Option BitRange} {distance : Nat}
    (hslot : l.OwnSlot name steps ⟨s, bits⟩ distance) {path : List Step} {start : Nat}
    {e : TransferError} (h : Slot.read v limit ⟨s, bits⟩ (start + distance) = .error e) :
    Traces (fun _ => ReadFault v limit) path l start (v.base.advance start)
      (.inRecord l.tag (v.base.advance start) e) := by
  induction s using Shape.memberInduction
    generalizing l name steps bits distance path start e with
  | scalar type size alignment =>
    exact .here (Slot.plain_of_read h) ⟨_, _, _, _, _, _, _, hslot, h⟩
  | record inner ih =>
    obtain ⟨m, hm, cause, hcause, rfl⟩ := readAt_eq_error (Shape.readAt_of_error h)
    refine .inside hslot ?_
    rw [Address.advance_advance]
    rw [m.read_slot] at hcause
    exact ih m hm (.member hm) hcause
  | array element length ih =>
    have h : Shape.read v limit (.array element length) (start + distance) = .error e := h
    rw [Shape.read] at h
    rcases except_bind_eq_error.1 h with h | ⟨_, -, h⟩
    · obtain ⟨i, hi, h⟩ := readItems_eq_error h
      refine ih (hslot.item hi) ?_
      rwa [Slot.read_plain, ← Nat.add_assoc]
    · cases h

/-- **A failed write to a slot leads to a fault,** from whichever content of the view. -/
theorem OwnSlot.traces_write {v w : View} {outer : Layout} {zeroFill : Bool} {r given : Record}
    {l : Layout} {name : String} {steps : List Step} {s : Shape} {bits : Option BitRange}
    {distance : Nat} (hslot : l.OwnSlot name steps ⟨s, bits⟩ distance) {path : List Step}
    (hgiven : (Value.record r).at? path = some (.record given)) {x : Value}
    (hx : (Value.record given).at? steps = some x) {start : Nat} {e : TransferError}
    (hw : v.Alike w)
    (h : ((Slot.write name outer.size ⟨s, bits⟩ (start + distance) x).run w).1 = .error e) :
    Traces (WriteFault v outer zeroFill r) path l start (v.base.advance start)
      (.inRecord l.tag (v.base.advance start) e) := by
  induction s using Shape.memberInduction
    generalizing l name steps bits distance path start given x w e with
  | scalar type size alignment =>
    rw [(Slot.write_confined_anywhere ..).answer_eq hw] at h
    exact hslot.traces_refused hgiven hx (.scalar h)
  | record inner ih =>
    have h : ((Shape.write name outer.size (.record inner) (start + distance) x).run w).1 =
      .error e := h
    cases x with
    | record given' =>
      have hgiven' : (Value.record r).at? (path ++ steps) = some (.record given') :=
        (Value.at?_append hgiven).trans hx
      obtain ⟨cause, rfl, hcause⟩ := writeAt_eq_error h
      rw [hw.base_eq]
      refine .inside hslot ?_
      rw [Address.advance_advance]
      rcases hcause with ⟨unknown, hunknown, rfl⟩ | ⟨⟨⟩, -⟩ | ⟨m, hm, y, u, hy, hu, hcause⟩
      · exact .here (plain_noSuchName unknown) (.name hgiven' hunknown)
      · rw [m.write_slot] at hcause
        exact ih m hm (.member hm) hgiven' (by rw [Value.at?, Value.part?, hy]; rfl) (hw.trans hu)
          hcause
    | _ => cases h; exact hslot.traces_refused hgiven hx (.record (by rintro ⟨⟩))
  | array element length ih =>
    have h : ((Shape.write name outer.size (.array element length) (start + distance) x).run w).1 =
      .error e := h
    cases x with
    | array items =>
      rw [Shape.write] at h
      split at h
      · rename_i hlength
        obtain ⟨i, y, u, hy, hu, hcause⟩ := writeItems_eq_error (fun offset x u => by
          rw [← Slot.write_plain]; exact (Slot.write_confined_anywhere ..).alike) h
        have hi : i < length := hlength ▸ (List.getElem?_eq_some_iff.1 hy).1
        have hx' : (Value.record given).at? (steps ++ [.item i]) = some y := by
          rw [Value.at?_append hx, Value.at?, Value.part?, hy]
          rfl
        rw [← Slot.write_plain, Nat.add_assoc] at hcause
        exact ih (hslot.item hi) hgiven hx' (hw.trans hu) hcause
      · rename_i hlength
        cases h
        exact hslot.traces_refused hgiven hx (.length hlength)
    | _ => cases h; exact hslot.traces_refused hgiven hx (.array (by rintro ⟨⟩))

/-- **The failures of reading and of writing a record name the records that lead to the fault,**
with their addresses: for every layout and every view, wherever its accesses fail. -/
theorem failures_traced (l : Layout) (v : View) :
    (∀ e, l.read v = .error e → Traces (fun _ => ReadFault v l.size) [] l 0 v.base e) ∧
      ∀ zeroFill r e, (l.write zeroFill r v).1 = .error e →
        Traces (WriteFault v l zeroFill r) [] l 0 v.base e := by
  constructor
  · intro e h
    have hrun : (l.readAt v l.size 0 .empty).1 = .error e := by
      rw [read, readInto] at h
      split at h <;> cases h
      rename_i hrun
      rw [hrun]
    obtain ⟨m, hm, cause, hcause, rfl⟩ := readAt_eq_error hrun
    rw [m.read_slot] at hcause
    have htraced : Traces (fun _ => ReadFault v l.size) [] l 0 (v.base.advance 0) _ :=
      (OwnSlot.member hm).traces_read hcause
    rwa [Address.advance_zero] at htraced ⊢
  · intro zeroFill r e h
    obtain ⟨cause, rfl, hcause⟩ := writeAt_eq_error h
    rcases hcause with ⟨unknown, hunknown, rfl⟩ | ⟨hzero, hcause⟩ | ⟨m, hm, x, w, hx, hw, hcause⟩
    · rw [Address.advance_zero]
      exact .here (plain_noSuchName unknown) (.name rfl hunknown)
    · rw [Address.advance_zero]
      exact .here (zeroSpans_failsPlainly _ _ _ _ _ hcause) (.padding hzero hcause)
    · rw [m.write_slot] at hcause
      have htraced : Traces (WriteFault v l zeroFill r) [] l 0 (v.base.advance 0) _ :=
        (OwnSlot.member hm).traces_write rfl (by rw [Value.at?, Value.part?, hx]; rfl) hw hcause
      rwa [Address.advance_zero] at htraced ⊢

end Layout

/-! ## A failure two records deep -/

/-- The second item of the row has a value for a name that items do not have. -/
def strayNameRecord : Record :=
  ⟨[⟨"row", .record ⟨[⟨"items", .array [.record ⟨[]⟩, .record ⟨[⟨"c", .uint 1⟩]⟩]⟩]⟩⟩]⟩

/-- The last two bytes of the address space before it wraps, and what follows; the number in the
second item of the row cannot be read. -/
def wrappedView : View :=
  { overlaidView with base := ⟨0xFFFFFFFFFFFFFFFE⟩, readFails := (· == 6) }

/-- The row starts where the record does, and its second item 4 bytes on. -/
theorem failures_traced_overlaid :
    let trace (cause : TransferError) : TransferError :=
      .inRecord ⟨"overlaid"⟩ ⟨0xFFFFFFFFFFFFFFFE⟩ (.inRecord ⟨"row"⟩ ⟨0xFFFFFFFFFFFFFFFE⟩
        (.inRecord ⟨"gapped"⟩ ⟨2⟩ cause))
    let read := trace (.memory (.readFailed 6))
    let write := trace (.noSuchName "c")
    Built .standard overlaidLayout ∧
      Traces (fun _ => Layout.ReadFault wrappedView 24) [] overlaidLayout 0 wrappedView.base read ∧
      Traces (WriteFault wrappedView overlaidLayout true strayNameRecord) [] overlaidLayout 0
        wrappedView.base write :=
  ⟨built_overlaid, (Layout.failures_traced overlaidLayout wrappedView).1 _ rfl,
    (Layout.failures_traced overlaidLayout wrappedView).2 true strayNameRecord _ rfl⟩

end NativeRecord
