import NativeRecord.Proofs.Run
import NativeRecord.Proofs.Transfer.Conformance

/-!
# The order of entries

A record keeps its entries in the order in which they came in, but it is written in the order of the
layout.  The order of entries only shows where a record has several names that the layout does not
know: the first of them is reported.

The entries are looked up by name, and the names and the values for them are the same in both
records; so all that is done for a member is the same up to the order of entries in its value.  The
unknown name is the exception, because it is found by going through the entries.  Both records have
one or neither has, but which of several comes first is a matter of the order.

So the two writes are compared by a relation that lets failures differ in such a name, `Twins`.  It
is shown by induction over how the values are reordered, and not over the slot, which may well be
one that takes neither of the values.

## What is here

* `Value.Reordered` — values that are the same but for the order of entries, at any depth.
* `Value.HoldsUnknown` — two unknown names in one record, at any depth.
* `TransferError.SameButName`, `Writing.Twins` — failures that are the same but for an unknown name,
  and steps that do the same but for such failures.
* `Slot.write_twins`, `Layout.write_reordered` — reordered values are written alike.
-/

set_option autoImplicit false
namespace NativeRecord

/-! ## Reordered values

Items of an array stay in their order, since an item is found by its index.  Entries are paired up
by their names. -/

/-- The values are the same but for the order of entries: records have the same names in some order,
with reordered values for each of them, and arrays have reordered items in the same order. -/
inductive Value.Reordered : Value → Value → Prop
  | same (x : Value) : Reordered x x
  | record {r s : Record} (hnames : r.names.Perm s.names)
      (h : ∀ a ∈ r.entries, ∀ b ∈ s.entries, a.name = b.name → Reordered a.value b.value) :
      Reordered (.record r) (.record s)
  | array {xs ys : List Value} (hlength : xs.length = ys.length)
      (h : ∀ (i : Nat) x y, xs[i]? = some x → ys[i]? = some y → Reordered x y) :
      Reordered (.array xs) (.array ys)

/-- Values may be reordered entry by entry, and then the entries, if no name comes twice. -/
theorem Value.reordered_of_perm {r t s : Record} (hnames : t.names.Nodup)
    (hvalues : List.Forall₂ (fun a b => a.name = b.name ∧ a.value.Reordered b.value)
      r.entries t.entries) (h : t.entries.Perm s.entries) :
    (Value.record r).Reordered (.record s) := by
  have hsame : r.names = t.names := map_eq_map_of_forall₂ (fun _ _ hab => hab.1) hvalues
  refine .record (hsame ▸ h.map _) fun a ha b hb hab => ?_
  obtain ⟨b', hb', hname, hvalue⟩ := exists_mem_of_forall₂ hvalues.flip ha
  obtain rfl := List.inj_on_of_nodup_map hnames hb' (h.mem_iff.2 hb) (hname.symm.trans hab)
  exact hvalue

/-- Two names of one record in the value, at any depth, that the layout there does not know. -/
inductive Value.HoldsUnknown (a b : String) : Value → Shape → Prop
  | here {r : Record} {l : Layout} (hne : a ≠ b) (ha : a ∈ r.names) (hb : b ∈ r.names)
      (hunknown : ∀ m ∈ l.members, m.name ≠ a ∧ m.name ≠ b) :
      HoldsUnknown a b (.record r) (.record l)
  | member {r : Record} {l : Layout} {m : MemberLayout} {x : Value} (hm : m ∈ l.members)
      (hx : r.get? m.name = some x) (h : HoldsUnknown a b x m.shape) :
      HoldsUnknown a b (.record r) (.record l)
  | item {items : List Value} {element : Shape} {length i : Nat} {x : Value}
      (hx : items[i]? = some x) (h : HoldsUnknown a b x element) :
      HoldsUnknown a b (.array items) (.array element length)

namespace Record

variable {r s : Record}

/-- Records with the same names have values for the same names. -/
theorem get?_of_perm (hnames : r.names.Perm s.names) (name : String) :
    r.get? name = none ∧ s.get? name = none ∨
      ∃ a ∈ r.entries, ∃ b ∈ s.entries, a.name = b.name ∧
        r.get? name = some a.value ∧ s.get? name = some b.value := by
  have hsome : (lookup? Entry.name name r.entries).isSome ↔
      (lookup? Entry.name name s.entries).isSome := by
    rw [isSome_lookup?_iff, isSome_lookup?_iff]
    exact hnames.mem_iff
  cases hr : lookup? Entry.name name r.entries with
  | none =>
    rw [hr] at hsome
    have hs : lookup? Entry.name name s.entries = none := by simpa using hsome
    exact .inl ⟨by rw [get?, hr]; rfl, by rw [get?, hs]; rfl⟩
  | some a =>
    obtain ⟨b, hs⟩ := Option.isSome_iff_exists.1 (hsome.1 (by rw [hr]; rfl))
    refine .inr ⟨a, mem_of_lookup? hr, b, mem_of_lookup? hs, ?_, by rw [get?, hr]; rfl,
      by rw [get?, hs]; rfl⟩
    rw [key_of_lookup? hr, key_of_lookup? hs]

end Record

/-! ## Failures

The reports of the records around an unknown name are the same, as the records are.  The predicate
says which two names may be reported for each other. -/

/-- The failures are the same, or two unknown names of which the predicate holds are reported within
the same records. -/
inductive TransferError.SameButName (P : String → String → Prop) :
    TransferError → TransferError → Prop
  | same (e : TransferError) : SameButName P e e
  | name {a b : String} (h : P a b) : SameButName P (.noSuchName a) (.noSuchName b)
  | inRecord (tag : Tag) (start : Address) {e e' : TransferError} (h : SameButName P e e') :
      SameButName P (.inRecord tag start e) (.inRecord tag start e')

/-- Without such names, the failures are the same. -/
theorem TransferError.SameButName.eq {P : String → String → Prop} {e e' : TransferError}
    (h : SameButName P e e') (hP : ∀ a b, ¬ P a b) : e = e' := by
  induction h with
  | same => rfl
  | name h => exact absurd h (hP _ _)
  | inRecord tag start _ ih => rw [ih]

/-- Without such names, the outcomes are the same. -/
theorem TransferError.SameButName.eq_of_outcomes {P : String → String → Prop}
    {x y : Except TransferError Unit} (h : Outcomes (SameButName P) Eq x y)
    (hP : ∀ a b, ¬ P a b) : x = y := by
  cases h with
  | ok h => rw [h]
  | error h => rw [h.eq hP]

namespace Writing

/-- From every view, the steps lead to the same view, and both succeed or both fail, with the same
failure but for unknown names. -/
abbrev Twins (P : String → String → Prop) (step step' : Writing Unit) : Prop :=
  (Comparison.together fun _ => True).Relates (TransferError.SameButName P) Eq step step'

variable {P : String → String → Prop} {step step' : Writing Unit}

theorem twins_iff :
    Twins P step step' ↔ ∀ v,
      Outcomes (TransferError.SameButName P) Eq (step.run v).1 (step'.run v).1 ∧
        (step.run v).2 = (step'.run v).2 :=
  forall_congr' fun _ =>
    ⟨fun h => ⟨(h trivial).1, (h trivial).2.1⟩, fun h _ => ⟨h.1, h.2, trivial⟩⟩

theorem Twins.refl (step : Writing Unit) : Twins P step step :=
  twins_iff.2 fun _ => ⟨.self (fun _ => rfl) fun e _ => .same e, rfl⟩

theorem Twins.of_eq (h : step = step') : Twins P step step' := h ▸ .refl step

theorem Twins.within (tag : Tag) (start : Nat) (h : Twins P step step') :
    Twins P (within tag start step) (within tag start step') := by
  refine twins_iff.2 fun v => ?_
  obtain ⟨houtcomes, hview⟩ := twins_iff.1 h v
  rw [run_within, run_within, hview]
  exact ⟨houtcomes.mapError fun _ _ h => .inRecord _ _ h, rfl⟩

end Writing

open Writing

/-! ## Writing

Scalars first, which take neither records nor arrays, then rows of items and of members, and records
around them. -/

section Write

variable {P : String → String → Prop} {limit start offset : Nat}

/-- Scalars take no record and no array. -/
theorem Scalar.takes_composite (type : Scalar) :
    type.takes .record = false ∧ type.takes .array = false := by
  cases type with
  | pointer target => exact ⟨rfl, rfl⟩
  | arith a =>
    cases a with
    | float n => cases n <;> exact ⟨rfl, rfl⟩
    | _ => exact ⟨rfl, rfl⟩

/-- Values of one sort that a scalar does not take fail alike in it. -/
theorem Slot.write_scalar_congr {type : Scalar} {size : Nat} {alignment : Alignment}
    {bits : Option BitRange} {x y : Value} (hsort : x.sort = y.sort)
    (htakes : type.takes x.sort = false) (field : String) :
    Slot.write field limit ⟨.scalar type size alignment, bits⟩ offset x =
      Slot.write field limit ⟨.scalar type size alignment, bits⟩ offset y := by
  have hnone (z : Value) (hz : type.takes z.sort = false) : type.encode? size z = none := by
    rw [← Option.not_isSome_iff_eq_none, type.isSome_encode?, hz]
    exact Bool.false_ne_true
  have hencode : encodeFor field type size x = encodeFor field type size y := by
    rw [encodeFor, encodeFor, hnone x htakes, hnone y (hsort ▸ htakes), hsort]
  cases bits with
  | none => simp only [write, bitField?, Shape.write, writeScalar, hencode]
  | some range => simp only [write, bitField?, writeBits, hencode]

/-- Items that are written alike one by one are so in a row. -/
theorem writeItems_twins {write : Nat → Value → Writing Unit} {stride : Nat} {xs ys : List Value}
    (hlength : xs.length = ys.length)
    (h : ∀ (i : Nat) x y, xs[i]? = some x → ys[i]? = some y → ∀ offset,
      Twins P (write offset x) (write offset y)) :
    Twins P (writeItems write stride offset xs) (writeItems write stride offset ys) := by
  induction xs generalizing ys offset with
  | nil => cases ys with
    | nil => exact .refl _
    | cons => cases hlength
  | cons x xs ih =>
    cases ys with
    | nil => cases hlength
    | cons y ys =>
      rw [writeItems, writeItems]
      refine .bind (h 0 x y rfl rfl offset) fun _ _ _ => ih (Nat.succ.inj hlength) ?_
      exact fun i x' y' hx hy => h (i + 1) x' y' hx hy

/-- Members that are written alike one by one are so in a row. -/
theorem writeMembers_twins {ms : List MemberLayout} {r s : Record}
    (h : ∀ m ∈ ms, Twins P ((r.get? m.name).elim (pure ()) (m.write limit start))
      ((s.get? m.name).elim (pure ()) (m.write limit start))) :
    Twins P (writeMembers limit ms start r) (writeMembers limit ms start s) := by
  induction ms with
  | nil => exact .refl _
  | cons m ms ih =>
    obtain ⟨hm, hms⟩ := List.forall_mem_cons.1 h
    rw [writeMembers_cons, writeMembers_cons]
    exact .bind hm fun _ _ _ => ih hms

/-- The name that is reported is one of the record's, and no member has it. -/
theorem of_unknownName? {ms : List MemberLayout} {r : Record} {name : String}
    (h : unknownName? ms r = some name) : name ∈ r.names ∧ ∀ m ∈ ms, m.name ≠ name :=
  ⟨List.mem_of_find?_eq_some h, by simpa using List.find?_some h⟩

/-- Records with the same names are written alike if their values are, but for unknown names that
they have. -/
theorem Layout.writeAt_twins {l : Layout} {r s : Record} (hnames : r.names.Perm s.names)
    (hP : ∀ a b, (Value.record r).HoldsUnknown a b (.record l) → P a b)
    (h : ∀ m ∈ l.members, ∀ a ∈ r.entries, ∀ b ∈ s.entries, a.name = b.name →
      r.get? m.name = some a.value → Twins P (m.write limit start a.value)
        (m.write limit start b.value)) (zeroFill : Bool) :
    Twins P (l.writeAt limit zeroFill start r) (l.writeAt limit zeroFill start s) := by
  have hmembers : Twins P (writeMembers limit l.members start r)
      (writeMembers limit l.members start s) := by
    refine writeMembers_twins fun m hm => ?_
    obtain ⟨hr, hs⟩ | ⟨a, ha, b, hb, hab, hr, hs⟩ := Record.get?_of_perm hnames m.name
    · rw [hr, hs]
      exact .refl _
    · rw [hr, hs]
      exact h m hm a ha b hb hab hr
  rw [writeAt_eq, writeAt_eq]
  refine .within _ _ ?_
  cases hr : unknownName? l.members r with
  | none =>
    have hs : unknownName? l.members s = none := by
      rw [unknownName?_eq_none_iff] at hr ⊢
      exact fun name hname => hr name (hnames.mem_iff.2 hname)
    rw [hs]
    cases zeroFill with
    | false => exact hmembers
    | true => exact .bind (Twins.refl _) fun _ _ _ => hmembers
  | some a =>
    obtain ⟨ha, hunknown⟩ := of_unknownName? hr
    cases hs : unknownName? l.members s with
    | none =>
      obtain ⟨m, hm, hname⟩ := unknownName?_eq_none_iff.1 hs a (hnames.mem_iff.1 ha)
      exact absurd hname (hunknown m hm)
    | some b =>
      obtain ⟨hb, hunknown'⟩ := of_unknownName? hs
      -- Each record reports the first of its unknown names, and both records have both names.
      by_cases hab : a = b
      · subst hab
        exact .refl _
      · exact .throw (.name (hP a b (.here hab ha (hnames.mem_iff.2 hb) fun m hm =>
          ⟨hunknown m hm, hunknown' m hm⟩)))

/-- **Reordered values are written alike,** but for unknown names. -/
theorem Slot.write_twins {x y : Value} (h : x.Reordered y) (s : Slot)
    (hP : ∀ a b, x.HoldsUnknown a b s.shape → P a b) (field : String) :
    Twins P (s.write field limit offset x) (s.write field limit offset y) := by
  -- The induction is on how the values are reordered; the slot may be one that takes neither.
  induction h generalizing s field offset with
  | same x => exact .refl _
  | @record r r' hnames _ ih =>
    obtain ⟨shape, bits⟩ := s
    cases shape with
    | scalar type =>
      exact .of_eq (write_scalar_congr (by rfl) type.takes_composite.1 field)
    | array => exact .refl _
    | record l =>
      refine Layout.writeAt_twins hnames hP (fun m hm a ha b hb hab hget => ?_) false
      rw [m.write_slot, m.write_slot]
      exact ih a ha b hb hab m.slot (fun _ _ hunknown => hP _ _ (.member hm hget hunknown)) m.name
  | @array xs ys hlength _ ih =>
    obtain ⟨shape, bits⟩ := s
    cases shape with
    | scalar type =>
      exact .of_eq (write_scalar_congr (by rfl) type.takes_composite.2 field)
    | record => exact .refl _
    | array element length =>
      show Twins P (Shape.write field limit (.array element length) offset (.array xs))
        (Shape.write field limit (.array element length) offset (.array ys))
      rw [Shape.write, Shape.write, hlength]
      split
      · refine writeItems_twins hlength fun i x y hx hy offset => ?_
        rw [← write_plain, ← write_plain]
        exact ih i x y hx hy ⟨element, none⟩ (fun _ _ hunknown => hP _ _ (.item hx hunknown)) field
      · exact .refl _

/-- **The order of entries, at any depth, shows in no byte and only in the failure of a record with
several unknown names.**  This is so for every layout and on every view, however long it is and
wherever its accesses fail. -/
theorem Layout.write_reordered (l : Layout) (zeroFill : Bool) (v : View) {r s : Record}
    (h : (Value.record r).Reordered (.record s)) :
    (l.write zeroFill r v).2 = (l.write zeroFill s v).2 ∧
      Outcomes (TransferError.SameButName fun a b =>
        (Value.record r).HoldsUnknown a b (.record l)) Eq
        (l.write zeroFill r v).1 (l.write zeroFill s v).1 ∧
      ((∀ a b, ¬ (Value.record r).HoldsUnknown a b (.record l)) →
        l.write zeroFill r v = l.write zeroFill s v) := by
  have htwins : Twins (fun a b => (Value.record r).HoldsUnknown a b (.record l))
      (l.writeAt l.size zeroFill 0 r) (l.writeAt l.size zeroFill 0 s) := by
    cases h with
    | same => exact .refl _
    | record hnames h =>
      refine writeAt_twins hnames (fun _ _ => id) (fun m hm a ha b hb hab hget => ?_) zeroFill
      rw [m.write_slot, m.write_slot]
      exact Slot.write_twins (h a ha b hb hab) m.slot
        (fun _ _ hunknown => .member hm hget hunknown) m.name
  obtain ⟨houtcomes, hview⟩ := twins_iff.1 htwins v
  exact ⟨hview, houtcomes, fun hknown =>
    Prod.ext (TransferError.SameButName.eq_of_outcomes houtcomes hknown) hview⟩

end Write

/-- Values for both members of the anonymous union, and in the row two names of its items. -/
def misplacedRecord : Record :=
  ⟨[⟨"next", .uint 7⟩, ⟨"raw", .uint 5⟩,
    ⟨"row", .record ⟨[⟨"a", .uint 1⟩, ⟨"flag", .bool true⟩, ⟨"b", .uint 2⟩]⟩⟩]⟩

/-- The same values, with all entries in the opposite order. -/
def reversedRecord : Record :=
  ⟨[⟨"row", .record ⟨[⟨"b", .uint 2⟩, ⟨"flag", .bool true⟩, ⟨"a", .uint 1⟩]⟩⟩, ⟨"raw", .uint 5⟩,
    ⟨"next", .uint 7⟩]⟩

theorem reordered_misplaced :
    (Value.record misplacedRecord).Reordered (.record reversedRecord) := by
  have hrow : (Value.record ⟨[⟨"a", .uint 1⟩, ⟨"flag", .bool true⟩, ⟨"b", .uint 2⟩]⟩).Reordered
      (.record ⟨[⟨"b", .uint 2⟩, ⟨"flag", .bool true⟩, ⟨"a", .uint 1⟩]⟩) :=
    Value.reordered_of_perm (by decide) (List.forall₂_same.2 fun _ _ => ⟨rfl, .same _⟩)
      (List.reverse_perm _).symm
  exact Value.reordered_of_perm (t := ⟨reversedRecord.entries.reverse⟩) (by decide)
    (.cons ⟨rfl, .same _⟩ (.cons ⟨rfl, .same _⟩ (.cons ⟨rfl, hrow⟩ .nil))) (List.reverse_perm _)

/-- Values for the members of the anonymous union alone. -/
def twofoldRecord : Record := ⟨[⟨"next", .uint 7⟩, ⟨"raw", .uint 5⟩]⟩

theorem twofold_known (a b : String) :
    ¬ (Value.record twofoldRecord).HoldsUnknown a b (.record overlaidLayout) := by
  intro h
  cases h with
  | here _ ha _ hunknown =>
    have hmember : ∃ m ∈ overlaidLayout.members, m.name = a := by
      simp only [twofoldRecord, Record.names, List.map_cons, List.map_nil, List.mem_cons,
        List.not_mem_nil, or_false] at ha
      rcases ha with rfl | rfl <;> decide
    obtain ⟨m, hm, hname⟩ := hmember
    exact (hunknown m hm).1 hname
  | @member _ _ m x hm hx h =>
    have hscalar : ∃ w, x = .uint w := by
      obtain ⟨entry, hentry, rfl⟩ := Option.map_eq_some_iff.1 hx
      have hentry : entry ∈ twofoldRecord.entries := mem_of_lookup? hentry
      simp only [twofoldRecord, List.mem_cons, List.not_mem_nil, or_false] at hentry
      rcases hentry with rfl | rfl <;> exact ⟨_, rfl⟩
    obtain ⟨w, rfl⟩ := hscalar
    cases h

/-- The row of the records is written first, and its first unknown name is reported.  Of the two
values for one storage, the pointer's stays in either order. -/
theorem write_reordered_overlaid :
    (overlaidLayout.write true misplacedRecord overlaidView).1 =
        .error (.inRecord ⟨"overlaid"⟩ .null (.inRecord ⟨"row"⟩ .null (.noSuchName "a"))) ∧
      (overlaidLayout.write true reversedRecord overlaidView).1 =
        .error (.inRecord ⟨"overlaid"⟩ .null (.inRecord ⟨"row"⟩ .null (.noSuchName "b"))) ∧
      (overlaidLayout.write true misplacedRecord overlaidView).2 =
        (overlaidLayout.write true reversedRecord overlaidView).2 ∧
      overlaidLayout.write true twofoldRecord overlaidView =
        overlaidLayout.write true ⟨twofoldRecord.entries.reverse⟩ overlaidView ∧
      (overlaidLayout.write true twofoldRecord overlaidView).2.bytes[16]? = some 7 := by
  obtain ⟨hview, -, -⟩ := overlaidLayout.write_reordered true overlaidView reordered_misplaced
  have hreversed := Value.reordered_of_perm (r := twofoldRecord) (t := twofoldRecord)
    (s := ⟨twofoldRecord.entries.reverse⟩) (by decide)
    (List.forall₂_same.2 fun _ _ => ⟨rfl, .same _⟩) (List.reverse_perm _).symm
  obtain ⟨-, -, hsame⟩ := overlaidLayout.write_reordered true overlaidView hreversed
  exact ⟨rfl, rfl, hview, hsame twofold_known, by decide +kernel⟩

end NativeRecord
