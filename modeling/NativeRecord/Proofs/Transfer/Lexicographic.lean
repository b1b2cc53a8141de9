import Mathlib.Data.List.Sort
import NativeRecord.Proofs.Transfer.Comparison

/-!
# The order that comparing gives

Comparing goes through the solid spans and stops at the first one that holds different bytes.  The
spans are apart from each other and stand in the order of their offsets, so that this is one
comparison of all solid bytes, and everything known of the lexicographic order of lists holds of
records.

## What is here

* `Layout.solidOffsets`, `Layout.solidBytes` — the solid bytes of a record in a row, and
  `Separated.flatMap_offsets`, that the spans list them.
* `compareBytes_eq_compare`, `orderIn_eq_compare` — comparing spans is `compare` on lists of
  numbers.
* `compare_map_cases`, `Layout.compare_cases` — the first difference decides.
* `Layout.OrdersViews`, `Layout.ordersViews` — comparing records is a total preorder of the views
  that hold one, and equality is its equivalence.
-/

set_option autoImplicit false
namespace NativeRecord

open NativeRecord.Span (Covers)

/-! ## Offsets in a row

Separated spans list their bytes in ascending order and each one once, so the list of offsets is the
one that is got by going through all offsets of the record. -/

/-- The offsets of the bytes of a span. -/
def Span.offsets (s : Span) : List Nat := List.range' s.offset s.length

@[simp] theorem Span.mem_offsets {s : Span} {o : Nat} : o ∈ s.offsets ↔ o ∈ s := by
  rw [offsets, List.mem_range'_1]
  rfl

/-- **The bytes of separated spans, one span after the other, stand in ascending order.** -/
theorem Separated.flatMap_offsets {spans : List Span} (h : Separated spans) {n : Nat}
    (hstop : ∀ s ∈ spans, s.stop ≤ n) :
    spans.flatMap Span.offsets = (List.range n).filter (Covers spans ·) := by
  have hspans : (spans.flatMap Span.offsets).Pairwise (· < ·) := by
    refine List.pairwise_flatMap.2 ⟨fun s _ => List.pairwise_lt_range', h.2.imp ?_⟩
    intro s t hgap o ho o' ho'
    have := (Span.mem_offsets.1 ho).2
    have := (Span.mem_offsets.1 ho').1
    omega
  refine hspans.eq_of_mem_iff (List.pairwise_lt_range.filter _) fun o => ?_
  have hlt : Covers spans o → o < n := fun ⟨s, hs, ho⟩ => Nat.lt_of_lt_of_le ho.2 (hstop s hs)
  simpa [Span.covers_def] using hlt

/-! ## Comparing in a row

Comparing one list and then another is comparing the two appended, if the lists have the same
lengths on both sides, as the bytes at given offsets do. -/

/-- The byte at an offset as a number. -/
def View.byteAt (v : View) (offset : Nat) : Nat := (v.bytes[offset]?.getD 0).toNat

theorem View.map_slice {v : View} {s : Span} (h : s.stop ≤ v.size) :
    (v.slice s.offset s.length).map BitVec.toNat = s.offsets.map v.byteAt := by
  have hlength : (v.slice s.offset s.length).length = s.length := length_slice h
  refine List.ext_getElem (by simp [Span.offsets, hlength]) fun i hi _ => ?_
  rw [List.length_map, hlength] at hi
  have hbyte : (v.slice s.offset s.length)[i]? = v.bytes[s.offset + i]? := getElem?_slice v hi
  simp [Span.offsets, byteAt, ← hbyte, hlength, hi]

/-- Bytes are compared as unsigned numbers. -/
theorem compareBytes_eq_compare (xs ys : List Byte) :
    compareBytes xs ys = compare (xs.map BitVec.toNat) (ys.map BitVec.toNat) := by
  induction xs generalizing ys with
  | nil => cases ys <;> rfl
  | cons x xs ih =>
    cases ys with
    | nil => rfl
    | cons y ys => rw [compareBytes, ih, List.map_cons, List.map_cons, List.compare_cons_cons]

section Maps

variable {α : Type} {f g : α → Nat}

theorem compare_map_append (xs ys : List α) :
    compare ((xs ++ ys).map f) ((xs ++ ys).map g) =
      (compare (xs.map f) (xs.map g)).then (compare (ys.map f) (ys.map g)) := by
  induction xs with
  | nil => rfl
  | cons x xs ih =>
    simp only [List.cons_append, List.map_cons, List.compare_cons_cons, ih, Ordering.then_assoc]

/-- **The first place with different numbers decides,** if there is one. -/
theorem compare_map_cases {r : α → α → Prop} [Std.Asymm r] {xs : List α} (h : xs.Pairwise r) :
    (∀ x ∈ xs, f x = g x) ∧ compare (xs.map f) (xs.map g) = .eq ∨
      ∃ x ∈ xs, (∀ y ∈ xs, r y x → f y = g y) ∧ f x ≠ g x ∧
        compare (xs.map f) (xs.map g) = compare (f x) (g x) := by
  induction xs with
  | nil => exact .inl ⟨nofun, rfl⟩
  | cons x xs ih =>
    obtain ⟨hx, hxs⟩ := List.pairwise_cons.1 h
    rw [List.map_cons, List.map_cons, List.compare_cons_cons]
    by_cases heq : f x = g x
    · rw [heq, Nat.compare_eq_eq.2 rfl, Ordering.then]
      refine (ih hxs).imp (fun ⟨hsame, hcompare⟩ => ?_) fun ⟨y, hy, hbefore, hne, hcompare⟩ => ?_
      · exact ⟨List.forall_mem_cons.2 ⟨heq, hsame⟩, hcompare⟩
      · exact ⟨y, .tail x hy, List.forall_mem_cons.2 ⟨fun _ => heq, hbefore⟩, hne, hcompare⟩
    · refine .inr ⟨x, .head xs, List.forall_mem_cons.2 ⟨fun hr => ?_, fun y hy hr => ?_⟩, heq, ?_⟩
      · exact absurd hr (Std.Asymm.asymm x x hr)
      · exact absurd hr (Std.Asymm.asymm x y (hx y hy))
      · have hcompare : compare (f x) (g x) ≠ .eq := mt Nat.compare_eq_eq.1 heq
        generalize compare (f x) (g x) = order at hcompare ⊢
        cases order with
        | eq => exact absurd rfl hcompare
        | lt | gt => rfl

end Maps

/-- **Comparing span by span is comparing all bytes of the spans at once.** -/
theorem orderIn_eq_compare {a b : View} {spans : List Span} (ha : ∀ s ∈ spans, s.stop ≤ a.size)
    (hb : ∀ s ∈ spans, s.stop ≤ b.size) :
    orderIn a b spans = compare ((spans.flatMap Span.offsets).map a.byteAt)
      ((spans.flatMap Span.offsets).map b.byteAt) := by
  induction spans with
  | nil => rfl
  | cons s spans ih =>
    obtain ⟨ha, has⟩ := List.forall_mem_cons.1 ha
    obtain ⟨hb, hbs⟩ := List.forall_mem_cons.1 hb
    rw [orderIn, compareBytes_eq_compare, View.map_slice ha, View.map_slice hb, ih has hbs,
      List.flatMap_cons, compare_map_append]

/-! ## Records in memory

The views may be those of different platforms, and move blocks in different ways: the bytes are
compared as they are, without being decoded. -/

/-- A view in which no read is made to fail and that is long enough for a record, whatever its byte
order, its pointer width and the way it moves blocks. -/
structure View.Holds (v : View) (l : Layout) : Prop where
  reads : ∀ offset, v.readFails offset = false
  size : l.size ≤ v.size

namespace Layout

variable {l : Layout} {a b : View}

/-- The offsets of the solid bytes, in ascending order. -/
def solidOffsets (l : Layout) : List Nat := (List.range l.size).filter (Covers l.solid ·)

/-- The solid bytes of the record in a view, in ascending order of the offsets. -/
def solidBytes (l : Layout) (v : View) : List Nat := l.solidOffsets.map v.byteAt

theorem pairwise_solidOffsets (l : Layout) : l.solidOffsets.Pairwise (· < ·) :=
  List.pairwise_lt_range.filter _

theorem mem_solidOffsets (hs : (Shape.record l).Surveyed) {o : Nat} :
    o ∈ l.solidOffsets ↔ Covers l.solid o := by
  rw [solidOffsets, ← hs.separated_solid.flatMap_offsets hs.stop_solid_le]
  simp [Span.covers_def]

/-- **Comparing two records is comparing their solid bytes.** -/
theorem compare_eq_compareOn (hs : (Shape.record l).Surveyed) (ha : a.Holds l) (hb : b.Holds l) :
    l.compare a b = .ok (compareOn l.solidBytes a b) := by
  have hoffsets : l.solid.flatMap Span.offsets = l.solidOffsets :=
    hs.separated_solid.flatMap_offsets hs.stop_solid_le
  rw [compare_eq_ok hs ha.reads hb.reads ha.size hb.size, orderIn_eq_compare
    (fun s h => Nat.le_trans (hs.stop_solid_le s h) ha.size)
    fun s h => Nat.le_trans (hs.stop_solid_le s h) hb.size, hoffsets]
  rfl

/-- Two records are equal when they have the same solid bytes. -/
theorem equal_eq_ok (hs : (Shape.record l).Surveyed) (ha : a.Holds l) (hb : b.Holds l) :
    l.equal a b = .ok (l.solidBytes a == l.solidBytes b) := by
  rw [equal, compare_eq_compareOn hs ha hb]
  refine congrArg Except.ok (Bool.eq_iff_iff.2 ?_)
  rw [beq_iff_eq, beq_iff_eq]
  exact Std.compare_eq_iff_eq

/-- **The first solid byte that differs decides,** if there is one. -/
theorem compare_cases (hs : (Shape.record l).Surveyed) (ha : a.Holds l) (hb : b.Holds l) :
    (∀ o, Covers l.solid o → a.byteAt o = b.byteAt o) ∧ l.compare a b = .ok .eq ∨
      ∃ o, Covers l.solid o ∧ (∀ o' < o, Covers l.solid o' → a.byteAt o' = b.byteAt o') ∧
        a.byteAt o ≠ b.byteAt o ∧ l.compare a b = .ok (Ord.compare (a.byteAt o) (b.byteAt o)) := by
  have hcompare : l.compare a b = .ok (Ord.compare (l.solidBytes a) (l.solidBytes b)) :=
    compare_eq_compareOn hs ha hb
  have hcases := compare_map_cases (f := a.byteAt) (g := b.byteAt) l.pairwise_solidOffsets
  simp only [mem_solidOffsets hs] at hcases
  rcases hcases with ⟨hsame, hanswer⟩ | ⟨o, ho, hbefore, hne, hanswer⟩
  · exact .inl ⟨hsame, hcompare.trans (congrArg _ hanswer)⟩
  · refine .inr ⟨o, ho, fun o' hlt ho' => hbefore o' ho' hlt, hne, ?_⟩
    exact hcompare.trans (congrArg _ hanswer)

/-- What the order of the views that hold a record is like. -/
structure OrdersViews (l : Layout) : Prop where
  /-- Each solid byte stands in the row once, in ascending order. -/
  ascending : l.solidOffsets.Pairwise (· < ·) ∧ ∀ o, o ∈ l.solidOffsets ↔ Covers l.solid o
  /-- The answer is the lexicographic order of the rows. -/
  lexicographic : ∀ a b, a.Holds l → b.Holds l →
    l.compare a b = .ok (Ord.compare (l.solidBytes a) (l.solidBytes b))
  /-- That is the order of the first solid byte that differs. -/
  first : ∀ a b, a.Holds l → b.Holds l →
    (∀ o, Covers l.solid o → a.byteAt o = b.byteAt o) ∧ l.compare a b = .ok .eq ∨
      ∃ o, Covers l.solid o ∧ (∀ o' < o, Covers l.solid o' → a.byteAt o' = b.byteAt o') ∧
        a.byteAt o ≠ b.byteAt o ∧ l.compare a b = .ok (Ord.compare (a.byteAt o) (b.byteAt o))
  refl : ∀ a, a.Holds l → l.compare a a = .ok .eq
  swap : ∀ a b, a.Holds l → b.Holds l → l.compare b a = Ordering.swap <$> l.compare a b
  trans : ∀ a b c, a.Holds l → b.Holds l → c.Holds l → ∀ x y,
    l.compare a b = .ok x → x.isLE → l.compare b c = .ok y → y.isLE →
      ∃ z, l.compare a c = .ok z ∧ z.isLE
  /-- Equality answers on all views, and the answer is yes when the rows are the same. -/
  equal : ∀ a b, a.Holds l → b.Holds l → l.equal a b = .ok (l.solidBytes a == l.solidBytes b)
  equivalence : Equivalence fun a b : { v : View // v.Holds l } => l.equal a b = .ok true
  /-- It makes no difference whether the views move blocks byte by byte. -/
  bytewise : ∀ a b, a.Holds l → b.Holds l → ∀ x y,
    l.compare { a with bytewise := x } { b with bytewise := y } = l.compare a b

/-- **Comparing is a lexicographic total preorder** of the views that hold a record. -/
theorem ordersViews {config : Config} (hbuilt : Built config l) : l.OrdersViews := by
  have hs := hbuilt.constructed.surveyed
  have hcompare {a b : View} (ha : a.Holds l) (hb : b.Holds l) := compare_eq_compareOn hs ha hb
  have hequal (a b : { v : View // v.Holds l }) :
      l.equal a b = .ok true ↔ l.solidBytes a = l.solidBytes b := by
    rw [equal_eq_ok hs a.2 b.2, Except.ok.injEq, beq_iff_eq]
  refine
    { ascending := ⟨l.pairwise_solidOffsets, fun o => mem_solidOffsets hs⟩
      lexicographic := fun a b ha hb => hcompare ha hb
      first := fun a b ha hb => compare_cases hs ha hb
      refl := fun a ha => ?_
      swap := fun a b ha hb => ?_
      trans := fun a b c ha hb hc x y hab hx hbc hy => ?_
      equal := fun a b ha hb => equal_eq_ok hs ha hb
      equivalence := ?_
      bytewise := fun a b ha hb x y => ?_ }
  · rw [hcompare ha ha]
    exact congrArg _ Std.ReflCmp.compare_self
  · rw [hcompare ha hb, hcompare hb ha]
    exact congrArg _ Std.OrientedCmp.eq_swap
  · obtain rfl := Except.ok.inj ((hcompare ha hb).symm.trans hab)
    obtain rfl := Except.ok.inj ((hcompare hb hc).symm.trans hbc)
    exact ⟨_, hcompare ha hc, Std.TransCmp.isLE_trans hx hy⟩
  · simp only [hequal]
    exact ⟨fun _ => rfl, Eq.symm, Eq.trans⟩
  · have ha' : View.Holds { a with bytewise := x } l := ⟨ha.reads, ha.size⟩
    have hb' : View.Holds { b with bytewise := y } l := ⟨hb.reads, hb.size⟩
    rw [hcompare ha' hb', hcompare ha hb]
    rfl

end Layout

/-! ## Views that differ in two spans -/

/-- The same record with another byte in it, as a longer view of another platform holds it, in which
blocks are moved byte by byte. -/
def foreignView (offset : Nat) (b : Byte) : View where
  bytes := (overlaidView.bytes.setIfInBounds offset b).push 0xFF
  endianness := .big
  pointerWidth := 4
  bytewise := true

theorem holds_foreign (offset : Nat) (b : Byte) : (foreignView offset b).Holds overlaidLayout := by
  have hsize : (foreignView offset b).size = 25 := by
    simp [foreignView, View.size, overlaidView, View.ofBytes]
  exact ⟨fun _ => rfl, hsize ▸ (show 24 ≤ 25 by decide)⟩

/-- The first two views differ in the last span, and the last two in the second, which decides
although the last span says the opposite; it decides between the outer two as well. -/
theorem ordersViews_overlaid :
    Built .standard overlaidLayout ∧ overlaidLayout.OrdersViews ∧
      overlaidLayout.solidOffsets = [0, 2, 3, 4, 6, 7, 8] ∧
      overlaidLayout.compare overlaidView (foreignView 6 2) = .ok .lt ∧
      overlaidLayout.compare (foreignView 6 2) (foreignView 2 1) = .ok .lt ∧
      ∃ order, overlaidLayout.compare overlaidView (foreignView 2 1) = .ok order ∧ order.isLE := by
  have horders := Layout.ordersViews built_overlaid
  have hfirst : overlaidLayout.compare overlaidView (foreignView 6 2) = .ok .lt := by
    decide +kernel
  have hlast : overlaidLayout.compare (foreignView 6 2) (foreignView 2 1) = .ok .lt := by
    decide +kernel
  refine ⟨built_overlaid, horders, by decide +kernel, hfirst, hlast, ?_⟩
  exact horders.trans _ _ _ ⟨fun _ => rfl, Nat.le_refl 24⟩ (holds_foreign 6 2) (holds_foreign 2 1)
    .lt .lt hfirst rfl hlast rfl

end NativeRecord
