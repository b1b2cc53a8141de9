import NativeRecord.Proofs.Layout.Compatibility
import NativeRecord.Proofs.Layout.Leaves

/-!
# A row of members in the place of an array

An array that is a member, and one member for each of its elements in its place: the check finds
fault with both or with neither, and they hold the same bytes.

Both facts are about sets of bytes.  The span of the array is the union of the spans of the row,
since the elements lie one behind the other (`mem_span_iff`), and the check asks of spans only
whether they end within the record and whether they have bytes in common.  For the coverage the same
is shown of the two lists that it is made from, with pointers left out; from equal sets of bytes it
follows that the normal forms are equal, without comparing the ways in which they were computed.  An
array of elements that are covered throughout is one span, while the row gives one for each element.

## What is here

* `MemberLayout.ElementOf`, `MemberLayout.Unrolls` — a member for an element, and a row of them.
* `MemberLayout.Unrolls.mem_span_iff` — the bytes of the array are those of the row, so the check
  comes to the same (`MemberLayout.Unrolls.checkPlacement_iff`).
* `MemberLayout.Unrolls.coverage_eq` — so does the coverage, in spite of the shortcuts for arrays
  and of what is left out because of pointers.
-/

set_option autoImplicit false
namespace NativeRecord

open NativeRecord.Span (Covers)

namespace MemberLayout

/-- A plain member at the place of an element. -/
structure ElementOf (p : MemberLayout) (element : Shape) (i : Nat) (q : MemberLayout) : Prop where
  plain : q.Plain
  shape : q.shape = element
  alignment : q.alignment = p.alignment
  offset : q.offset = p.offset + i * element.size

/-- A plain member that is an array, and a row of members at the places of its elements, all of them
aligned as they ask for. -/
structure Unrolls (p : MemberLayout) (element : Shape) (row : List MemberLayout) : Prop where
  plain : p.Plain
  shape : p.shape = .array element row.length
  aligned : p.alignment.bytes ∣ p.offset
  stride : p.alignment.bytes ∣ element.size
  nonempty : row ≠ []
  elements : ∀ i q, row[i]? = some q → p.ElementOf element i q

/-- A plain member shares its bytes with no other one. -/
theorem Plain.compatible_iff {p b : MemberLayout} (hp : p.Plain) :
    p.Compatible b ↔ ∀ x ∈ p.span, x ∉ b.span := by
  have hshare : p.mayShare b = false := by
    rw [mayShare, hp.2.1, hp.2.2]
    rfl
  have hpos {q : MemberLayout} {x : Nat} (hx : x ∈ q.span) : 0 < q.length := by
    rw [Span.mem_def, offset_span, stop_span] at hx
    omega
  rw [Compatible, hshare]
  constructor
  · intro h x hx hxb
    have hmeet := (Span.intersects_iff (hpos hx) (hpos hxb)).2 ⟨x, hx, hxb⟩
    exact Bool.false_ne_true (h (hpos hx) (hpos hxb) hmeet)
  · intro h hlength hlength' hmeet
    obtain ⟨x, hx, hxb⟩ := (Span.intersects_iff hlength hlength').1 hmeet
    exact absurd hxb (h x hx)

namespace Unrolls

variable {p b : MemberLayout} {element : Shape} {row first others : List MemberLayout}

/-- The array is as long as its elements together. -/
theorem length_eq (h : p.Unrolls element row) : p.length = element.size * row.length := by
  rw [length, h.shape]
  rfl

/-- What is the matter with some member of the row is the matter with some element. -/
theorem exists_mem_iff (h : p.Unrolls element row) {P : MemberLayout → Prop} {Q : Nat → Prop}
    (hPQ : ∀ i q, p.ElementOf element i q → (P q ↔ Q i)) :
    (∃ q ∈ row, P q) ↔ ∃ i < row.length, Q i := by
  constructor
  · rintro ⟨q, hq, hP⟩
    obtain ⟨i, hi⟩ := List.mem_iff_getElem?.1 hq
    exact ⟨i, (List.getElem?_eq_some_iff.1 hi).1, (hPQ i q (h.elements i q hi)).1 hP⟩
  · rintro ⟨i, hi, hQ⟩
    have hget := List.getElem?_eq_getElem hi
    exact ⟨row[i], List.getElem_mem hi, (hPQ i _ (h.elements i _ hget)).2 hQ⟩

/-- **The bytes of the array are those of the row.** -/
theorem mem_span_iff (h : p.Unrolls element row) {x : Nat} :
    x ∈ p.span ↔ ∃ q ∈ row, x ∈ q.span := by
  have hitem : ∀ i q, p.ElementOf element i q →
      (x ∈ q.span ↔ p.offset + i * element.size ≤ x ∧
        x - p.offset - i * element.size < element.size) := by
    intro i q hq
    rw [Span.mem_def, stop_span, offset_span, length, hq.offset, hq.shape]
    omega
  have hspan : x ∈ p.span ↔ p.offset ≤ x ∧ x - p.offset < element.size * row.length := by
    rw [Span.mem_def, stop_span, offset_span, h.length_eq]
    omega
  rw [h.exists_mem_iff hitem, hspan, lt_mul_iff_exists]
  constructor
  · rintro ⟨hx, i, hi, hle, hlt⟩
    exact ⟨i, hi, by omega, hlt⟩
  · rintro ⟨i, hi, hle, hlt⟩
    exact ⟨by omega, i, hi, by omega, hlt⟩

/-! ## The check

Each of the things that the check looks for is found in the array exactly when it is in the row. -/

/-- The array ends within a record exactly when all members of the row do. -/
theorem fault?_iff (h : p.Unrolls element row) (size : Nat) :
    p.fault? size = none ↔ ∀ q ∈ row, q.fault? size = none := by
  have halone {q : MemberLayout} (hq : q.Plain) (haligned : q.alignment.bytes ∣ q.offset) :
      q.fault? size = none ↔ q.offset + q.length ≤ size := by
    rw [fault?_eq_none_iff]
    exact and_iff_right (.inr (Alignment.aligned_iff_dvd.2 haligned))
  have hitem : ∀ i q, p.ElementOf element i q →
      (¬ q.fault? size = none ↔ ¬ p.offset + i * element.size + element.size ≤ size) := by
    intro i q hq
    have haligned : q.alignment.bytes ∣ q.offset := by
      rw [hq.alignment, hq.offset]
      exact Nat.dvd_add h.aligned (Nat.dvd_mul_left_of_dvd h.stride i)
    rw [halone hq.plain haligned, length, hq.shape, hq.offset]
  have hrow := not_congr (h.exists_mem_iff hitem)
  simp only [not_exists, not_and, not_not] at hrow
  rw [hrow, halone h.plain h.aligned, h.length_eq]
  constructor
  · exact fun hstop i hi => Nat.le_trans (item_stop_le hi _ _) hstop
  · intro hstops
    obtain ⟨n, hn⟩ := Nat.exists_eq_succ_of_ne_zero (List.length_pos_iff.2 h.nonempty).ne'
    have hlast := hstops n (by omega)
    rw [hn, Nat.mul_succ, Nat.mul_comm]
    omega

/-- Whether the array is in the way of another member shows in the row. -/
theorem compatible_iff (h : p.Unrolls element row) :
    p.Compatible b ↔ ∀ q ∈ row, q.Compatible b := by
  have hplain : ∀ q ∈ row, q.Plain := by
    intro q hq
    obtain ⟨i, hi⟩ := List.mem_iff_getElem?.1 hq
    exact (h.elements i q hi).plain
  rw [h.plain.compatible_iff, forall₂_congr fun q hq => (hplain q hq).compatible_iff]
  simp only [h.mem_span_iff]
  exact ⟨fun hb q hq x hx => hb x ⟨q, hq, hx⟩, fun hb x ⟨q, hq, hx⟩ => hb q hq x hx⟩

/-- Members of the row do not overlap. -/
theorem pairwise (h : p.Unrolls element row) : row.Pairwise Compatible := by
  rw [List.pairwise_iff_getElem]
  intro i j hi hj hij
  have hleft := h.elements i _ (List.getElem?_eq_getElem hi)
  have hright := h.elements j _ (List.getElem?_eq_getElem hj)
  refine compatible_of_le ?_
  rw [length, hleft.offset, hleft.shape, hright.offset, Nat.mul_comm j]
  exact item_stop_le hij p.offset element.size

/-- Among the other members, the array may stand exactly where the row may. -/
theorem pairwise_iff (h : p.Unrolls element row) :
    (first ++ p :: others).Pairwise Compatible ↔
      (first ++ (row ++ others)).Pairwise Compatible := by
  have hbefore (a : MemberLayout) : a.Compatible p ↔ ∀ q ∈ row, a.Compatible q :=
    ⟨fun ha q hq => (h.compatible_iff.1 ha.symm q hq).symm,
      fun ha => (h.compatible_iff.2 fun q hq => (ha q hq).symm).symm⟩
  have hrow : (p :: others).Pairwise Compatible ↔ (row ++ others).Pairwise Compatible := by
    rw [List.pairwise_cons, List.pairwise_append, and_iff_right h.pairwise, and_comm]
    exact and_congr_right fun _ =>
      ⟨fun hp q hq b hb => h.compatible_iff.1 (hp b hb) q hq,
        fun hp b hb => h.compatible_iff.2 fun q hq => hp q hq b hb⟩
  rw [List.pairwise_append, List.pairwise_append, hrow]
  simp only [List.forall_mem_cons, List.forall_mem_append, hbefore]

/-- **The check accepts the array exactly when it accepts the row.** -/
theorem checkPlacement_iff (h : p.Unrolls element row) (owner : Tag) (size : Nat) :
    checkPlacement owner .struct size (first ++ p :: others) = .ok () ↔
      checkPlacement owner .struct size (first ++ (row ++ others)) = .ok () := by
  rw [checkPlacement_eq_ok_iff, checkPlacement_eq_ok_iff, h.pairwise_iff]
  simp only [List.forall_mem_cons, List.forall_mem_append, h.fault?_iff]

/-! ## The coverage

A byte is covered by the array exactly when it is by some member of the row. -/

theorem hasPointers_eq (h : p.Unrolls element row) : p.shape.hasPointers = element.hasPointers := by
  rw [h.shape]
  rfl

theorem hasPointers_iff (h : p.Unrolls element row) :
    p.shape.hasPointers = true ↔ ∃ q ∈ row, q.shape.hasPointers = true := by
  have hitem : ∀ i q, p.ElementOf element i q →
      (q.shape.hasPointers = true ↔ element.hasPointers = true) := fun i q hq => by rw [hq.shape]
  rw [h.exists_mem_iff hitem, h.hasPointers_eq]
  exact ⟨fun hp => ⟨0, List.length_pos_iff.2 h.nonempty, hp⟩, fun ⟨_, _, hp⟩ => hp⟩

/-- A byte of an array with pointers lies in a member of the row that has pointers. -/
theorem inPointer_iff (h : p.Unrolls element row) {x : Nat} :
    p.shape.hasPointers = true ∧ x ∈ p.span ↔
      ∃ q ∈ row, q.shape.hasPointers = true ∧ x ∈ q.span := by
  have hrow : ∀ q ∈ row, q.shape.hasPointers = element.hasPointers := by
    intro q hq
    obtain ⟨i, hi⟩ := List.mem_iff_getElem?.1 hq
    rw [(h.elements i q hi).shape]
  rw [h.mem_span_iff, h.hasPointers_eq]
  constructor
  · rintro ⟨hp, q, hq, hx⟩
    exact ⟨q, hq, (hrow q hq).trans hp, hx⟩
  · rintro ⟨q, hq, hp, hx⟩
    exact ⟨(hrow q hq).symm.trans hp, q, hq, hx⟩

/-- A solid byte of the array is a solid byte of one element. -/
theorem covers_solid_iff (h : p.Unrolls element row) (hs : element.Surveyed) {x : Nat} :
    (p.shape.hasPointers = false ∧ p.offset ≤ x ∧ Covers p.shape.solid (x - p.offset)) ↔
      ∃ q ∈ row, q.shape.hasPointers = false ∧ q.offset ≤ x ∧
        Covers q.shape.solid (x - q.offset) := by
  have hitem : ∀ i q, p.ElementOf element i q →
      ((q.shape.hasPointers = false ∧ q.offset ≤ x ∧ Covers q.shape.solid (x - q.offset)) ↔
        element.hasPointers = false ∧ p.offset + i * element.size ≤ x ∧
          element.LeafAt (x - (p.offset + i * element.size))) := by
    intro i q hq
    rw [hq.shape, hq.offset]
    exact and_congr_right fun hplain => and_congr_right fun _ => hs.covers_solid hplain
  have harray (hplain : element.hasPointers = false) :=
    (Shape.Surveyed.array row.length hs).covers_solid (b := x - p.offset) hplain
  rw [h.exists_mem_iff hitem, h.hasPointers_eq, h.shape,
    and_congr_right fun hplain => and_congr_right fun _ => harray hplain,
    Shape.leafAt_array_from_iff]
  constructor
  · rintro ⟨hplain, i, hi, hleaf⟩
    exact ⟨i, hi, hplain, hleaf⟩
  · rintro ⟨i, hi, hplain, hleaf⟩
    exact ⟨hplain, i, hi, hleaf⟩

/-- A byte of the array that is in use is in use in one element. -/
theorem covers_occupied_iff (h : p.Unrolls element row) (hs : element.Surveyed) {x : Nat} :
    p.offset ≤ x ∧ Covers p.shape.occupied (x - p.offset) ↔
      ∃ q ∈ row, q.offset ≤ x ∧ Covers q.shape.occupied (x - q.offset) := by
  have hitem : ∀ i q, p.ElementOf element i q →
      (q.offset ≤ x ∧ Covers q.shape.occupied (x - q.offset) ↔ p.offset + i * element.size ≤ x ∧
        element.LeafAt (x - (p.offset + i * element.size))) := by
    intro i q hq
    rw [hq.shape, hq.offset, hs.covers_occupied]
  rw [h.exists_mem_iff hitem, h.shape, (Shape.Surveyed.array row.length hs).covers_occupied,
    Shape.leafAt_array_from_iff]

/-- What is so of the array if it is of some member of the row is so of some member of the record
with one if it is of some member with the other. -/
theorem exists_mem_around_iff {P : MemberLayout → Prop} (hP : P p ↔ ∃ q ∈ row, P q) :
    (∃ m ∈ first ++ p :: others, P m) ↔ ∃ m ∈ first ++ (row ++ others), P m := by
  simp only [List.mem_append, List.mem_cons, or_and_right, exists_or, exists_eq_left, hP]

/-- **The array and the row are covered alike.** -/
theorem coverage_eq (h : p.Unrolls element row) (hs : element.Surveyed) (size : Nat) :
    Coverage.ofMembers size (first ++ p :: others) =
      .ofMembers size (first ++ (row ++ others)) := by
  have hhas : (first ++ p :: others).any (·.shape.hasPointers) =
      (first ++ (row ++ others)).any (·.shape.hasPointers) := by
    rw [Bool.eq_iff_iff, List.any_eq_true, List.any_eq_true]
    exact exists_mem_around_iff h.hasPointers_iff
  have hplain : normalizeSpans (plainSpans (first ++ p :: others)) =
      normalizeSpans (plainSpans (first ++ (row ++ others))) := by
    refine normalizeSpans_congr fun x => ?_
    rw [covers_plainSpans_iff, covers_plainSpans_iff]
    exact exists_mem_around_iff (h.covers_solid_iff hs)
  have hpointers : normalizeSpans (pointerSpans (first ++ p :: others)) =
      normalizeSpans (pointerSpans (first ++ (row ++ others))) := by
    refine normalizeSpans_congr fun x => ?_
    rw [covers_pointerSpans_iff, covers_pointerSpans_iff]
    exact exists_mem_around_iff h.inPointer_iff
  have hoccupied : normalizeSpans (occupiedSpans (first ++ p :: others)) =
      normalizeSpans (occupiedSpans (first ++ (row ++ others))) := by
    refine normalizeSpans_congr fun x => ?_
    rw [covers_occupiedSpans_iff, covers_occupiedSpans_iff]
    exact exists_mem_around_iff (h.covers_occupied_iff hs)
  rw [Coverage.ofMembers, Coverage.ofMembers, hhas, hplain, hpointers, hoccupied]

end Unrolls

end MemberLayout

end NativeRecord
