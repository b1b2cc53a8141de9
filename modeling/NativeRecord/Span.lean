import NativeRecord.StableSort

/-!
# Byte spans

A span is a run of consecutive bytes.  Sets of bytes are lists of spans; normalizing a list sorts
the spans and fuses those that touch, which leaves a gap between any two.

## What is here

* `Span`, membership of a byte in a span and in a list of spans (`Span.Covers`).
* `normalizeSpans` — the normal form, and `Separated`, the same as a predicate.
* `withoutSpans` — what is left of some spans outside others; `complementSpans` — the bytes below a
  size that a normalized list leaves out.
-/

set_option autoImplicit false
namespace NativeRecord

/-- The bytes at `offset`, …, `offset + length - 1`. -/
structure Span where
  offset : Nat
  length : Nat
deriving DecidableEq, Repr

namespace Span

/-- The offset just past the last byte. -/
def stop (s : Span) : Nat := s.offset + s.length

/-- The same run of bytes further on. -/
def shift (n : Nat) (s : Span) : Span := ⟨s.offset + n, s.length⟩

instance : Membership Nat Span := ⟨fun s b => s.offset ≤ b ∧ b < s.stop⟩

instance (b : Nat) (s : Span) : Decidable (b ∈ s) :=
  inferInstanceAs (Decidable (s.offset ≤ b ∧ b < s.stop))

/-- Each span starts before the other one stops. -/
def Intersects (s t : Span) : Prop := s.offset < t.stop ∧ t.offset < s.stop

instance (s t : Span) : Decidable (s.Intersects t) :=
  inferInstanceAs (Decidable (s.offset < t.stop ∧ t.offset < s.stop))

/-- By offset, then by length. -/
def before (s t : Span) : Bool :=
  s.offset < t.offset || (s.offset == t.offset && s.length ≤ t.length)

theorem mem_def {b : Nat} {s : Span} : b ∈ s ↔ s.offset ≤ b ∧ b < s.stop := Iff.rfl

theorem intersects_comm {s t : Span} : s.Intersects t ↔ t.Intersects s := And.comm

@[simp] theorem shift_zero (s : Span) : s.shift 0 = s := rfl

@[simp] theorem stop_shift (s : Span) (n : Nat) : (s.shift n).stop = s.stop + n := by
  simp only [stop, shift]; omega

theorem mem_shift {b n : Nat} {s : Span} : b ∈ s.shift n ↔ n ≤ b ∧ b - n ∈ s := by
  simp only [mem_def, shift, stop]; omega

/-- For spans that hold a byte, intersecting means sharing one. -/
theorem intersects_iff {s t : Span} (hs : 0 < s.length) (ht : 0 < t.length) :
    s.Intersects t ↔ ∃ b, b ∈ s ∧ b ∈ t := by
  simp only [Intersects, mem_def, stop]
  constructor
  · intro h
    exact ⟨max s.offset t.offset, by omega⟩
  · rintro ⟨b, hb⟩
    omega

/-- A byte of some span of the list. -/
def Covers (spans : List Span) (b : Nat) : Prop := ∃ s ∈ spans, b ∈ s

instance (spans : List Span) (b : Nat) : Decidable (Covers spans b) :=
  inferInstanceAs (Decidable (∃ s ∈ spans, b ∈ s))

@[simp] theorem not_covers_nil (b : Nat) : ¬ Covers [] b := by simp [Covers]

@[simp] theorem covers_cons {s : Span} {spans : List Span} {b : Nat} :
    Covers (s :: spans) b ↔ b ∈ s ∨ Covers spans b := by simp [Covers]

@[simp] theorem covers_append {l r : List Span} {b : Nat} :
    Covers (l ++ r) b ↔ Covers l b ∨ Covers r b := by
  simp [Covers, or_and_right, exists_or]

end Span

/-! ## The normal form -/

/-- Spans that each hold a byte, in order, with a gap between any two. -/
def Separated (spans : List Span) : Prop :=
  (∀ s ∈ spans, 0 < s.length) ∧ spans.Pairwise (·.stop < ·.offset)

/-- Adds a span to fused ones, the last of which stands first: one that starts no later than that
one stops extends it. -/
def fuseSpan : List Span → Span → List Span
  | [], s => [s]
  | last :: done, s =>
    if s.offset ≤ last.stop then
      ⟨last.offset, max last.stop s.stop - last.offset⟩ :: done
    else s :: last :: done

/-- Drops the empty spans, sorts the others and fuses those that touch or overlap. -/
def normalizeSpans (spans : List Span) : List Span :=
  ((stableSort Span.before (spans.filter (0 < ·.length))).foldl fuseSpan []).reverse

@[simp] theorem normalizeSpans_nil : normalizeSpans [] = [] := rfl

/-! ## Subtraction -/

/-- What is left between `start` and `stop` once the holes are cut out, in the given order.  It
comes behind the pieces `done`, the last of which stands first. -/
def cutSpan (stop : Nat) (done : List Span) (start : Nat) : List Span → List Span
  | [] => (if start < stop then ⟨start, stop - start⟩ :: done else done).reverse
  | hole :: holes =>
    cutSpan stop (if start < hole.offset then ⟨start, hole.offset - start⟩ :: done else done)
      (max start hole.stop) holes

/-- Each span without the holes that meet it. -/
def withoutSpans (spans holes : List Span) : List Span :=
  spans.flatMap fun s => cutSpan s.stop [] s.offset (holes.filter (·.Intersects s))

/-- The bytes below `size` outside the spans. -/
def complementSpans (size : Nat) (spans : List Span) : List Span :=
  (withoutSpans [⟨0, size⟩] spans).filter (0 < ·.length)

end NativeRecord
