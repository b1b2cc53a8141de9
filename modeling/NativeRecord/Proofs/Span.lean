import NativeRecord.Span

/-!
# Lists of spans as sets of bytes

Padding, solid bytes and the spans that a write touches are all lists of spans, but what matters of
such a list is the set of its bytes.  A list is `Separated` if its spans are not empty, come in
ascending order and leave a gap between one and the next, and this is a normal form: the first span
of a separated list begins at the least byte of the set and ends at the first byte that is missing
after it, so that the set determines the first span, and by induction the list (`Separated.ext`).
It is what makes two computations of the same set give equal lists, and the reason why every
function here is shown to have two properties — which bytes its answer has, and that the answer is
separated.

Both functions that build such lists are loops with an accumulator that stands in reverse.  For
fusing, the invariant is that the accumulator reversed is separated (`Fused`), and that its last
span starts no later than the one to be added (`StartsBy`), which holds since the spans have been
sorted; without the second, fusing with the last span alone would miss bytes.  For cutting, the
invariant is that the pieces already finished end before the place from which the loop goes on.

## What is here

* `Separated.ext` — separated lists with the same bytes are equal: each set of bytes has one normal
  form.
* `normalizeSpans` gives it (`separated_normalizeSpans`, `covers_normalizeSpans`), so that lists
  with the same bytes have the same normal form (`normalizeSpans_congr`).
* `withoutSpans` and `complementSpans` are the difference and the complement of sets of bytes, again
  in normal form.
* `Separated.countP_eq_one` — a byte lies in one span of a separated list at most.
-/

set_option autoImplicit false
namespace NativeRecord

open NativeRecord.Span (Covers)

/-! ## Bytes of a list

Which bytes a list has after the operations on lists that the layout computes with. -/

namespace Span

theorem covers_def {spans : List Span} {b : Nat} : Covers spans b ↔ ∃ s ∈ spans, b ∈ s := Iff.rfl

theorem covers_congr_mem {l r : List Span} (h : ∀ s, s ∈ l ↔ s ∈ r) {b : Nat} :
    Covers l b ↔ Covers r b := by
  simp only [covers_def, h]

theorem covers_flatMap {α : Type} {xs : List α} {f : α → List Span} {b : Nat} :
    Covers (xs.flatMap f) b ↔ ∃ x ∈ xs, Covers (f x) b := by
  simp only [covers_def, List.mem_flatMap]
  constructor
  · rintro ⟨s, ⟨x, hx, hs⟩, hb⟩
    exact ⟨x, hx, s, hs, hb⟩
  · rintro ⟨x, hx, s, hs, hb⟩
    exact ⟨s, ⟨x, hx, hs⟩, hb⟩

theorem covers_map_shift {spans : List Span} {n b : Nat} :
    Covers (spans.map (shift n)) b ↔ n ≤ b ∧ Covers spans (b - n) := by
  simp only [covers_def, List.mem_map]
  constructor
  · rintro ⟨_, ⟨s, hs, rfl⟩, hb⟩
    obtain ⟨hle, hb⟩ := mem_shift.1 hb
    exact ⟨hle, s, hs, hb⟩
  · rintro ⟨hle, s, hs, hb⟩
    exact ⟨_, ⟨s, hs, rfl⟩, mem_shift.2 ⟨hle, hb⟩⟩

/-- An empty span adds no byte. -/
theorem covers_filter_length {spans : List Span} {b : Nat} :
    Covers (spans.filter (0 < ·.length)) b ↔ Covers spans b := by
  simp only [covers_def, List.mem_filter, decide_eq_true_eq]
  constructor
  · rintro ⟨s, ⟨hs, -⟩, hb⟩
    exact ⟨s, hs, hb⟩
  · rintro ⟨s, hs, hb⟩
    refine ⟨s, ⟨hs, ?_⟩, hb⟩
    simp only [mem_def, stop] at hb
    omega

end Span

/-! ## Separated lists

The first span of a separated list is fixed by its bytes: it starts at the first of them, and the
byte at its end is not one. -/

namespace Separated

variable {s : Span} {spans l r : List Span} {b : Nat}

theorem nil : Separated [] := ⟨nofun, .nil⟩

theorem cons_iff : Separated (s :: spans) ↔
    0 < s.length ∧ (∀ t ∈ spans, s.stop < t.offset) ∧ Separated spans := by
  simp only [Separated, List.forall_mem_cons, List.pairwise_cons]
  constructor
  · rintro ⟨⟨hs, hpos⟩, hgap, hsep⟩
    exact ⟨hs, hgap, hpos, hsep⟩
  · rintro ⟨hs, hgap, hpos, hsep⟩
    exact ⟨⟨hs, hpos⟩, hgap, hsep⟩

/-- The first byte of a separated list starts its first span. -/
theorem offset_le (h : Separated (s :: spans)) (hb : Covers (s :: spans) b) : s.offset ≤ b := by
  obtain ⟨-, hgap, -⟩ := cons_iff.1 h
  rcases Span.covers_cons.1 hb with hb | ⟨t, ht, hb⟩
  · exact hb.1
  · have hlt := hgap t ht
    have hle := hb.1
    simp only [Span.stop] at hlt
    omega

/-- The byte after the first span is not covered. -/
theorem not_covers_stop (h : Separated (s :: spans)) : ¬ Covers (s :: spans) s.stop := by
  obtain ⟨-, hgap, -⟩ := cons_iff.1 h
  intro hb
  rcases Span.covers_cons.1 hb with hb | ⟨t, ht, hb⟩
  · exact Nat.lt_irrefl _ hb.2
  · exact Nat.lt_irrefl _ (Nat.lt_of_lt_of_le (hgap t ht) hb.1)

/-- The rest of a separated list has the bytes that the first span has not. -/
theorem covers_tail_iff (h : Separated (s :: spans)) :
    Covers spans b ↔ Covers (s :: spans) b ∧ b ∉ s := by
  obtain ⟨-, hgap, -⟩ := cons_iff.1 h
  constructor
  · rintro ⟨t, ht, hb⟩
    refine ⟨Span.covers_cons.2 (.inr ⟨t, ht, hb⟩), fun hs => ?_⟩
    have hlt := hgap t ht
    have hle := hb.1
    have := hs.2
    omega
  · rintro ⟨hb, hs⟩
    exact (Span.covers_cons.1 hb).resolve_left hs

/-- A first span starts no later and ends no later than that of a list with the same bytes. -/
theorem head_le {s t : Span} {l r : List Span} (hl : Separated (s :: l)) (hr : Separated (t :: r))
    (h : ∀ b, Covers (s :: l) b ↔ Covers (t :: r) b) : t.offset ≤ s.offset ∧
      (s.offset = t.offset → t.stop ≤ s.stop) := by
  obtain ⟨hpos, -, -⟩ := cons_iff.1 hl
  have hfirst : s.offset ∈ s := ⟨Nat.le_refl _, by simp only [Span.stop]; omega⟩
  refine ⟨offset_le hr ((h _).1 (Span.covers_cons.2 (.inl hfirst))), fun heq => ?_⟩
  refine Nat.le_of_not_lt fun hlt => ?_
  refine not_covers_stop hl ((h _).2 (Span.covers_cons.2 (.inl ⟨?_, hlt⟩)))
  simp only [Span.stop]
  omega

/-- **Each set of bytes has one normal form.** -/
theorem ext (hl : Separated l) (hr : Separated r) (h : ∀ b, Covers l b ↔ Covers r b) : l = r := by
  induction l generalizing r with
  | nil =>
    cases r with
    | nil => rfl
    | cons t r =>
      obtain ⟨hpos, -, -⟩ := cons_iff.1 hr
      have hfirst : t.offset ∈ t := ⟨Nat.le_refl _, by simp only [Span.stop]; omega⟩
      exact absurd ((h _).2 (Span.covers_cons.2 (.inl hfirst))) (Span.not_covers_nil _)
  | cons s l ih =>
    cases r with
    | nil =>
      obtain ⟨hpos, -, -⟩ := cons_iff.1 hl
      have hfirst : s.offset ∈ s := ⟨Nat.le_refl _, by simp only [Span.stop]; omega⟩
      exact absurd ((h _).1 (Span.covers_cons.2 (.inl hfirst))) (Span.not_covers_nil _)
    | cons t r =>
      obtain ⟨hle, hstop⟩ := head_le hl hr h
      obtain ⟨hle', hstop'⟩ := head_le hr hl fun b => (h b).symm
      have hoffset : s.offset = t.offset := Nat.le_antisymm hle' hle
      -- Each list bounds the first span of the other one, so these agree.
      have hst : s = t := by
        have hends := Nat.le_antisymm (hstop' hoffset.symm) (hstop hoffset)
        cases s; cases t
        simp only [Span.stop] at hoffset hends
        subst hoffset
        simp only [Span.mk.injEq, true_and]
        omega
      subst hst
      refine congrArg (s :: ·) (ih (cons_iff.1 hl).2.2 (cons_iff.1 hr).2.2 fun b => ?_)
      rw [covers_tail_iff hl, covers_tail_iff hr, h]

/-- Spans that hold only bytes below a bound stop there. -/
theorem stop_le (h : Separated spans) {n : Nat} (hb : ∀ b, Covers spans b → b < n) :
    ∀ s ∈ spans, s.stop ≤ n := by
  intro s hs
  have hpos := h.1 s hs
  have hlast := hb (s.stop - 1) ⟨s, hs, by simp only [Span.mem_def, Span.stop]; omega⟩
  omega

/-- A byte that is covered lies in one span only. -/
theorem countP_eq_one (h : Separated spans) (hb : Covers spans b) :
    spans.countP (b ∈ ·) = 1 := by
  induction spans with
  | nil => exact absurd hb (Span.not_covers_nil b)
  | cons s spans ih =>
    rw [List.countP_cons]
    by_cases hs : b ∈ s
    · have hnone : spans.countP (b ∈ ·) = 0 := by
        rw [List.countP_eq_zero]
        intro t ht hbt
        exact ((covers_tail_iff h).1 ⟨t, ht, of_decide_eq_true hbt⟩).2 hs
      rw [hnone, if_pos (decide_eq_true hs)]
    · rw [ih (cons_iff.1 h).2.2 ((covers_tail_iff h).2 ⟨hb, hs⟩),
        if_neg (by simpa using hs)]

end Separated

theorem countP_eq_zero_of_not_covers {spans : List Span} {b : Nat} (h : ¬ Covers spans b) :
    spans.countP (b ∈ ·) = 0 := by
  rw [List.countP_eq_zero]
  intro s hs hb
  exact h ⟨s, hs, of_decide_eq_true hb⟩

/-! ## The normal form

Normalizing drops empty spans, sorts the others by their offsets and fuses each with the one before
it if the two touch. -/

/-- Fused spans, the last of which stands first. -/
def Fused (done : List Span) : Prop := Separated done.reverse

/-- The newest span stands first and lies behind all others with a gap. -/
theorem fused_cons_iff {s : Span} {done : List Span} : Fused (s :: done) ↔
    0 < s.length ∧ (∀ t ∈ done, t.stop < s.offset) ∧ Fused done := by
  simp only [Fused, Separated, List.reverse_cons, List.mem_append, List.mem_reverse,
    List.mem_singleton, List.pairwise_append, List.pairwise_singleton, forall_eq, true_and]
  constructor
  · rintro ⟨hpos, hsep, hgap⟩
    exact ⟨hpos s (.inr rfl), hgap, fun t ht => hpos t (.inl ht), hsep⟩
  · rintro ⟨hs, hgap, hpos, hsep⟩
    refine ⟨?_, hsep, hgap⟩
    rintro t (ht | rfl)
    · exact hpos t ht
    · exact hs

section Fuse

variable {done : List Span} {s : Span}

/-- The last fused span starts no later than `s`. -/
def StartsBy (done : List Span) (s : Span) : Prop := ∀ last ∈ done.head?, last.offset ≤ s.offset

/-- Adding a span keeps the accumulator fused.  If it touches the last one, that one grows; if not,
it lies behind it with a gap. -/
theorem fused_fuseSpan (h : Fused done) (hs : 0 < s.length) : Fused (fuseSpan done s) := by
  cases done with
  | nil => exact fused_cons_iff.2 ⟨hs, nofun, h⟩
  | cons last done =>
    obtain ⟨hpos, hgap, hdone⟩ := fused_cons_iff.1 h
    rw [fuseSpan]
    split
    · refine fused_cons_iff.2 ⟨?_, hgap, hdone⟩
      simp only [Span.stop]
      omega
    · rename_i hafter
      refine fused_cons_iff.2 ⟨hs, List.forall_mem_cons.2 ⟨by omega, fun t ht => ?_⟩, h⟩
      have hlt := hgap t ht
      simp only [Span.stop] at hafter
      omega

/-- Adding a span adds its bytes.  This needs the order: a span that began before the last one would
lose the bytes in front. -/
theorem covers_fuseSpan (hstart : StartsBy done s) {b : Nat} :
    Covers (fuseSpan done s) b ↔ Covers done b ∨ b ∈ s := by
  cases done with
  | nil => simp [fuseSpan]
  | cons last done =>
    have hle : last.offset ≤ s.offset := hstart last rfl
    rw [fuseSpan]
    split
    · rename_i htouch
      have hmem : b ∈ (⟨last.offset, max last.stop s.stop - last.offset⟩ : Span) ↔
          b ∈ last ∨ b ∈ s := by
        simp only [Span.mem_def, Span.stop] at htouch ⊢
        omega
      rw [Span.covers_cons, Span.covers_cons, hmem, or_right_comm]
    · rw [Span.covers_cons, or_comm]

/-- The last span keeps starting no later than the ones still to come. -/
theorem startsBy_fuseSpan {t : Span} (hstart : StartsBy done s) (ht : s.offset ≤ t.offset) :
    StartsBy (fuseSpan done s) t := by
  cases done with
  | nil => rintro _ ⟨⟩; exact ht
  | cons last done =>
    have hle : last.offset ≤ s.offset := hstart last rfl
    rw [fuseSpan]
    split
    · rintro _ ⟨⟩; exact Nat.le_trans hle ht
    · rintro _ ⟨⟩; exact ht

/-- Fusing spans in the order of their offsets, one after the other. -/
theorem fused_foldl {spans done : List Span} (hdone : Fused done)
    (hpos : ∀ s ∈ spans, 0 < s.length) (hsorted : spans.Pairwise (·.offset ≤ ·.offset))
    (hstart : ∀ s ∈ spans, StartsBy done s) :
    Fused (spans.foldl fuseSpan done) ∧
      ∀ b, Covers (spans.foldl fuseSpan done) b ↔ Covers done b ∨ Covers spans b := by
  induction spans generalizing done with
  | nil => exact ⟨hdone, fun b => by simp⟩
  | cons s spans ih =>
    obtain ⟨hs, hpos⟩ := List.forall_mem_cons.1 hpos
    obtain ⟨hfirst, hsorted⟩ := List.pairwise_cons.1 hsorted
    obtain ⟨hstart, -⟩ := List.forall_mem_cons.1 hstart
    obtain ⟨hfused, hcovers⟩ := ih (fused_fuseSpan hdone hs) hpos hsorted
      fun t ht => startsBy_fuseSpan hstart (hfirst t ht)
    refine ⟨hfused, fun b => ?_⟩
    rw [List.foldl_cons, hcovers, covers_fuseSpan hstart, Span.covers_cons, or_assoc]

end Fuse

/-- Sorting by offset and then by length puts the offsets in order. -/
theorem pairwise_sort_before (spans : List Span) :
    (stableSort Span.before spans).Pairwise (·.offset ≤ ·.offset) := by
  have hbefore : ∀ s t : Span, s.before t = true ↔
      s.offset < t.offset ∨ s.offset = t.offset ∧ s.length ≤ t.length := by
    intro s t
    simp [Span.before]
  have htotal : ∀ s t : Span, s.before t = true ∨ t.before s = true := by
    intro s t
    rw [hbefore, hbefore]
    omega
  have htrans : ∀ s t u : Span, s.before t = true → t.before u = true → s.before u = true := by
    intro s t u
    rw [hbefore, hbefore, hbefore]
    omega
  refine (pairwise_stableSort htotal htrans spans).imp fun {s t} h => ?_
  have := (hbefore s t).1 h
  omega

/-- The two properties of the normal form, together since one run of the loop gives both. -/
theorem normalizeSpans_spec (spans : List Span) :
    Separated (normalizeSpans spans) ∧
      ∀ b, Covers (normalizeSpans spans) b ↔ Covers spans b := by
  have hmem : ∀ s, s ∈ stableSort Span.before (spans.filter (0 < ·.length)) ↔
      s ∈ spans.filter (0 < ·.length) := fun s => mem_stableSort
  have hpos : ∀ s ∈ stableSort Span.before (spans.filter (0 < ·.length)), 0 < s.length := by
    intro s hs
    simpa using (List.mem_filter.1 ((hmem s).1 hs)).2
  have hnil : Fused [] := Separated.nil
  obtain ⟨hfused, hcovers⟩ := fused_foldl hnil hpos (pairwise_sort_before _) fun _ _ => nofun
  refine ⟨hfused, fun b => ?_⟩
  rw [normalizeSpans, Span.covers_congr_mem fun _ => List.mem_reverse, hcovers,
    Span.covers_congr_mem hmem, Span.covers_filter_length]
  simp

/-- **Normalizing separates.** -/
theorem separated_normalizeSpans (spans : List Span) : Separated (normalizeSpans spans) :=
  (normalizeSpans_spec spans).1

/-- **Normalizing keeps the bytes.** -/
@[simp] theorem covers_normalizeSpans {spans : List Span} {b : Nat} :
    Covers (normalizeSpans spans) b ↔ Covers spans b := (normalizeSpans_spec spans).2 b

/-- Lists with the same bytes have the same normal form. -/
theorem normalizeSpans_congr {l r : List Span} (h : ∀ b, Covers l b ↔ Covers r b) :
    normalizeSpans l = normalizeSpans r :=
  (separated_normalizeSpans l).ext (separated_normalizeSpans r) fun b => by simp [h]

/-! ## Differences

Subtracting cuts every span at the holes that meet it.  The loop goes through the holes from left to
right and keeps the place up to which the span has been dealt with. -/

section Cut

variable {stop start : Nat} {done holes : List Span}

/-- What cutting leaves is separated and lies behind the finished pieces, which end before
`start`. -/
theorem separated_cutSpan (hdone : Fused done) (hbefore : ∀ s ∈ done, s.stop < start)
    (hholes : Separated holes) : Separated (cutSpan stop done start holes) := by
  induction holes generalizing done start with
  | nil =>
    rw [cutSpan]
    split
    · exact fused_cons_iff.2 ⟨by simp only; omega, hbefore, hdone⟩
    · exact hdone
  | cons hole holes ih =>
    obtain ⟨hpos, -, hholes⟩ := Separated.cons_iff.1 hholes
    rw [cutSpan]
    refine ih ?_ ?_ hholes
    · split
      · exact fused_cons_iff.2 ⟨by simp only; omega, hbefore, hdone⟩
      · exact hdone
    · have hlater : ∀ s ∈ done, s.stop < max start hole.stop := fun s hs => by
        have := hbefore s hs
        omega
      split
      · refine List.forall_mem_cons.2 ⟨?_, hlater⟩
        simp only [Span.stop]
        omega
      · exact hlater

/-- Cutting leaves the bytes from `start` to `stop` that lie in no hole.  A hole must not begin
behind `stop`: the piece in front of it would then be too long. -/
theorem covers_cutSpan (hholes : Separated holes) (hstop : ∀ hole ∈ holes, hole.offset ≤ stop)
    {b : Nat} : Covers (cutSpan stop done start holes) b ↔
      Covers done b ∨ (start ≤ b ∧ b < stop) ∧ ¬ Covers holes b := by
  induction holes generalizing done start with
  | nil =>
    rw [cutSpan, Span.covers_congr_mem fun _ => List.mem_reverse]
    split
    · have hmem : b ∈ (⟨start, stop - start⟩ : Span) ↔ start ≤ b ∧ b < stop := by
        simp only [Span.mem_def, Span.stop]
        omega
      simp [hmem, or_comm]
    · have hempty : ¬ (start ≤ b ∧ b < stop) := by omega
      simp [hempty]
  | cons hole holes ih =>
    obtain ⟨hpos, hgap, hsep⟩ := Separated.cons_iff.1 hholes
    obtain ⟨hfirst, hstop⟩ := List.forall_mem_cons.1 hstop
    -- No later hole has a byte before the end of this one.
    have hlater : Covers holes b → hole.stop < b := by
      rintro ⟨t, ht, hb⟩
      exact Nat.lt_of_lt_of_le (hgap t ht) hb.1
    rw [cutSpan, ih hsep hstop, Span.covers_cons]
    have hdone : Covers (if start < hole.offset then ⟨start, hole.offset - start⟩ :: done
        else done) b ↔ (start ≤ b ∧ b < hole.offset) ∨ Covers done b := by
      split
      · rw [Span.covers_cons]
        refine or_congr_left ?_
        simp only [Span.mem_def, Span.stop]
        omega
      · have hempty : ¬ (start ≤ b ∧ b < hole.offset) := by omega
        simp [hempty]
    rw [hdone]
    have hmem : b ∈ hole ↔ hole.offset ≤ b ∧ b < hole.stop := Iff.rfl
    have hends : hole.stop = hole.offset + hole.length := rfl
    by_cases hd : Covers done b
    · simp [hd]
    · by_cases hh : Covers holes b
      · have := hlater hh
        simp only [hd, hh, hmem, or_false, or_true, not_true, and_false, iff_false]
        omega
      · simp only [hd, hh, hmem]
        simp only [or_false, false_or, not_false_iff, and_true]
        omega

end Cut

section Without

variable {spans holes : List Span}

theorem Separated.filter (h : Separated spans) (p : Span → Bool) : Separated (spans.filter p) :=
  ⟨fun s hs => h.1 s (List.mem_filter.1 hs).1, h.2.filter p⟩

/-- Holes that do not meet the span need not be looked at. -/
theorem covers_cut_meeting (hholes : Separated holes) (s : Span) {b : Nat} :
    Covers (cutSpan s.stop [] s.offset (holes.filter (·.Intersects s))) b ↔
      b ∈ s ∧ ¬ Covers holes b := by
  rw [covers_cutSpan (hholes.filter _)]
  · simp only [Span.not_covers_nil, false_or, ← Span.mem_def]
    refine and_congr_right fun hb => not_congr ?_
    simp only [Span.covers_def, List.mem_filter, decide_eq_true_eq]
    constructor
    · rintro ⟨t, ⟨ht, -⟩, hbt⟩
      exact ⟨t, ht, hbt⟩
    · rintro ⟨t, ht, hbt⟩
      refine ⟨t, ⟨ht, ?_⟩, hbt⟩
      simp only [Span.Intersects, Span.mem_def] at hb hbt ⊢
      omega
  · intro hole hhole
    have hmeet : hole.Intersects s := by simpa using (List.mem_filter.1 hhole).2
    exact Nat.le_of_lt hmeet.1

/-- **Subtraction is the difference of the sets of bytes.** -/
theorem covers_withoutSpans (hholes : Separated holes) {b : Nat} :
    Covers (withoutSpans spans holes) b ↔ Covers spans b ∧ ¬ Covers holes b := by
  rw [withoutSpans, Span.covers_flatMap]
  simp only [covers_cut_meeting hholes]
  constructor
  · rintro ⟨s, hs, hb, hnot⟩
    exact ⟨⟨s, hs, hb⟩, hnot⟩
  · rintro ⟨⟨s, hs, hb⟩, hnot⟩
    exact ⟨s, hs, hb, hnot⟩

theorem separated_cut_meeting (hholes : Separated holes) (s : Span) :
    Separated (cutSpan s.stop [] s.offset (holes.filter (·.Intersects s))) :=
  separated_cutSpan Separated.nil nofun (hholes.filter _)

/-- What is left of a span has a first and a last byte, both of which lie in the span. -/
theorem within_of_mem_cutSpan (hholes : Separated holes) {s piece : Span}
    (h : piece ∈ cutSpan s.stop [] s.offset (holes.filter (·.Intersects s))) :
    s.offset ≤ piece.offset ∧ piece.stop ≤ s.stop := by
  have hpos := (separated_cut_meeting hholes s).1 piece h
  have hb (b : Nat) (hb : b ∈ piece) : b ∈ s :=
    ((covers_cut_meeting hholes s).1 ⟨piece, h, hb⟩).1
  have hfirst := hb piece.offset (by simp only [Span.mem_def, Span.stop]; omega)
  have hlast := hb (piece.stop - 1) (by simp only [Span.mem_def, Span.stop]; omega)
  simp only [Span.mem_def] at hfirst hlast
  omega

/-- **Subtraction gives a normal form.** -/
theorem separated_withoutSpans (hspans : spans.Pairwise (·.stop < ·.offset))
    (hholes : Separated holes) : Separated (withoutSpans spans holes) := by
  have hpieces := separated_cut_meeting hholes
  refine ⟨?_, List.pairwise_flatMap.2 ⟨fun s _ => (hpieces s).2, hspans.imp ?_⟩⟩
  · intro piece hp
    obtain ⟨s, -, hp⟩ := List.mem_flatMap.1 hp
    exact (hpieces s).1 piece hp
  · intro s t hst piece hp piece' hp'
    have := within_of_mem_cutSpan hholes hp
    have := within_of_mem_cutSpan hholes hp'
    omega

end Without

/-! ## Complements

The complement below a size is what is left of the one span that has all bytes below it. -/

section Complement

variable {size : Nat} {spans : List Span}

theorem separated_complementSpans (h : Separated spans) : Separated (complementSpans size spans) :=
  (separated_withoutSpans (List.pairwise_singleton _ _) h).filter _

/-- **The complement holds the bytes below the size that the list leaves out.** -/
theorem covers_complementSpans (h : Separated spans) {b : Nat} :
    Covers (complementSpans size spans) b ↔ b < size ∧ ¬ Covers spans b := by
  rw [complementSpans, Span.covers_filter_length, covers_withoutSpans h]
  simp [Span.mem_def, Span.stop]

end Complement

end NativeRecord
