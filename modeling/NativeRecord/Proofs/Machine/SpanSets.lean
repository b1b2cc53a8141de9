import NativeRecord.Proofs.Span
import NativeRecord.Proofs.Machine.Arithmetic

/-!
# Sets of bytes on a machine

A set of bytes is kept as a *merged* list of spans: sorted, with a gap between any two, and with
ends that the machine can represent.  Lists of any other form are merged first.

The list of a set is unique because separated spans are determined by the bytes they cover.
Everything else is the description of each operation by the bytes of its answer, together with the
metered version, which answers the same when the ends of the spans are admitted.

## What is here

* `normalizeSpans_eq_self_iff` — merging leaves exactly the separated lists alone.
* `Metered.Merged` — the merged lists of a machine.  Merging gives one (`merged_normalizeSpans`),
  and so does cutting one out of another (`merged_withoutSpans`).
* `Metered.RepresentsSets`, `Metered.representsSets` — merged lists stand for sets of bytes, one for
  each set, and the operations are those of sets.
-/

set_option autoImplicit false
namespace NativeRecord

open NativeRecord.Span (Covers)

/-- The offsets of separated spans increase. -/
theorem Separated.pairwise_offset {spans : List Span} (h : Separated spans) :
    spans.Pairwise (·.offset < ·.offset) := by
  refine h.2.imp fun {s t} hgap => ?_
  simp only [Span.stop] at hgap
  omega

/-- **Merging leaves exactly the separated lists alone.** -/
theorem normalizeSpans_eq_self_iff {spans : List Span} :
    normalizeSpans spans = spans ↔ Separated spans := by
  refine ⟨fun h => h ▸ separated_normalizeSpans spans, fun h => ?_⟩
  exact (separated_normalizeSpans spans).ext h fun _ => covers_normalizeSpans

theorem normalizeSpans_eq_iff {l r : List Span} :
    normalizeSpans l = normalizeSpans r ↔ ∀ b, Covers l b ↔ Covers r b := by
  refine ⟨fun h b => ?_, normalizeSpans_congr⟩
  rw [← covers_normalizeSpans, h, covers_normalizeSpans]

namespace Metered

/-- Spans that each hold a byte, in order, with a gap between any two and with ends that are
admitted. -/
structure Merged (limit : SizeLimit) (spans : List Span) : Prop where
  separated : Separated spans
  fit : Fit limit spans

section Merged

variable {limit : SizeLimit} {spans holes : List Span}

theorem merged_normalizeSpans (h : Fit limit spans) : Merged limit (normalizeSpans spans) :=
  ⟨separated_normalizeSpans spans, (normalize_eq h).2⟩

theorem merged_withoutSpans (h : Merged limit spans) (hholes : Separated holes) :
    Merged limit (withoutSpans spans holes) := by
  refine ⟨separated_withoutSpans h.separated.2 hholes, fun piece hpiece => ?_⟩
  obtain ⟨s, hs, hpiece⟩ := List.mem_flatMap.1 hpiece
  exact (h.fit s hs).mono (within_of_mem_cutSpan hholes hpiece).2

end Merged

/-- What lists of spans whose ends are admitted have to do with sets of bytes.  None of the
operations wraps. -/
structure RepresentsSets (limit : SizeLimit) : Prop where
  /-- Merging gives a merged list of the same bytes. -/
  merge : ∀ spans, Fit limit spans → normalize limit spans = some (normalizeSpans spans) ∧
    Merged limit (normalizeSpans spans) ∧
      (normalizeSpans spans).Pairwise (·.offset < ·.offset) ∧
        ∀ b, Covers (normalizeSpans spans) b ↔ Covers spans b
  /-- Lists are merged to the same list if they hold the same bytes, and only then. -/
  canonical : ∀ l r, Fit limit l → Fit limit r →
    (normalize limit l = normalize limit r ↔ ∀ b, Covers l b ↔ Covers r b)
  /-- What was merged stays as it is, and nothing else does. -/
  fixed : ∀ spans, Fit limit spans → (normalize limit spans = some spans ↔ Merged limit spans)
  idempotent : ∀ spans, Fit limit spans →
    (normalize limit spans).bind (normalize limit) = normalize limit spans
  /-- Cutting one merged list out of another leaves a merged list of the difference. -/
  subtract : ∀ spans holes, Merged limit spans → Merged limit holes →
    without limit spans holes = some (withoutSpans spans holes) ∧
      Merged limit (withoutSpans spans holes) ∧
        ∀ b, Covers (withoutSpans spans holes) b ↔ Covers spans b ∧ ¬ Covers holes b

/-- **Merged lists are sets of bytes,** each set in one form, and merging and cutting are exact. -/
theorem representsSets (limit : SizeLimit) : RepresentsSets limit where
  merge spans h := by
    have hmerged := merged_normalizeSpans h
    exact ⟨(normalize_eq h).1, hmerged, hmerged.separated.pairwise_offset,
      fun _ => covers_normalizeSpans⟩
  canonical l r hl hr := by
    rw [(normalize_eq hl).1, (normalize_eq hr).1, Option.some.injEq, normalizeSpans_eq_iff]
  fixed spans h := by
    rw [(normalize_eq h).1, Option.some.injEq, normalizeSpans_eq_self_iff]
    exact ⟨fun hseparated => ⟨hseparated, h⟩, Merged.separated⟩
  idempotent spans h := by
    have hmerged := merged_normalizeSpans h
    have hself := normalizeSpans_eq_self_iff.2 hmerged.separated
    rw [(normalize_eq h).1, Option.bind_some, (normalize_eq hmerged.fit).1, hself]
  subtract _ _ h hholes := ⟨without_eq h.fit hholes.fit, merged_withoutSpans h hholes.separated,
    fun _ => covers_withoutSpans hholes.separated⟩

/-- Touching, overlapping, repeated and empty spans are merged, and the holes cut out again. -/
example :
    normalize .word64 [⟨8, 4⟩, ⟨0, 4⟩, ⟨4, 2⟩, ⟨10, 4⟩, ⟨8, 4⟩, ⟨20, 0⟩] =
        some [⟨0, 6⟩, ⟨8, 6⟩] ∧
      without .word64 [⟨0, 6⟩, ⟨8, 6⟩] [⟨1, 2⟩, ⟨5, 5⟩, ⟨13, 9⟩] =
        some [⟨0, 1⟩, ⟨3, 2⟩, ⟨10, 3⟩] := by decide +kernel

end Metered

end NativeRecord
