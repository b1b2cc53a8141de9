import NativeRecord.Proofs.Layout.Coverage
import NativeRecord.Proofs.Machine.Arithmetic

/-!
# The coverage of a layout on a machine

A machine gathers the bytes of scalars by walking through the members, with the offset of every
element in the record.  The ends of all spans that it comes by lie within the record, so nothing
wraps if the size of the record fits.

The layout defines its coverage through the lists of spans of the embedded shapes, and this walk
finds it by visiting elements, so the two computations are not compared step by step.  Both are
characterized by the bytes they find: a byte lies in a scalar or not (`Shape.LeafAt`), the walk adds
a span for each such byte (`Adds`), and the normal form of a set of bytes is unique.  What is
tracked besides the bytes is the bound `top` on the ends of the spans, and it is what makes every
sum on the way fit.

The walk takes shortcuts where a whole array is known to be covered, in one way for solid bytes and
in another for padding.  `Surveys` collects what a walk has to know about the records that it comes
by for its shortcut to be right, and the two uses are the two instances `surveys_solid` and
`surveys_padding`.

## What is here

* `Metered.size` — the size of a shape, and `Metered.Measured`, that it does not wrap.
* `Metered.collect` — the walk; `Metered.collect_spec` — it finds the bytes in scalars.
* `Metered.coverage` — the coverage of the members; `Metered.coverage_eq` — it is the one that
  layouts have.
-/

set_option autoImplicit false
namespace NativeRecord

open NativeRecord.Span (Covers)

namespace Metered

/-! ## Sizes -/

section Size

variable (limit : SizeLimit)

/-- The number of bytes of a shape, by one product for each array. -/
def size : Shape → Option Nat
  | .scalar _ size _ => some size
  | .record layout => some layout.size
  | .array element length => do limit.mul? (← size element) length

/-- The size of a shape does not wrap. -/
def Measured (s : Shape) : Prop := size limit s = some s.size

end Size

variable {limit : SizeLimit}

/-- If the size does not wrap, it is the size. -/
theorem size_eq_of_eq_some {s : Shape} {n : Nat} (h : size limit s = some n) : n = s.size := by
  induction s using Shape.arrayInduction generalizing n with
  | scalar | record => exact (Option.some.inj h).symm
  | array element length ih =>
    obtain ⟨stride, hstride, h⟩ := Option.bind_eq_some_iff.1 h
    rw [Shape.size, ← ih hstride]
    exact (SizeLimit.check?_eq_some_iff.1 h).2

/-- The size of an array is one product, of a size that does not wrap. -/
theorem measured_array_iff {element : Shape} {length : Nat} :
    Measured limit (.array element length) ↔
      Measured limit element ∧ limit.Admits (element.size * length) := by
  constructor
  · intro h
    obtain ⟨stride, hstride, h⟩ := Option.bind_eq_some_iff.1 h
    obtain rfl := size_eq_of_eq_some hstride
    exact ⟨hstride, (SizeLimit.check?_eq_some_iff.1 h).1⟩
  · rintro ⟨helement, hsize⟩
    rw [Measured, size, helement]
    exact SizeLimit.mul?_eq hsize

/-! ## Walking through a shape

One walk with two parameters: how a record says that all of it is covered, and which spans it gives.
-/

/-- Whether all bytes of a shape are known to lie in scalars without a look at the elements. -/
def whole (full : Layout → Bool) : Shape → Bool
  | .scalar _ _ _ => true
  | .record layout => full layout
  | .array element _ => whole full element

section Walk

variable (limit : SizeLimit) (full : Layout → Bool) (inner : Layout → Option (List Span))

/-- Adds the spans of a shape that lies at a span: those of a record are given, moved to their
place, and those of an array come element by element unless all of it is covered. -/
def collect : Shape → Span → List Span → Option (List Span)
  | .scalar _ _ _, s, done => some (done ++ [s])
  | .record layout, s, done => do
    let spans ← (← inner layout).mapM (shift limit s.offset)
    return done ++ spans
  | .array element length, s, done => do
    let stride ← size limit element
    if stride = 0 then return done
    else if whole full element then return done ++ [s]
    else
      (List.range length).foldlM (fun done i => do
        let start ← limit.add? s.offset (← limit.mul? i stride)
        collect element ⟨start, stride⟩ done) done

end Walk

/-- The answer adds spans with the given bytes, which stop no later than `top`. -/
def Adds (top : Nat) (done : List Span) (bytes : Nat → Prop) (answer : Option (List Span)) : Prop :=
  ∃ new, answer = some (done ++ new) ∧ (∀ b, Covers new b ↔ bytes b) ∧ ∀ s ∈ new, s.stop ≤ top

/-- A loop adds what its passes add. -/
theorem adds_foldlM {α : Type} {step : List Span → α → Option (List Span)} {xs : List α} {top : Nat}
    {bytes : α → Nat → Prop} (h : ∀ x ∈ xs, ∀ done, Adds top done (bytes x) (step done x))
    (done : List Span) : Adds top done (fun b => ∃ x ∈ xs, bytes x b) (xs.foldlM step done) := by
  induction xs generalizing done with
  | nil => exact ⟨[], by rw [List.append_nil]; rfl, by simp, List.forall_mem_nil _⟩
  | cons x xs ih =>
    obtain ⟨hx, hxs⟩ := List.forall_mem_cons.1 h
    obtain ⟨first, hfirst, hcovers, hstop⟩ := hx done
    obtain ⟨rest, hrest, hcovers', hstop'⟩ := ih hxs (done ++ first)
    refine ⟨first ++ rest, ?_, fun b => ?_, ?_⟩
    · rw [List.foldlM_cons, hfirst, ← List.append_assoc]
      exact hrest
    · rw [Span.covers_append, hcovers, hcovers']
      exact (List.exists_mem_cons_iff (bytes · b) x xs).symm
    · exact fun s hs => (List.mem_append.1 hs).elim (hstop s) (hstop' s)

/-- What a walk has to know about the records that it comes by: without pointers, if it is about
such ones. -/
structure Surveys (limit : SizeLimit) (plain : Prop) (full : Layout → Bool)
    (inner : Layout → Option (List Span)) : Prop where
  full : ∀ l, (Shape.record l).Surveyed → (plain → l.hasPointers = false) → full l = true →
    ∀ b < l.size, (Shape.record l).LeafAt b
  inner : ∀ l, (Shape.record l).Surveyed → (plain → l.hasPointers = false) →
    limit.Admits l.size → ∃ spans, inner l = some spans ∧
      (∀ b, Covers spans b ↔ (Shape.record l).LeafAt b) ∧ ∀ s ∈ spans, s.stop ≤ l.size

section Spec

variable {plain : Prop} {full : Layout → Bool} {inner : Layout → Option (List Span)}

/-- Where the shortcut applies, every byte lies in a scalar. -/
theorem leafAt_of_whole (h : Surveys limit plain full inner) {s : Shape} (hs : s.Surveyed)
    (hplain : plain → s.hasPointers = false) (hwhole : whole full s = true) :
    ∀ b < s.size, s.LeafAt b := by
  induction hs with
  | scalar => exact fun b hb => .scalar hb
  | record hcoverage hwithin hmembers =>
    exact h.full _ (.record hcoverage hwithin hmembers) hplain hwhole
  | @array element length _ ih =>
    intro b hb
    obtain ⟨i, hi, hle, hlt⟩ := lt_mul_iff_exists.1 hb
    exact Shape.leafAt_array_iff.2 ⟨i, hi, hle, ih hplain hwhole _ hlt⟩

/-- The elements of an array add what it holds, if each of them does. -/
theorem adds_elements {element : Shape} {length offset : Nat}
    (h : ∀ {offset}, limit.Admits (offset + element.size) → ∀ done,
      Adds (offset + element.size) done (fun b => offset ≤ b ∧ element.LeafAt (b - offset))
        (collect limit full inner element ⟨offset, element.size⟩ done))
    (hstop : limit.Admits (offset + element.size * length)) (done : List Span) :
    Adds (offset + element.size * length) done
      (fun b => offset ≤ b ∧ (Shape.array element length).LeafAt (b - offset))
      ((List.range length).foldlM (fun done i => do
        let start ← limit.add? offset (← limit.mul? i element.size)
        collect limit full inner element ⟨start, element.size⟩ done) done) := by
  have hpass : ∀ i ∈ List.range length, ∀ done, Adds (offset + element.size * length) done
      (fun b => offset + i * element.size ≤ b ∧ element.LeafAt (b - (offset + i * element.size)))
      (do
        let start ← limit.add? offset (← limit.mul? i element.size)
        collect limit full inner element ⟨start, element.size⟩ done) := by
    intro i hi done
    have hend := item_stop_le (List.mem_range.1 hi) offset element.size
    have hitem : limit.Admits (offset + i * element.size + element.size) := hstop.mono hend
    have hstart : limit.Admits (offset + i * element.size) := hitem.mono (Nat.le_add_right _ _)
    obtain ⟨new, hnew, hcovers, hle⟩ := h hitem done
    refine ⟨new, ?_, hcovers, fun t ht => Nat.le_trans (hle t ht) hend⟩
    rw [SizeLimit.mul?_eq (hstart.mono (Nat.le_add_left _ _))]
    dsimp only [Option.bind_eq_bind, Option.bind_some]
    rw [SizeLimit.add?_eq hstart]
    exact hnew
  obtain ⟨new, hnew, hcovers, hle⟩ := adds_foldlM hpass done
  simp only [List.mem_range, ← Shape.leafAt_array_from_iff] at hcovers
  exact ⟨new, hnew, hcovers, hle⟩

/-- **A walk finds the bytes in scalars,** and nothing wraps if the end of the shape fits. -/
theorem collect_spec (h : Surveys limit plain full inner) {s : Shape} (hs : s.Surveyed)
    (hplain : plain → s.hasPointers = false) (hsize : Measured limit s) {offset : Nat}
    (hstop : limit.Admits (offset + s.size)) (done : List Span) :
    Adds (offset + s.size) done (fun b => offset ≤ b ∧ s.LeafAt (b - offset))
      (collect limit full inner s ⟨offset, s.size⟩ done) := by
  induction hs generalizing offset done with
  | scalar type size alignment =>
    refine ⟨[⟨offset, size⟩], rfl, fun b => ?_, List.forall_mem_singleton.2 (Nat.le_refl _)⟩
    simp only [Span.covers_cons, Span.not_covers_nil, or_false, Span.mem_def, Span.stop,
      Shape.leafAt_scalar_iff]
    omega
  | @record l hcoverage hwithin hmembers =>
    have hinner := hstop.mono (Nat.le_add_left l.size offset)
    obtain ⟨spans, hspans, hcovers, hle⟩ :=
      h.inner l (.record hcoverage hwithin hmembers) hplain hinner
    have hshift : spans.mapM (shift limit offset) = some (spans.map (Span.shift offset)) := by
      refine mapM_eq_some_map fun t ht => shift_eq (hstop.mono ?_)
      rw [Nat.add_comm]
      exact Nat.add_le_add_left (hle t ht) _
    refine ⟨spans.map (Span.shift offset), ?_, fun b => ?_, List.forall_mem_map.2 fun t ht => ?_⟩
    · rw [collect, hspans]
      show (spans.mapM (shift limit offset) >>= _) = _
      rw [hshift]
      rfl
    · rw [Span.covers_map_shift, hcovers]
    · rw [Span.stop_shift, Nat.add_comm]
      exact Nat.add_le_add_left (hle t ht) _
  | @array element length helement ih =>
    obtain ⟨helementSize, -⟩ := measured_array_iff.1 hsize
    rw [collect, helementSize]
    dsimp only [Option.bind_eq_bind, Option.bind_some]
    split
    · rename_i hempty
      refine ⟨[], by rw [List.append_nil]; rfl, fun b => ?_, List.forall_mem_nil _⟩
      refine iff_of_false (Span.not_covers_nil b) fun hb => ?_
      obtain ⟨i, -, -, hleaf⟩ := (Shape.leafAt_array_from_iff offset b).1 hb
      have := hleaf.lt_size helement
      omega
    · rename_i hbytes
      split
      · rename_i hwhole
        refine ⟨[⟨offset, element.size * length⟩], rfl, fun b => ?_,
          List.forall_mem_singleton.2 (Nat.le_refl _)⟩
        have hall := leafAt_of_whole h (.array length helement) hplain hwhole
        have hin : (Shape.array element length).LeafAt (b - offset) ↔
            b - offset < element.size * length :=
          ⟨fun hb => hb.lt_size (.array length helement), hall _⟩
        refine Iff.trans ?_ (and_congr_right fun _ => hin).symm
        simp only [Span.covers_cons, Span.not_covers_nil, or_false, Span.mem_def, Span.stop]
        omega
      · exact adds_elements (ih hplain helementSize) hstop done

end Spec

/-! ## Solid bytes and padding

Solid bytes leave out whatever a member with pointers has; padding is what no walk finds. -/

section Members

variable (limit : SizeLimit)

/-- The solid bytes of some members. -/
def solid (members : List MemberLayout) : Option (List Span) := do
  let plain ← (members.filter (!·.shape.hasPointers)).foldlM (fun done m =>
    collect limit (fun l => l.solid = [⟨0, l.size⟩]) (fun l => some l.solid) m.shape m.span done) []
  without limit (← normalize limit plain) (← normalize limit (pointerSpans members))

/-- The bytes of a record of `size` bytes that lie in no scalar of its members. -/
def padding (size : Nat) (members : List MemberLayout) : Option (List Span) := do
  let occupied ← members.foldlM (fun done m =>
    collect limit (·.padding.isEmpty) (fun l => complement limit l.size l.padding) m.shape m.span
      done) []
  complement limit size (← normalize limit occupied)

/-- What the bytes of a record hold. -/
def coverage (size : Nat) (members : List MemberLayout) : Option Coverage := do
  let solid ← solid limit members
  let padding ← padding limit size members
  return ⟨members.any (·.shape.hasPointers), solid, padding⟩

end Members

/-- A member of a shape that is measured and surveyed, which ends within a record of `size` bytes,
checked or not. -/
structure Held (limit : SizeLimit) (size : Nat) (m : MemberLayout) : Prop where
  surveyed : m.shape.Surveyed
  measured : Measured limit m.shape
  within : m.offset + m.length ≤ size

section Held

variable {size : Nat} {members : List MemberLayout}

/-- A record without pointers says by its solid bytes that it is covered. -/
theorem surveys_solid : Surveys limit True (fun l => l.solid = [⟨0, l.size⟩])
    fun l => some l.solid where
  full l hs hplain hfull b hb := by
    rw [← hs.covers_solid (hplain trivial)]
    show Covers l.solid b
    rw [of_decide_eq_true hfull]
    simpa [Span.mem_def, Span.stop] using hb
  inner l hs hplain _ :=
    ⟨l.solid, rfl, fun _ => hs.covers_solid (hplain trivial), hs.stop_solid_le⟩

/-- A record says by its padding what of it is not covered, with pointers or without. -/
theorem surveys_padding : Surveys limit False (·.padding.isEmpty)
    fun l => complement limit l.size l.padding where
  full l hs _ hfull b hb := by
    by_contra hnot
    have hpadding := hs.covers_padding.2 ⟨hb, hnot⟩
    rw [List.isEmpty_iff.1 hfull] at hpadding
    exact Span.not_covers_nil b hpadding
  inner l hs _ hsize := by
    have hfit : Fit limit l.padding := fun s h => hsize.mono (hs.stop_padding_le s h)
    have hcovers (b : Nat) : Covers (complementSpans l.size l.padding) b ↔
        (Shape.record l).LeafAt b := hs.covers_occupied
    exact ⟨complementSpans l.size l.padding, complement_eq hsize hfit, hcovers,
      (separated_complementSpans hs.separated_padding).stop_le
        fun b hb => ((hcovers b).1 hb).lt_size hs⟩

/-- The bytes that a walk through some of the members finds. -/
theorem adds_members {plain : Prop} {full : Layout → Bool} {inner : Layout → Option (List Span)}
    (hsurveys : Surveys limit plain full inner) (hsize : limit.Admits size)
    (h : ∀ m ∈ members, Held limit size m ∧ (plain → m.shape.hasPointers = false)) :
    Adds size [] (fun b => ∃ m ∈ members, m.offset ≤ b ∧ m.shape.LeafAt (b - m.offset))
      (members.foldlM (fun done m => collect limit full inner m.shape m.span done) []) := by
  refine adds_foldlM (fun m hm done => ?_) []
  obtain ⟨⟨hsurveyed, hmeasured, hwithin⟩, hplain⟩ := h m hm
  obtain ⟨new, hnew, hcovers, hle⟩ :=
    collect_spec hsurveys hsurveyed hplain hmeasured (hsize.mono hwithin) done
  exact ⟨new, hnew, hcovers, fun s hs => Nat.le_trans (hle s hs) hwithin⟩

/-- The walk for solid bytes, of the members without pointers. -/
theorem solid_eq (hsize : limit.Admits size) (h : ∀ m ∈ members, Held limit size m) :
    solid limit members = some (Coverage.ofMembers size members).solid := by
  have hplain : ∀ m ∈ members.filter (!·.shape.hasPointers),
      Held limit size m ∧ (True → m.shape.hasPointers = false) := by
    intro m hm
    obtain ⟨hm, hnone⟩ := List.mem_filter.1 hm
    exact ⟨h m hm, fun _ => by simpa using hnone⟩
  obtain ⟨new, hnew, hcovers, hle⟩ := adds_members surveys_solid hsize hplain
  have hpointers : Fit limit (pointerSpans members) := by
    refine List.forall_mem_map.2 fun m hm => hsize.mono ?_
    exact (h m (List.mem_filter.1 hm).1).within
  obtain ⟨hnormal, hfit⟩ := normalize_eq fun s hs => hsize.mono (hle s hs)
  obtain ⟨hnormal', hfit'⟩ := normalize_eq hpointers
  have hsame : normalizeSpans new = normalizeSpans (plainSpans members) := by
    refine normalizeSpans_congr fun b => (hcovers b).trans ?_
    rw [covers_plainSpans_iff]
    constructor
    · rintro ⟨m, hm, hle, hleaf⟩
      obtain ⟨⟨hsurveyed, -, -⟩, hnone⟩ := hplain m hm
      exact ⟨m, (List.mem_filter.1 hm).1, hnone trivial, hle,
        (hsurveyed.covers_solid (hnone trivial)).2 hleaf⟩
    · rintro ⟨m, hm, hnone, hle, hsolid⟩
      exact ⟨m, List.mem_filter.2 ⟨hm, by simpa using hnone⟩, hle,
        ((h m hm).surveyed.covers_solid hnone).1 hsolid⟩
  rw [solid, hnew]
  dsimp only [List.nil_append, Option.bind_eq_bind, Option.bind_some]
  rw [hnormal, hnormal', Option.bind_some, Option.bind_some, without_eq hfit hfit', hsame]
  rfl

/-- The walk for padding, of all members. -/
theorem padding_eq (hsize : limit.Admits size) (h : ∀ m ∈ members, Held limit size m) :
    padding limit size members = some (Coverage.ofMembers size members).padding := by
  obtain ⟨new, hnew, hcovers, hle⟩ :=
    adds_members surveys_padding hsize fun m hm => ⟨h m hm, False.elim⟩
  obtain ⟨hnormal, hfit⟩ := normalize_eq fun s hs => hsize.mono (hle s hs)
  have hsame : normalizeSpans new = normalizeSpans (occupiedSpans members) := by
    refine normalizeSpans_congr fun b => (hcovers b).trans ?_
    rw [covers_occupiedSpans_iff]
    exact exists_congr fun m => and_congr_right fun hm => and_congr_right fun _ =>
      (h m hm).surveyed.covers_occupied.symm
  rw [padding, hnew]
  dsimp only [List.nil_append, Option.bind_eq_bind, Option.bind_some]
  rw [hnormal, Option.bind_some, complement_eq hsize hfit, hsame]
  rfl

/-- **Nothing wraps when the coverage of a record is worked out** whose size fits and whose members
lie within it, and the coverage is that of the layout. -/
theorem coverage_eq (hsize : limit.Admits size) (h : ∀ m ∈ members, Held limit size m) :
    coverage limit size members = some (.ofMembers size members) := by
  rw [coverage, solid_eq hsize h, padding_eq hsize h]
  rfl

end Held

end Metered

end NativeRecord
