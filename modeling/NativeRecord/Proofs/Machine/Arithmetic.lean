import NativeRecord.Layout.Placement
import NativeRecord.Proofs.Alignment
import NativeRecord.Proofs.Run

/-!
# Arithmetic on a machine

Layouts are built with natural numbers, and only some of them are compared with a limit.  On a
machine every sum and every product has to fit into a word, compared or not, and no difference may
lie below zero.

A *metered* function carries out one of the algorithms operation by operation.  It has no answer if
one of the operations wraps.

A metered function is shown to answer what the plain one does, from a condition on its arguments
alone.  So wrapping is excluded where the condition holds, and the plain function can be used from
then on.  For spans the condition is that their ends fit: all other sums and differences in the
algorithms are between two ends or between an end and a start.

## What is here

* `Machine` — how large byte counts and bit counts may be: `Machine.host` has words, and on
  `Machine.ideal` there is no bound.  `Machine.Reaches` — the machine has all counts that a limit
  admits.
* `Metered.normalize`, `Metered.without`, `Metered.complement` — the operations on spans; nothing
  wraps if the ends of the spans fit (`Metered.normalize_eq` and the like).
* `Metered.range` — the bits of a bit-field in its word; nothing wraps if they fit into it.
-/

set_option autoImplicit false
namespace NativeRecord

/-! ## Machines

Two bounds, since counts of bytes and numbers of bits have different types. -/

/-- How large the numbers of a machine may be. -/
structure Machine where
  /-- Sizes, offsets and indices. -/
  counts : SizeLimit
  /-- Numbers of bits. -/
  bits : SizeLimit
deriving DecidableEq, Repr

namespace Machine

/-- A machine with 64-bit counts and 32-bit numbers of bits. -/
def host : Machine := ⟨.word64, .upTo (2 ^ (32 : Nat) - 1)⟩

/-- No bounds. -/
def ideal : Machine := ⟨.unbounded, .unbounded⟩

/-- The machine has the counts that a limit admits, which are at least those of 64 bits, and the
bits of two words.  A number is admitted if it is after rounding up. -/
structure Reaches (A : Machine) (limit : SizeLimit) : Prop where
  counts : ∀ {n}, limit.Admits n → A.counts.Admits n
  bits : ∀ {n}, n ≤ 128 → A.bits.Admits n
  word : ∀ {n}, n < 2 ^ (64 : Nat) → limit.Admits n
  rounding : ∀ {a : Alignment} {offset}, a.log ≤ 64 → limit.Admits (a.align offset) →
    limit.Admits (offset + (a.bytes - 1))

theorem host_reaches : host.Reaches .word64 where
  counts h := h
  bits h := Nat.le_trans h (by decide)
  word := SizeLimit.admits_word64_iff.2
  rounding h hround := by
    rw [SizeLimit.admits_word64_iff, ← Nat.not_le] at hround ⊢
    rwa [← Alignment.le_align_iff (Alignment.bytes_dvd_word64 h)]

theorem ideal_reaches_unbounded : ideal.Reaches .unbounded :=
  ⟨fun _ => trivial, fun _ => trivial, fun _ => trivial, fun _ _ => trivial⟩

theorem ideal_reaches_word64 : ideal.Reaches .word64 :=
  { host_reaches with counts := fun _ => trivial, bits := fun _ => trivial }

end Machine

/-- A difference, unless it lies below zero. -/
def subtract? (m n : Nat) : Option Nat := if n ≤ m then some (m - n) else none

theorem subtract?_eq {m n : Nat} (h : n ≤ m) : subtract? m n = some (m - n) := if_pos h

theorem SizeLimit.add?_eq {limit : SizeLimit} {m n : Nat} (h : limit.Admits (m + n)) :
    limit.add? m n = some (m + n) := if_pos h

theorem SizeLimit.mul?_eq {limit : SizeLimit} {m n : Nat} (h : limit.Admits (m * n)) :
    limit.mul? m n = some (m * n) := if_pos h

theorem SizeLimit.admits_max {limit : SizeLimit} {m n : Nat} (hm : limit.Admits m)
    (hn : limit.Admits n) : limit.Admits (max m n) := by
  rcases Nat.le_total m n with h | h
  · rwa [Nat.max_eq_right h]
  · rwa [Nat.max_eq_left h]

namespace Metered

/-! ## Spans

Each operation in two forms: with the sums checked, and the lemma that says when they are there. -/

section Spans

variable (limit : SizeLimit)

/-- The offset just past the last byte. -/
def stop (s : Span) : Option Nat := limit.add? s.offset s.length

/-- The same run of bytes further on. -/
def shift (n : Nat) (s : Span) : Option Span :=
  (limit.add? s.offset n).map fun offset => ⟨offset, s.length⟩

/-- The second comparison is made only if the first one succeeds. -/
def intersects (s t : Span) : Option Bool := do
  if s.offset < (← stop limit t) then return t.offset < (← stop limit s) else return false

/-- Adds a span to fused ones, the last of which stands first. -/
def fuse : List Span → Span → Option (List Span)
  | [], s => some [s]
  | last :: done, s => do
    let top ← stop limit last
    if s.offset ≤ top then
      let length ← subtract? (max top (← stop limit s)) last.offset
      return ⟨last.offset, length⟩ :: done
    else return s :: last :: done

/-- Drops the empty spans, sorts the others and fuses those that touch or overlap. -/
def normalize (spans : List Span) : Option (List Span) := do
  let done ← (stableSort Span.before (spans.filter (0 < ·.length))).foldlM (fuse limit) []
  return done.reverse

/-- What is left of a span from `start` on outside the holes that meet it, behind the pieces
`done`. -/
def cut (s : Span) (done : List Span) (start : Nat) : List Span → Option (List Span)
  | [] => do
    let top ← stop limit s
    if start < top then return (⟨start, ← subtract? top start⟩ :: done).reverse
    else return done.reverse
  | hole :: holes => do
    if ← intersects limit hole s then
      let pieces ←
        if start < hole.offset then do
          let length ← subtract? hole.offset start
          pure (⟨start, length⟩ :: done)
        else pure done
      cut s pieces (max start (← stop limit hole)) holes
    else cut s done start holes

/-- Each span without the holes that meet it. -/
def without (spans holes : List Span) : Option (List Span) := do
  let pieces ← spans.mapM fun s => cut limit s [] s.offset holes
  return pieces.flatten

/-- The bytes below a size outside the spans. -/
def complement (size : Nat) (spans : List Span) : Option (List Span) := do
  let pieces ← without limit [⟨0, size⟩] spans
  return pieces.filter (0 < ·.length)

end Spans

/-- The ends of the spans are admitted. -/
def Fit (limit : SizeLimit) (spans : List Span) : Prop := ∀ s ∈ spans, limit.Admits s.stop

section Fit

variable {limit : SizeLimit} {s t : Span} {spans holes done : List Span}

theorem stop_eq (h : limit.Admits s.stop) : stop limit s = some s.stop := SizeLimit.add?_eq h

theorem shift_eq {n : Nat} (h : limit.Admits (s.stop + n)) :
    shift limit n s = some (s.shift n) := by
  rw [shift, SizeLimit.add?_eq (h.mono (by rw [Span.stop]; omega))]
  rfl

theorem intersects_eq (hs : limit.Admits s.stop) (ht : limit.Admits t.stop) :
    intersects limit s t = some (decide (s.Intersects t)) := by
  rw [intersects, stop_eq ht, stop_eq hs]
  show (if s.offset < t.stop then some (decide (t.offset < s.stop)) else some false) = _
  split
  · rename_i h
    exact congrArg some (decide_eq_decide.2 (and_iff_right h).symm)
  · rename_i h
    exact congrArg some (decide_eq_false fun hboth => h hboth.1).symm

/-- Fusing forms no sum but ends of spans, and the end of a fused span is one of the two. -/
theorem fuse_eq (hdone : Fit limit done) (hs : limit.Admits s.stop) :
    fuse limit done s = some (fuseSpan done s) ∧ Fit limit (fuseSpan done s) := by
  cases done with
  | nil => exact ⟨rfl, List.forall_mem_singleton.2 hs⟩
  | cons last done =>
    obtain ⟨hlast, hdone⟩ := List.forall_mem_cons.1 hdone
    have hle : last.offset ≤ max last.stop s.stop :=
      Nat.le_trans (Nat.le_add_right _ _) (Nat.le_max_left _ _)
    rw [fuse, stop_eq hlast, stop_eq hs, fuseSpan]
    show (if s.offset ≤ last.stop then
        (subtract? (max last.stop s.stop) last.offset >>= fun length =>
          some (⟨last.offset, length⟩ :: done))
      else some (s :: last :: done)) = _ ∧ _
    rw [subtract?_eq hle]
    split
    · refine ⟨rfl, List.forall_mem_cons.2 ⟨?_, hdone⟩⟩
      rw [Span.stop, Nat.add_sub_cancel' hle]
      exact SizeLimit.admits_max hlast hs
    · exact ⟨rfl, List.forall_mem_cons.2 ⟨hs, List.forall_mem_cons.2 ⟨hlast, hdone⟩⟩⟩

theorem foldlM_fuse (hdone : Fit limit done) (hspans : Fit limit spans) :
    spans.foldlM (fuse limit) done = some (spans.foldl fuseSpan done) ∧
      Fit limit (spans.foldl fuseSpan done) := by
  induction spans generalizing done with
  | nil => exact ⟨rfl, hdone⟩
  | cons s spans ih =>
    obtain ⟨hs, hspans⟩ := List.forall_mem_cons.1 hspans
    obtain ⟨hfuse, hfit⟩ := fuse_eq hdone hs
    rw [List.foldlM_cons, hfuse]
    exact ih hfit hspans

/-- **Nothing wraps when spans are normalized,** and the ends of the answer fit again. -/
theorem normalize_eq (h : Fit limit spans) :
    normalize limit spans = some (normalizeSpans spans) ∧ Fit limit (normalizeSpans spans) := by
  have hsorted : Fit limit (stableSort Span.before (spans.filter (0 < ·.length))) := fun s hs =>
    h s (List.mem_filter.1 (mem_stableSort.1 hs)).1
  obtain ⟨hfold, hfit⟩ := foldlM_fuse (show Fit limit [] from nofun) hsorted
  rw [normalize, hfold]
  exact ⟨rfl, fun s hs => hfit s (List.mem_reverse.1 hs)⟩

/-- Cutting starts each piece at the end of a hole or of what was cut before. -/
theorem cut_eq {start : Nat} (hs : limit.Admits s.stop) (hholes : Fit limit holes) :
    cut limit s done start holes =
      some (cutSpan s.stop done start (holes.filter (·.Intersects s))) := by
  induction holes generalizing done start with
  | nil =>
    rw [cut, stop_eq hs, List.filter_nil, cutSpan]
    show (if start < s.stop then
        (subtract? s.stop start >>= fun length => some (⟨start, length⟩ :: done).reverse)
      else some done.reverse) = _
    split
    · rename_i h
      rw [subtract?_eq (Nat.le_of_lt h)]
      rfl
    · rfl
  | cons hole holes ih =>
    obtain ⟨hhole, hholes⟩ := List.forall_mem_cons.1 hholes
    rw [cut, intersects_eq hhole hs, stop_eq hhole, List.filter_cons]
    by_cases hmeet : hole.Intersects s
    · simp only [hmeet, decide_true, if_true, cutSpan, Option.bind_eq_bind, Option.bind_some]
      split
      · rename_i h
        rw [subtract?_eq (Nat.le_of_lt h)]
        exact ih hholes
      · exact ih hholes
    · simp only [hmeet, decide_false, Option.bind_eq_bind, Option.bind_some]
      exact ih hholes

/-- **Nothing wraps when holes are cut out.** -/
theorem without_eq (hspans : Fit limit spans) (hholes : Fit limit holes) :
    without limit spans holes = some (withoutSpans spans holes) := by
  rw [without, mapM_eq_some_map fun s hs => cut_eq (hspans s hs) hholes, withoutSpans,
    List.flatMap_def]
  rfl

theorem complement_eq {size : Nat} (hsize : limit.Admits size) (h : Fit limit spans) :
    complement limit size spans = some (complementSpans size spans) := by
  have hwhole : Fit limit [⟨0, size⟩] :=
    List.forall_mem_singleton.2 (by rwa [Span.stop, Nat.zero_add])
  rw [complement, without_eq hwhole h]
  rfl

end Fit

/-! ## Bit-fields

A shift by the width of the word or more has no answer either, so a mask of all bits is made without
one. -/

/-- The amount of a shift of a 64-bit word. -/
def shiftAmount (n : Nat) : Option Nat := if n < 64 then some n else none

/-- The word whose low bits are set. -/
def lowBits (width : Nat) : Option Word :=
  if 64 ≤ width then some (BitVec.allOnes 64)
  else (shiftAmount width).map fun amount => (1 : Word) <<< amount - 1

/-- The word whose bits in the range are set. -/
def mask (r : BitRange) : Option Word := do
  let low ← lowBits r.width
  let amount ← shiftAmount r.first
  return low <<< amount

section Bits

variable (A : Machine)

/-- The number of bits in a word of `size` bytes, once the size is cast. -/
def capacity (size : Nat) : Option Nat := do
  let bytes ← A.bits.check? size
  A.bits.mul? bytes 8

/-- The first bit of a bit-field in a word of `capacity` bits of which `used` are taken. -/
def firstBit (order : BitOrder) (capacity used bits : Nat) : Option Nat :=
  match order with
  | .lsbFirst => some used
  | .msbFirst => do
    let unused ← subtract? capacity used
    subtract? unused bits

/-- The bits of a bit-field in a word of `size` bytes of which `used` bits are taken. -/
def range (order : BitOrder) (size used bits : Nat) : Option BitRange := do
  let first ← firstBit order (← capacity A size) used bits
  let _ ← mask ⟨first, bits⟩
  return ⟨first, bits⟩

end Bits

theorem lowBits_eq (width : Nat) : lowBits width = some (Word.ones width) := by
  rw [lowBits]
  split
  · rename_i hwide
    rw [Word.ones, Nat.min_eq_right hwide]
    rfl
  · rename_i hnarrow
    rw [shiftAmount, if_pos (by omega)]
    refine congrArg some (BitVec.eq_of_toNat_eq ?_)
    have hpow : 2 ^ width < 2 ^ (64 : Nat) := Nat.pow_lt_pow_right (by decide) (by omega)
    have hone : 1 ≤ 2 ^ width := Nat.one_le_two_pow
    rw [Word.toNat_ones, Nat.min_eq_left (by omega), BitVec.toNat_sub, BitVec.toNat_shiftLeft,
      show (1 : Word).toNat = 1 from rfl, Nat.shiftLeft_eq, Nat.one_mul, Nat.mod_eq_of_lt hpow]
    omega

theorem mask_eq {r : BitRange} (hpos : 0 < r.width) (h : r.first + r.width ≤ 64) :
    mask r = some r.mask := by
  rw [mask, lowBits_eq, shiftAmount, if_pos (by omega)]
  rfl

theorem capacity_eq {A : Machine} {limit : SizeLimit} (hA : A.Reaches limit) {size : Nat}
    (h : size ≤ 8) : capacity A size = some (8 * size) := by
  rw [capacity, SizeLimit.check?, if_pos (hA.bits (by omega))]
  show A.bits.mul? size 8 = _
  rw [SizeLimit.mul?_eq (hA.bits (by omega)), Nat.mul_comm]

theorem firstBit_eq (order : BitOrder) {capacity used bits : Nat} (h : used + bits ≤ capacity) :
    firstBit order capacity used bits = some (order.range capacity used bits).first := by
  cases order with
  | lsbFirst => rfl
  | msbFirst =>
    rw [firstBit, subtract?_eq (by omega)]
    exact subtract?_eq (by omega)

/-- **Nothing wraps when bits are allocated** that fit into the word. -/
theorem range_eq {A : Machine} {limit : SizeLimit} (hA : A.Reaches limit) (order : BitOrder)
    {size used bits : Nat} (hsize : size ≤ 8) (hpos : 0 < bits) (hfits : used + bits ≤ 8 * size) :
    range A order size used bits = some (order.range (8 * size) used bits) := by
  have hrange : order.range (8 * size) used bits =
      ⟨(order.range (8 * size) used bits).first, bits⟩ := by cases order <;> rfl
  have hend : (order.range (8 * size) used bits).first + bits ≤ 64 := by
    cases order <;> simp only [BitOrder.range] <;> omega
  rw [hrange, range, capacity_eq hA hsize]
  dsimp only [Option.bind_eq_bind, Option.bind_some]
  rw [firstBit_eq order hfits, Option.bind_some, mask_eq hpos hend]
  rfl

end Metered

end NativeRecord
