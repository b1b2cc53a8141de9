import NativeRecord.Proofs.Transfer.Comparison
import NativeRecord.Proofs.Transfer.Overwriting

/-!
# Padding that is zeroed

The padding of a record is zeroed before the members are written, once for the whole record: the
records within it are written without.  Members set no bit of the padding, so it might as well be
zeroed afterwards, and reading looks at none.

Zeroing is a patch, and writing the members is one, as long as no access is made to fail.  The
members set bits in scalars only, and no byte of the padding lies in a scalar, so no position is in
both patches and they commute.  This holds member by member, and therefore also for a write that
stops at one of them.  Reading does not see the padding for the same reason: it depends on the bytes
in scalars.

## What is here

* `Patch.zeros` — zeros for the bytes of some spans; `zeroSpans_run_writable` — zeroing spans stores
  them.
* `Layout.writeBefore_zeroed` — zeroing the padding first does what zeroing it last would do, also
  when the write of a member fails.
* `Layout.PaddingApart`, `Layout.paddingApart` — zeroing the padding sets exactly the padding, and
  no read depends on it.
-/

set_option autoImplicit false
namespace NativeRecord

open NativeRecord.Span (Covers)
open Writing

/-! ## Zeros

Zeroing goes span by span, each in one piece or byte by byte.  On memory that can be written either
comes to the same patch. -/

/-- Zeros for all bits in the bytes of some spans. -/
def Patch.zeros (spans : List Span) : Patch := fun p =>
  if Covers spans (p / 8) then some false else none

/-- Zeroing one more span. -/
theorem Patch.bytes_andThen_zeros (s : Span) (spans : List Span) :
    (Patch.bytes s.offset (List.replicate s.length 0)).andThen (.zeros spans) =
      .zeros (s :: spans) := by
  funext p
  rw [andThen, zeros, zeros, bytes, List.length_replicate]
  have hmem : 8 * s.offset ≤ p ∧ p < 8 * (s.offset + s.length) ↔ p / 8 ∈ s := by
    rw [Span.mem_def, Span.stop]
    omega
  by_cases hspans : Covers spans (p / 8)
  · rw [if_pos hspans, if_pos (Span.covers_cons.2 (.inr hspans)), Option.some_or]
  · rw [if_neg hspans, Option.none_or]
    by_cases hp : p / 8 ∈ s
    · have hlt : p / 8 - s.offset < s.length := by rw [Span.mem_def, Span.stop] at hp; omega
      rw [if_pos (hmem.2 hp), if_pos (Span.covers_cons.2 (.inl hp)),
        List.getElem?_replicate_of_lt hlt, Option.getD_some]
      exact congrArg some BitVec.getLsbD_zero
    · rw [if_neg (mt hmem.1 hp), if_neg fun h => (Span.covers_cons.1 h).elim hp hspans]

/-- A view with zeros in some spans has the other bytes as they were. -/
theorem View.patch_zeros (v : View) (spans : List Span) :
    v.patch (.zeros spans) =
      { v with bytes := v.bytes.mapIdx fun b byte => if Covers spans b then 0 else byte } := by
  have hbyte : (Patch.zeros spans).byte = fun b byte => if Covers spans b then 0 else byte := by
    funext b byte
    refine BitVec.eq_of_getLsbD_eq fun k hk => ?_
    have hdiv : (8 * b + k) / 8 = b := by omega
    rw [Patch.getLsbD_byte _ _ _ hk, Patch.zeros, hdiv]
    split <;> simp
  rw [patch, hbyte]

theorem zeroSpans_run_writable {platform : Platform} {v : View} (h : v.Writable platform)
    {limit : Nat} {spans : List Span} (hlimit : ∀ s ∈ spans, s.stop ≤ limit)
    (hsize : limit ≤ v.size) :
    (zeroSpans limit 0 spans).run v = (.ok (), v.patch (.zeros spans)) := by
  induction spans generalizing v with
  | nil =>
    have hnone : Patch.zeros [] = .empty := funext fun p => if_neg (Span.not_covers_nil _)
    rw [hnone, View.patch_empty]
    rfl
  | cons s spans ih =>
    obtain ⟨hfirst, hlimit⟩ := List.forall_mem_cons.1 hlimit
    rw [Span.stop] at hfirst
    have halike := v.alike_patch (.bytes s.offset (List.replicate s.length 0))
    have hfill : (access fun view => view.fillBlock s.offset s.length 0).run v =
        (.ok (), v.patch (.bytes s.offset (List.replicate s.length 0))) := by
      rw [run_access, View.fillBlock_eq_patch h 0 (Nat.le_trans hfirst hsize)]
      rfl
    rw [zeroSpans, Nat.zero_add, checkWithin_eq_ok_iff.2 hfirst]
    show ((access fun view => view.fillBlock s.offset s.length 0) >>= fun _ =>
      zeroSpans limit 0 spans : Writing Unit).run v = _
    rw [run_bind, hfill, ← Patch.bytes_andThen_zeros, ← View.patch_patch]
    exact ih (h.of_alike halike) hlimit (halike.size_eq ▸ hsize)

/-! ## Records

A name that is unknown is found before anything is written, so in that case the padding is not
zeroed.  In all others it is, and comes first. -/

namespace Layout

variable {platform : Platform} {l : Layout} {v w : View}

/-- The members set no bit of the padding. -/
theorem Footprint.not_covers_padding (hs : (Shape.record l).Surveyed) {e : Endianness} {r : Record}
    {k p : Nat} (h : l.Footprint e false r k p) : ¬ Covers l.padding (p / 8) := by
  obtain ⟨⟨⟩, -⟩ | ⟨i, -, m, x, hm, -, hreached⟩ := h
  exact HoldsAt.not_covers_padding hs ⟨m, hm, hreached.holds⟩

/-- **Zeroing the padding first does what zeroing it last would do,** wherever the write fails. -/
theorem writeBefore_zeroed (h : v.Writable platform) (hs : l.Sound platform)
    (hsurveyed : (Shape.record l).Surveyed) (hsize : l.size ≤ v.size) (r : Record) (k : Nat) :
    (l.writeBefore true r k).run v =
      (((l.writeBefore false r k).run v).1,
        ((l.writeBefore false r k).run v).2.patch (.zeros l.padding)) := by
  obtain ⟨answer, f, hsets, hf⟩ := writeBefore_confined h.pointers hs false r k
  have hapart : ∀ p, f p = none ∨ Patch.zeros l.padding p = none := by
    intro p
    rcases hp : f p with _ | b
    · exact .inl rfl
    · have hmember := hf p (by rw [hp]; rfl)
      exact .inr (if_neg (hmember.not_covers_padding hsurveyed))
  show (zeroSpans l.size 0 l.padding >>= fun _ => l.writeBefore false r k).run v = _
  rw [run_bind, zeroSpans_run_writable h hsurveyed.stop_padding_le hsize]
  show (l.writeBefore false r k).run (v.patch (.zeros l.padding)) = _
  rw [hsets _ (v.alike_patch _), hsets v (.refl v), View.patch_comm hapart]

/-- So it is for a record without unknown names. -/
theorem write_zeroed (h : v.Writable platform) (hs : l.Sound platform)
    (hsurveyed : (Shape.record l).Surveyed) (hsize : l.size ≤ v.size) {r : Record}
    (hknown : unknownName? l.members r = none) :
    l.write true r v =
      ((l.write false r v).1, (l.write false r v).2.patch (.zeros l.padding)) := by
  simp only [write, writeAt_known hknown, run_within,
    writeBefore_zeroed h hs hsurveyed hsize r l.members.length]
  rfl

/-- With an unknown name, the padding is not zeroed either. -/
theorem write_unknown {r : Record} {name : String} (h : unknownName? l.members r = some name)
    (zeroFill : Bool) :
    l.write zeroFill r v = (.error (.inRecord l.tag (v.base.advance 0) (.noSuchName name)), v) := by
  rw [write, writeAt_eq, h]
  rfl

/-- Views that hold the same outside the padding hold the same in all scalars. -/
theorem sameLeaves_of_padding (hs : (Shape.record l).Surveyed)
    (h : ∀ b < l.size, ¬ Covers l.padding b → v.bytes[b]? = w.bytes[b]?) :
    (Shape.record l).SameLeaves v w 0 := by
  intro p _ hleaf
  have hpadding : ¬ Covers l.padding (p / 8) := fun hp => (hs.covers_padding.1 hp).2 hleaf
  have hbyte : v.bytes[p / 8]? = w.bytes[p / 8]? := h _ (hleaf.lt_size hs) hpadding
  rw [View.bit, View.bit, hbyte]

/-- Padding has no part in what is transferred. -/
structure PaddingApart (platform : Platform) (l : Layout) : Prop where
  /-- It is made up of all bytes that lie in no scalar, however deep in the record. -/
  padding : ∀ b, Covers l.padding b ↔ b < l.size ∧ ¬ (Shape.record l).LeafAt b
  /-- A write that zeroes it answers like one that does not, and fails like it. -/
  answer : ∀ r (v : View), v.Writable platform → l.size ≤ v.size →
    (l.write true r v).1 = (l.write false r v).1
  /-- It leaves the same bytes, except that all padding is zero, whatever the record has values for
  and wherever the write fails. -/
  zeroed : ∀ r (v : View), v.Writable platform → l.size ≤ v.size →
    (∀ name ∈ r.names, ∃ m ∈ l.members, m.name = name) →
      (l.write true r v).2 = { (l.write false r v).2 with
        bytes := (l.write false r v).2.bytes.mapIdx fun b byte =>
          if Covers l.padding b then 0 else byte }
  /-- With an unknown name, neither of them changes a byte. -/
  unknown : ∀ r (v : View), (∃ name ∈ r.names, ∀ m ∈ l.members, m.name ≠ name) →
    (l.write true r v).2 = v ∧ (l.write false r v).2 = v
  /-- The same is read from views with the same bytes outside the padding, however long they are and
  whatever their addresses. -/
  read : ∀ v w : View, v.Readable platform → w.Readable platform → v.endianness = w.endianness →
    l.size ≤ v.size → l.size ≤ w.size →
    (∀ b < l.size, ¬ Covers l.padding b → v.bytes[b]? = w.bytes[b]?) →
      ∃ r, l.read v = .ok r ∧ l.read w = .ok r
  /-- Reading also fails alike, in views that are too short or in which reads are made to fail. -/
  fails : ∀ v w : View, v.pointerWidth = platform.pointerWidth → v.Alike w →
    (∀ b < l.size, ¬ Covers l.padding b → v.bytes[b]? = w.bytes[b]?) → l.read v = l.read w

/-- **Zeroing the padding sets exactly the bytes of the padding to zero, and no read depends on
them.** -/
theorem paddingApart {config : Config} (hvalid : config.validate = .ok ())
    (hbuilt : Built config l) : l.PaddingApart config.platform := by
  have hs := hbuilt.sound (Config.usable_of_validate hvalid)
  have hsurveyed := hbuilt.constructed.surveyed
  refine ⟨fun _ => hsurveyed.covers_padding, ?_, ?_, ?_, ?_, ?_⟩
  · intro r v hview hsize
    cases hname : unknownName? l.members r with
    | none => rw [write_zeroed hview hs hsurveyed hsize hname]
    | some name => rw [write_unknown hname, write_unknown hname]
  · intro r v hview hsize hknown
    rw [← View.patch_zeros,
      write_zeroed hview hs hsurveyed hsize (unknownName?_eq_none_iff.2 hknown)]
  · rintro r v ⟨name, hname, hunknown⟩
    cases hfound : unknownName? l.members r with
    | none =>
      obtain ⟨m, hm, hmname⟩ := unknownName?_eq_none_iff.1 hfound name hname
      exact absurd hmname (hunknown m hm)
    | some name => rw [write_unknown hfound, write_unknown hfound]; exact ⟨rfl, rfl⟩
  · intro v w hv hw hendian hsv hsw hbytes
    exact exists_read_both hs hv hw hendian hsv hsw (sameLeaves_of_padding hsurveyed hbytes)
  · intro v w hpointers hvw hbytes
    have hread : l.slot.read v l.size 0 = l.slot.read w l.size 0 :=
      Slot.read_congr hvw hpointers hs.slot (sameLeaves_of_padding hsurveyed hbytes)
    rw [read_slot, read_slot] at hread
    cases hv : l.read v <;> cases hw : l.read w <;> rw [hv, hw] at hread <;> cases hread <;> rfl

end Layout

/-- The same bytes, and all bits set in the padding. -/
def paddedView : View :=
  .ofBytes .host (Array.ofFn fun i : Fin 24 =>
    if Covers overlaidLayout.padding i then 0xFF else BitVec.ofNat 8 (i.val % 2))

/-- The flag of the row has a value, and the pointer behind it one that it does not take. -/
def halfwayRecord : Record :=
  ⟨[⟨"next", .bool true⟩, ⟨"row", .record ⟨[⟨"flag", .bool true⟩]⟩⟩]⟩

/-- Most of the padding lies in the items of the row, for which the record has no values. -/
theorem paddingApart_overlaid :
    overlaidLayout.padding = [⟨1, 1⟩, ⟨5, 1⟩, ⟨9, 7⟩] ∧
      (∃ e, (overlaidLayout.write true halfwayRecord paddedView).1 = .error e ∧
        (overlaidLayout.write false halfwayRecord paddedView).1 = .error e) ∧
      (overlaidLayout.write false halfwayRecord paddedView).2.bytes[8]? = some 1 ∧
      (overlaidLayout.write true halfwayRecord paddedView).2 =
        { (overlaidLayout.write false halfwayRecord paddedView).2 with
          bytes := (overlaidLayout.write false halfwayRecord paddedView).2.bytes.mapIdx
            fun b byte => if Covers overlaidLayout.padding b then 0 else byte } ∧
      ∃ r, overlaidLayout.read overlaidView = .ok r ∧ overlaidLayout.read paddedView = .ok r := by
  have hapart : overlaidLayout.PaddingApart Config.standard.platform :=
    Layout.paddingApart (show Config.standard.validate = .ok () by decide) built_overlaid
  have hpadded : paddedView.Writable Config.standard.platform := ⟨⟨rfl, fun _ => rfl⟩, fun _ => rfl⟩
  have hbytes : ∀ b < 24, ¬ Covers overlaidLayout.padding b →
      overlaidView.bytes[b]? = paddedView.bytes[b]? := by decide +kernel
  have hanswer := hapart.answer halfwayRecord paddedView hpadded (Nat.le_refl 24)
  refine ⟨by decide, ⟨_, hanswer, rfl⟩, by decide +kernel, ?_, ?_⟩
  · exact hapart.zeroed halfwayRecord paddedView hpadded (Nat.le_refl 24) (by decide)
  · exact hapart.read overlaidView paddedView writable_overlaid.toReadable hpadded.toReadable rfl
      (Nat.le_refl 24) (Nat.le_refl 24) hbytes

end NativeRecord
