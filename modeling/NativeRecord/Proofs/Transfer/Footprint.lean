import NativeRecord.Proofs.Layout.Soundness
import NativeRecord.Proofs.Memory.Blocks
import NativeRecord.Transfer.Read

/-!
# What writing touches

A step of a write does the same to all views that differ in their content at most: it answers the
same and sets the same bits, even where it reads a word back to keep the bits around a bit-field.

`Writing.Sets` is that fact as a definition: from every view alike to `v`, the step gives this
answer and sets the bits of this patch.  It is the one thing that the later theory needs of a write
— that members do not disturb each other, that writes commute, that failures leave bytes alone —
since patches can be compared position by position.  `Confined` forgets the patch and keeps a set of
bits that contains it.

For a bit-field it is not obvious.  The step loads the word, replaces the range and stores all of
it, so the bits around it are written too; they are written with what was there, however, and on
each of the alike views with what was there in that one (`store_insert_eq`).  The patch of the step
is that of the range alone, and this is why two bit-fields in one word commute.

The three inductions of a write — over items, over members, over what a record does — are stated for
any predicate that doing nothing has and that two steps in a row have if each does
(`writeItems_induction`, `writeMembers_induction`, `Layout.writeAt_induction`).  `Confined` is the
first such predicate; later ones say that no error names an address, or that nothing changes.

## What is here

* `Writing.Sets` — the answer of a step and the bits that it sets; `Writing.Confined` — a step that
  sets no other bits than some given ones.  Steps in a row set what each of them sets
  (`Sets.bind`), and are confined if each is (`Confined.bind`).
* `MemberLayout.Owns` — the bits of a member: all bits of its bytes, or those of a bit-field in
  its word.
* `Shape.write_confined`, `MemberLayout.write_confined`, `writeMembers_confined` — a write, failed
  or not, sets bits of the shape or the members that it writes to and no others.
-/

set_option autoImplicit false
namespace NativeRecord

/-- The bits of `length` bytes from an offset on. -/
def InBytes (offset length p : Nat) : Prop := 8 * offset ≤ p ∧ p < 8 * (offset + length)

theorem InBytes.mono {offset length offset' length' p : Nat} (h : InBytes offset length p)
    (hlow : offset' ≤ offset) (hhigh : offset + length ≤ offset' + length') :
    InBytes offset' length' p := by
  rw [InBytes] at h ⊢
  omega

theorem InBytes.item {offset size length i p : Nat} (h : InBytes (offset + i * size) size p)
    (hi : i < length) : InBytes offset (size * length) p :=
  h.mono (Nat.le_add_right _ _) (item_stop_le hi offset size)

/-! ## Steps

How the two notions behave under the operations that steps are put together with. -/

namespace Writing

/-- An access runs on the view, and its error is lifted. -/
theorem run_access (f : View → Except AccessError Unit × View) (v : View) :
    (access f).run v = (liftAccess (f v).1, (f v).2) := by
  rw [access, ExceptT.run_mk]
  rcases f v with ⟨e | ⟨⟩, w⟩ <;> rfl

/-- Naming a record changes the error and nothing else. -/
theorem run_within (tag : Tag) (start : Nat) (step : Writing Unit) (v : View) :
    (within tag start step).run v =
      ((step.run v).1.mapError (.inRecord tag ((step.run v).2.base.advance start)),
        (step.run v).2) := by
  rw [within, ExceptT.run_mk]
  rcases step.run v with ⟨e | ⟨⟩, w⟩ <;> rfl

/-- From every view that differs from `v` in its content at most, the step gives this answer and
sets these bits. -/
def Sets (step : Writing Unit) (v : View) (answer : Except TransferError Unit) (f : Patch) : Prop :=
  ∀ w, v.Alike w → step.run w = (answer, w.patch f)

/-- The step sets some of the given bits and no others, and neither its answer nor what it sets
depends on the content of the view. -/
def Confined (step : Writing Unit) (v : View) (bits : Nat → Prop) : Prop :=
  ∃ answer f, step.Sets v answer f ∧ ∀ p, (f p).isSome → bits p

variable {step next : Writing Unit} {v w : View} {S T : Nat → Prop}

theorem Confined.mono (h : step.Confined v S) (hST : ∀ p, S p → T p) : step.Confined v T := by
  obtain ⟨answer, f, hsets, hf⟩ := h
  exact ⟨answer, f, hsets, fun p hp => hST p (hf p hp)⟩

theorem Confined.of_alike (h : step.Confined v S) (hvw : v.Alike w) : step.Confined w S := by
  obtain ⟨answer, f, hsets, hf⟩ := h
  exact ⟨answer, f, fun u hu => hsets u (hvw.trans hu), hf⟩

/-- Steps that do the same to all these views are confined to the same bits. -/
theorem Confined.congr (h : step.Confined v S) (hrun : ∀ w, v.Alike w → next.run w = step.run w) :
    next.Confined v S := by
  obtain ⟨answer, f, hsets, hf⟩ := h
  exact ⟨answer, f, fun w hw => (hrun w hw).trans (hsets w hw), hf⟩

theorem Confined.pure : (pure () : Writing Unit).Confined v S :=
  ⟨.ok (), .empty, fun w _ => by rw [View.patch_empty]; rfl, fun _ hp => nomatch hp⟩

theorem Confined.throw (e : TransferError) : (throw e : Writing Unit).Confined v S :=
  ⟨.error e, .empty, fun w _ => by rw [View.patch_empty]; rfl, fun _ hp => nomatch hp⟩

theorem Confined.lift_bind {α : Type} {x : Except TransferError α} {f : α → Writing Unit}
    (h : ∀ a, x = .ok a → (f a).Confined v S) : (liftM x >>= f : Writing Unit).Confined v S := by
  cases x with
  | error e => exact .throw e
  | ok a => exact h a rfl

/-- A step that succeeds and then another one set the bits of the first patch and, over them, those
of the second one. -/
theorem Sets.bind {answer : Except TransferError Unit} {f g : Patch}
    (h : step.Sets v (.ok ()) f) (h' : next.Sets v answer g) :
    (step >>= fun _ => next).Sets v answer (f.andThen g) := by
  intro w hw
  rw [run_bind, h w hw]
  simp only [h' _ (hw.trans (w.alike_patch f)), View.patch_patch]

/-- Two steps confined to the same bits are so together, also if the second is not reached. -/
theorem Confined.bind (hstep : step.Confined v S) (hnext : next.Confined v S) :
    (step >>= fun _ => next).Confined v S := by
  obtain ⟨answer, f, hsets, hf⟩ := hstep
  cases answer with
  | error e =>
    refine ⟨.error e, f, fun w hw => ?_, hf⟩
    rw [run_bind, hsets w hw]
  | ok =>
    obtain ⟨answer, g, hsets', hg⟩ := hnext
    refine ⟨answer, f.andThen g, hsets.bind hsets', fun p hp => ?_⟩
    rw [Patch.isSome_andThen] at hp
    exact hp.elim (hf p) (hg p)

/-- What a step sets does not depend on how its errors are named. -/
theorem Sets.within {answer : Except TransferError Unit} {f : Patch} (tag : Tag) (start : Nat)
    (h : step.Sets v answer f) :
    (within tag start step).Sets v (answer.mapError (.inRecord tag (v.base.advance start))) f := by
  intro w hw
  rw [run_within, h w hw, ← (hw.trans (w.alike_patch f)).base_eq]

theorem Confined.within (tag : Tag) (start : Nat) (h : step.Confined v S) :
    (within tag start step).Confined v S := by
  obtain ⟨answer, f, hsets, hf⟩ := h
  exact ⟨_, f, hsets.within tag start, hf⟩

theorem Confined.alike (h : step.Confined v S) : v.Alike (step.run v).2 := by
  obtain ⟨answer, f, hsets, -⟩ := h
  rw [hsets v (.refl v)]
  exact v.alike_patch f

theorem Confined.alike_of_run {answer : Except TransferError Unit} (h : step.Confined v S)
    (hrun : step.run v = (answer, w)) : v.Alike w := by
  have halike := h.alike
  rwa [hrun] at halike

/-- **A confined step leaves the other bits as they are.** -/
theorem Confined.bit_eq (h : step.Confined v S) {p : Nat} (hp : ¬ S p) :
    (step.run v).2.bit p = v.bit p := by
  obtain ⟨answer, f, hsets, hf⟩ := h
  have hnone : f p = none := by simpa using mt (hf p) hp
  rw [hsets v (.refl v)]
  rcases Nat.lt_or_ge p (8 * v.size) with hlt | hge
  · rw [View.bit_patch f hlt, hnone, Option.getD_none]
  · rw [View.bit_of_le hge, View.bit_of_le (by rwa [View.size_patch])]

/-- It leaves a byte as it is if it sets no bit there. -/
theorem Confined.byte_eq (h : step.Confined v S) {b : Nat} (hb : ∀ p, S p → p / 8 ≠ b) :
    (step.run v).2.bytes[b]? = v.bytes[b]? :=
  (h.alike.byte_eq_of_bit fun k hk => (h.bit_eq fun hS => hb _ hS (by omega)).symm).symm

/-- **Steps that are confined to different bits can be made in either order.** -/
theorem Confined.comm (h : step.Confined v S) (h' : next.Confined v T)
    (hdisjoint : ∀ p, S p → T p → False) :
    (next.run (step.run v).2).1 = (next.run v).1 ∧
      (next.run (step.run v).2).2 = (step.run (next.run v).2).2 := by
  obtain ⟨answer, f, hsets, hf⟩ := h
  obtain ⟨answer', g, hsets', hg⟩ := h'
  have hfg : ∀ p, f p = none ∨ g p = none := by
    intro p
    rcases hp : f p with _ | b
    · exact .inl rfl
    · refine .inr ?_
      rcases hq : g p with _ | b'
      · rfl
      · exact (hdisjoint p (hf p (by rw [hp]; rfl)) (hg p (by rw [hq]; rfl))).elim
  rw [hsets v (.refl v), hsets' v (.refl v), hsets' _ (v.alike_patch f), hsets _ (v.alike_patch g)]
  exact ⟨rfl, View.patch_comm hfg⟩

end Writing

/-! ## Single accesses

What storing a word and replacing a range in one set.  The word of a patch says by its mask which
bits of the word are new. -/

/-- The bits of a range in the word of `size` bytes at an offset. -/
def InRange (e : Endianness) (range : BitRange) (offset size p : Nat) : Prop :=
  InBytes offset size p ∧ range.mask.getLsbD (e.wordBit offset size p) = true

/-- Bytes set all of their bits. -/
theorem isSome_bytes_iff {offset p : Nat} {new : List Byte} :
    (Patch.bytes offset new p).isSome ↔ InBytes offset new.length p := by
  rw [Patch.bytes, Option.isSome_ite, InBytes]

/-- A word sets the bits of its bytes that its mask has. -/
theorem isSome_word_iff {e : Endianness} {offset width p : Nat} {mask w : Word} :
    (Patch.word e offset width mask w p).isSome ↔
      InBytes offset width p ∧ mask.getLsbD (e.wordBit offset width p) = true := by
  rw [Patch.word, Option.isSome_ite, InBytes, and_assoc]

/-- A whole word sets all bits of its bytes. -/
theorem isSome_word_allOnes {e : Endianness} {offset width p : Nat} {w : Word}
    (hwidth : AccessWidth width) (h : InBytes offset width p) :
    (Patch.word e offset width (BitVec.allOnes 64) w p).isSome := by
  have hbit : e.wordBit offset width p < 64 :=
    Nat.lt_of_lt_of_le (e.wordBit_lt h.1 h.2) (Nat.mul_le_mul_left 8 hwidth.le)
  exact isSome_word_iff.2 ⟨h, by rw [BitVec.getLsbD_allOnes, decide_eq_true hbit]⟩

open Writing

section Access

variable {v : View} {offset size : Nat}

/-- An access that answers with `answer` and sets some bits, as a step. -/
theorem access_sets {f : View → Except AccessError Unit × View} {g : Patch}
    (answer : Except AccessError Unit) (h : ∀ u, v.Alike u → f u = (answer, u.patch g)) :
    (access f).Sets v (liftAccess answer) g := by
  intro u hu
  rw [run_access, h u hu]

/-- An access that fails without setting a bit. -/
theorem access_confined_of_error {f : View → Except AccessError Unit × View} {S : Nat → Prop}
    (e : AccessError) (h : ∀ u, v.Alike u → f u = (.error e, u)) : (access f).Confined v S := by
  refine ⟨_, .empty, access_sets (.error e) fun u hu => ?_, fun _ hp => nomatch hp⟩
  rw [View.patch_empty, h u hu]

/-- A store that passes its checks sets the whole word. -/
theorem store_sets (h : v.checkStore offset size = .ok ()) (w : Word) :
    (access fun view => view.store offset size w).Sets v (.ok ())
      (.word v.endianness offset size (BitVec.allOnes 64) w) := by
  refine access_sets (.ok ()) ?_
  intro u hu
  rw [View.store_eq, hu.checkStore_eq, h, hu.endianness_eq]

/-- A store stays within its bytes, whether it succeeds or not. -/
theorem store_confined (v : View) (offset size : Nat) (w : Word) :
    (access fun view => view.store offset size w).Confined v (InBytes offset size) := by
  rcases hcheck : v.checkStore offset size with e | ⟨⟩
  · refine access_confined_of_error e ?_
    intro u hu
    rw [View.store_eq, hu.checkStore_eq, hcheck]
  · exact ⟨.ok (), _, store_sets hcheck w, fun p hp => (isSome_word_iff.1 hp).1⟩

/-- Replacing a range of the word that is there: the same as storing the range alone. -/
theorem store_insert_eq (h : v.checkStore offset size = .ok ()) (range : BitRange) (bits : Word) :
    v.store offset size (range.insert (v.word offset size) bits) =
      (.ok (), v.patch (.word v.endianness offset size range.mask (bits <<< range.first))) := by
  obtain ⟨-, hwidth, hsize⟩ := View.checkStore_eq_ok_iff.1 h
  rw [View.store_eq, h]
  refine congrArg (Prod.mk (Except.ok ())) (View.eq_patch (v.alike_patch _) fun p hp => ?_)
  rw [View.bit_patch _ hp, Patch.word, Patch.word]
  by_cases hin : 8 * offset ≤ p ∧ p < 8 * (offset + size)
  · have hbit := v.endianness.wordBit_lt hin.1 hin.2
    have h64 := hwidth.le
    have hones : (BitVec.allOnes 64).getLsbD (v.endianness.wordBit offset size p) = true := by
      rw [BitVec.getLsbD_allOnes, decide_eq_true_eq]
      omega
    rw [if_pos ⟨hin.1, hin.2, hones⟩, Option.getD_some, BitRange.getLsbD_insert]
    by_cases hmask : range.mask.getLsbD (v.endianness.wordBit offset size p) = true
    · rw [if_pos hmask, if_pos ⟨hin.1, hin.2, hmask⟩, Option.getD_some]
    · rw [if_neg hmask, if_neg fun hall => hmask hall.2.2, Option.getD_none,
        View.getLsbD_word hsize h64, v.endianness.position_wordBit hin.1 hin.2]
      simp [hbit]
  · rw [if_neg fun hall => hin ⟨hall.1, hall.2.1⟩, if_neg fun hall => hin ⟨hall.1, hall.2.1⟩]

/-- Replacing a range sets that range, where the word can be both read and stored. -/
theorem replaceBits_sets (hread : v.readFails offset = false)
    (h : v.checkStore offset size = .ok ()) (range : BitRange) (bits : Word) :
    (replaceBits size offset range bits).Sets v (.ok ())
      (.word v.endianness offset size range.mask (bits <<< range.first)) := by
  refine access_sets (.ok ()) ?_
  intro u hu
  have hcheck : u.checkStore offset size = .ok () := by rw [hu.checkStore_eq, h]
  obtain ⟨-, hwidth, hsize⟩ := View.checkStore_eq_ok_iff.1 hcheck
  have hload : u.load offset size = .ok (u.word offset size) :=
    View.load_eq_ok_iff.2 ⟨by rw [hu.readFails_eq, hread], hwidth, hsize, rfl⟩
  simp only [hload, store_insert_eq hcheck, hu.endianness_eq]

/-- Replacing a range stays within it, wherever the accesses fail. -/
theorem replaceBits_confined (v : View) (size offset : Nat) (range : BitRange) (bits : Word) :
    (replaceBits size offset range bits).Confined v (InRange v.endianness range offset size) := by
  by_cases hread : v.readFails offset = false
  · rcases haccess : v.checkAccess offset size with e | ⟨⟩
    · refine access_confined_of_error e ?_
      intro u hu
      have hload : u.load offset size = .error e := by
        rw [View.load_eq, hu.readFails_eq, hread, hu.checkAccess_eq, haccess]
        rfl
      simp only [hload]
    · rcases hcheck : v.checkStore offset size with e | ⟨⟩
      · -- The word can be read, but not stored.
        refine access_confined_of_error e ?_
        intro u hu
        obtain ⟨hwidth, hsize⟩ := View.checkAccess_eq_ok_iff.1 haccess
        have hload : u.load offset size = .ok (u.word offset size) :=
          View.load_eq_ok_iff.2 ⟨by rw [hu.readFails_eq, hread], hwidth, hu.size_eq ▸ hsize, rfl⟩
        simp only [hload, View.store_eq, hu.checkStore_eq, hcheck]
      · have hsets := replaceBits_sets hread hcheck range bits
        exact ⟨.ok (), _, hsets, fun p hp => isSome_word_iff.1 hp⟩
  · refine access_confined_of_error (.readFailed offset) ?_
    intro u hu
    have hload : u.load offset size = .error (.readFailed offset) := by
      rw [View.load_eq, hu.readFails_eq, if_pos (by simpa using hread)]
    simp only [hload]

end Access

/-! ## Scalars and bit-fields -/

section Scalar

variable {platform : Platform} {v : View} {field : String} {type : Scalar} {limit offset : Nat}
  {x : Value}

/-- On a view with the platform's pointer width, pointers are written like other scalars. -/
theorem writeScalar_run (hpointers : v.pointerWidth = platform.pointerWidth) :
    (writeScalar field type (type.size platform) limit offset x).run v = (do
      checkWithin offset (type.size platform) limit
      let w ← encodeFor field type (type.size platform) x
      access fun view => view.store offset (type.size platform) w : Writing Unit).run v := by
  rw [writeScalar]
  cases checkWithin offset (type.size platform) limit with
  | error e => rfl
  | ok =>
    cases type with
    | arith a => rfl
    | pointer target =>
      rcases hencode : encodeFor field (.pointer target) _ x with e | w
      · rfl
      · simp only [encodeFor, Scalar.encode?] at hencode
        rcases hbits : Scalar.bits? (.pointer target) x with - | b
        · rw [hbits] at hencode; cases hencode
        · rw [hbits] at hencode
          cases hencode
          show (access fun view => view.storeAddress offset ⟨b.truncate _⟩).run v = _
          rw [run_access, View.storeAddress, hpointers, Address.truncate, Scalar.size,
            Word.truncate_truncate]
          let stored := b.truncate (8 * platform.pointerWidth)
          exact (run_access (fun view => view.store offset platform.pointerWidth stored) v).symm

/-- Writing a scalar stays within its bytes. -/
theorem writeScalar_confined (hpointers : v.pointerWidth = platform.pointerWidth) :
    (writeScalar field type (type.size platform) limit offset x).Confined v
      (InBytes offset (type.size platform)) := by
  refine Confined.congr ?_ fun w hw => writeScalar_run (hw.pointerWidth_eq.trans hpointers)
  exact .lift_bind fun _ _ => .lift_bind fun _ _ => store_confined ..

/-- Writing a bit-field stays within its range. -/
theorem writeBits_confined (v : View) (field : String) (type : Scalar) (size limit : Nat)
    (range : BitRange) (offset : Nat) (x : Value) :
    (writeBits field type size limit range offset x).Confined v
      (InRange v.endianness range offset size) :=
  .lift_bind fun _ _ => .lift_bind fun _ _ => replaceBits_confined ..

end Scalar

/-! ## Members and shapes -/

/-- The bits of a member of the record that starts at `start`: those of its bytes; of a bit-field,
those of its range. -/
def MemberLayout.Owns (e : Endianness) (m : MemberLayout) (start p : Nat) : Prop :=
  InBytes (start + m.offset) m.length p ∧
    ∀ range, m.bits = some range →
      range.mask.getLsbD (e.wordBit (start + m.offset) m.length p) = true

namespace MemberLayout

variable {m : MemberLayout} {limit start : Nat} {x : Value}

/-- A bit-field is written into the word of its shape. -/
theorem write_of_bits {type : Scalar} {size : Nat} {alignment : Alignment} {range : BitRange}
    (hshape : m.shape = .scalar type size alignment) (hbits : m.bits = some range) :
    m.write limit start x = writeBits m.name type size limit range (start + m.offset) x := by
  cases m
  cases hshape
  cases hbits
  rfl

/-- Any other member is written as its shape is. -/
theorem write_of_bits_none (hbits : m.bits = none) :
    m.write limit start x = m.shape.write m.name limit (start + m.offset) x := by
  obtain ⟨name, type, shape, offset, alignment, bits, fixed, group⟩ := m
  cases hbits
  rw [MemberLayout.write]
  cases shape <;> rfl

/-- A member is written where it owns the bits, if its shape is written within its bytes. -/
theorem write_confined {v : View} (hbits : m.BitsInWord)
    (hshape : ∀ offset, (m.shape.write m.name limit offset x).Confined v
      (InBytes offset m.shape.size)) :
    (m.write limit start x).Confined v (m.Owns v.endianness start) := by
  cases hrange : m.bits with
  | none =>
    rw [write_of_bits_none hrange]
    exact (hshape _).mono fun p hp => ⟨hp, fun range h => by rw [hrange] at h; cases h⟩
  | some range =>
    obtain ⟨a, size, alignment, hscalar, -⟩ := hbits range hrange
    have hlength : m.length = size := by rw [length, hscalar, Shape.size]
    rw [write_of_bits hscalar hrange]
    refine (writeBits_confined ..).mono fun p hp => ⟨hlength ▸ hp.1, fun r hr => ?_⟩
    rw [hrange] at hr
    cases hr
    exact hlength ▸ hp.2

end MemberLayout

section Steps

variable {P : Writing Unit → Prop}

/-- What is true of doing nothing, and of two steps in a row if it is true of each, is true of
writing items if it is true of writing each of them at its offset. -/
theorem writeItems_induction (hpure : P (pure ()))
    (hbind : ∀ {step next : Writing Unit}, P step → P next → P (step >>= fun _ => next))
    {write : Nat → Value → Writing Unit} {stride offset : Nat} {items : List Value}
    (h : ∀ i x, items[i]? = some x → P (write (offset + i * stride) x)) :
    P (writeItems write stride offset items) := by
  induction items generalizing offset with
  | nil => exact hpure
  | cons x items ih =>
    rw [writeItems]
    refine hbind ?_ (ih fun i y hy => ?_)
    · simpa using h 0 x rfl
    · have hnext := h (i + 1) y hy
      rwa [item_offset_succ] at hnext

/-- Members without a value are skipped. -/
theorem writeMembers_cons (m : MemberLayout) (ms : List MemberLayout) (limit start : Nat)
    (r : Record) :
    writeMembers limit (m :: ms) start r =
      ((r.get? m.name).elim (pure ()) (m.write limit start)) >>= fun _ =>
        writeMembers limit ms start r := by
  rw [writeMembers]
  cases r.get? m.name <;> rfl

/-- So it is of writing members, if it is true of writing each of them that has a value. -/
theorem writeMembers_induction (hpure : P (pure ()))
    (hbind : ∀ {step next : Writing Unit}, P step → P next → P (step >>= fun _ => next))
    {ms : List MemberLayout} {limit start : Nat} {r : Record}
    (h : ∀ m ∈ ms, ∀ x, r.get? m.name = some x → P (m.write limit start x)) :
    P (writeMembers limit ms start r) := by
  induction ms with
  | nil => exact hpure
  | cons m ms ih =>
    rw [writeMembers_cons]
    refine hbind ?_ (ih fun m' hm' => h m' (List.mem_cons_of_mem _ hm'))
    cases hx : r.get? m.name with
    | some x => exact h m List.mem_cons_self x hx
    | none => exact hpure

end Steps

theorem writeItems_confined {v : View} {S : Nat → Prop} {write : Nat → Value → Writing Unit}
    {stride offset : Nat} {items : List Value}
    (h : ∀ i x, items[i]? = some x → (write (offset + i * stride) x).Confined v S) :
    (writeItems write stride offset items).Confined v S :=
  writeItems_induction (P := (·.Confined v S)) .pure .bind h

theorem writeMembers_confined {v : View} {S : Nat → Prop} {ms : List MemberLayout}
    {limit start : Nat} {r : Record}
    (h : ∀ m ∈ ms, ∀ x, r.get? m.name = some x → (m.write limit start x).Confined v S) :
    (writeMembers limit ms start r).Confined v S :=
  writeMembers_induction (P := (·.Confined v S)) .pure .bind h

namespace Layout

/-- Writing a record: its names are checked, its padding is zeroed if asked for, and its members
are written. -/
theorem writeAt_eq (l : Layout) (limit : Nat) (zeroFill : Bool) (start : Nat) (r : Record) :
    l.writeAt limit zeroFill start r = within l.tag start
      (match unknownName? l.members r with
      | some name => throw (.noSuchName name)
      | none => do
        if zeroFill then zeroSpans limit start l.padding
        writeMembers limit l.members start r) := by
  cases l
  rw [Layout.writeAt]
  congr 1
  dsimp only
  cases unknownName? _ r <;> cases zeroFill <;> rfl

/-- So it is of writing a record, if it is also true of every failure and passes to what is reported
of a record, of zeroing the padding and of writing each of the members that has a value. -/
theorem writeAt_induction {P : Writing Unit → Prop} (hpure : P (pure ()))
    (hthrow : ∀ e, P (throw e))
    (hbind : ∀ {step next : Writing Unit}, P step → P next → P (step >>= fun _ => next))
    (hwithin : ∀ {step : Writing Unit} tag start, P step → P (within tag start step))
    {l : Layout} {limit start : Nat} {zeroFill : Bool} {r : Record}
    (hzero : zeroFill = true → P (zeroSpans limit start l.padding))
    (h : ∀ m ∈ l.members, ∀ x, r.get? m.name = some x → P (m.write limit start x)) :
    P (l.writeAt limit zeroFill start r) := by
  have hmembers := writeMembers_induction hpure hbind h
  rw [writeAt_eq]
  refine hwithin _ _ ?_
  split
  · exact hthrow _
  · cases zeroFill with
    | false => exact hmembers
    | true => exact hbind (hzero rfl) hmembers

theorem writeAt_confined {l : Layout} {v : View} {S : Nat → Prop} {limit start : Nat}
    {zeroFill : Bool} {r : Record}
    (hzero : zeroFill = true → (zeroSpans limit start l.padding).Confined v S)
    (h : ∀ m ∈ l.members, ∀ x, r.get? m.name = some x → (m.write limit start x).Confined v S) :
    (l.writeAt limit zeroFill start r).Confined v S :=
  writeAt_induction (P := (·.Confined v S)) .pure .throw .bind .within hzero h

end Layout

/-- What a member owns lies in the bytes of its record. -/
theorem MemberLayout.Owns.inBytes {m : MemberLayout} {e : Endianness} {size start p : Nat}
    (h : m.Owns e start p) (hwithin : m.offset + m.length ≤ size) : InBytes start size p :=
  h.1.mono (Nat.le_add_right _ _) (by omega)

/-- **A write stays within the bytes of its shape,** on every view with the platform's pointer
width, however long the view is and wherever its accesses fail. -/
theorem Shape.write_confined {platform : Platform} {v : View}
    (hpointers : v.pointerWidth = platform.pointerWidth) {s : Shape} (h : s.Sound platform)
    (field : String) (limit offset : Nat) (x : Value) :
    (s.write field limit offset x).Confined v (InBytes offset s.size) := by
  induction h generalizing field offset x with
  | scalar _ => exact writeScalar_confined hpointers
  | @record l hplaced _ ih =>
    cases x with
    | record r =>
      refine Layout.writeAt_confined nofun ?_
      intro m hm x _
      refine (MemberLayout.write_confined (hplaced.bits m hm) fun o => ih m hm _ o x).mono ?_
      exact fun p hp => hp.inBytes (hplaced.within m hm)
    | _ => exact .throw _
  | @array element length _ ih =>
    cases x with
    | array items =>
      rw [Shape.write]
      split
      · rename_i hlength
        exact writeItems_confined fun i y hy =>
          (ih field _ y).mono fun p hp => hp.item (hlength ▸ (List.getElem?_eq_some_iff.1 hy).1)
      · exact .throw _
    | _ => exact .throw _

/-- **A write to a member sets bits of that member and no others.** -/
theorem MemberLayout.write_owns {platform : Platform} {v : View}
    (hpointers : v.pointerWidth = platform.pointerWidth) {m : MemberLayout} (hbits : m.BitsInWord)
    (h : m.shape.Sound platform) (limit start : Nat) (x : Value) :
    (m.write limit start x).Confined v (m.Owns v.endianness start) :=
  m.write_confined hbits fun offset => Shape.write_confined hpointers h _ limit offset x

end NativeRecord
