import NativeRecord.Proofs.Memory.Words
import NativeRecord.Proofs.Transfer.Slots

/-!
# Reading what was written

Writing a record and reading it again must give every value back that the record has one for, in the
canonical form of the scalar at its path.  Of one scalar or bit-field this is a fact about words;
the difficulty is that a record is written in many steps, and what the first of them wrote must
still be there after the last.

Each member owns certain bits of the view: a bit-field those of its range, any other member its
bytes.  A step that is confined to bits which a member does not own leaves what is read from that
member unchanged (`MemberLayout.read_of_confined`).  Two members of a struct that has been built own
different bits, unless they lie in one union; there the record must not have values for both, which
is what `Value.ExclusiveIn` asks for, at every depth.  So the induction over the members carries two
things: that the view has kept everything but its content (`View.Alike`), for the checks to come out
the same, and that the members still to be written own other bits than the one just written.  The
items of an array need no such assumption, since the later ones lie behind.

The zero filling writes before the members do.  All that matters of it here is that the view stays
alike; that it does not reach any member is shown elsewhere and not needed for this.

## What is here

* `Shape.Restores`, `MemberLayout.Restores` — what is written is read again, as far as its slots
  keep it; `Shape.restores` shows it of all sound shapes.
* `readMembers_writeMembers`, `read_writeItems` — the inductions over the members of a record and
  over the items of an array.
* `Layout.read_of_write` — the round trip of a whole sound record, and `Layout.read_write` that of a
  built one under a valid configuration.
-/

set_option autoImplicit false
namespace NativeRecord

open Writing

/-! ## Scalars and bit-fields

A successful write of a scalar is one patch of the view, and one of a bit-field is a patch under the
mask of its range.  Reading back is then reading a word through a patch, and what remains is that
encoding, cutting off and decoding give the canonical form. -/

section Scalar

variable {platform : Platform} {v after : View} {field : String} {type : Scalar}
  {limit offset size : Nat} {x : Value}

/-- Encoding for a field fails with an error that names the field, and otherwise is encoding. -/
theorem encodeFor_eq_ok_iff {w : Word} :
    encodeFor field type size x = .ok w ↔ type.encode? size x = some w := by
  rw [encodeFor]
  cases type.encode? size x <;> simp

/-- A check in front of a write has passed if the whole succeeds. -/
theorem lift_bind_eq_ok {α : Type} {y : Except TransferError α} {f : α → Writing Unit}
    (h : (liftM y >>= f : Writing Unit).run v = (.ok (), after)) :
    ∃ a, y = .ok a ∧ (f a).run v = (.ok (), after) := by
  obtain ⟨a, t, hy, hf⟩ := run_bind_eq_ok.1 h
  cases hy
  exact ⟨a, rfl, hf⟩

/-- An access of the view that succeeds in the monad has succeeded by itself. -/
theorem access_eq_ok {f : View → Except AccessError Unit × View}
    (h : (access f).run v = (.ok (), after)) : f v = (.ok (), after) := by
  rw [run_access] at h
  rcases hf : f v with ⟨e | ⟨⟩, w⟩
  · rw [hf] at h; cases h
  · rw [hf] at h; cases h; rfl

/-- A store that succeeds was checked, and patches the whole word. -/
theorem store_eq_ok {w : Word} (h : v.store offset size w = (.ok (), after)) :
    v.checkStore offset size = .ok () ∧
      after = v.patch (.word v.endianness offset size (BitVec.allOnes 64) w) := by
  rw [View.store_eq] at h
  rcases hcheck : v.checkStore offset size with e | ⟨⟩
  · rw [hcheck] at h; cases h
  · rw [hcheck] at h; cases h; exact ⟨rfl, rfl⟩

/-- What a successful write of a scalar has done: one patch of its word. -/
theorem writeScalar_eq_ok (hpointers : v.pointerWidth = platform.pointerWidth)
    (h : (writeScalar field type (type.size platform) limit offset x).run v = (.ok (), after)) :
    ∃ w, type.encode? (type.size platform) x = some w ∧ offset + type.size platform ≤ v.size ∧
      after = v.patch
        (.word v.endianness offset (type.size platform) (BitVec.allOnes 64) w) := by
  rw [writeScalar_run hpointers] at h
  obtain ⟨_, -, h⟩ := lift_bind_eq_ok h
  obtain ⟨w, hw, h⟩ := lift_bind_eq_ok h
  obtain ⟨hcheck, hafter⟩ := store_eq_ok (access_eq_ok h)
  exact ⟨w, encodeFor_eq_ok_iff.1 hw, (View.checkStore_eq_ok_iff.1 hcheck).2.2, hafter⟩

/-- Replacing bits reads the word first, and then stores the range alone. -/
theorem replaceBits_eq_ok {range : BitRange} {w : Word}
    (h : (replaceBits size offset range w).run v = (.ok (), after)) :
    v.load offset size = .ok (v.word offset size) ∧
      after = v.patch (.word v.endianness offset size range.mask (w <<< range.first)) := by
  have h := access_eq_ok h
  rcases hload : v.load offset size with e | word
  · rw [hload] at h; cases h
  · obtain ⟨-, -, -, rfl⟩ := View.load_eq_ok_iff.1 hload
    rw [hload] at h
    change v.store offset size (range.insert _ w) = _ at h
    rw [store_insert_eq (store_eq_ok h).1] at h
    cases h
    exact ⟨rfl, rfl⟩

/-- What a successful write of a bit-field has done: one patch under the mask of its range. -/
theorem writeBits_eq_ok {range : BitRange}
    (h : (writeBits field type size limit range offset x).run v = (.ok (), after)) :
    ∃ w, type.encode? size x = some w ∧ offset + size ≤ v.size ∧
      after = v.patch (.word v.endianness offset size range.mask (w <<< range.first)) := by
  obtain ⟨_, -, h⟩ := lift_bind_eq_ok h
  obtain ⟨w, hw, h⟩ := lift_bind_eq_ok h
  obtain ⟨hload, hafter⟩ := replaceBits_eq_ok h
  exact ⟨w, encodeFor_eq_ok_iff.1 hw, (View.load_eq_ok_iff.1 hload).2.2.1, hafter⟩

/-- A scalar that was written is read in canonical form. -/
theorem readScalar_writeScalar (hview : v.Readable platform)
    (hwidth : AccessWidth (type.size platform)) (hlimit : offset + type.size platform ≤ limit)
    (hsize : limit ≤ v.size)
    (h : (writeScalar field type (type.size platform) limit offset x).run v = (.ok (), after)) :
    ∃ y, readScalar after type (type.size platform) limit offset = .ok y ∧
      type.canonical? (8 * type.size platform) x = some y := by
  obtain ⟨w, hw, hin, rfl⟩ := writeScalar_eq_ok hview.pointers h
  have halike := v.alike_patch
    (.word v.endianness offset (type.size platform) (BitVec.allOnes 64) w)
  refine ⟨_, readScalar_eq_ok (hview.of_alike halike) hwidth hlimit (halike.size_eq ▸ hsize), ?_⟩
  have hpos : 0 < type.size platform := by rcases hwidth with h | h | h | h <;> omega
  rw [View.word_patch_word hin hwidth.le, Word.truncate_truncate]
  exact Scalar.canonical?_encode hwidth.le hw (by omega) (.inl rfl)

/-- A bit-field that was written is read in canonical form. -/
theorem readBits_writeBits {a : Arith} {range : BitRange} (hview : v.Readable platform)
    (hwidth : AccessWidth ((Scalar.arith a).size platform)) (ha : a.allowsBitField = true)
    (hpos : 0 < range.width)
    (hrange : range.first + range.width ≤ 8 * (Scalar.arith a).size platform)
    (hlimit : offset + (Scalar.arith a).size platform ≤ limit) (hsize : limit ≤ v.size)
    (h : (writeBits field (.arith a) ((Scalar.arith a).size platform) limit range offset x).run v =
      (.ok (), after)) :
    ∃ y, readBits after (.arith a) ((Scalar.arith a).size platform) limit range offset = .ok y ∧
      (Scalar.arith a).canonical? range.width x = some y := by
  obtain ⟨w, hw, hin, rfl⟩ := writeBits_eq_ok h
  have halike := v.alike_patch (.word v.endianness offset ((Scalar.arith a).size platform)
    range.mask (w <<< range.first))
  refine ⟨_, readBits_eq_ok (hview.of_alike halike) hwidth hlimit (halike.size_eq ▸ hsize), ?_⟩
  rw [View.extract_patch_word hin hwidth.le hrange]
  exact Scalar.canonical?_encode hwidth.le hw hpos (.inr ⟨by omega, a, rfl, ha⟩)

end Scalar

/-! ## Shapes and members

`Restores` is the induction hypothesis.  It speaks of a shape at every offset and within every
limit, for what the shape is part of decides where it lies. -/

/-- What is written to the shape is read again, as far as its slots keep it. -/
def Shape.Restores (platform : Platform) (s : Shape) : Prop :=
  ∀ {field limit offset x} {v after : View}, v.Readable platform → limit ≤ v.size →
    offset + s.size ≤ limit → x.ExclusiveIn ⟨s, none⟩ →
    (s.write field limit offset x).run v = (.ok (), after) →
    ∃ y, s.read after limit offset = .ok y ∧ Slot.KeepsAll ⟨s, none⟩ x y

/-- What is written to the member is read again, as far as its slot keeps it. -/
def MemberLayout.Restores (platform : Platform) (m : MemberLayout) : Prop :=
  ∀ {limit start x} {v after : View}, v.Readable platform → limit ≤ v.size →
    start + m.offset + m.length ≤ limit → x.ExclusiveIn m.slot →
    (m.write limit start x).run v = (.ok (), after) →
    ∃ y, m.read after limit start = .ok y ∧ m.slot.KeepsAll x y

section Restores

variable {platform : Platform}

/-- A member restores what is written to it if its shape does; a bit-field does so by itself. -/
theorem MemberLayout.restores {m : MemberLayout} (hbits : m.BitsInWord)
    (hs : m.shape.Sound platform) (h : m.shape.Restores platform) : m.Restores platform := by
  intro limit start x v after hview hsize hlimit hexclusive hwrite
  cases hrange : m.bits with
  | none =>
    have hslot : m.slot = ⟨m.shape, none⟩ := by rw [slot, hrange]
    rw [write_of_bits_none hrange] at hwrite
    rw [hslot] at hexclusive ⊢
    rw [read_of_bits_none hrange]
    exact h hview hsize hlimit hexclusive hwrite
  | some range =>
    obtain ⟨a, size, alignment, hscalar, ha, hpos, hfits⟩ := hbits range hrange
    have hlength : m.length = size := by rw [length, hscalar, Shape.size]
    have hslot : m.slot = ⟨.scalar (.arith a) size alignment, some range⟩ := by
      rw [slot, hrange, hscalar]
    rw [hscalar] at hs
    rw [write_of_bits hscalar hrange] at hwrite
    rw [read_of_bits hscalar hrange, hslot]
    cases hs with
    | scalar hwidth =>
      obtain ⟨y, hy, hcanonical⟩ := readBits_writeBits hview hwidth ha hpos hfits
        (hlength ▸ hlimit) hsize hwrite
      exact ⟨y, hy, Slot.keepsAll_scalar hcanonical⟩

section Later

variable {step : Writing Unit} {v after : View} {answer : Except TransferError Unit}
  {S : Nat → Prop} {limit start : Nat}

/-- A step that is confined to bits outside a shape does not change what is read from it. -/
theorem Shape.read_of_confined {s : Shape} (hview : v.Readable platform) (hs : s.Sound platform)
    (hstep : step.Confined v S) (hrun : step.run v = (answer, after))
    (hdisjoint : ∀ p, InBytes start s.size p → ¬ S p) :
    s.read after limit start = s.read v limit start := by
  refine (s.read_congr (hstep.alike_of_run hrun) hview.pointers hs limit start fun p hp => ?_).symm
  rw [← hstep.bit_eq (hdisjoint p hp), hrun]

/-- A step that is confined to bits outside a member does not change what is read from it. -/
theorem MemberLayout.read_of_confined (m : MemberLayout) (hview : v.Readable platform)
    (hbits : m.BitsInWord) (hs : m.shape.Sound platform) (hstep : step.Confined v S)
    (hrun : step.run v = (answer, after)) (hdisjoint : ∀ p, m.Owns v.endianness start p → ¬ S p) :
    m.read after limit start = m.read v limit start := by
  refine (m.read_congr (hstep.alike_of_run hrun) hview.pointers hbits hs limit start
    fun p hp => ?_).symm
  rw [← hstep.bit_eq (hdisjoint p hp), hrun]

end Later

/-- Members are read as they were written, if those that are written later own other bits. -/
theorem readMembers_writeMembers {ms : List MemberLayout} {limit start : Nat} {r : Record}
    {v after : View} (hview : v.Readable platform) (hsize : limit ≤ v.size)
    (hbits : ∀ m ∈ ms, m.BitsInWord) (hs : ∀ m ∈ ms, m.shape.Sound platform)
    (hrestores : ∀ m ∈ ms, m.Restores platform)
    (hlimit : ∀ m ∈ ms, start + m.offset + m.length ≤ limit)
    (hexclusive : ∀ m ∈ ms, ∀ x, r.get? m.name = some x → x.ExclusiveIn m.slot)
    (hapart : ms.Pairwise fun a b => r.contains a.name → r.contains b.name →
      ∀ p, a.Owns v.endianness start p → ¬ b.Owns v.endianness start p)
    (h : (writeMembers limit ms start r).run v = (.ok (), after)) :
    ∀ m ∈ ms, ∀ x, r.get? m.name = some x →
      ∃ y, m.read after limit start = .ok y ∧ m.slot.KeepsAll x y := by
  induction ms generalizing v with
  | nil => simp
  | cons m ms ih =>
    simp only [List.forall_mem_cons] at hbits hs hrestores hlimit hexclusive
    obtain ⟨hfirst, hapart⟩ := List.pairwise_cons.1 hapart
    rw [writeMembers_cons] at h
    obtain ⟨_, w, hwrite, h⟩ := run_bind_eq_ok.1 h
    have halike : v.Alike w := by
      cases hx : r.get? m.name with
      | none => rw [hx] at hwrite; cases hwrite; exact .refl v
      | some x =>
        rw [hx] at hwrite
        exact (m.write_owns hview.pointers hbits.1 hs.1 limit start x).alike_of_run hwrite
    -- The later members are written to a view that is alike, so the induction hypothesis applies
    -- there; it says nothing of `m`, which has been written by now.
    have hrest := ih (hview.of_alike halike) (halike.size_eq ▸ hsize) hbits.2 hs.2 hrestores.2
      hlimit.2 hexclusive.2 (halike.endianness_eq ▸ hapart) h
    refine List.forall_mem_cons.2 ⟨fun x hx => ?_, hrest⟩
    rw [hx] at hwrite
    obtain ⟨y, hy, hkeeps⟩ :=
      hrestores.1 hview hsize hlimit.1 (hexclusive.1 x hx) hwrite
    refine ⟨y, ?_, hkeeps⟩
    -- What is written after this member lies in bits of members that have values.
    have hlater : (writeMembers limit ms start r).Confined w fun p =>
        ∃ m' ∈ ms, r.contains m'.name ∧ m'.Owns w.endianness start p := by
      refine writeMembers_confined ?_
      intro m' hm' x' hx'
      refine (m'.write_owns (hview.of_alike halike).pointers (hbits.2 m' hm') (hs.2 m' hm')
        limit start x').mono fun p hp => ⟨m', hm', ?_, hp⟩
      rw [Record.contains, hx']
      rfl
    rw [← hy]
    refine m.read_of_confined (hview.of_alike halike) hbits.1 hs.1 hlater h ?_
    rintro p hp ⟨m', hm', hcontains, howns⟩
    rw [halike.endianness_eq] at hp howns
    exact hfirst m' hm' (by rw [Record.contains, hx]; rfl) hcontains p hp howns

/-- A record is read as its members were written. -/
theorem Layout.readMembers_restores {l : Layout} (hplaced : l.WellPlaced)
    (hs : ∀ m ∈ l.members, m.shape.Sound platform)
    (hrestores : ∀ m ∈ l.members, m.shape.Restores platform) {limit start : Nat} {r : Record}
    {v after : View} (hview : v.Readable platform) (hsize : limit ≤ v.size)
    (hlimit : start + l.size ≤ limit) (hexclusive : (Value.record r).ExclusiveIn l.slot)
    (hknown : unknownName? l.members r = none)
    (h : (writeMembers limit l.members start r).run v = (.ok (), after)) :
    ∃ back, readMembers after limit l.tag l.members start .empty = (.ok (), back) ∧
      l.slot.KeepsAll (.record r) (.record back) := by
  have hend : ∀ m ∈ l.members, start + m.offset + m.length ≤ limit :=
    fun m hm => hplaced.stop_le hm hlimit
  have hslot : ∀ m ∈ l.members, l.slot.part? (.field m.name) = some m.slot := by
    intro m hm
    simp only [Slot.part?, Layout.slot, hplaced.member?_eq_some hm, Option.map_some]
  have halike : v.Alike after := by
    have hconfined : (writeMembers limit l.members start r).Confined v (fun _ => True) :=
      writeMembers_confined fun m hm x _ =>
        (m.write_owns hview.pointers (hplaced.bits m hm) (hs m hm) limit start x).mono fun _ _ =>
          trivial
    exact hconfined.alike_of_run h
  have hkept := readMembers_writeMembers hview hsize hplaced.bits hs
    (fun m hm => m.restores (hplaced.bits m hm) (hs m hm) (hrestores m hm)) hend
    (fun m hm x hx => hexclusive.part (show (Value.record r).part? (.field m.name) = _ from hx)
      (hslot m hm))
    ((hexclusive [] l none r rfl rfl).pairwise hplaced v.endianness start) h
  obtain ⟨back, hback, hread, -⟩ := readMembers_eq_ok l.tag hplaced.names (fun m hm =>
    m.exists_read (hview.of_alike halike) (hplaced.bits m hm) (hs m hm) (hend m hm)
      (halike.size_eq ▸ hsize)) .empty
  refine ⟨back, hback, .intro ⟨rfl, rfl⟩ fun step x hx => ?_⟩
  cases step with
  | item i => cases hx
  | field name =>
    obtain ⟨m, hm, rfl⟩ := exists_member_of_unknownName? hknown hx
    obtain ⟨y, hy, hkeeps⟩ := hkept m hm x hx
    obtain ⟨y', hy', hread'⟩ := hread m hm
    obtain rfl : y = y' := Except.ok.inj (hy.symm.trans hread')
    exact ⟨m.slot, y, hslot m hm, hy', hkeeps⟩

/-- Items are read as they were written. -/
theorem read_writeItems {element : Shape} (hs : element.Sound platform)
    (hrestores : element.Restores platform) {field : String} {limit offset : Nat}
    {items : List Value} {v after : View} (hview : v.Readable platform) (hsize : limit ≤ v.size)
    (hlimit : offset + element.size * items.length ≤ limit)
    (hexclusive : ∀ x ∈ items, x.ExclusiveIn ⟨element, none⟩)
    (h : (writeItems (fun offset x => element.write field limit offset x) element.size offset
      items).run v = (.ok (), after)) (i : Nat) (x : Value) (hx : items[i]? = some x) :
    ∃ y, element.read after limit (offset + i * element.size) = .ok y ∧
      Slot.KeepsAll ⟨element, none⟩ x y := by
  induction items generalizing offset v i with
  | nil => cases hx
  | cons first items ih =>
    rw [List.length_cons, Nat.mul_succ] at hlimit
    obtain ⟨hfirst, hexclusive⟩ := List.forall_mem_cons.1 hexclusive
    rw [writeItems] at h
    obtain ⟨_, w, hwrite, hrest⟩ := run_bind_eq_ok.1 h
    have halike : v.Alike w :=
      (Shape.write_confined hview.pointers hs field limit offset first).alike_of_run hwrite
    cases i with
    | succ i =>
      have hnext := ih (hview.of_alike halike) (halike.size_eq ▸ hsize) (by omega) hexclusive
        hrest i hx
      rwa [item_offset_succ]
    | zero =>
      cases hx
      obtain ⟨y, hy, hkeeps⟩ := hrestores hview hsize (by omega) hfirst hwrite
      refine ⟨y, ?_, hkeeps⟩
      -- The later items lie behind this one.
      have hlater : (writeItems (fun offset x => element.write field limit offset x) element.size
          (offset + element.size) items).Confined w fun p => 8 * (offset + element.size) ≤ p := by
        refine writeItems_confined ?_
        intro j x _
        refine (Shape.write_confined (hview.of_alike halike).pointers hs field limit _ x).mono ?_
        intro p hp
        have := hp.1
        omega
      rw [Nat.zero_mul, Nat.add_zero, ← hy]
      refine Shape.read_of_confined (hview.of_alike halike) hs hlater hrest ?_
      intro p hp hbehind
      have := hp.2
      omega

/-- Naming the record in errors does not matter to a success. -/
theorem within_eq_ok {tag : Tag} {start : Nat} {step : Writing Unit} {v after : View}
    (h : (within tag start step).run v = (.ok (), after)) : step.run v = (.ok (), after) := by
  rw [run_within] at h
  rcases hrun : step.run v with ⟨e | ⟨⟩, w⟩
  · rw [hrun] at h; cases h
  · rw [hrun] at h; cases h; rfl

/-- The steps of writing a record that succeed. -/
theorem Layout.writeAt_eq_ok {l : Layout} {limit start : Nat} {zeroFill : Bool} {r : Record}
    {v after : View} (h : (l.writeAt limit zeroFill start r).run v = (.ok (), after)) :
    unknownName? l.members r = none ∧ ∃ w,
      (if zeroFill then zeroSpans limit start l.padding else pure ()).run v = (.ok (), w) ∧
      (writeMembers limit l.members start r).run w = (.ok (), after) := by
  rw [writeAt_eq] at h
  have h := within_eq_ok h
  cases hname : unknownName? l.members r with
  | some name => rw [hname] at h; cases h
  | none =>
    rw [hname] at h
    refine ⟨rfl, ?_⟩
    cases zeroFill with
    | false => exact ⟨v, rfl, h⟩
    | true =>
      obtain ⟨_, w, hzero, hwrite⟩ := run_bind_eq_ok.1 h
      exact ⟨w, hzero, hwrite⟩

/-- An embedded record restores what is written if its members do.  It is written without zero
filling. -/
theorem Shape.restores_record {l : Layout} (hplaced : l.WellPlaced)
    (hs : ∀ m ∈ l.members, m.shape.Sound platform)
    (hrestores : ∀ m ∈ l.members, m.shape.Restores platform) :
    (Shape.record l).Restores platform := by
  intro field limit offset x v after hview hsize hlimit hexclusive h
  cases x with
  | record r =>
    obtain ⟨hknown, w, hzero, hwrite⟩ := Layout.writeAt_eq_ok h
    cases hzero
    obtain ⟨back, hback, hkeeps⟩ := Layout.readMembers_restores hplaced hs hrestores hview hsize
      hlimit hexclusive hknown hwrite
    refine ⟨.record back, ?_, hkeeps⟩
    cases l
    simp only [Shape.read, Layout.readAt, hback]
  | _ => cases h

/-- An array restores what is written if its element does; the write fails unless the lengths agree.
-/
theorem Shape.restores_array {element : Shape} (length : Nat) (hs : element.Sound platform)
    (hrestores : element.Restores platform) : (Shape.array element length).Restores platform := by
  intro field limit offset x v after hview hsize hlimit hexclusive h
  cases x with
  | array items =>
    rw [Shape.write] at h
    split at h
    · rename_i hlength
      subst hlength
      have hitem : ∀ i < items.length,
          Slot.part? ⟨.array element items.length, none⟩ (.item i) = some ⟨element, none⟩ :=
        fun i hi => if_pos hi
      have hexclusive' : ∀ x ∈ items, x.ExclusiveIn ⟨element, none⟩ := by
        intro x hx
        obtain ⟨i, hi⟩ := List.mem_iff_getElem?.1 hx
        have hlt := (List.getElem?_eq_some_iff.1 hi).1
        exact hexclusive.part (show (Value.array items).part? (.item i) = _ from hi) (hitem i hlt)
      have hkept := read_writeItems hs hrestores hview hsize hlimit hexclusive' h
      obtain ⟨ys, hys, hcount, hread⟩ := readItems_eq_ok
        (fun offset => element.read after limit offset) element.size offset
        (fun i hi => (hkept i items[i] (List.getElem?_eq_getElem hi)).imp fun _ h => h.1) []
      refine ⟨.array ys, by rw [Shape.read, hys]; rfl, .intro ⟨_, _, rfl, rfl, rfl, hcount⟩ ?_⟩
      intro step x hx
      cases step with
      | field name => cases hx
      | item i =>
        have hi := (List.getElem?_eq_some_iff.1 hx).1
        obtain ⟨y, hy, hkeeps⟩ := hkept i x hx
        obtain ⟨y', hy', hread'⟩ := hread i hi
        obtain rfl : y = y' := Except.ok.inj (hy.symm.trans hread')
        exact ⟨_, y, hitem i hi, hy', hkeeps⟩
    · cases h
  | _ => cases h

/-- **What is written to a sound shape is read again,** as far as its slots keep it. -/
theorem Shape.restores {s : Shape} (hs : s.Sound platform) : s.Restores platform := by
  induction hs with
  | scalar hwidth =>
    intro field limit offset x v after hview hsize hlimit hexclusive h
    obtain ⟨y, hy, hcanonical⟩ := readScalar_writeScalar hview hwidth hlimit hsize h
    exact ⟨y, hy, Slot.keepsAll_scalar hcanonical⟩
  | record hplaced hmembers ih => exact restores_record hplaced hmembers ih
  | array hs ih => exact restores_array _ hs ih

end Restores

/-! ## Zeroing padding

Filling a span is either one block or a loop of single bytes, depending on the view, and it may fail
on the way.  Whatever it does, the view stays alike. -/

namespace View

theorem alike_store (v : View) (offset width : Nat) (w : Word) :
    v.Alike (v.store offset width w).2 := by
  rw [store_eq]
  split
  · exact v.alike_patch _
  · exact .refl v

theorem alike_storeEach (v : View) (offset : Nat) (new : List Byte) :
    v.Alike (v.storeEach offset new).2 := by
  induction new generalizing v offset with
  | nil => exact .refl v
  | cons b new ih =>
    have hstore := v.alike_store offset 1 (b.setWidth 64)
    rw [storeEach]
    split
    · rename_i w hw
      rw [hw] at hstore
      exact hstore.trans (ih w (offset + 1))
    · exact hstore

theorem alike_fillBlock (v : View) (offset length : Nat) (b : Byte) :
    v.Alike (v.fillBlock offset length b).2 := by
  rw [fillBlock]
  split
  · rw [fillEach_eq_storeEach]
    exact v.alike_storeEach _ _
  · split
    · exact v.alike_put _ _
    · exact .refl v

end View

/-- An access that keeps the view alike does so in the monad. -/
theorem access_ensures {f : View → Except AccessError Unit × View}
    (h : ∀ v : View, v.Alike (f v).2) :
    Ensures (access f) View.Alike fun _ _ => True := by
  refine fun v => ⟨?_, fun _ _ => trivial⟩
  rw [run_access]
  exact h v

/-- Zeroing spans changes the content of the view and nothing else. -/
theorem zeroSpans_ensures (limit start : Nat) (spans : List Span) :
    Ensures (zeroSpans limit start spans) View.Alike fun _ _ => True := by
  have htrans : ∀ u v w : View, u.Alike v → v.Alike w → u.Alike w := fun _ _ _ => .trans
  induction spans with
  | nil => exact .pure .refl fun _ => trivial
  | cons s spans ih =>
    rw [zeroSpans]
    refine .bind htrans (P := fun _ _ => True) (.lift .refl fun _ _ _ => trivial) fun _ => ?_
    refine .bind htrans (P := fun _ _ => True)
      (access_ensures fun v => v.alike_fillBlock _ _ _) fun _ => ?_
    exact fun v => ⟨(ih v).1, fun _ _ _ _ _ _ _ _ => trivial⟩

/-! ## Whole records -/

/-- A sound record that was written successfully is read again: at every path that the written
record has a value for, reading finds what the scalar there keeps of it. -/
theorem Layout.read_of_write {platform : Platform} {l : Layout} (hs : l.Sound platform)
    {view after : View} (hview : view.Readable platform) (hsize : l.size ≤ view.size)
    {zeroFill : Bool} {r : Record} (hexclusive : (Value.record r).ExclusiveIn l.slot)
    (hwrite : l.write zeroFill r view = (.ok (), after)) :
    ∃ back, l.read after = .ok back ∧
      ∀ path x, (Value.record r).at? path = some x →
        ∃ slot y, l.slot.at? path = some slot ∧ (Value.record back).at? path = some y ∧
          slot.Keeps x y := by
  obtain ⟨hplaced, hmembers⟩ := Layout.sound_iff.1 hs
  obtain ⟨hknown, w, hzero, hwrite⟩ := Layout.writeAt_eq_ok hwrite
  -- The zeroing comes first, so all that matters of it is that the memory stays as large.
  have halike : view.Alike w := by
    cases zeroFill with
    | false => cases hzero; exact .refl view
    | true =>
      have := (zeroSpans_ensures l.size 0 l.padding view).1
      rwa [show (zeroSpans l.size 0 l.padding).run view = _ from hzero] at this
  obtain ⟨back, hback, hkeeps⟩ := Layout.readMembers_restores hplaced hmembers
    (fun m hm => Shape.restores (hmembers m hm)) (hview.of_alike halike) (halike.size_eq ▸ hsize)
    (Nat.le_of_eq (Nat.zero_add _)) hexclusive hknown hwrite
  refine ⟨back, ?_, hkeeps⟩
  cases l
  simp only [Layout.read, Layout.readInto, Layout.readAt, hback]

/-- **What is written to a record is read again.**  On every view with the platform's pointer width
that is long enough, whatever it holds, reading after a successful write succeeds; at every path
that the record has a value for, at any depth, it finds the canonical form of that value.  The
record must not have two values for one storage. -/
theorem Layout.read_write {config : Config} (hvalid : config.validate = .ok ()) {l : Layout}
    (hbuilt : Built config l) {view after : View} (hview : view.Readable config.platform)
    (hsize : l.size ≤ view.size) {zeroFill : Bool} {r : Record}
    (hexclusive : (Value.record r).ExclusiveIn l.slot)
    (hwrite : l.write zeroFill r view = (.ok (), after)) :
    ∃ back, l.read after = .ok back ∧
      ∀ path x, (Value.record r).at? path = some x →
        ∃ slot y, l.slot.at? path = some slot ∧ (Value.record back).at? path = some y ∧
          slot.Keeps x y :=
  Layout.read_of_write (hbuilt.sound (Config.usable_of_validate hvalid)) hview hsize hexclusive
    hwrite

/-- Values for the two bit-fields, one of which does not fit. -/
def sharedByteRecord : Record := ⟨[⟨"high", .int 57⟩, ⟨"low", .uint 2⟩]⟩

/-- The two bit-fields lie in no union, so they may both have values. -/
theorem exclusiveIn_sharedByte :
    (Value.record sharedByteRecord).ExclusiveIn sharedByteLayout.slot := by
  have hmembers : sharedByteLayout.members = [_, _] := rfl
  refine Value.exclusiveIn_record ?_ ?_
  · intro a ha b hb _ _ hunion
    rw [hmembers, List.mem_pair] at ha hb
    rcases ha with rfl | rfl <;> rcases hb with rfl | rfl <;> revert hunion <;> decide
  · intro m hm x _
    rw [hmembers, List.mem_pair] at hm
    rcases hm with rfl | rfl <;> exact x.exclusiveIn_scalar _ _ _ _

/-- The value that does not fit its field comes back in canonical form: of `57`, which is
`0b111001`, the five bits `0b11001` are kept, and as a signed number these are `-7`. -/
theorem read_write_sharedByte :
    sharedByteLayout.read (.ofBytes .host #[0xCA]) =
        .ok ⟨[⟨"low", .uint 2⟩, ⟨"high", .int (-7)⟩]⟩ ∧
      ∃ back, sharedByteLayout.read (.ofBytes .host #[0xCA]) = .ok back ∧
        ∀ path x, (Value.record sharedByteRecord).at? path = some x →
          ∃ slot y, sharedByteLayout.slot.at? path = some slot ∧
            (Value.record back).at? path = some y ∧ slot.Keeps x y :=
  ⟨rfl, Layout.read_write (show Config.standard.validate = .ok () by decide) built_sharedByte
    ⟨rfl, fun _ => rfl⟩ (show 1 ≤ sharedByteView.size from Nat.le_refl 1) exclusiveIn_sharedByte
    (show sharedByteLayout.write true sharedByteRecord sharedByteView = (.ok (), _) from rfl)⟩

end NativeRecord
