import NativeRecord.Proofs.Transfer.Footprint

/-!
# What reading looks at

Reading can fail at many places — a limit that is passed, an address that faults, a pointer of
another width — and it reads through words that are wider than what they are read for.  Two
statements take all of this away.  The first is a congruence: alike views that agree in the bits
which a member owns give it the same answer, value or error.  For a bit-field this is more than that
the words agree, since the other bits of the word may differ, so the bits are followed through
`Word` one by one.  The second is that reading succeeds: a view that no read is made to fail in, and
that is long enough, has a value for every sound shape, since every pattern of bits decodes to
something.

Both are inductions over `Shape.Sound`.  A member that is no bit-field reads its shape, and one that
is reads a word and nothing else; so each induction has one lemma for members that takes what is
known of the shape as a hypothesis (`read_congr_of_shape`, `exists_read_of_shape`), and is used
again when the induction over shapes is done.

## What is here

* `Shape.read_congr`, `MemberLayout.read_congr` — a value is read from the bits of its shape or its
  member, and from nothing else in the content of the view.
* `Shape.exists_read`, `MemberLayout.exists_read` — sound shapes can be read wherever they lie in
  the view, whatever it holds.
* `readItems_eq_ok`, `readMembers_eq_ok` — what is read for an array and for a record.
-/

set_option autoImplicit false
namespace NativeRecord

section Congr

variable {v w : View}

/-- Alike views with the same bits in a range extract the same from it. -/
theorem View.Alike.extract_congr (h : v.Alike w) {range : BitRange} {offset size : Nat}
    (hsize : offset + size ≤ v.size) (hwidth : size ≤ 8)
    (hbit : ∀ p, InRange v.endianness range offset size p → v.bit p = w.bit p) :
    range.extract (v.word offset size) = range.extract (w.word offset size) := by
  refine congrArg (fun x : Word => x >>> range.first) (BitVec.eq_of_getLsbD_eq fun k _ => ?_)
  rw [BitVec.getLsbD_and, BitVec.getLsbD_and, View.getLsbD_word hsize hwidth,
    View.getLsbD_word (h.size_eq ▸ hsize) hwidth, h.endianness_eq]
  by_cases hk : k < 8 * size
  · cases hmask : range.mask.getLsbD k with
    | false => simp
    | true =>
      refine congrArg (decide _ && · && true) (hbit _ ⟨v.endianness.position_bounds offset hk, ?_⟩)
      rwa [v.endianness.wordBit_position hk]
  · simp [hk]

/-- A bit-field is read from the bits of its range; whether it can be read does not depend on any
bits. -/
theorem readBits_congr (h : v.Alike w) (type : Scalar) (size limit : Nat) (range : BitRange)
    (offset : Nat) (hbit : ∀ p, InRange v.endianness range offset size p → v.bit p = w.bit p) :
    readBits v type size limit range offset = readBits w type size limit range offset := by
  rw [readBits, readBits, View.load_eq, View.load_eq, h.readFails_eq, h.checkAccess_eq]
  cases v.readFails offset with
  | true => rfl
  | false =>
    rcases haccess : v.checkAccess offset size with e | ⟨⟩
    · rfl
    · obtain ⟨hwidth, hsize⟩ := View.checkAccess_eq_ok_iff.1 haccess
      have hextract := h.extract_congr hsize hwidth.le hbit
      show (checkWithin offset size limit >>= fun _ => .ok (type.decode range.width _)) =
        checkWithin offset size limit >>= fun _ => .ok (type.decode range.width _)
      rw [hextract]

/-- A scalar is read from its bytes.  A pointer is read with the width of the view, which is why
that must be the platform's. -/
theorem readScalar_congr (h : v.Alike w) {platform : Platform}
    (hpointers : v.pointerWidth = platform.pointerWidth) (type : Scalar) (limit offset : Nat)
    (hbit : ∀ p, InBytes offset (type.size platform) p → v.bit p = w.bit p) :
    readScalar v type (type.size platform) limit offset =
      readScalar w type (type.size platform) limit offset := by
  have hload := h.load_congr fun p hlow hhigh => hbit p ⟨hlow, hhigh⟩
  cases type with
  | arith a => simp only [readScalar, hload]
  | pointer target =>
    rw [Scalar.size] at hload
    simp only [readScalar, View.loadAddress, h.pointerWidth_eq, hpointers, hload]

/-- Items that are read alike make up the same array. -/
theorem readItems_congr {read read' : Nat → Except TransferError Value} {stride offset count : Nat}
    {done : List Value}
    (h : ∀ i < count, read (offset + i * stride) = read' (offset + i * stride)) :
    readItems read stride done offset count = readItems read' stride done offset count := by
  induction count generalizing offset done with
  | zero => rfl
  | succ count ih =>
    have hfirst : read offset = read' offset := by simpa using h 0 (Nat.succ_pos _)
    rw [readItems, readItems, hfirst]
    split
    · refine ih ?_
      intro i hi
      have hnext := h (i + 1) (Nat.succ_lt_succ hi)
      rwa [item_offset_succ] at hnext
    · rfl

/-- Members that are read alike make up the same record, up to the first of them that fails. -/
theorem readMembers_congr (h : v.Alike w) {limit start : Nat} (tag : Tag)
    {ms : List MemberLayout} (hread : ∀ m ∈ ms, m.read v limit start = m.read w limit start)
    (r : Record) :
    readMembers v limit tag ms start r = readMembers w limit tag ms start r := by
  induction ms generalizing r with
  | nil => rfl
  | cons m ms ih =>
    rw [readMembers, readMembers, hread m List.mem_cons_self, h.base_eq]
    split
    · exact ih (fun m' hm' => hread m' (List.mem_cons_of_mem _ hm')) _
    · rfl

end Congr

namespace MemberLayout

variable {m : MemberLayout} {limit start : Nat} {v w : View}

/-- A bit-field is read from the word of its shape. -/
theorem read_of_bits {type : Scalar} {size : Nat} {alignment : Alignment} {range : BitRange}
    (hshape : m.shape = .scalar type size alignment) (hbits : m.bits = some range) :
    m.read v limit start = readBits v type size limit range (start + m.offset) := by
  cases m
  cases hshape
  cases hbits
  rfl

/-- Any other member is read as its shape is. -/
theorem read_of_bits_none (hbits : m.bits = none) :
    m.read v limit start = m.shape.read v limit (start + m.offset) := by
  obtain ⟨name, type, shape, offset, alignment, bits, fixed, group⟩ := m
  cases hbits
  rw [MemberLayout.read]
  cases shape <;> rfl

/-- A member is read from the bits that it owns, if its shape is read from its bytes. -/
theorem read_congr_of_shape (h : v.Alike w) (hbits : m.BitsInWord)
    (hshape : ∀ offset, (∀ p, InBytes offset m.shape.size p → v.bit p = w.bit p) →
      m.shape.read v limit offset = m.shape.read w limit offset)
    (hbit : ∀ p, m.Owns v.endianness start p → v.bit p = w.bit p) :
    m.read v limit start = m.read w limit start := by
  cases hrange : m.bits with
  | none =>
    rw [read_of_bits_none hrange, read_of_bits_none hrange]
    refine hshape _ fun p hp => hbit p ⟨hp, fun range h => ?_⟩
    rw [hrange] at h; cases h
  | some range =>
    obtain ⟨a, size, alignment, hscalar, -⟩ := hbits range hrange
    have hlength : m.length = size := by rw [length, hscalar, Shape.size]
    rw [read_of_bits hscalar hrange, read_of_bits hscalar hrange]
    refine readBits_congr h _ _ _ _ _ fun p hp => hbit p ⟨hlength ▸ hp.1, fun r hr => ?_⟩
    rw [hrange] at hr
    cases hr
    exact hlength ▸ hp.2

end MemberLayout

/-- **A value is read from the bytes of its shape and from nothing else.** -/
theorem Shape.read_congr {platform : Platform} {v w : View} (h : v.Alike w)
    (hpointers : v.pointerWidth = platform.pointerWidth) {s : Shape} (hs : s.Sound platform)
    (limit offset : Nat) (hbit : ∀ p, InBytes offset s.size p → v.bit p = w.bit p) :
    s.read v limit offset = s.read w limit offset := by
  induction hs generalizing offset with
  | scalar _ => exact readScalar_congr h hpointers _ _ _ hbit
  | @record l hplaced _ ih =>
    have hread : ∀ m ∈ l.members, m.read v limit offset = m.read w limit offset := fun m hm =>
      m.read_congr_of_shape h (hplaced.bits m hm) (ih m hm) fun p hp =>
        hbit p (hp.inBytes (hplaced.within m hm))
    have hmembers := readMembers_congr h l.tag hread .empty
    cases l
    simp only [Shape.read, Layout.readAt, hmembers]
  | @array element length _ ih =>
    rw [Shape.read, Shape.read]
    exact congrArg (· >>= _) (readItems_congr fun i hi => ih _ fun p hp => hbit p (hp.item hi))

/-- **A member is read from the bits that it owns and from nothing else.** -/
theorem MemberLayout.read_congr {platform : Platform} {v w : View} (h : v.Alike w)
    (hpointers : v.pointerWidth = platform.pointerWidth) {m : MemberLayout} (hbits : m.BitsInWord)
    (hs : m.shape.Sound platform) (limit start : Nat)
    (hbit : ∀ p, m.Owns v.endianness start p → v.bit p = w.bit p) :
    m.read v limit start = m.read w limit start :=
  m.read_congr_of_shape h hbits (fun offset => Shape.read_congr h hpointers hs limit offset) hbit

/-! ## Reading succeeds

What a read checks before it looks at the bytes has been settled by the layout: the width is one
that memory can access, and the end lies within the limit. -/

theorem checkWithin_eq_ok_iff {offset length limit : Nat} :
    checkWithin offset length limit = .ok () ↔ offset + length ≤ limit := by
  rw [checkWithin]
  split <;> simp [*]

/-- A view in which no read is made to fail, with the platform's pointer width. -/
structure View.Readable (v : View) (platform : Platform) : Prop where
  pointers : v.pointerWidth = platform.pointerWidth
  reads : ∀ offset, v.readFails offset = false

theorem View.Readable.of_alike {v w : View} {platform : Platform} (h : v.Readable platform)
    (hvw : v.Alike w) : w.Readable platform :=
  ⟨hvw.pointerWidth_eq.trans h.pointers, hvw.readFails_eq ▸ h.reads⟩

section Total

variable {platform : Platform} {v : View} {limit : Nat}

/-- A load that is within the view answers with the word there. -/
theorem load_eq_word (h : v.Readable platform) {offset width : Nat} (hwidth : AccessWidth width)
    (hsize : offset + width ≤ v.size) : v.load offset width = .ok (v.word offset width) :=
  View.load_eq_ok_iff.2 ⟨h.reads offset, hwidth, hsize, rfl⟩

/-- The value of a scalar is decoded from its word; a pointer's too. -/
theorem readScalar_eq_ok (h : v.Readable platform) {type : Scalar} {offset : Nat}
    (hwidth : AccessWidth (type.size platform)) (hlimit : offset + type.size platform ≤ limit)
    (hsize : limit ≤ v.size) :
    readScalar v type (type.size platform) limit offset =
      .ok (type.decode (8 * type.size platform)
        ((v.word offset (type.size platform)).truncate (8 * type.size platform))) := by
  have hload := load_eq_word h hwidth (Nat.le_trans hlimit hsize)
  have hwithin := checkWithin_eq_ok_iff.2 hlimit
  cases type with
  | arith a => simp only [readScalar, hwithin, hload]; rfl
  | pointer target =>
    simp only [Scalar.size] at hload hwithin ⊢
    simp only [readScalar, hwithin, View.loadAddress, h.pointers, hload, Scalar.decode,
      Word.truncate_truncate]
    rfl

/-- The value of a bit-field is decoded from the bits of its range. -/
theorem readBits_eq_ok (h : v.Readable platform) {type : Scalar} {range : BitRange}
    {offset size : Nat} (hwidth : AccessWidth size) (hlimit : offset + size ≤ limit)
    (hsize : limit ≤ v.size) :
    readBits v type size limit range offset =
      .ok (type.decode range.width (range.extract (v.word offset size))) := by
  rw [readBits, checkWithin_eq_ok_iff.2 hlimit, load_eq_word h hwidth (Nat.le_trans hlimit hsize)]
  rfl

/-- An array is read when its elements are, to the values of these in their order. -/
theorem readItems_eq_ok (read : Nat → Except TransferError Value) (stride offset : Nat)
    {count : Nat} (h : ∀ i < count, ∃ y, read (offset + i * stride) = .ok y) (done : List Value) :
    ∃ ys, readItems read stride done offset count = .ok (done.reverse ++ ys) ∧
      ys.length = count ∧
        ∀ i < count, ∃ y, ys[i]? = some y ∧ read (offset + i * stride) = .ok y := by
  induction count generalizing offset done with
  | zero => exact ⟨[], by rw [readItems, List.append_nil], rfl, fun i hi => by omega⟩
  | succ count ih =>
    obtain ⟨y, hy⟩ := h 0 (Nat.succ_pos _)
    have hshift (i : Nat) : offset + stride + i * stride = offset + (i + 1) * stride :=
      (item_offset_succ offset stride i).symm
    obtain ⟨ys, hys, hlength, hitems⟩ := ih (offset + stride)
      (fun i hi => hshift i ▸ h (i + 1) (Nat.succ_lt_succ hi)) (y :: done)
    have hfirst : read offset = .ok y := by simpa using hy
    refine ⟨y :: ys, ?_, by rw [List.length_cons, hlength], fun i hi => ?_⟩
    · rw [readItems, hfirst]
      simp only [hys, List.reverse_cons, List.append_assoc, List.singleton_append]
    · cases i with
      | zero => exact ⟨y, rfl, hy⟩
      | succ i =>
        obtain ⟨z, hz, hread⟩ := hitems i (Nat.lt_of_succ_lt_succ hi)
        exact ⟨z, hz, hshift i ▸ hread⟩

/-- A record is read when its members are: each of them has its value in the answer. -/
theorem readMembers_eq_ok (tag : Tag) {start : Nat} {ms : List MemberLayout}
    (hnames : (ms.map (·.name)).Nodup) (h : ∀ m ∈ ms, ∃ y, m.read v limit start = .ok y)
    (r : Record) :
    ∃ back, readMembers v limit tag ms start r = (.ok (), back) ∧
      (∀ m ∈ ms, ∃ y, back.get? m.name = some y ∧ m.read v limit start = .ok y) ∧
      ∀ name, name ∉ ms.map (·.name) → back.get? name = r.get? name := by
  induction ms generalizing r with
  | nil => exact ⟨r, rfl, by simp, fun _ _ => rfl⟩
  | cons m ms ih =>
    obtain ⟨hm, hnames⟩ := List.nodup_cons.1 hnames
    obtain ⟨⟨y, hy⟩, hms⟩ := List.forall_mem_cons.1 h
    obtain ⟨back, hback, hmembers, hothers⟩ := ih hnames hms (r.set m.name y)
    refine ⟨back, by rw [readMembers, hy]; exact hback, List.forall_mem_cons.2 ⟨⟨y, ?_, hy⟩,
      hmembers⟩, fun name hname => ?_⟩
    · rw [hothers _ hm, Record.get?_set, if_pos rfl]
    · rw [List.map_cons, List.mem_cons, not_or] at hname
      rw [hothers _ hname.2, Record.get?_set, if_neg (Ne.symm hname.1)]

/-- A member can be read if its shape can. -/
theorem MemberLayout.exists_read_of_shape (h : v.Readable platform) {m : MemberLayout} {start : Nat}
    (hbits : m.BitsInWord) (hs : m.shape.Sound platform)
    (hshape : ∃ y, m.shape.read v limit (start + m.offset) = .ok y)
    (hlimit : start + m.offset + m.length ≤ limit) (hsize : limit ≤ v.size) :
    ∃ y, m.read v limit start = .ok y := by
  cases hrange : m.bits with
  | none => rwa [read_of_bits_none hrange]
  | some range =>
    obtain ⟨a, size, alignment, hscalar, -⟩ := hbits range hrange
    have hlength : m.length = size := by rw [length, hscalar, Shape.size]
    rw [read_of_bits hscalar hrange]
    rw [hscalar] at hs
    cases hs with
    | scalar hwidth => exact ⟨_, readBits_eq_ok h hwidth (hlength ▸ hlimit) hsize⟩

/-- **A sound shape can be read wherever it lies in the view,** whatever the view holds. -/
theorem Shape.exists_read (h : v.Readable platform) {s : Shape} (hs : s.Sound platform)
    {offset : Nat} (hlimit : offset + s.size ≤ limit) (hsize : limit ≤ v.size) :
    ∃ y, s.read v limit offset = .ok y := by
  induction hs generalizing offset with
  | scalar hwidth => exact ⟨_, readScalar_eq_ok h hwidth hlimit hsize⟩
  | @record l hplaced hmembers ih =>
    have hread : ∀ m ∈ l.members, ∃ y, m.read v limit offset = .ok y := by
      intro m hm
      have hend := hplaced.stop_le hm hlimit
      exact m.exists_read_of_shape h (hplaced.bits m hm) (hmembers m hm) (ih m hm hend) hend hsize
    obtain ⟨back, hback, -⟩ := readMembers_eq_ok l.tag hplaced.names hread .empty
    cases l
    exact ⟨.record back, by simp only [Shape.read, Layout.readAt, hback]⟩
  | @array element length _ ih =>
    have hread : ∀ i < length, ∃ y, element.read v limit (offset + i * element.size) = .ok y :=
      fun i hi => ih (Nat.le_trans (item_stop_le hi offset element.size) hlimit)
    obtain ⟨ys, hys, -⟩ :=
      readItems_eq_ok (fun offset => element.read v limit offset) element.size offset hread []
    exact ⟨.array ys, by rw [Shape.read, hys]; rfl⟩

/-- Each member of a sound layout can be read. -/
theorem MemberLayout.exists_read (h : v.Readable platform) {m : MemberLayout} {start : Nat}
    (hbits : m.BitsInWord) (hs : m.shape.Sound platform)
    (hlimit : start + m.offset + m.length ≤ limit) (hsize : limit ≤ v.size) :
    ∃ y, m.read v limit start = .ok y :=
  m.exists_read_of_shape h hbits hs (Shape.exists_read h hs hlimit hsize) hlimit hsize

end Total

end NativeRecord
