import NativeRecord.Proofs.Machine.Resolution
import NativeRecord.Proofs.Transfer.Reading

/-!
# Scalars of widths that memory cannot access

The builder refuses a scalar whose natural alignment is no power of two.  That alignment is the
width lowered to the platform's greatest one, so the test says nothing about a width that is
lowered: a platform may give a type of its own a width that passes, but that memory cannot access.

The characterization has two halves of different kinds.  For the platforms that are safe, every
scalar of a built layout has a width that passes the test, so an induction over `Built` with
`Shape.Leaf` is enough, together with the fact that a read fails for a width only at a scalar of
that width.  The latter is an induction over the shape that follows the error back to where it arose
(`Shape.refused_of_read`); it does not assume that the view is long enough, since other failures may
come first.

For the others a counterexample must be built for each, from nothing but the number: a record with
one member of the scalar in question, packed to bytes so that its size is the width whatever that
is, and an empty array where no machine counts the width.  `assemble_single` shows that these build.

## What is here

* `Shape.Leaf` — a scalar that occurs in a shape, at any depth; `Layout.Accessible`,
  `Layout.ReadsAccess` — what it would mean that no unsupported width is left after building.
* `Platform.Passes` — the widths that the builder's test lets pass; `Built.leaf` — the scalars of
  built layouts have no others.
* `Shape.refused_of_read` — where a read is refused for a width, a scalar of that width occurs.
* `exists_built_single` — each width that passes is built into a record.
* `Platform.widths_rejected_iff` — all unsupported widths are rejected exactly for the platforms
  whose own widths either do not pass or can be accessed.
-/

set_option autoImplicit false
namespace NativeRecord

/-! ## Leaves

A scalar occurs in a shape at some depth.  The array it occurs in may be empty: the layout speaks of
the scalar all the same. -/

/-- A scalar of a size occurs in a shape, at any depth and in arrays of any length. -/
inductive Shape.Leaf : Shape → Scalar → Nat → Prop
  | scalar {type : Scalar} {size : Nat} {alignment : Alignment} :
      Leaf (.scalar type size alignment) type size
  | record {l : Layout} {m : MemberLayout} {type : Scalar} {size : Nat} (hm : m ∈ l.members)
      (h : m.shape.Leaf type size) : Leaf (.record l) type size
  | array {element : Shape} {length : Nat} {type : Scalar} {size : Nat}
      (h : element.Leaf type size) : Leaf (.array element length) type size

/-- Every scalar of the layout has a width that memory can access. -/
def Layout.Accessible (l : Layout) : Prop :=
  ∀ type size, (Shape.record l).Leaf type size → AccessWidth size

/-- Reading the record is never refused for a width, whatever lies in memory. -/
def Layout.ReadsAccess (platform : Platform) (l : Layout) : Prop :=
  ∀ bytes : Array Byte, l.size ≤ bytes.size → ∀ e, l.read (.ofBytes platform bytes) = .error e →
    ∀ width, e.root ≠ .memory (.unsupportedWidth width)

/-- The builder's test lets a scalar of that width pass: its width, lowered to the greatest
alignment of scalars, is an alignment. -/
def Platform.Passes (p : Platform) (width : Nat) : Prop :=
  ∃ a : Alignment, a.bytes = p.naturalAlignment width

/-- A scalar has a shape if its natural alignment is one. -/
theorem scalarShape_eq_ok_iff {platform : Platform} {owner : Tag} {name : String} {s : Scalar}
    {shape : Shape} :
    scalarShape platform owner name s = .ok shape ↔
      ∃ a : Alignment, a.bytes = platform.naturalAlignment (s.size platform) ∧
        shape = .scalar s (s.size platform) a := by
  simp only [scalarShape, ← Alignment.ofBytes?_eq_some_iff]
  cases Alignment.ofBytes? (platform.naturalAlignment (s.size platform)) with
  | none => simp
  | some a => simp [eq_comm]

/-- What a scalar of a layout for the platform is known to be. -/
def Platform.HasScalar (p : Platform) (type : Scalar) (size : Nat) : Prop :=
  size = type.size p ∧ p.Passes size

section Leaves

variable {limit : SizeLimit} {Has : Tag → Layout → Prop}

/-- The scalars in a shape are resolved there, or come from what it embeds. -/
theorem ShapeOf.leaf {platform : Platform} {owner : Tag} {name : String} {type : CType}
    {shape : Shape} (h : ShapeOf limit platform owner Has name type shape)
    (hhas : ∀ tag l, Has tag l → ∀ t size, (Shape.record l).Leaf t size → platform.HasScalar t size)
    {t : Scalar} {size : Nat} (hleaf : shape.Leaf t size) : platform.HasScalar t size := by
  induction h with
  | arith h | pointer h =>
    obtain ⟨a, ha, rfl⟩ := scalarShape_eq_ok_iff.1 h
    cases hleaf
    exact ⟨rfl, a, ha⟩
  | @record tag l hl => exact hhas tag l hl t size hleaf
  | array _ _ ih =>
    cases hleaf with
    | array hleaf => exact ih hleaf

/-- **The scalars of a built layout have widths that pass,** at every depth. -/
theorem Built.leaf {config : Config} {l : Layout} (h : Built config l) {t : Scalar} {size : Nat}
    (hleaf : (Shape.record l).Leaf t size) : config.platform.HasScalar t size := by
  induction h generalizing t size with
  | intro nested run serial ih =>
    have hbuilds : Builds .word64 (fun _ inner => ∀ t size, (Shape.record inner).Leaf t size →
        config.platform.HasScalar t size) config _ _ :=
      builds_of_run (fun tag t inner t' h _ _ => ih tag t inner t' h) run
    obtain ⟨-, -, -, pack, members, hmembers, hplaced, -, -⟩ := hbuilds.exists_members
    cases hleaf with
    | @record _ p _ _ hp hleaf =>
      obtain ⟨m, hm, hmp⟩ := exists_mem_of_forall₂ hplaced hp
      obtain ⟨d, -, hd⟩ := exists_mem_of_forall₂ hmembers hm
      rw [hmp.shape] at hleaf
      exact hd.shape.leaf (fun _ _ h => h) hleaf

end Leaves

/-! ## Reads that are refused for a width

The error is followed back through every step of reading, down to the load that was refused. -/

/-- A check that refuses a width names the one it was asked for. -/
theorem View.width_of_checkAccess {v : View} {offset width w : Nat}
    (h : v.checkAccess offset width = .error (.unsupportedWidth w)) :
    w = width ∧ ¬ AccessWidth width := by
  rw [checkAccess, checkSpan] at h
  split at h
  · split at h <;> cases h
  · rename_i hwidth
    cases h
    exact ⟨rfl, hwidth⟩

/-- So does a load. -/
theorem View.width_of_load {v : View} {offset width w : Nat}
    (h : v.load offset width = .error (.unsupportedWidth w)) : w = width ∧ ¬ AccessWidth width := by
  rw [load_eq] at h
  split at h
  · cases h
  · rcases except_bind_eq_error.1 h with h | ⟨_, -, h⟩
    · exact width_of_checkAccess h
    · cases h

/-- A failure because of an access of that width. -/
def TransferError.Unsupported (e : TransferError) (width : Nat) : Prop :=
  e.root = .memory (.unsupportedWidth width)

/-- A scalar occurs in the shape that is no larger than the record, and whose access has an
unsupported width: its own, or the view's for pointers. -/
def Shape.Refused (s : Shape) (v : View) (limit width : Nat) : Prop :=
  ∃ type size, s.Leaf type size ∧ size ≤ limit ∧ ¬ AccessWidth width ∧
    (width = size ∨ type.isPointer = true ∧ width = v.pointerWidth)

section Refused

variable {v : View} {limit offset width : Nat} {e : TransferError}

/-- Running past the limit is not a matter of the width. -/
theorem checkWithin_not_unsupported {length : Nat}
    (h : checkWithin offset length limit = .error e) : ¬ e.Unsupported width := by
  rw [checkWithin] at h
  split at h <;> cases h
  intro hroot
  cases hroot

theorem liftAccess_load {size : Nat} (h : liftAccess (v.load offset size) = .error e)
    (he : e.Unsupported width) : width = size ∧ ¬ AccessWidth width := by
  cases hload : v.load offset size with
  | ok w => rw [hload] at h; cases h
  | error cause =>
    rw [hload] at h
    cases h
    cases he
    obtain ⟨rfl, hwidth⟩ := View.width_of_load hload
    exact ⟨rfl, hwidth⟩

/-- A scalar is refused for its own width, or a pointer for that of the view. -/
theorem readScalar_refused {type : Scalar} {size : Nat}
    (h : readScalar v type size limit offset = .error e) (he : e.Unsupported width) :
    size ≤ limit ∧ ¬ AccessWidth width ∧
      (width = size ∨ type.isPointer = true ∧ width = v.pointerWidth) := by
  rcases except_bind_eq_error.1 h with h | ⟨_, hwithin, h⟩
  · exact absurd he (checkWithin_not_unsupported h)
  · have hlimit := checkWithin_eq_ok_iff.1 hwithin
    cases type with
    | arith a =>
      rcases except_bind_eq_error.1 h with h | ⟨_, -, h⟩
      · obtain ⟨hsize, hwidth⟩ := liftAccess_load h he
        exact ⟨by omega, hwidth, .inl hsize⟩
      · cases h
    | pointer target =>
      rcases except_bind_eq_error.1 h with h | ⟨_, -, h⟩
      · have hload : liftAccess (v.load offset v.pointerWidth) = .error e := by
          rw [View.loadAddress] at h
          cases hload : v.load offset v.pointerWidth with
          | ok w => rw [hload] at h; cases h
          | error cause => rw [hload] at h; cases h; rfl
        obtain ⟨hsize, hwidth⟩ := liftAccess_load hload he
        exact ⟨by omega, hwidth, .inr ⟨rfl, hsize⟩⟩
      · cases h

/-- A bit-field is refused for the width of its type. -/
theorem readBits_refused {type : Scalar} {size : Nat} {range : BitRange}
    (h : readBits v type size limit range offset = .error e) (he : e.Unsupported width) :
    size ≤ limit ∧ ¬ AccessWidth width ∧ width = size := by
  rcases except_bind_eq_error.1 h with h | ⟨_, hwithin, h⟩
  · exact absurd he (checkWithin_not_unsupported h)
  · have hlimit := checkWithin_eq_ok_iff.1 hwithin
    rcases except_bind_eq_error.1 h with h | ⟨_, -, h⟩
    · obtain ⟨hsize, hwidth⟩ := liftAccess_load h he
      exact ⟨by omega, hwidth, hsize⟩
    · cases h

/-- A row of items is refused for one of them. -/
theorem readItems_eq_error {read : Nat → Except TransferError Value} {stride count : Nat}
    {done : List Value} (h : readItems read stride done offset count = .error e) :
    ∃ i < count, read (offset + i * stride) = .error e := by
  induction count generalizing done offset with
  | zero => cases h
  | succ count ih =>
    rw [readItems] at h
    cases hread : read offset with
    | ok y =>
      rw [hread] at h
      obtain ⟨i, hi, herror⟩ := ih h
      exact ⟨i + 1, Nat.succ_lt_succ hi, by rwa [item_offset_succ]⟩
    | error e' =>
      rw [hread] at h
      cases h
      exact ⟨0, Nat.succ_pos _, by rwa [Nat.zero_mul, Nat.add_zero]⟩

/-- Members are refused for one of them. -/
theorem readMembers_eq_error {tag : Tag} {ms : List MemberLayout} {start : Nat} {r : Record}
    (h : (readMembers v limit tag ms start r).1 = .error e) :
    ∃ m ∈ ms, ∃ cause, m.read v limit start = .error cause ∧
      e = .inRecord tag (v.base.advance start) cause := by
  induction ms generalizing r with
  | nil => cases h
  | cons m ms ih =>
    rw [readMembers] at h
    cases hread : m.read v limit start with
    | ok y =>
      rw [hread] at h
      obtain ⟨m', hm', hcause⟩ := ih h
      exact ⟨m', List.mem_cons_of_mem _ hm', hcause⟩
    | error cause =>
      rw [hread] at h
      cases h
      exact ⟨m, List.mem_cons_self, cause, hread, rfl⟩

/-- A record is refused for one of its members. -/
theorem readAt_eq_error {l : Layout} {start : Nat} {r : Record}
    (h : (l.readAt v limit start r).1 = .error e) :
    ∃ m ∈ l.members, ∃ cause, m.read v limit start = .error cause ∧
      e = .inRecord l.tag (v.base.advance start) cause := by
  cases l
  exact readMembers_eq_error h

theorem Shape.readAt_of_error {l : Layout} (h : Shape.read v limit (.record l) offset = .error e) :
    (l.readAt v limit offset .empty).1 = .error e := by
  rw [Shape.read] at h
  rcases hread : l.readAt v limit offset .empty with ⟨_ | ⟨⟩, r⟩ <;> rw [hread] at h <;> cases h
  rfl

/-- A member is refused for its shape. -/
theorem MemberLayout.refused_of_read {m : MemberLayout} {start : Nat}
    (hshape : ∀ offset e, m.shape.read v limit offset = .error e → e.Unsupported width →
      m.shape.Refused v limit width)
    (h : m.read v limit start = .error e) (he : e.Unsupported width) :
    m.shape.Refused v limit width := by
  cases hfield : bitField? m.shape m.bits with
  | none =>
    refine hshape (start + m.offset) e ?_ he
    cases m
    simp only [MemberLayout.read, hfield] at h
    exact h
  | some field =>
    obtain ⟨type, size, range⟩ := field
    have hread : readBits v type size limit range (start + m.offset) = .error e := by
      cases m
      simp only [MemberLayout.read, hfield] at h
      exact h
    obtain ⟨hlimit, hwidth, hsize⟩ := readBits_refused hread he
    refine ⟨type, size, ?_, hlimit, hwidth, .inl hsize⟩
    cases hs : m.shape with
    | scalar type' size' alignment =>
      rw [hs] at hfield
      cases hbits : m.bits with
      | none => rw [hbits] at hfield; cases hfield
      | some r => rw [hbits] at hfield; cases hfield; exact .scalar
    | record l => rw [hs] at hfield; cases hfield
    | array element length => rw [hs] at hfield; cases hfield

/-- **Where a read is refused for a width, a scalar of that width occurs,** on every view and
wherever the reads of that view are made to fail. -/
theorem Shape.refused_of_read (s : Shape) (h : s.read v limit offset = .error e)
    (he : e.Unsupported width) : s.Refused v limit width := by
  induction s using Shape.memberInduction generalizing offset e with
  | scalar type size alignment => exact ⟨type, size, .scalar, readScalar_refused h he⟩
  | record l ih =>
    obtain ⟨m, hm, cause, hcause, rfl⟩ := readAt_eq_error (readAt_of_error h)
    obtain ⟨type, size, hleaf, hrefused⟩ :=
      m.refused_of_read (fun offset e => ih m hm) hcause he
    exact ⟨type, size, .record hm hleaf, hrefused⟩
  | array element length ih =>
    rw [Shape.read] at h
    rcases except_bind_eq_error.1 h with h | ⟨_, -, h⟩
    · obtain ⟨_, -, h⟩ := readItems_eq_error h
      obtain ⟨type, size, hleaf, hrefused⟩ := ih h he
      exact ⟨type, size, .array hleaf, hrefused⟩
    · cases h

/-- On a view of the platform, the width is that of a scalar of the layout. -/
theorem Built.refused_of_read {config : Config} {l : Layout} (h : Built config l)
    (hpointers : v.pointerWidth = config.platform.pointerWidth) (hread : l.read v = .error e)
    (he : e.Unsupported width) :
    ∃ type, (Shape.record l).Leaf type width ∧ width ≤ l.size ∧ ¬ AccessWidth width := by
  have hslot : (Shape.record l).read v l.size 0 = .error e := by
    rw [Shape.read]
    rw [Layout.read, Layout.readInto] at hread
    rcases hrun : l.readAt v l.size 0 .empty with ⟨_ | ⟨⟩, r⟩ <;> rw [hrun] at hread <;> cases hread
    rfl
  obtain ⟨type, size, hleaf, hlimit, hwidth, hcause⟩ := Shape.refused_of_read _ hslot he
  obtain rfl : width = size := by
    rcases hcause with rfl | ⟨hpointer, rfl⟩
    · rfl
    · obtain ⟨hsize, -⟩ := h.leaf hleaf
      cases type with
      | pointer target => exact hpointers.trans hsize.symm
      | arith a => cases hpointer
  exact ⟨type, hleaf, hlimit, hwidth⟩

end Refused

/-! ## Records of a single member

A record that is as large as its member, whatever that is.  The pack takes away the alignment, so no
padding is added, and the only check that is left is whether the size can be counted. -/

/-- A record with one member, packed to bytes. -/
def RecordDecl.single (type : CType) : RecordDecl where
  tag := ⟨"single"⟩
  members := [{ name := "value", type := type }]
  pack := some 1

/-- The member of such a record. -/
def singleMember (type : CType) (shape : Shape) : MemberLayout where
  name := "value"
  type := type
  shape := shape
  offset := 0
  alignment := .byte
  bits := none
  fixed := false
  unionGroup := none

theorem Alignment.packed_byte (a : Alignment) : a.packed (some byte) = byte := by
  have hle : (a.packed (some byte)).log ≤ byte.log := packed_le a rfl
  exact congrArg mk (Nat.le_zero.1 hle)

/-- Every offset is aligned to bytes. -/
theorem align?_byte_word64 {n : Nat} (h : SizeLimit.word64.Admits n) :
    Alignment.byte.align? .word64 n = some n :=
  Alignment.align?_word64_of_dvd (Nat.zero_le 64) (Nat.one_dvd n) (SizeLimit.admits_word64_iff.1 h)

/-- A member of any size that a machine counts is a record of its own. -/
theorem assemble_single (order : BitOrder) (type : CType) {shape : Shape}
    (hsize : SizeLimit.word64.Admits shape.size) :
    ∃ l, assemble .word64 order (.single type)
        [⟨{ name := "value", type := type }, shape, .byte⟩] = .ok l ∧
      l.members = [singleMember type shape] ∧ l.size = shape.size := by
  have hstart : Alignment.byte.align? .word64 0 = some 0 := by decide
  have hadd : SizeLimit.word64.add? 0 shape.size = some shape.size :=
    SizeLimit.check?_eq_some_iff.2 ⟨by rwa [Nat.zero_add], (Nat.zero_add _).symm⟩
  have hplaced : placeMembers .word64 order (.single type)
      [⟨{ name := "value", type := type }, shape, .byte⟩] =
      .ok ([singleMember type shape], shape.size) := by
    have hnext : nextPlace .word64 Cursor.start.close .byte shape.size = some (0, shape.size) := by
      show (Alignment.byte.align? .word64 0 >>= _) = _
      rw [hstart]
      show (SizeLimit.word64.add? 0 shape.size >>= _) = _
      rw [hadd]
      rfl
    show placeUnits .word64 order _ 0 .start [.plain ⟨_, shape, .byte⟩] = _
    simp only [placeUnits, placeUnit, ResolvedMember.size, hnext]
    rfl
  have hcheck :
      checkPlacement ⟨"single"⟩ .struct shape.size [singleMember type shape] = .ok () := by
    refine checkPlacement_eq_ok_iff.2 ⟨List.forall_mem_singleton.2 ?_, fun _ =>
      List.pairwise_singleton _ _⟩
    exact MemberLayout.fault?_eq_none_iff.2 ⟨.inr (Nat.zero_mod _), (Nat.zero_add _).le⟩
  refine ⟨.ofMembers ⟨"single"⟩ .struct [singleMember type shape] shape.size .byte, ?_, rfl, rfl⟩
  have hrecord : recordAlignment (.single type) .byte = .ok .byte := rfl
  rw [assemble, hplaced]
  simp only [except_bind_eq_ok]
  refine ⟨_, rfl, .byte, hrecord, shape.size, ?_, (), hcheck, rfl⟩
  rw [align?_byte_word64 hsize]
  rfl

/-- Every type without records is built into a record, whatever the widths of its scalars. -/
theorem exists_built_single {config : Config} {type : CType} {shape : Shape}
    (hshape : ShapeOf .word64 config.platform ⟨"single"⟩ (fun _ _ => False) "value" type shape)
    (hsize : SizeLimit.word64.Admits shape.size) :
    ∃ l, Built config l ∧ l.members = [singleMember type shape] ∧ l.size = shape.size := by
  obtain ⟨l, hassemble, hmembers, hl⟩ := assemble_single config.bitOrder type hsize
  let answer : Tag → Except LayoutError Layout := fun tag => .error (.unknownTag tag)
  have hmember : MemberOf .word64 config.platform ⟨"single"⟩ (fun tag l => answer tag = .ok l)
      (some .byte) { name := "value", type := type }
      ⟨{ name := "value", type := type }, shape, .byte⟩ := by
    refine ⟨rfl, hshape.mono (fun _ _ h => h.elim), rfl, ?_⟩
    exact memberAlignment_eq_ok_iff.2 (.inl ⟨rfl, shape.alignment.packed_byte.symm⟩)
  have hnames : UsableNames [] (RecordDecl.single type).members := by
    have hname : "value" ≠ "" := by decide
    exact ⟨List.forall_mem_singleton.2 ⟨hname, List.not_mem_nil⟩, List.pairwise_singleton _ _⟩
  have hbuild : build? config answer (.single type) = .ok l :=
    build?_eq_ok_iff.2 ⟨some .byte, _, rfl, hnames, .cons hmember .nil, hassemble⟩
  exact ⟨{ l with serial := 0 }, .of_answers (fun _ _ h => by cases h) hbuild 0, hmembers, hl⟩

/-- A scalar of a width that memory cannot access makes the reading of its record fail. -/
theorem Layout.read_single {l : Layout} {type : Scalar} {width : Nat} {alignment : Alignment}
    (hmembers : l.members = [singleMember type.type (.scalar type width alignment)])
    (hsize : l.size = width) (haccess : ¬ AccessWidth width) {platform : Platform}
    (hwidth : type.size platform = width) (bytes : Array Byte) :
    ∃ e, l.read (.ofBytes platform bytes) = .error e ∧ e.Unsupported width := by
  let v := View.ofBytes platform bytes
  have hload : v.load 0 width = .error (.unsupportedWidth width) := by
    rw [View.load_eq, View.checkAccess, if_neg haccess]
    rfl
  have hscalar : readScalar v type width width 0 = .error (.memory (.unsupportedWidth width)) := by
    have hwithin := checkWithin_eq_ok_iff.2 (Nat.zero_add width).le
    cases type with
    | arith a => simp only [readScalar, hwithin, hload]; rfl
    | pointer target =>
      have hpointers : v.pointerWidth = width := hwidth
      simp only [readScalar, hwithin, View.loadAddress, hpointers, hload]
      rfl
  have hmember : (singleMember type.type (.scalar type width alignment)).read v l.size 0 =
      .error (.memory (.unsupportedWidth width)) := by
    rw [MemberLayout.read_of_bits_none rfl, hsize]
    exact hscalar
  refine ⟨.inRecord l.tag (v.base.advance 0) (.memory (.unsupportedWidth width)), ?_, rfl⟩
  have hrun : l.readAt v l.size 0 .empty =
      (.error (.inRecord l.tag (v.base.advance 0) (.memory (.unsupportedWidth width))),
        .empty) := by
    cases l
    cases hmembers
    simp only [Layout.readAt, readMembers] at hmember ⊢
    rw [hmember]
  rw [Layout.read, Layout.readInto, hrun]

/-! ## The platforms that are safe

Both directions put together. -/

section Iff

variable {config : Config}

/-- Each of the platform's own widths is that of some scalar. -/
theorem Platform.exists_scalar {p : Platform} {width : Nat} (h : width ∈ p.ownWidths) :
    ∃ s : Scalar, s.size p = width := by
  simp only [ownWidths, List.mem_cons, List.not_mem_nil, or_false] at h
  rcases h with rfl | rfl | rfl | rfl
  · exact ⟨.pointer (.arith .bool), rfl⟩
  · exact ⟨.arith (.platform .sizeT), rfl⟩
  · exact ⟨.arith (.platform .long), rfl⟩
  · exact ⟨.arith (.platform .timeT), rfl⟩

/-- A width that passes is the width of a scalar that is resolved. -/
theorem Platform.Passes.exists_shapeOf {p : Platform} {width : Nat} (h : p.Passes width)
    (hown : width ∈ p.ownWidths) (owner : Tag) (name : String) :
    ∃ (s : Scalar) (alignment : Alignment), s.size p = width ∧
      ShapeOf .word64 p owner (fun _ _ => False) name s.type (.scalar s width alignment) := by
  obtain ⟨s, rfl⟩ := Platform.exists_scalar hown
  obtain ⟨a, ha⟩ := h
  have hscalar : scalarShape p owner name s = .ok (.scalar s (s.size p) a) :=
    scalarShape_eq_ok_iff.2 ⟨a, ha, rfl⟩
  refine ⟨s, a, rfl, ?_⟩
  cases s with
  | arith type => exact .arith hscalar
  | pointer target => exact .pointer hscalar

/-- An empty array is built of any scalar that passes. -/
theorem accessWidth_of_accessible (h : ∀ l, Built config l → l.Accessible) {width : Nat}
    (hown : width ∈ config.platform.ownWidths) (hpasses : config.platform.Passes width) :
    AccessWidth width := by
  obtain ⟨s, alignment, -, hscalar⟩ := hpasses.exists_shapeOf hown ⟨"single"⟩ "value"
  have hempty : SizeLimit.word64.Admits (width * 0) := Nat.zero_le _
  obtain ⟨l, hbuilt, hmembers, -⟩ := exists_built_single (.array hscalar hempty) hempty
  have hmem :
      singleMember (.array s.type 0) (.array (.scalar s width alignment) 0) ∈ l.members := by
    rw [hmembers]
    exact List.mem_cons_self
  exact h l hbuilt s width (.record hmem (.array .scalar))

/-- A record with one scalar that passes can be read only if memory can access its width. -/
theorem accessWidth_of_readsAccess
    (h : ∀ l, Built config l → l.ReadsAccess config.platform) {width : Nat}
    (hown : width ∈ config.platform.ownWidths) (hsize : SizeLimit.word64.Admits width)
    (hpasses : config.platform.Passes width) : AccessWidth width := by
  by_contra haccess
  obtain ⟨s, alignment, hs, hscalar⟩ := hpasses.exists_shapeOf hown ⟨"single"⟩ "value"
  obtain ⟨l, hbuilt, hmembers, hl⟩ := exists_built_single hscalar hsize
  obtain ⟨e, he, hunsupported⟩ :=
    Layout.read_single hmembers hl haccess hs (Array.replicate width 0)
  refine h l hbuilt (Array.replicate width 0) ?_ e he width hunsupported
  rw [hl, Array.size_replicate]
  exact Nat.le_refl width

/-- **Building rejects all unsupported widths exactly for the platforms** whose own widths can be
accessed wherever they pass the builder's test.  For the others a record is built with a scalar
that memory cannot access and, if a machine counts the width at all, with one that cannot be
read. -/
theorem Platform.widths_rejected_iff (config : Config) :
    ((∀ l, Built config l → l.Accessible) ↔
        ∀ width ∈ config.platform.ownWidths, config.platform.Passes width → AccessWidth width) ∧
      ((∀ l, Built config l → l.ReadsAccess config.platform) ↔
        ∀ width ∈ config.platform.ownWidths, SizeLimit.word64.Admits width →
          config.platform.Passes width → AccessWidth width) := by
  refine ⟨⟨fun h _ => accessWidth_of_accessible h, fun h l hl type size hleaf => ?_⟩,
    ⟨fun h _ => accessWidth_of_readsAccess h, fun h l hl bytes _ e he width hunsupported => ?_⟩⟩
  · obtain ⟨rfl, hpasses⟩ := hl.leaf hleaf
    exact (type.size_mem_or_accessWidth config.platform).elim (h _ · hpasses) id
  · obtain ⟨type, hleaf, hwidth, haccess⟩ := hl.refused_of_read rfl he hunsupported
    obtain ⟨rfl, hpasses⟩ := hl.leaf hleaf
    have hcounts : SizeLimit.word64.Admits (type.size config.platform) :=
      SizeLimit.admits_word64_iff.2 (Nat.lt_of_le_of_lt hwidth hl.constructed.fits.1)
    exact haccess
      ((type.size_mem_or_accessWidth config.platform).elim (h _ · hcounts hpasses) id)

end Iff

/-! ## A count of sixteen bytes

A platform that gives its counts sixteen bytes, with a greatest alignment of eight: the width passes
as eight. -/

/-- A platform whose counts have sixteen bytes, which is lowered to the alignment of eight. -/
def wideCounts : Config := .ofPlatform { Platform.lp64 with sizeTWidth := 16 }

/-- A record of one count. -/
def countRecord : RecordDecl where
  tag := ⟨"r"⟩
  members := [{ name := "n", type := .arith (.platform .sizeT) }]

/-- Its layout, sixteen bytes with the alignment of eight. -/
def countLayout : Layout :=
  .ofMembers ⟨"r"⟩ .struct
    [⟨"n", .arith (.platform .sizeT), .scalar (.arith (.platform .sizeT)) 16 ⟨3⟩, 0, ⟨3⟩, none,
      false, none⟩]
    16 ⟨3⟩

/-- The count is built, and refused only when it is read. -/
theorem countLayout_refused :
    build? wideCounts (fun tag => .error (.unknownTag tag)) countRecord = .ok countLayout ∧
      Built wideCounts countLayout ∧ ¬ countLayout.Accessible ∧
      countLayout.read (.ofBytes wideCounts.platform (Array.replicate 16 0)) =
        .error (.inRecord ⟨"r"⟩ .null (.memory (.unsupportedWidth 16))) := by
  have hbuild : build? wideCounts (fun tag => .error (.unknownTag tag)) countRecord =
      .ok countLayout := rfl
  refine ⟨hbuild, .of_answers (fun _ _ h => by cases h) hbuild 0, fun h => ?_, rfl⟩
  have haccess := h _ 16 (.record List.mem_cons_self .scalar)
  exact absurd haccess (by decide)

end NativeRecord
