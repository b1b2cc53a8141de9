import NativeRecord.Proofs.Transfer.ForeignViews
import NativeRecord.Proofs.Transfer.Restoring

/-!
# Accessors for one type

An accessor for some types moves the word of its member without making a value of it: it masks,
shifts and fills up the sign by itself.  It answers what the accessor for any member does, on every
view, failures included.

Both kinds of accessors start with the same bits of the member, so these are a definition of their
own, `fetch`, to which each side is reduced.  What is left is a statement about words: filling up
the sign of a truncated word, or truncating it again, is the same as going through the value that it
stands for.  On the way back a value is made into the word that is stored, and bits which the range
has no room for are cut off on both sides.

Failures come for free in this way.  A member of the wrong type or out of range fails in the same
step, and what fails later fails in `fetch` or in the store, which both sides share.

## What is here

* `MemberLayout.fetch` — the bits of a member, which both kinds of accessors start from
  (`Layout.fetchInteger_eq`, `MemberLayout.read_eq_fetch`).
* `MemberLayout.write_eq_putInteger` — both kinds write the same.
* `Layout.Typed` — the members that an accessor takes; `Layout.AccessorsAgree` — what it means that
  the accessors for some types do what those for any member do.
* `Layout.accessorsAgree` — those of all built layouts do.
-/

set_option autoImplicit false
namespace NativeRecord

open Writing

/-! ## Words

Facts about one word, with no view in them. -/

/-- Bits that a range has no room for are not inserted. -/
theorem BitRange.insert_truncate {r : BitRange} {bits : Nat} (h : r.first + r.width ≤ bits)
    (word w : Word) : r.insert word (w.truncate bits) = r.insert word w := by
  refine BitVec.eq_of_getLsbD_eq fun k hk => ?_
  rw [getLsbD_insert, getLsbD_insert, getLsbD_mask]
  split
  · rename_i hmask
    rw [decide_eq_true_eq] at hmask
    have hlow : k - r.first < bits := by omega
    simp [Word.getLsbD_truncate, hlow]
  · rfl

theorem IntWidth.bits_pos (width : IntWidth) : 0 < width.bits := by cases width <;> decide

theorem IntWidth.bits_le (width : IntWidth) : width.bits ≤ 64 := by cases width <;> decide

theorem CType.exists_of_isInteger {type : CType} (h : type.isInteger = true) :
    ∃ a, type = .arith a ∧ a.isInteger = true := by
  cases type with
  | arith a => exact ⟨a, rfl, h⟩
  | _ => cases h

theorem CType.isInteger_of_isEnum {type : CType} (h : type.isEnum = true) :
    type.isInteger = true := by
  unfold isEnum at h
  split at h
  · rfl
  · cases h

theorem Arith.toWord?_decode {a : Arith} (ha : a.isInteger = true) (bits : Nat) (w : Word) :
    ((Scalar.arith a).decode bits w).toWord? =
      some (if a.isSigned then (w.signExtend bits).toBitVec else w.truncate bits) := by
  rw [Scalar.decode_of_isInteger ha]
  split <;> rfl

/-! ## The bits of a member

A scalar is its word, and a bit-field is cut out of its word.  Either way as many bits are left as
the member has. -/

namespace MemberLayout

/-- The number of bits of a scalar member or a bit-field. -/
def width (m : MemberLayout) : Nat := m.bits.elim (8 * m.length) (·.width)

/-- The bits of a scalar member or a bit-field. -/
def fetch (m : MemberLayout) (view : View) (limit : Nat) : Except TransferError Word := do
  checkWithin m.offset m.length limit
  let w ← liftAccess (view.load m.offset m.length)
  return m.bits.elim w (·.extract w)

variable {m : MemberLayout} {view : View} {limit : Nat} {a : Arith} {size : Nat}
  {alignment : Alignment}

theorem fetch_eq_ok {w : Word} (h : m.fetch view limit = .ok w) :
    AccessWidth m.length ∧ m.offset + m.length ≤ view.size ∧
      w = m.slot.content view m.offset := by
  obtain ⟨_, -, h⟩ := except_bind_eq_ok.1 h
  obtain ⟨word, hload, h⟩ := except_bind_eq_ok.1 h
  cases h
  rcases hword : view.load m.offset m.length with e | word'
  · rw [hword] at hload; cases hload
  · rw [hword] at hload
    cases hload
    obtain ⟨-, hwidth, hsize, rfl⟩ := View.load_eq_ok_iff.1 hword
    exact ⟨hwidth, hsize, rfl⟩

/-- The bits of a member are no more than it is wide. -/
theorem truncate_of_fetch {w : Word} (h : m.fetch view limit = .ok w) :
    w.truncate m.width = w := by
  obtain ⟨hwidth, hsize, rfl⟩ := fetch_eq_ok h
  rw [width, Slot.content, slot]
  cases m.bits with
  | none => exact View.truncate_word hsize hwidth.le
  | some range => exact range.truncate_extract _

/-- The value of an arithmetic member is decoded from its bits. -/
theorem read_eq_fetch (hshape : m.shape = .scalar (.arith a) size alignment) :
    m.read view limit 0 = (m.fetch view limit).map ((Scalar.arith a).decode m.width) := by
  have hlength : m.length = size := by rw [length, hshape, Shape.size]
  rw [fetch, width, hlength]
  cases hbits : m.bits with
  | some range =>
    rw [read_of_bits hshape hbits, readBits, Nat.zero_add]
    cases checkWithin m.offset size limit with
    | error e => rfl
    | ok => cases view.load m.offset size <;> rfl
  | none =>
    rw [read_of_bits_none hbits, hshape, Shape.read, readScalar, Nat.zero_add]
    cases checkWithin m.offset size limit with
    | error e => rfl
    | ok =>
      rcases hload : view.load m.offset size with e | w
      · rfl
      · obtain ⟨-, hwidth, hsize, rfl⟩ := View.load_eq_ok_iff.1 hload
        have htruncate := View.truncate_word hsize hwidth.le
        exact congrArg (fun w => Except.ok ((Scalar.arith a).decode (8 * size) w)) htruncate

end MemberLayout

namespace Layout

variable {l : Layout}

/-- The word of an integer is its bits, with the sign filled up for a signed type. -/
theorem fetchInteger_eq (view : View) (m : MemberLayout) :
    l.fetchInteger view m = (m.fetch view l.size).map fun w =>
      if m.type.isSigned then (w.signExtend m.width).toBitVec else w.truncate m.width := by
  rw [fetchInteger, MemberLayout.fetch, MemberLayout.width]
  cases checkWithin m.offset m.length l.size with
  | error e => rfl
  | ok =>
    cases view.load m.offset m.length with
    | error e => rfl
    | ok w => cases m.bits <;> rfl

end Layout

/-! ## Storing the bits of a member

A value is truncated to the width of its type before it is stored, and the word of the other
accessor is not.  The bits that are cut off would not have been stored. -/

theorem replaceBits_truncate {size bits : Nat} {range : BitRange}
    (h : range.first + range.width ≤ bits) (offset : Nat) (w : Word) :
    replaceBits size offset range (w.truncate bits) = replaceBits size offset range w := by
  rw [replaceBits, replaceBits]
  exact congrArg access (funext fun view => by simp only [BitRange.insert_truncate h])

/-- A value is written like its word. -/
theorem MemberLayout.write_eq_putInteger {l : Layout} {m : MemberLayout} (hbits : m.BitsInWord)
    {a : Arith} {size : Nat} {alignment : Alignment}
    (hshape : m.shape = .scalar (.arith a) size alignment) {x : Value} {w : Word}
    (hx : a.bits? x = some w) : l.putInteger m w = m.write l.size 0 x := by
  have hlength : m.length = size := by rw [length, hshape, Shape.size]
  have hencode : encodeFor m.name (.arith a) size x = .ok (w.truncate (8 * size)) :=
    encodeFor_eq_ok_iff.2 (by rw [Scalar.encode?, Scalar.bits?, hx]; rfl)
  rw [Layout.putInteger, hlength]
  cases hrange : m.bits with
  | some range =>
    obtain ⟨_, _, _, hshape', -, -, hfits⟩ := hbits range hrange
    rw [hshape] at hshape'
    cases hshape'
    rw [write_of_bits hshape hrange, writeBits, hencode, Nat.zero_add]
    cases checkWithin m.offset size l.size with
    | error e => rfl
    | ok => exact (replaceBits_truncate hfits m.offset w).symm
  | none =>
    rw [write_of_bits_none hrange, hshape, Shape.write, writeScalar, hencode, Nat.zero_add]
    cases checkWithin m.offset size l.size <;> rfl

/-! ## Accessors

The clauses are stated in terms of the values of the accessors for any member, with `map` for what
the accessor for one type makes of them, so that failures are compared as well. -/

namespace Layout

/-- The member at an index, if there is one, is of a type that passes a test. -/
def Typed (l : Layout) (i : Nat) (test : CType → Prop) : Prop :=
  ∀ m, l.members[i]? = some m → test m.type

/-- The accessors for some types do what those for any member do, on every view, for the member at
an index. -/
structure AccessorsAgree (l : Layout) (i : Nat) : Prop where
  /-- Signed integers are the value modulo their width, as the number nearest to zero. -/
  getSigned : l.Typed i (·.isInteger) → ∀ view (width : IntWidth),
    (l.getSigned view width i).map (fun n => some n.toInt) =
      (l.get view i).map fun y => y.toWord?.map fun w => (w.toNat : Int).bmod (2 ^ width.bits)
  /-- Unsigned ones are the value modulo their width, as a natural number. -/
  getUnsigned : l.Typed i (·.isInteger) → ∀ view (width : IntWidth),
    (l.getUnsigned view width i).map (fun w => some w.toNat) =
      (l.get view i).map fun y => y.toWord?.map fun w => w.toNat % 2 ^ width.bits
  getTargetInt : ∀ t, l.Typed i (· = .arith (.platform t)) → ∀ view,
    (l.getTargetInt view t i).map some = (l.get view i).map Value.toWord?
  getEnum : l.Typed i (·.isEnum) → ∀ view,
    (l.getEnum view i).map some = (l.get view i).map Value.toWord?
  /-- An integer is written like a value of either sign that it is the word of. -/
  setInteger : l.Typed i (·.isInteger) → ∀ x w, x.toWord? = some w →
    l.setInteger i w = l.set i x
  setTargetInt : ∀ t, l.Typed i (· = .arith (.platform t)) → ∀ x w, x.toWord? = some w →
    l.setTargetInt t i w = l.set i x
  setEnum : l.Typed i (·.isEnum) → ∀ x w, x.toWord? = some w → l.setEnum i w = l.set i x
  getBool : l.Typed i (· = .arith .bool) → ∀ view,
    (l.getBool view i).map .bool = l.get view i
  setBool : l.Typed i (· = .arith .bool) → ∀ b, l.setBool i b = l.set i (.bool b)
  getPointer : l.Typed i (·.isPointer) → ∀ view,
    (l.getPointer view i).map .pointer = l.get view i
  setPointer : l.Typed i (·.isPointer) → ∀ a, l.setPointer i a = l.set i (.pointer a)
  /-- In a bit-field are the bits that were written to it, but for those past its width. -/
  bits : ∀ m range, l.members[i]? = some m → m.bits = some range → ∀ view w after,
    (l.setBits i w).run view = (.ok (), after) →
      ∃ back, l.getBits after i = .ok back ∧ back.toNat = w.toNat % 2 ^ range.width

/-! ## Finding the member

The accessors for some types test the type of the member when they find it.  If the member is of
that type, or there is none, the test has no effect. -/

section Find

variable {l : Layout} {i : Nat}

theorem memberFor_eq_memberAt {request : Request} {test : MemberLayout → Bool}
    (h : ∀ m, l.members[i]? = some m → test m = true) :
    l.memberFor i request test = l.memberAt i := by
  rw [memberFor]
  cases hm : l.memberAt i with
  | error e => rfl
  | ok m => exact if_pos (h m (memberAt_eq_ok_iff.1 hm))

/-- Reads of the member at an index answer the same if they do for the member that is there. -/
theorem map_memberAt_bind {α β γ : Type} {f : MemberLayout → Except TransferError α}
    {g : MemberLayout → Except TransferError β} {p : α → γ} {q : β → γ}
    (h : ∀ m, l.members[i]? = some m → (f m).map p = (g m).map q) :
    (l.memberAt i >>= f).map p = (l.memberAt i >>= g).map q := by
  cases hm : l.memberAt i with
  | error e => rfl
  | ok m => exact h m (memberAt_eq_ok_iff.1 hm)

/-- Writes to the member at an index are the same if they are for the member that is there. -/
theorem memberAt_bind_congr {f g : MemberLayout → Writing Unit}
    (h : ∀ m, l.members[i]? = some m → f m = g m) :
    (liftM (l.memberAt i) >>= f : Writing Unit) = liftM (l.memberAt i) >>= g := by
  cases hm : l.memberAt i with
  | error e => rfl
  | ok m => exact h m (memberAt_eq_ok_iff.1 hm)

end Find

section Built

variable {config : Config} {l : Layout} {i : Nat} {m : MemberLayout}

/-- A member of an arithmetic type is that scalar. -/
theorem scalar_of_arith (hbuilt : Built config l) (hm : l.members[i]? = some m) {a : Arith}
    (ha : m.type = .arith a) : ∃ size alignment, m.shape = .scalar (.arith a) size alignment := by
  obtain ⟨alignment, hshape⟩ :=
    hbuilt.scalar_of_type (List.mem_of_getElem? hm) (s := .arith a) (by rw [ha]; rfl)
  exact ⟨_, alignment, hshape⟩

theorem bitsInWord (hbuilt : Built config l) (hm : l.members[i]? = some m) : m.BitsInWord :=
  hbuilt.wellPlaced.bits m (List.mem_of_getElem? hm)

/-! ## Integers

Any integer type, in particular one that is an enumeration, has a value with a word, and the
accessors for the different widths differ in what they make of the word. -/

/-- **The word of an integer is that of its value.** -/
theorem map_fetchInteger (hbuilt : Built config l) (h : l.Typed i (·.isInteger)) (view : View) :
    (l.memberAt i >>= l.fetchInteger view).map some = (l.get view i).map Value.toWord? := by
  refine map_memberAt_bind fun m hm => ?_
  obtain ⟨a, ha, hinteger⟩ := CType.exists_of_isInteger (h m hm)
  obtain ⟨size, alignment, hshape⟩ := scalar_of_arith hbuilt hm ha
  have hsigned : m.type.isSigned = a.isSigned := by rw [ha]; rfl
  rw [fetchInteger_eq, MemberLayout.read_eq_fetch hshape, hsigned]
  cases m.fetch view l.size with
  | error e => rfl
  | ok w => exact congrArg Except.ok (Arith.toWord?_decode hinteger _ w).symm

/-- **An integer is stored like every value that it is the word of.** -/
theorem putInteger_eq_set (hbuilt : Built config l) (h : l.Typed i (·.isInteger)) {x : Value}
    {w : Word} (hx : x.toWord? = some w) :
    (liftM (l.memberAt i) >>= fun m => l.putInteger m w : Writing Unit) = l.set i x := by
  refine memberAt_bind_congr fun m hm => ?_
  obtain ⟨a, ha, hinteger⟩ := CType.exists_of_isInteger (h m hm)
  obtain ⟨size, alignment, hshape⟩ := scalar_of_arith hbuilt hm ha
  exact m.write_eq_putInteger (bitsInWord hbuilt hm) hshape
    ((Arith.bits?_of_isInteger hinteger x).trans hx)

/-- What is made of the word of an integer is made of that of its value. -/
theorem map_getInteger (hbuilt : Built config l) (h : l.Typed i (·.isInteger)) (view : View)
    {α : Type} (f : Word → α) :
    (l.getInteger view i).map (fun w => some (f w)) =
      (l.get view i).map fun y => y.toWord?.map f := by
  have hword := map_fetchInteger hbuilt h view
  rw [getInteger, memberFor_eq_memberAt h]
  calc _ = ((l.memberAt i >>= l.fetchInteger view).map some).map (Option.map f) :=
        (except_map_map ..).symm
    _ = ((l.get view i).map Value.toWord?).map (Option.map f) := by rw [hword]
    _ = _ := except_map_map ..

/-- Read with a sign, the word is taken modulo the width and around zero. -/
theorem map_getSigned (hbuilt : Built config l) (h : l.Typed i (·.isInteger)) (view : View)
    (width : IntWidth) : (l.getSigned view width i).map (fun n => some n.toInt) =
      (l.get view i).map fun y => y.toWord?.map fun w => (w.toNat : Int).bmod (2 ^ width.bits) := by
  have hsigned : l.getSigned view width i = (l.getInteger view i).map (·.signExtend width.bits) :=
    bind_pure_comp ..
  rw [hsigned, except_map_map, map_getInteger hbuilt h]
  simp only [Word.toInt_signExtend _ width.bits_pos width.bits_le]

/-- Read without a sign, the word is taken modulo the width. -/
theorem map_getUnsigned (hbuilt : Built config l) (h : l.Typed i (·.isInteger)) (view : View)
    (width : IntWidth) : (l.getUnsigned view width i).map (fun w => some w.toNat) =
      (l.get view i).map fun y => y.toWord?.map fun w => w.toNat % 2 ^ width.bits := by
  have hunsigned : l.getUnsigned view width i =
      (l.getInteger view i).map (·.truncate width.bits) := bind_pure_comp ..
  rw [hunsigned, except_map_map, map_getInteger hbuilt h]
  simp only [Word.toNat_truncate, Nat.min_eq_left width.bits_le]

/-! ## Booleans

A truth value is true when any bit of it is set, as a scalar or as a bit-field. -/

theorem map_getBool (hbuilt : Built config l) (h : l.Typed i (· = .arith .bool)) (view : View) :
    (l.getBool view i).map .bool = l.get view i := by
  rw [getBool, memberFor_eq_memberAt fun m hm => decide_eq_true (h m hm)]
  refine (map_memberAt_bind (q := id) fun m hm => ?_).trans (congrFun Except.map_id _)
  obtain ⟨size, alignment, hshape⟩ := scalar_of_arith hbuilt hm (h m hm)
  have hsigned : m.type.isSigned = false := by rw [h m hm]; rfl
  rw [fetchInteger_eq, MemberLayout.read_eq_fetch hshape, hsigned]
  rcases hfetch : m.fetch view l.size with e | w
  · rfl
  · -- No bit of the word lies above the width, so truncation does not make it zero.
    have hsame := MemberLayout.truncate_of_fetch hfetch
    exact congrArg (fun w => Except.ok (Value.bool (w != 0))) hsame

theorem setBool_eq_set (hbuilt : Built config l) (h : l.Typed i (· = .arith .bool)) (b : Bool) :
    l.setBool i b = l.set i (.bool b) := by
  rw [setBool, memberFor_eq_memberAt fun m hm => decide_eq_true (h m hm)]
  refine memberAt_bind_congr fun m hm => ?_
  obtain ⟨size, alignment, hshape⟩ := scalar_of_arith hbuilt hm (h m hm)
  exact m.write_eq_putInteger (bitsInWord hbuilt hm) hshape rfl

/-! ## Pointers

Pointers are stored with the width that the view says, by either accessor. -/

/-- A member of a pointer type is that scalar, and no bit-field. -/
theorem pointer_of_type (hbuilt : Built config l) (hm : l.members[i]? = some m)
    (h : m.type.isPointer = true) :
    ∃ target alignment, m.shape = .scalar (.pointer target) m.length alignment ∧ m.bits = none := by
  obtain ⟨target, htype⟩ := CType.scalar?_of_isPointer h
  obtain ⟨alignment, hshape⟩ := hbuilt.scalar_of_type (List.mem_of_getElem? hm) htype
  have hlength : m.length = (Scalar.pointer target).size config.platform := by
    rw [MemberLayout.length, hshape, Shape.size]
  refine ⟨target, alignment, hlength ▸ hshape, Option.eq_none_iff_forall_ne_some.2 ?_⟩
  intro range hrange
  obtain ⟨a, size, alignment', hscalar, -⟩ := bitsInWord hbuilt hm range hrange
  rw [hshape] at hscalar
  cases hscalar

theorem map_getPointer (hbuilt : Built config l) (h : l.Typed i (·.isPointer)) (view : View) :
    (l.getPointer view i).map .pointer = l.get view i := by
  rw [getPointer, memberFor_eq_memberAt h]
  refine (map_memberAt_bind (q := id) fun m hm => ?_).trans (congrFun Except.map_id _)
  obtain ⟨target, alignment, hshape, hbits⟩ := pointer_of_type hbuilt hm (h m hm)
  rw [MemberLayout.read_of_bits_none hbits, hshape, Shape.read, readScalar, Nat.zero_add]
  cases checkWithin m.offset m.length l.size with
  | error e => rfl
  | ok => cases view.loadAddress m.offset <;> rfl

theorem setPointer_eq_set (hbuilt : Built config l) (h : l.Typed i (·.isPointer)) (a : Address) :
    l.setPointer i a = l.set i (.pointer a) := by
  rw [setPointer, memberFor_eq_memberAt h]
  refine memberAt_bind_congr fun m hm => ?_
  obtain ⟨target, alignment, hshape, hbits⟩ := pointer_of_type hbuilt hm (h m hm)
  rw [MemberLayout.write_of_bits_none hbits, hshape, Shape.write, writeScalar, Nat.zero_add]
  rfl

/-! ## Bit-fields

The raw bits are written without a look at the type.  That they are found again is said modulo the
width of the field, for what does not fit is cut off. -/

/-- **The bits that were written to a bit-field are found.** -/
theorem getBits_setBits (hbuilt : Built config l) (hm : l.members[i]? = some m) {range : BitRange}
    (hrange : m.bits = some range) {view after : View} {w : Word}
    (h : (l.setBits i w).run view = (.ok (), after)) :
    ∃ back, l.getBits after i = .ok back ∧ back.toNat = w.toNat % 2 ^ range.width := by
  have hfor : l.memberFor i .bitField (·.isBitField) = .ok m := by
    rw [memberFor, memberAt_eq_ok_iff.2 hm]
    exact if_pos (by rw [MemberLayout.isBitField, hrange]; rfl)
  obtain ⟨a, size, alignment, hshape, -, -, hfits⟩ := bitsInWord hbuilt hm range hrange
  have hlength : m.length = size := by rw [MemberLayout.length, hshape, Shape.size]
  -- The same word is read before the bits are stored and afterwards, with the same checks.
  rw [setBits, hfor] at h
  obtain ⟨_, ⟨⟩, hput⟩ := lift_bind_eq_ok h
  rw [putInteger, hrange, hlength] at hput
  obtain ⟨_, hcheck, hreplace⟩ := lift_bind_eq_ok hput
  obtain ⟨hload, rfl⟩ := replaceBits_eq_ok hreplace
  obtain ⟨hread, hwidth, hsize, -⟩ := View.load_eq_ok_iff.1 hload
  let stored := Patch.word view.endianness m.offset size range.mask (w <<< range.first)
  have hload' : (view.patch stored).load m.offset size = .ok ((view.patch stored).word ..) :=
    View.load_eq_ok_iff.2 ⟨hread, hwidth, by rwa [View.size_patch], rfl⟩
  have hfetch : m.fetch (view.patch stored) l.size = .ok (w.truncate range.width) := by
    rw [MemberLayout.fetch, hlength, hcheck, hload', hrange]
    exact congrArg Except.ok (View.extract_patch_word hsize hwidth.le hfits w)
  have h64 : range.width ≤ 64 := by have := hwidth.le; omega
  refine ⟨w.truncate range.width, ?_, by rw [Word.toNat_truncate, Nat.min_eq_left h64]⟩
  rw [getBits, hfor]
  show (l.fetchInteger _ m >>= fun w => .ok (w.truncate (m.bits.elim 64 (·.width)))) = _
  rw [fetchInteger_eq, hfetch, MemberLayout.width, hrange]
  show Except.ok (Word.truncate (if m.type.isSigned then _ else _) range.width) = _
  split
  · rw [Option.elim, Word.truncate_signExtend, Word.truncate_truncate]
  · rw [Option.elim, Word.truncate_truncate, Word.truncate_truncate]

/-! ## All accessors -/

/-- **The accessors for some types agree with those for any member,** on every view of every built
layout: they answer the same, fail the same and leave the same bytes. -/
theorem accessorsAgree (hbuilt : Built config l) (i : Nat) : l.AccessorsAgree i where
  getSigned h := map_getSigned hbuilt h
  getUnsigned h := map_getUnsigned hbuilt h
  getTargetInt t h view := by
    rw [getTargetInt, memberFor_eq_memberAt fun m hm => decide_eq_true (h m hm)]
    exact map_fetchInteger hbuilt (fun m hm => by rw [h m hm]; rfl) view
  getEnum h view := by
    rw [getEnum, memberFor_eq_memberAt h]
    exact map_fetchInteger hbuilt (fun m hm => CType.isInteger_of_isEnum (h m hm)) view
  setInteger h x w hx := by
    rw [setInteger, memberFor_eq_memberAt h]
    exact putInteger_eq_set hbuilt h hx
  setTargetInt t h x w hx := by
    rw [setTargetInt, memberFor_eq_memberAt fun m hm => decide_eq_true (h m hm)]
    exact putInteger_eq_set hbuilt (fun m hm => by rw [h m hm]; rfl) hx
  setEnum h x w hx := by
    rw [setEnum, memberFor_eq_memberAt h]
    exact putInteger_eq_set hbuilt (fun m hm => CType.isInteger_of_isEnum (h m hm)) hx
  getBool h := map_getBool hbuilt h
  setBool h := setBool_eq_set hbuilt h
  getPointer h := map_getPointer hbuilt h
  setPointer h := setPointer_eq_set hbuilt h
  bits m range hm hrange view w after := getBits_setBits hbuilt hm hrange

end Built

end Layout

/-- In the byte `0xA5`, the signed bit-field holds `-12`, which is 244 as a byte without a sign.
What is written to the unsigned one is found modulo 8. -/
theorem accessorsAgree_sharedByte :
    Built .standard sharedByteLayout ∧
      sharedByteLayout.getSigned sharedByteView .w8 1 = .ok (-12) ∧
      sharedByteLayout.getUnsigned sharedByteView .w8 1 = .ok 244 ∧
      (sharedByteLayout.setBits 0 12).run sharedByteView = (.ok (), .ofBytes .host #[0xA4]) ∧
      sharedByteLayout.getBits (.ofBytes .host #[0xA4]) 0 = .ok 4 ∧
      (∀ i, sharedByteLayout.AccessorsAgree i) :=
  ⟨built_sharedByte, rfl, rfl, rfl, rfl, Layout.accessorsAgree built_sharedByte⟩

end NativeRecord
