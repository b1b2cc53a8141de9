import NativeRecord.Proofs.Transfer.Bounds
import NativeRecord.Proofs.Transfer.Overwriting

/-!
# Views of other platforms

A view has a pointer width of its own, and a record may have been laid out for another one.  An
access is checked against the pointer width of the record, but a pointer is stored with that of the
view.  So a pointer may run over the end of the record, and nothing else does.

Everything but the width of pointers is as on a view of the right platform, and so is the proof: a
write is confined to the bits that its scalars are stored in, at every path.  The only difference is
which bits these are for a pointer, and it is made in one place, `Place.StoredIn`.  A pointer is
checked as far as the platform's width goes, and therefore ends behind the record by no more than
the difference of the two widths.

That the accesses do reach so far is shown by an access: an address that is stored over the opposite
bits changes each byte that the view stores it in.

## What is here

* `View.DiffersAt` — a byte in which views differ.
* `Place.StoredIn` — the bits that a view stores a scalar in; `Layout.Touches` — those of all
  scalars of a record, and its padding.  Writing sets no others, whatever is written
  (`Layout.write_touches`, `Layout.set_touches`, `Layout.setElement_touches`).
* `Layout.InPointer` — the bytes of the pointers in a record, as a view stores them.
* `Layout.StaysWithin` — what it means that no access leaves the record.
* `Layout.Reaches`, `Layout.reaches` — which bytes the accesses change in any view.  They stay
  within the record if its pointers are as wide as those of the view, or wider.
-/

set_option autoImplicit false
namespace NativeRecord

open Writing
open NativeRecord.Span (Covers)

/-! ## Bytes that differ

What a step may change is said in bits, and what it changes is seen in bytes. -/

/-- The views differ in this byte. -/
def View.DiffersAt (v w : View) (b : Nat) : Prop := v.bytes[b]? ≠ w.bytes[b]?

theorem View.differsAt_of_bit {v w : View} {p : Nat} (h : v.bit p ≠ w.bit p) :
    v.DiffersAt w (p / 8) := by
  intro hbyte
  rw [bit, bit, hbyte] at h
  exact h rfl

namespace Writing

variable {step : Writing Unit} {v : View} {b : Nat}

/-- A step that changes a byte sets a bit there. -/
theorem Confined.of_differsAt {S : Nat → Prop} (h : step.Confined v S)
    (hb : v.DiffersAt (step.run v).2 b) : ∃ p, S p ∧ p / 8 = b := by
  by_contra hnone
  refine hb (h.byte_eq fun p hp hpb => ?_).symm
  exact hnone ⟨p, hp, hpb⟩

/-- A step that sets a bit changes its byte, if the bit was another one before. -/
theorem Sets.exists_differsAt {answer : Except TransferError Unit} {f : Patch}
    (h : step.Sets v answer f) {p : Nat} (hp : p < 8 * v.size) (hf : (f p).isSome) :
    ∃ bytes : Array Byte, bytes.size = v.size ∧
      View.DiffersAt { v with bytes } (step.run { v with bytes }).2 (p / 8) := by
  obtain ⟨bit, hbit⟩ := Option.isSome_iff_exists.1 hf
  let flip : Patch := fun _ => some !bit
  refine ⟨(v.patch flip).bytes, v.size_patch flip, View.differsAt_of_bit ?_⟩
  show (v.patch flip).bit p ≠ (step.run (v.patch flip)).2.bit p
  rw [h _ (v.alike_patch flip), View.bit_patch f (by rwa [View.size_patch]), View.bit_patch flip hp,
    hbit]
  cases bit <;> nofun

end Writing

/-! ## Where a view stores pointers

A scalar other than a pointer is stored in its own bits.  For a pointer these may be fewer or more
than the view stores. -/

section Stored

variable {platform : Platform} {v : View}

/-- On views like `v`, an address is stored as a word of the same width. -/
theorem storeAddress_run {u : View} (hu : v.Alike u) (offset : Nat) (a : Address) :
    (access fun view => view.storeAddress offset a).run u =
      (access fun view =>
        view.store offset v.pointerWidth (a.truncate v.pointerWidth).word).run u := by
  rw [run_access, run_access, View.storeAddress, hu.pointerWidth_eq]

theorem storeAddress_confined (v : View) (offset : Nat) (a : Address) :
    (access fun view => view.storeAddress offset a).Confined v (InBytes offset v.pointerWidth) :=
  (store_confined ..).congr fun _ hu => storeAddress_run hu offset a

namespace Place

/-- The bits that a view stores a scalar in: its own ones and, for a pointer, those of the view's
pointer width. -/
def StoredIn (v : View) (q : Place) (p : Nat) : Prop :=
  q.Owns v.endianness p ∨ q.IsPointer ∧ InBytes q.offset v.pointerWidth p

theorem write_storedIn {q : Place} (hq : q.IsScalar) (hs : q.slot.Sound platform) (field : String)
    (limit : Nat) (x : Value) :
    (q.slot.write field limit q.offset x).Confined v (q.StoredIn v) := by
  by_cases hpointer : q.IsPointer
  · obtain ⟨s, offset⟩ := q
    obtain ⟨target, size, alignment, hshape⟩ := id hpointer
    cases hs with
    | scalar =>
      cases hshape
      refine .lift_bind fun _ _ => .lift_bind fun w _ => ?_
      exact (storeAddress_confined v offset ⟨w⟩).mono fun p hp => .inr ⟨hpointer, hp⟩
    | bitField | record | array => cases hshape
  · exact (write_owns hq (fun h => absurd h hpointer) hs field limit x).mono fun p hp => .inl hp

end Place

namespace Layout

variable {l : Layout} {p : Nat}

/-- The bit may be set when the record is written: it lies in the padding, or the view stores a
scalar in it. -/
def Touches (l : Layout) (v : View) (p : Nat) : Prop :=
  Covers l.padding (p / 8) ∨
    ∃ path scalar, Place.at? ⟨l.slot, 0⟩ path = some scalar ∧ scalar.IsScalar ∧ scalar.StoredIn v p

/-- The byte is one of those that the view stores a pointer of the record in. -/
def InPointer (l : Layout) (v : View) (b : Nat) : Prop :=
  ∃ path pointer, Place.at? ⟨l.slot, 0⟩ path = some pointer ∧ pointer.IsPointer ∧
    pointer.offset ≤ b ∧ b < pointer.offset + v.pointerWidth

theorem Touches.lt_size_or_inPointer (hs : l.Sound platform) (hsurveyed : (Shape.record l).Surveyed)
    (h : l.Touches v p) : p / 8 < l.size ∨ l.InPointer v (p / 8) := by
  obtain ⟨s, hpadding, hp⟩ | ⟨path, scalar, hpath, -, hstored⟩ := h
  · exact .inl (Nat.lt_of_lt_of_le hp.2 (hsurveyed.stop_padding_le s hpadding))
  · obtain ⟨⟨hlow, hhigh⟩, -⟩ | ⟨hpointer, hlow, hhigh⟩ := hstored
    · have hwithin := (Place.within_at? hs.slot hpath).2.2
      have hsize : scalar.offset + scalar.slot.size ≤ l.size := by rwa [Nat.zero_add] at hwithin
      exact .inl (by omega)
    · exact .inr ⟨path, scalar, hpath, hpointer, by omega, by omega⟩

/-- A pointer has room in the record for as many bytes as the platform's pointers have. -/
theorem InPointer.lt (hs : l.Sound platform) {b : Nat} (h : l.InPointer v b) :
    b < l.size + (v.pointerWidth - platform.pointerWidth) := by
  obtain ⟨path, pointer, hpath, ⟨target, size, alignment, hshape⟩, hlow, hhigh⟩ := h
  obtain ⟨hsound, -, hwithin⟩ := Place.within_at? hs.slot hpath
  obtain ⟨s, offset⟩ := pointer
  have hsize : offset + s.size ≤ l.size := by rwa [Nat.zero_add] at hwithin
  cases hsound with
  | scalar =>
    cases hshape
    have hwidth : offset + platform.pointerWidth ≤ l.size := hsize
    simp only at hhigh
    omega
  | bitField | record | array => cases hshape

/-! ## Accesses

Members, elements and whole records are places in the record that lie at some path, and one lemma
about places, `write_place`, is enough for all of them.  The accessor for pointers stores an address
by itself and is dealt with apart. -/

/-- **Writing to a place in a record sets bits that the view stores its scalars in.** -/
theorem write_place (hs : l.Sound platform) {path : List Step} {q : Place}
    (hq : Place.at? ⟨l.slot, 0⟩ path = some q) (field : String) (limit : Nat) (x : Value) :
    (q.slot.write field limit q.offset x).Confined v (l.Touches v) := by
  have hsound := (Place.within_at? hs.slot hq).1
  have hreached := Slot.write_reachedBy (v := v) (fun _ => Place.write_storedIn) hsound
  refine (hreached field limit q.offset x).mono ?_
  rintro p ⟨path', _, scalar, -, hscalar, hstored⟩
  exact .inr ⟨path ++ path', scalar, (Place.at?_append hq).trans hscalar, hstored⟩

theorem at?_member (hs : l.Sound platform) {m : MemberLayout} (hm : m ∈ l.members) :
    Place.at? ⟨l.slot, 0⟩ [.field m.name] = some ⟨m.slot, m.offset⟩ := by
  rw [Place.at?, slot, Place.part?_field (sound_iff.1 hs).1 hm none 0, Nat.zero_add]
  rfl

theorem writeMember_touches (hs : l.Sound platform) {m : MemberLayout} (hm : m ∈ l.members)
    (x : Value) : (m.write l.size 0 x).Confined v (l.Touches v) := by
  rw [m.write_slot, Nat.zero_add]
  exact write_place hs (at?_member hs hm) m.name l.size x

theorem write_touches (hs : l.Sound platform) (zeroFill : Bool) (r : Record) :
    (l.writeAt l.size zeroFill 0 r).Confined v (l.Touches v) :=
  writeAt_confined (fun _ => (zeroSpans_confined ..).mono fun _ hp => .inl hp.2)
    fun _ hm x _ => writeMember_touches hs hm x

theorem set_touches (hs : l.Sound platform) (i : Nat) (x : Value) :
    (l.set i x).Confined v (l.Touches v) :=
  .lift_bind fun _ hm =>
    writeMember_touches hs (List.mem_of_getElem? (memberAt_eq_ok_iff.1 hm)) x

theorem setElement_touches (hs : l.Sound platform) (i j : Nat) (x : Value) :
    (l.setElement i j x).Confined v (l.Touches v) := by
  refine .lift_bind fun ⟨m, element, offset⟩ hfound => ?_
  obtain ⟨hm, rfl, length, hshape, hj⟩ := elementAt_eq_ok_iff.1 hfound
  have hmember := at?_member hs (List.mem_of_getElem? hm)
  have helement : Place.at? ⟨l.slot, 0⟩ [.field m.name, .item j] =
      some ⟨⟨element, none⟩, m.offset + j * element.size⟩ := by
    refine (Place.at?_append hmember).trans ?_
    rw [MemberLayout.slot, hshape, Place.at?, Place.part?_item hj]
    rfl
  have hwrite := write_place (v := v) hs helement m.name l.size x
  rwa [Slot.write_plain] at hwrite

theorem memberFor_eq_ok {i : Nat} {request : Request} {test : MemberLayout → Bool}
    {m : MemberLayout} (h : l.memberFor i request test = .ok m) :
    l.members[i]? = some m ∧ test m = true := by
  obtain ⟨m', hm, h⟩ := except_bind_eq_ok.1 h
  split at h
  · cases h
    exact ⟨memberAt_eq_ok_iff.1 hm, ‹_›⟩
  · cases h

theorem setPointer_confined (i : Nat) (a : Address) :
    (l.setPointer i a).Confined v fun p => ∃ m, l.members[i]? = some m ∧
      m.type.isPointer = true ∧ InBytes m.offset v.pointerWidth p := by
  refine .lift_bind fun m hm => .lift_bind fun _ _ => ?_
  obtain ⟨hm, hpointer⟩ := memberFor_eq_ok hm
  exact (storeAddress_confined ..).mono fun p hp => ⟨m, hm, hpointer, hp⟩

/-- An address that the view takes is stored, over whatever was there. -/
theorem setPointer_sets {i : Nat} {m : MemberLayout} (hm : l.members[i]? = some m)
    (hpointer : m.type.isPointer = true) (hwithin : m.offset + m.length ≤ l.size)
    (hcheck : v.checkStore m.offset v.pointerWidth = .ok ()) (a : Address) :
    (l.setPointer i a).Sets v (.ok ()) (.word v.endianness m.offset v.pointerWidth
      (BitVec.allOnes 64) ((a.truncate m.length).truncate v.pointerWidth).word) := by
  have hmember : l.memberFor i .pointer (·.type.isPointer) = .ok m := by
    rw [memberFor, memberAt_eq_ok_iff.2 hm]
    exact if_pos hpointer
  have hcheckWithin : checkWithin m.offset m.length l.size = .ok () := if_pos hwithin
  have hstep : l.setPointer i a =
      access fun view => view.storeAddress m.offset (a.truncate m.length) := by
    rw [setPointer, hmember]
    show (do
      checkWithin m.offset m.length l.size
      access fun view => view.storeAddress m.offset (a.truncate m.length) : Writing Unit) = _
    rw [hcheckWithin]
    rfl
  intro u hu
  rw [hstep, storeAddress_run hu]
  exact store_sets hcheck _ u hu

end Layout

end Stored

/-! ## Members that are pointers

The width that a pointer has in a built layout is the platform's, whichever the view's is. -/

theorem CType.scalar?_of_isPointer {type : CType} (h : type.isPointer = true) :
    ∃ target, type.scalar? = some (.pointer target) := by
  cases type with
  | pointer target => exact ⟨target, rfl⟩
  | _ => cases h

/-- A member of a pointer type has as many bytes as the platform's pointers. -/
theorem Built.length_of_isPointer {config : Config} {l : Layout} (h : Built config l)
    {m : MemberLayout} (hm : m ∈ l.members) (hpointer : m.type.isPointer = true) :
    m.length = config.platform.pointerWidth := by
  obtain ⟨target, htype⟩ := CType.scalar?_of_isPointer hpointer
  obtain ⟨alignment, hshape⟩ := h.scalar_of_type hm htype
  rw [MemberLayout.length, hshape]
  rfl

/-! ## All accesses to a record

The bytes that accesses change are bounded for every view, and where the view's pointers are no
wider the bound is the record. -/

namespace Layout

/-- No access to a record at the start of a view changes a byte behind the record, and one to a
pointer changes no byte but those of the pointer. -/
structure StaysWithin (l : Layout) (view : View) : Prop where
  write : ∀ zeroFill r b, view.DiffersAt (l.write zeroFill r view).2 b → b < l.size
  set : ∀ i x b, view.DiffersAt ((l.set i x).run view).2 b → b < l.size
  setElement : ∀ i j x b, view.DiffersAt ((l.setElement i j x).run view).2 b → b < l.size
  setPointer : ∀ i a b, view.DiffersAt ((l.setPointer i a).run view).2 b → b < l.size
  pointer : ∀ i m, l.members[i]? = some m → m.type.isPointer = true →
    ∀ a b, view.DiffersAt ((l.setPointer i a).run view).2 b →
      m.offset ≤ b ∧ b < m.offset + m.length

/-- The bytes that accesses to a record at the start of a view change, where the record was laid out
for a platform and the view may be one for another. -/
structure Reaches (platform : Platform) (l : Layout) (view : View) : Prop where
  /-- They lie in the record, or in one of its pointers as the view stores it. -/
  write : ∀ zeroFill r b, view.DiffersAt (l.write zeroFill r view).2 b →
    b < l.size ∨ l.InPointer view b
  set : ∀ i x b, view.DiffersAt ((l.set i x).run view).2 b → b < l.size ∨ l.InPointer view b
  setElement : ∀ i j x b, view.DiffersAt ((l.setElement i j x).run view).2 b →
    b < l.size ∨ l.InPointer view b
  setPointer : ∀ i a b, view.DiffersAt ((l.setPointer i a).run view).2 b →
    ∃ m, l.members[i]? = some m ∧ m.type.isPointer = true ∧
      m.offset ≤ b ∧ b < m.offset + view.pointerWidth
  /-- A pointer leads over the end of the record by no more than the view's pointers are wider. -/
  overrun : ∀ b, l.InPointer view b → b < l.size + (view.pointerWidth - platform.pointerWidth)
  /-- If they are not wider, no access leaves the record. -/
  narrow : view.pointerWidth ≤ platform.pointerWidth → l.StaysWithin view
  /-- If they are, an access to a pointer that the view takes does change the bytes behind it. -/
  wide : ∀ i m, l.members[i]? = some m → m.type.isPointer = true →
    view.checkStore m.offset view.pointerWidth = .ok () →
    ∀ a b, m.offset + m.length ≤ b → b < m.offset + view.pointerWidth →
      ∃ bytes : Array Byte, bytes.size = view.size ∧
        View.DiffersAt { view with bytes } ((l.setPointer i a).run { view with bytes }).2 b

section Built

variable {config : Config} {l : Layout} {view : View} {b : Nat}

theorem lt_size_or_inPointer_of_differsAt (hbuilt : Built config l)
    (hs : l.Sound config.platform) {step : Writing Unit} (h : step.Confined view (l.Touches view))
    (hb : view.DiffersAt (step.run view).2 b) : b < l.size ∨ l.InPointer view b := by
  obtain ⟨p, hp, rfl⟩ := h.of_differsAt hb
  exact hp.lt_size_or_inPointer hs hbuilt.constructed.surveyed

theorem exists_of_setPointer_differsAt {i : Nat} {a : Address}
    (hb : view.DiffersAt ((l.setPointer i a).run view).2 b) :
    ∃ m, l.members[i]? = some m ∧ m.type.isPointer = true ∧
      m.offset ≤ b ∧ b < m.offset + view.pointerWidth := by
  obtain ⟨p, ⟨m, hm, hpointer, hp⟩, rfl⟩ := (setPointer_confined i a).of_differsAt hb
  rw [InBytes] at hp
  exact ⟨m, hm, hpointer, by omega, by omega⟩

/-- In a view whose pointers are not wider, no access leaves the record. -/
theorem staysWithin (hbuilt : Built config l) (hs : l.Sound config.platform)
    (hnarrow : view.pointerWidth ≤ config.platform.pointerWidth) : l.StaysWithin view := by
  have hin {step : Writing Unit} {b : Nat} (h : step.Confined view (l.Touches view))
      (hb : view.DiffersAt (step.run view).2 b) : b < l.size := by
    rcases lt_size_or_inPointer_of_differsAt hbuilt hs h hb with h | h
    · exact h
    · have hover := h.lt hs
      omega
  have hpointer {i : Nat} {a : Address} {b : Nat}
      (hb : view.DiffersAt ((l.setPointer i a).run view).2 b) :
      ∃ m, l.members[i]? = some m ∧ m.offset ≤ b ∧ b < m.offset + m.length := by
    obtain ⟨m, hm, hpointer, hlow, hhigh⟩ := exists_of_setPointer_differsAt hb
    have hlength := hbuilt.length_of_isPointer (List.mem_of_getElem? hm) hpointer
    exact ⟨m, hm, hlow, by omega⟩
  refine ⟨?_, ?_, ?_, ?_, ?_⟩
  · exact fun zeroFill r b hb => hin (write_touches hs zeroFill r) hb
  · exact fun i x b hb => hin (set_touches hs i x) hb
  · exact fun i j x b hb => hin (setElement_touches hs i j x) hb
  · intro i a b hb
    obtain ⟨m, hm, -, hhigh⟩ := hpointer hb
    have hwithin := (sound_iff.1 hs).1.within m (List.mem_of_getElem? hm)
    exact Nat.lt_of_lt_of_le hhigh hwithin
  · intro i m hm _ a b hb
    obtain ⟨m', hm', hrange⟩ := hpointer hb
    obtain rfl : m = m' := Option.some.inj (hm.symm.trans hm')
    exact hrange

/-- **Accesses change bytes of the record and of pointers as wide as those of the view,** in every
view: for whichever platform, however long, and wherever its accesses fail. -/
theorem reaches (hvalid : config.validate = .ok ()) (hbuilt : Built config l) (view : View) :
    l.Reaches config.platform view := by
  have hs := hbuilt.sound (Config.usable_of_validate hvalid)
  refine ⟨?_, ?_, ?_, ?_, ?_, ?_, ?_⟩
  · exact fun zeroFill r b hb =>
      lt_size_or_inPointer_of_differsAt hbuilt hs (write_touches hs zeroFill r) hb
  · exact fun i x b hb => lt_size_or_inPointer_of_differsAt hbuilt hs (set_touches hs i x) hb
  · exact fun i j x b hb =>
      lt_size_or_inPointer_of_differsAt hbuilt hs (setElement_touches hs i j x) hb
  · exact fun i a b hb => exists_of_setPointer_differsAt hb
  · exact fun b hb => hb.lt hs
  · exact staysWithin hbuilt hs
  · intro i m hm hpointer hcheck a b hlow hhigh
    obtain ⟨-, hwidth, hsize⟩ := View.checkStore_eq_ok_iff.1 hcheck
    have hwithin := (sound_iff.1 hs).1.within m (List.mem_of_getElem? hm)
    have hsets := setPointer_sets hm hpointer hwithin hcheck a
    have hin : InBytes m.offset view.pointerWidth (8 * b) := by
      rw [InBytes]
      omega
    have hbyte : 8 * b / 8 = b := Nat.mul_div_cancel_left b (by decide)
    rw [← hbyte]
    exact hsets.exists_differsAt (by omega) (isSome_word_allOnes hwidth hin)

end Built

end Layout

/-! ## A pointer in a wider view -/

/-- A record of one pointer. -/
def cell : RecordDecl where
  tag := ⟨"cell"⟩
  members := [{ name := "link", type := .pointer (.arith (.unsigned .w8)) }]

/-- Its layout where pointers have 4 bytes. -/
def cellLayout : Layout :=
  .ofMembers ⟨"cell"⟩ .struct
    [⟨"link", .pointer (.arith (.unsigned .w8)), .scalar (.pointer (.arith (.unsigned .w8))) 4 ⟨2⟩,
      0, ⟨2⟩, none, false, none⟩]
    4 ⟨2⟩

/-- Two such cells in the memory of a platform where pointers have 8 bytes, with all bits set. -/
def wideView : View := .ofBytes .lp64 (Array.replicate 8 0xFF)

theorem built_cell : Built (.ofPlatform .ilp32) cellLayout :=
  Built.of_answers (fun _ _ h => by cases h)
    (show build? (.ofPlatform .ilp32) (fun tag => .error (.unknownTag tag)) cell = .ok _ from rfl) 0

/-- The address in the first cell reaches the last byte of the second one. -/
theorem reaches_cell :
    (Config.ofPlatform .ilp32).validate = .ok () ∧ Built (.ofPlatform .ilp32) cellLayout ∧
      cellLayout.Reaches .ilp32 wideView ∧
      ∃ bytes : Array Byte, bytes.size = 8 ∧ View.DiffersAt { wideView with bytes }
        ((cellLayout.setPointer 0 .null).run { wideView with bytes }).2 7 := by
  have hvalid : (Config.ofPlatform .ilp32).validate = .ok () := by decide
  have hreaches := Layout.reaches hvalid built_cell wideView
  exact ⟨hvalid, built_cell, hreaches,
    hreaches.wide 0 _ rfl rfl rfl .null 7 (by decide) (by decide)⟩

/-- Not all views keep the accesses within the record: with the address in the first cell, the
second one is overwritten. -/
theorem cell_not_staysWithin :
    ¬ ∀ config l view, config.validate = .ok () → Built config l → l.StaysWithin view := by
  intro h
  have hstays := h _ _ wideView (show (Config.ofPlatform .ilp32).validate = .ok () by decide)
    built_cell
  have hdiffers : wideView.DiffersAt ((cellLayout.setPointer 0 ⟨0x1234⟩).run wideView).2 4 := by
    rw [View.DiffersAt]
    decide
  exact absurd (hstays.setPointer 0 ⟨0x1234⟩ 4 hdiffers) (by decide)

end NativeRecord
