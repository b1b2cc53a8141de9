import NativeRecord.Proofs.Layout.Soundness

/-!
# How built layouts are arranged

What holds of every layout that the builder answers with, whatever it is told about the records
that are embedded, and under any configuration.

Most of it holds of single members and comes from how these were resolved and placed.  The order of
the offsets is the exception, and needs an induction over the placement.  The next free offset is no
good as its measure: while a word is open, a bit-field that joins it gets the offset of the word,
which may lie before the next free one.  `Cursor.floor` takes this into account.  It is the start of
the open word as long as there is one, and what is placed lies between the floor before and the
floor after it.

## What is here

* `Cursor.floor` — where the last member without a fixed offset may start at the latest.  It only
  moves forward (`placeUnit_floor`), so these members come in the order of their offsets
  (`placeInSequence_ordered`).
* `Layout.Arranged` — sizes, alignments, offsets and bits of a layout.
* `build_arranged` — built layouts are arranged.
-/

set_option autoImplicit false
namespace NativeRecord

/-! ## The order of offsets

Members with a fixed offset are left out of the order, because they may lie anywhere.  They do move
the cursor when they end behind it, which keeps the floor where it is or moves it forward. -/

/-- The start of the open word or, if there is none, the next free offset. -/
def Cursor.floor (c : Cursor) : Nat :=
  match c.word with
  | none => c.next
  | some word => word.offset

/-- Closing the open word does not move behind its start. -/
theorem Cursor.floor_le_close (c : Cursor) : c.floor ≤ c.close := by
  rw [floor, close]
  cases c.word with
  | none => exact Nat.le_refl _
  | some word => exact Nat.le_trans (Nat.le_add_right _ _) (Nat.le_max_right _ _)

section Order

variable {limit : SizeLimit} {order : BitOrder} {owner : Tag}

/-- A bit-field lies in the open word, or in a new one behind the floor. -/
theorem Cursor.WordFor.floor_le {cursor : Cursor} {m : ResolvedMember} {bits next : Nat}
    {word : BackingWord} (h : cursor.WordFor m bits word next) : cursor.floor ≤ word.offset := by
  cases h with
  | shared hword => rw [floor, hword]
  | opened => exact Nat.le_trans cursor.floor_le_close (m.alignment.le_align _)

/-- **Placing a unit moves the floor forward,** past the common offset of its members unless their
offset is fixed. -/
theorem placeUnit_floor {index : Nat} {cursor cursor' : Cursor} {unit : PlacementUnit}
    {placed : List MemberLayout}
    (h : placeUnit limit order owner index cursor unit = .ok (placed, cursor')) :
    ∃ offset, cursor.floor ≤ offset ∧ offset ≤ cursor'.floor ∧
      ∀ p ∈ placed, p.fixed = false → p.offset = offset := by
  have hclose := cursor.floor_le_close
  cases unit with
  | fixed m offset =>
    obtain ⟨rfl, rfl⟩ := placeUnit_fixed_eq_ok h
    refine ⟨cursor.floor, Nat.le_refl _, Nat.le_trans hclose (Nat.le_max_left _ _), ?_⟩
    exact List.forall_mem_singleton.2 nofun
  | overlay first rest =>
    obtain ⟨rfl, rfl⟩ := placeUnit_overlay_eq_ok h
    refine ⟨_, Nat.le_trans hclose (Alignment.le_align _ _), Nat.le_add_right _ _, ?_⟩
    exact List.forall_mem_map.2 fun m _ _ => rfl
  | bitField m bits =>
    obtain ⟨word, next, hword, rfl, rfl⟩ := placeUnit_bitField_eq_ok h
    exact ⟨word.offset, hword.floor_le, Nat.le_refl _, List.forall_mem_singleton.2 fun _ => rfl⟩
  | plain m =>
    obtain ⟨rfl, rfl⟩ := placeUnit_plain_eq_ok h
    refine ⟨_, Nat.le_trans hclose (Alignment.le_align _ _), Nat.le_add_right _ _, ?_⟩
    exact List.forall_mem_singleton.2 fun _ => rfl

/-- Members are in the order of their offsets, those with a fixed one apart. -/
def InOffsetOrder (placed : List MemberLayout) : Prop :=
  placed.Pairwise fun a b => a.fixed = false → b.fixed = false → a.offset ≤ b.offset

/-- The floor bounds all that is still to come, which is what the induction needs besides the order
itself: what comes first lies below the floor that the others start from. -/
theorem placeUnits_ordered {index stop : Nat} {cursor : Cursor} {units : List PlacementUnit}
    {placed : List MemberLayout}
    (h : placeUnits limit order owner index cursor units = .ok (placed, stop)) :
    (∀ p ∈ placed, p.fixed = false → cursor.floor ≤ p.offset) ∧ InOffsetOrder placed := by
  induction units generalizing index cursor placed with
  | nil => cases h; exact ⟨nofun, .nil⟩
  | cons unit units ih =>
    obtain ⟨first, cursor', others, hfirst, hothers, rfl⟩ := placeUnits_cons_eq_ok h
    obtain ⟨offset, hlow, hhigh, hoffset⟩ := placeUnit_floor hfirst
    obtain ⟨hfloor, hordered⟩ := ih hothers
    constructor
    · intro p hp hfree
      rcases List.mem_append.1 hp with hp | hp
      · rw [hoffset p hp hfree]
        exact hlow
      · exact Nat.le_trans (Nat.le_trans hlow hhigh) (hfloor p hp hfree)
    · refine List.pairwise_append.2 ⟨List.pairwise_of_forall_mem_list ?_, hordered, ?_⟩
      · intro a ha b hb hfree hfree'
        rw [hoffset a ha hfree, hoffset b hb hfree']
      · intro a ha b hb hfree hfree'
        rw [hoffset a ha hfree]
        exact Nat.le_trans hhigh (hfloor b hb hfree')

/-- **Members of a struct come in the order of their offsets.** -/
theorem placeInSequence_ordered {members : List ResolvedMember} {placed : List MemberLayout}
    {stop : Nat} (h : placeInSequence limit order owner members = .ok (placed, stop)) :
    InOffsetOrder placed := (placeUnits_ordered h).2

/-- The members of a union lie at its start. -/
theorem offset_overlayMembers {members : List ResolvedMember} {placed : List MemberLayout}
    {stop : Nat} (h : overlayMembers order owner members = .ok (placed, stop)) :
    ∀ p ∈ placed, p.offset = 0 := by
  obtain ⟨-, rfl, -⟩ := overlayMembers_eq_ok_iff.1 h
  exact List.forall_mem_map.2 fun _ _ => rfl

end Order

/-! ## Arranged layouts

A layout is arranged with respect to its declaration, whose members it has in the same order and of
the same kinds. -/

/-- A member is the declared one, and lies where the declaration asks for it. -/
structure MemberLayout.Declared (decl : MemberDecl) (m : MemberLayout) : Prop where
  name : m.name = decl.name
  type : m.type = decl.type
  offset : ∀ offset, decl.offset = some offset → m.offset = offset
  fixed : m.fixed = true → decl.offset.isSome = true

/-- A bit range lies within a word of `length` bytes, and its mask has the bits of the range and no
others. -/
structure BitRange.Exact (length : Nat) (r : BitRange) : Prop where
  pos : 1 ≤ r.width
  fits : r.first + r.width ≤ 8 * length
  mask : ∀ i, r.mask.getLsbD i = true ↔ r.first ≤ i ∧ i < r.first + r.width

/-- How the layout of a declaration is arranged. -/
structure Layout.Arranged (decl : RecordDecl) (l : Layout) : Prop where
  form : l.form = decl.form
  declared : List.Forall₂ MemberLayout.Declared decl.members l.members
  size_dvd : l.alignment.bytes ∣ l.size
  alignment_dvd : ∀ m ∈ l.members, m.alignment.bytes ∣ l.alignment.bytes
  within : ∀ m ∈ l.members, m.offset + m.length ≤ l.size
  aligned : ∀ m ∈ l.members, m.fixed = false → m.alignment.bytes ∣ m.offset
  overlaid : l.form = .union → ∀ m ∈ l.members, m.offset = 0
  /-- Members that have bytes in common are of one anonymous union, or bit-fields of one word with
  no bit in common. -/
  apart : l.form = .struct → l.members.Pairwise fun a b =>
    0 < a.length → 0 < b.length → a.span.Intersects b.span →
      a.SameUnion b ∨ ∃ x y, a.bits = some x ∧ b.bits = some y ∧ a.span = b.span ∧
        x.mask &&& y.mask = 0
  ordered : l.form = .struct → InOffsetOrder l.members
  bits : ∀ m ∈ l.members, ∀ r, m.bits = some r → r.Exact m.length

/-- A record may ask for a stricter alignment than its members have, but not for a weaker one. -/
theorem Alignment.le_of_recordAlignment {decl : RecordDecl} {natural alignment : Alignment}
    (h : recordAlignment decl natural = .ok alignment) : natural ≤ alignment := by
  rcases recordAlignment_eq_ok_iff.1 h with ⟨-, rfl⟩ | ⟨-, hle⟩
  · exact le_refl _
  · exact hle

/-- A type that allows bit-fields has a word of eight bytes at most, on any platform. -/
theorem Arith.size_le_of_allowsBitField {platform : Platform} {a : Arith}
    (h : a.allowsBitField = true) : a.size platform ≤ 8 := by
  have hint : ∀ w : IntWidth, w.bytes ≤ 8 := by intro w; cases w <;> decide
  cases a with
  | signed w | unsigned w | enum w => exact hint w
  | bool => exact Nat.le_add_left 1 7
  | float | platform => cases h

section Builds

variable {limit : SizeLimit} {Has : Tag → Layout → Prop}

/-- A placed member has what was declared of it, and is fixed just where its declaration says so.
-/
theorem MemberOf.declared {platform : Platform} {owner : Tag} {pack : Option Alignment}
    {decl : MemberDecl} {m : ResolvedMember} {p : MemberLayout}
    (h : MemberOf limit platform owner Has pack decl m) (hp : PlacedAs m p) : p.Declared decl := by
  rw [← h.decl_eq]
  exact ⟨hp.name, hp.type, hp.offset, hp.fixed⟩

/-- The backing word of a bit-field has eight bytes at most. -/
theorem MemberOf.length_le {platform : Platform} {owner : Tag} {pack : Option Alignment}
    {decl : MemberDecl} {m : ResolvedMember} {p : MemberLayout}
    (h : MemberOf limit platform owner Has pack decl m) (hp : PlacedAs m p) {r : BitRange}
    (hr : p.bits = some r) : p.length ≤ 8 := by
  obtain ⟨a, size, alignment, hshape, htype, -, -⟩ := h.bitsInWord hp r hr
  rw [MemberLayout.length, hshape]
  have hof := h.shape
  rw [← hp.shape, hshape] at hof
  generalize decl.type = type at hof
  cases hof with
  | arith hscalar =>
    obtain ⟨_, hscalar⟩ := scalarShape_eq_ok hscalar
    cases hscalar
    exact Arith.size_le_of_allowsBitField htype
  | pointer hscalar =>
    obtain ⟨_, hscalar⟩ := scalarShape_eq_ok hscalar
    cases hscalar

/-- No bit-field of a layout that builds has a word of more than eight bytes. -/
theorem Builds.length_le {config : Config} {decl : RecordDecl} {l : Layout}
    (h : Builds limit Has config decl l) {p : MemberLayout} (hp : p ∈ l.members)
    (hbits : p.isBitField = true) : p.length ≤ 8 := by
  obtain ⟨-, -, -, pack, members, hmembers, hplaced, -, -⟩ := h.exists_members
  obtain ⟨m, hm, hmp⟩ := exists_mem_of_forall₂ hplaced hp
  obtain ⟨d, -, hd⟩ := exists_mem_of_forall₂ hmembers hm
  obtain ⟨r, hr⟩ := Option.isSome_iff_exists.1 hbits
  exact hd.length_le hmp hr

/-- The range of a bit-field lies within its word, and its mask is exact. -/
theorem MemberOf.exact_bits {platform : Platform} {owner : Tag} {pack : Option Alignment}
    {decl : MemberDecl} {m : ResolvedMember} {p : MemberLayout}
    (h : MemberOf limit platform owner Has pack decl m) (hp : PlacedAs m p) {r : BitRange}
    (hr : p.bits = some r) : r.Exact p.length := by
  have hword := h.length_le hp hr
  obtain ⟨a, size, alignment, hshape, -, hpos, hfits⟩ := h.bitsInWord hp r hr
  have hlength : p.length = size := by rw [MemberLayout.length, hshape]; rfl
  refine ⟨hpos, hlength ▸ hfits, fun i => ?_⟩
  rw [r.getLsbD_mask, decide_eq_true_eq]
  omega

/-- All clauses for a layout that builds: sizes and alignments from the end of the placement, the
members one by one, and the order of the offsets for structs. -/
theorem Builds.arranged {config : Config} {decl : RecordDecl} {l : Layout}
    (h : Builds limit Has config decl l) : l.Arranged decl := by
  obtain ⟨-, hform, -, pack, members, hmembers, hplaced, -, hcheck⟩ := h.exists_members
  obtain ⟨_, _, _, _, _, hlayout⟩ := h
  obtain ⟨placed, stop, size, alignment, hplace, halign, hsize, -, rfl⟩ := assemble_eq_ok hlayout
  obtain ⟨hfault, hapart⟩ := checkPlacement_eq_ok_iff.1 hcheck
  have hplace : placeMembers limit config.bitOrder decl _ = .ok (placed, stop) := hplace
  rw [placeMembers] at hplace
  have hnofault (m : MemberLayout) (hm : m ∈ placed) :=
    MemberLayout.fault?_eq_none_iff.1 (hfault m hm)
  exact {
    form := hform
    declared := forall₂_trans (fun d m p hm hp => hm.declared hp) hmembers hplaced
    size_dvd := hsize ▸ alignment.bytes_dvd_align stop
    alignment_dvd := fun m hm => Alignment.bytes_dvd_bytes <| Alignment.le_trans
      (Alignment.le_strictest (List.mem_map_of_mem hm)) (Alignment.le_of_recordAlignment halign)
    within := fun m hm => (hnofault m hm).2
    aligned := fun m hm hfree => Alignment.aligned_iff_dvd.1 <|
      (hnofault m hm).1.resolve_left (by simp [hfree])
    overlaid := by
      intro hunion
      have hunion : decl.form = .union := hunion
      rw [hunion] at hplace
      exact offset_overlayMembers hplace
    apart := fun hstruct => (hapart hstruct).imp fun hab ha hb hmeet =>
      MemberLayout.mayShare_eq_true_iff.1 (hab ha hb hmeet)
    ordered := by
      intro hstruct
      have hstruct : decl.form = .struct := hstruct
      rw [hstruct] at hplace
      exact placeInSequence_ordered hplace
    bits := by
      intro p hp r hr
      obtain ⟨m, hm, hmp⟩ := exists_mem_of_forall₂ hplaced hp
      obtain ⟨d, -, hd⟩ := exists_mem_of_forall₂ hmembers hm
      exact hd.exact_bits hmp hr }

end Builds

/-- **Built layouts are arranged,** whatever the builder is told about the embedded records. -/
theorem build_arranged {config : Config} {σ : Type} {resolve : Resolver (StateM σ)}
    {decl : RecordDecl} {l : Layout} {s s' : σ}
    (run : (build .word64 config resolve decl).run s = (.ok l, s')) : l.Arranged decl :=
  (builds_of_run (fun _ _ _ _ _ => trivial) run).arranged

/-! ## A record with every kind of member -/

/-- Two bit-fields of one word, a member with a fixed offset, one without, and two that share their
storage. -/
def header : RecordDecl where
  tag := ⟨"header"⟩
  members := [{ name := "kind", type := .arith (.unsigned .w8), bits := some 3 },
    { name := "level", type := .arith (.signed .w8), bits := some 5 },
    { name := "length", type := .arith (.unsigned .w32), offset := some 8 },
    { name := "id", type := .arith (.unsigned .w16) },
    { name := "word", type := .arith (.unsigned .w32), inUnion := true },
    { name := "bytes", type := .array (.arith (.unsigned .w8)) 3, inUnion := true }]

def headerLayout : Layout :=
  let shape (a : Arith) (size log : Nat) : Shape := .scalar (.arith a) size ⟨log⟩
  .ofMembers ⟨"header"⟩ .struct
    [⟨"kind", .arith (.unsigned .w8), shape (.unsigned .w8) 1 0, 0, ⟨0⟩, some ⟨0, 3⟩, false, none⟩,
      ⟨"level", .arith (.signed .w8), shape (.signed .w8) 1 0, 0, ⟨0⟩, some ⟨3, 5⟩, false, none⟩,
      ⟨"length", .arith (.unsigned .w32), shape (.unsigned .w32) 4 2, 8, ⟨2⟩, none, true, none⟩,
      ⟨"id", .arith (.unsigned .w16), shape (.unsigned .w16) 2 1, 12, ⟨1⟩, none, false, none⟩,
      ⟨"word", .arith (.unsigned .w32), shape (.unsigned .w32) 4 2, 16, ⟨2⟩, none, false, some 4⟩,
      ⟨"bytes", .array (.arith (.unsigned .w8)) 3, .array (shape (.unsigned .w8) 1 0) 3, 16, ⟨0⟩,
        none, false, some 4⟩]
    20 ⟨2⟩

theorem build_arranged_header :
    (build .word64 .standard (fun tag => throw (.unknownTag tag) : Resolver (StateM Unit))
        header).run () = (.ok headerLayout, ()) ∧
      headerLayout.Arranged header := by
  have hrun : (build .word64 .standard (fun tag => throw (.unknownTag tag) : Resolver (StateM Unit))
      header).run () = (.ok headerLayout, ()) := rfl
  exact ⟨hrun, build_arranged hrun⟩

end NativeRecord
