import NativeRecord.Proofs.Layout.Compatibility
import NativeRecord.Proofs.Layout.MemberMap
import NativeRecord.Proofs.Layout.Arrangement

/-!
# The two bit orders are mirror images

Bit-fields are allocated from one end of their backing words or from the other.  The bit order
decides on that and on nothing else: with the other order the bits of a word change places with
their mirror images, and all else stays, down to what a declaration is refused for.

The two builds are compared step by step, and each step with the other order gives the same members
with mirrored bits and the same cursor.  From there on nothing looks at the bits except the check
for overlaps, and that only asks whether two masks have a bit in common.  Mirroring moves every bit
of the word and keeps this.

Since the steps fail alike, too, all failures come out the same, and no case has to be made for
them.

## What is here

* `BitRange.mirror`, `MemberLayout.mirror` — the bits counted from the other end of the word.
* `BitRange.mask_mirror_iff` — ranges that have no bit in common have none when mirrored, so the
  check comes to the same (`MemberLayout.mayShare_mirror`).
* `placeMembers_mirror` — every step of the placement gives the mirrored bits.
* `Layout.MirrorImages`, `build_mirrors` — building with one order and with the other.
-/

set_option autoImplicit false
namespace NativeRecord

/-! ## Mirrored ranges

A bit is in the mirrored range when its mirror image is in the range. -/

/-- The bits of a range, counted from the other end of a word of `capacity` bits. -/
def BitRange.mirror (capacity : Nat) (r : BitRange) : BitRange :=
  ⟨capacity - r.first - r.width, r.width⟩

theorem BitRange.has_mirror_iff {capacity : Nat} {r : BitRange}
    (hfits : r.first + r.width ≤ capacity) {i : Nat} (hi : i < capacity) :
    (r.mirror capacity).Has i ↔ r.Has (capacity - 1 - i) := by
  simp only [BitRange.Has, mirror]
  omega

/-- **Ranges have a bit in common exactly when their mirror images have,** in a word that a machine
word holds. -/
theorem BitRange.mask_mirror_iff {capacity : Nat} (hcapacity : capacity ≤ 64) {a b : BitRange}
    (ha : a.first + a.width ≤ capacity) (hb : b.first + b.width ≤ capacity) :
    (a.mirror capacity).mask &&& (b.mirror capacity).mask = 0 ↔ a.mask &&& b.mask = 0 := by
  rw [mask_and_mask_eq_zero_iff, mask_and_mask_eq_zero_iff]
  -- A bit that both have lies in the word, and so does its mirror image.
  have hbound {i : Nat} {r : BitRange} (hr : r.first + r.width ≤ capacity) (hi : r.Has i) :
      i < capacity := Nat.lt_of_lt_of_le hi.2 hr
  have hbound' {i : Nat} {r : BitRange} (hr : r.first + r.width ≤ capacity)
      (hi : (r.mirror capacity).Has i) : i < capacity := by
    simp only [BitRange.Has, mirror] at hi
    omega
  constructor
  · rintro h i - ⟨hai, hbi⟩
    have hi := hbound ha hai
    have hback : capacity - 1 - (capacity - 1 - i) = i := by omega
    refine h (capacity - 1 - i) (by omega) ⟨?_, ?_⟩
    · rwa [has_mirror_iff ha (by omega), hback]
    · rwa [has_mirror_iff hb (by omega), hback]
  · rintro h i - ⟨hai, hbi⟩
    have hi := hbound' ha hai
    exact h (capacity - 1 - i) (by omega)
      ⟨(has_mirror_iff ha hi).1 hai, (has_mirror_iff hb hi).1 hbi⟩

/-! ## Mirrored members

The capacity is that of the member's own word.  Members that share a word have the same one, so they
are mirrored about the same middle. -/

namespace MemberLayout

/-- The member with its bits counted from the other end of the backing word. -/
def mirror (m : MemberLayout) : MemberLayout :=
  { m with bits := m.bits.map (·.mirror (8 * m.length)) }

theorem keepsPlace_mirror : KeepsPlace mirror :=
  ⟨fun _ => rfl, fun _ => rfl, fun _ => rfl, fun _ => rfl, fun _ => rfl⟩

/-- The bits of a bit-field lie in its backing word, and this in a machine word. -/
def BitsInMachineWord (m : MemberLayout) : Prop :=
  ∀ r, m.bits = some r → r.first + r.width ≤ 8 * m.length ∧ 8 * m.length ≤ 64

/-- **Members may share bytes exactly when their mirror images may.** -/
theorem mayShare_mirror {a b : MemberLayout} (ha : a.BitsInMachineWord)
    (hb : b.BitsInMachineWord) : a.mirror.mayShare b.mirror = a.mayShare b := by
  have hmasks {x y : BitRange} (hx : a.bits = some x) (hy : b.bits = some y)
      (hspan : a.span = b.span) :
      (x.mirror (8 * a.length)).mask &&& (y.mirror (8 * b.length)).mask = 0 ↔
        x.mask &&& y.mask = 0 := by
    have hlength : a.length = b.length := congrArg Span.length hspan
    rw [← hlength]
    exact BitRange.mask_mirror_iff (ha x hx).2 (ha x hx).1 (hlength ▸ (hb y hy).1)
  rw [Bool.eq_iff_iff, mayShare_eq_true_iff, mayShare_eq_true_iff]
  refine or_congr Iff.rfl ⟨?_, ?_⟩
  · rintro ⟨_, _, hx', hy', hspan, hmask⟩
    obtain ⟨x, hx, rfl⟩ := Option.map_eq_some_iff.1 hx'
    obtain ⟨y, hy, rfl⟩ := Option.map_eq_some_iff.1 hy'
    exact ⟨x, y, hx, hy, hspan, (hmasks hx hy hspan).1 hmask⟩
  · rintro ⟨x, y, hx, hy, hspan, hmask⟩
    exact ⟨_, _, Option.map_eq_some_iff.2 ⟨x, hx, rfl⟩, Option.map_eq_some_iff.2 ⟨y, hy, rfl⟩,
      hspan, (hmasks hx hy hspan).2 hmask⟩

end MemberLayout

/-! ## Placing

Allocating from the other end is mirroring what is allocated from this one, at any number of bits
that are taken. -/

section Place

variable {limit : SizeLimit} {owner : Tag}

theorem aloneInWord_mirror (m : ResolvedMember) :
    aloneInWord .msbFirst m = (aloneInWord .lsbFirst m).map (·.mirror (8 * m.size)) := by
  rw [aloneInWord, aloneInWord, Option.map_map]
  rfl

/-- **A step places its members with mirrored bits,** and leaves the cursor where the other order
leaves it. -/
theorem placeUnit_mirror (index : Nat) (cursor : Cursor) (unit : PlacementUnit) :
    placeUnit limit .msbFirst owner index cursor unit =
      (placeUnit limit .lsbFirst owner index cursor unit).map
        fun (placed, cursor) => (placed.map (·.mirror), cursor) := by
  cases unit with
  | fixed m offset =>
    simp only [placeUnit, aloneInWord_mirror]
    cases orOverflow owner m.decl.name (limit.add? offset m.size) <;> rfl
  | plain m =>
    simp only [placeUnit]
    cases orOverflow owner m.decl.name (nextPlace limit cursor.close m.alignment m.size) <;> rfl
  | bitField m bits =>
    simp only [placeUnit]
    cases cursor.room? m.size bits with
    | some word => rfl
    | none =>
      cases orOverflow owner m.decl.name (nextPlace limit cursor.close m.alignment m.size) <;> rfl
  | overlay first rest =>
    simp only [placeUnit]
    cases orOverflow owner first.decl.name (nextPlace limit cursor.close _ _) with
    | error e => rfl
    | ok place =>
      refine congrArg (fun placed => Except.ok (placed, _)) ?_
      rw [List.map_map]
      refine List.map_congr_left fun m _ => ?_
      rw [aloneInWord_mirror]
      rfl

theorem overlayMembers_mirror (members : List ResolvedMember) :
    overlayMembers .msbFirst owner members =
      (overlayMembers .lsbFirst owner members).map
        fun (placed, size) => (placed.map (·.mirror), size) := by
  let place (order : BitOrder) (m : ResolvedMember) : Except LayoutError MemberLayout :=
    if m.decl.offset.all (· = 0) then .ok (m.placedAt 0 (aloneInWord order m))
    else .error (.invalidMember owner m.decl.name .unionOffset)
  have hplace : ∀ m, place .msbFirst (id m) = (place .lsbFirst m).map (·.mirror) := by
    intro m
    simp only [place, id, aloneInWord_mirror]
    split <;> rfl
  have hmembers := mapM_map_eq hplace members
  rw [List.map_id] at hmembers
  show (members.mapM (place .msbFirst) >>= _) = (members.mapM (place .lsbFirst) >>= _).map _
  rw [hmembers]
  cases members.mapM (place .lsbFirst) <;> rfl

/-- **The members of a declaration are placed with mirrored bits.** -/
theorem placeMembers_mirror (decl : RecordDecl) (members : List ResolvedMember) :
    placeMembers limit .msbFirst decl members =
      (placeMembers limit .lsbFirst decl members).map
        fun (placed, stop) => (placed.map (·.mirror), stop) := by
  rw [placeMembers, placeMembers]
  cases decl.form with
  | struct =>
    have hunits : placeUnits limit .msbFirst decl.tag 0 .start ((placementUnits members).map id) =
        _ := placeUnits_map 0 (fun index _ => placeUnit_mirror index) (Nat.zero_le 0) .start _
    rwa [List.map_id] at hunits
  | union => exact overlayMembers_mirror members

end Place

/-! ## Layouts

What is stated says nothing about maps: it compares two layouts field by field. -/

/-- Placed members that differ in their bits only: these are as many, and lie as far from one end of
the backing word as the others lie from the other end. -/
structure MemberLayout.MirrorImages (p q : MemberLayout) : Prop where
  name : p.name = q.name
  type : p.type = q.type
  shape : p.shape = q.shape
  offset : p.offset = q.offset
  length : p.length = q.length
  alignment : p.alignment = q.alignment
  fixed : p.fixed = q.fixed
  unionGroup : p.unionGroup = q.unionGroup
  bits : ∀ r, p.bits = some r → ∃ r', q.bits = some r' ∧ r'.width = r.width ∧
    r'.first + (r.first + r.width) = 8 * p.length
  noBits : p.bits = none → q.bits = none

/-- Layouts that differ in the bits of their members only, and in these as mirror images do. -/
structure Layout.MirrorImages (l l' : Layout) : Prop where
  tag : l.tag = l'.tag
  form : l.form = l'.form
  size : l.size = l'.size
  alignment : l.alignment = l'.alignment
  solid : l.solid = l'.solid
  padding : l.padding = l'.padding
  hasPointers : l.hasPointers = l'.hasPointers
  members : List.Forall₂ MemberLayout.MirrorImages l.members l'.members

theorem MemberLayout.mirrorImages_mirror {p : MemberLayout} (h : p.BitsInMachineWord) :
    p.MirrorImages p.mirror where
  name := rfl
  type := rfl
  shape := rfl
  offset := rfl
  length := rfl
  alignment := rfl
  fixed := rfl
  unionGroup := rfl
  bits r hr := by
    have hfits := (h r hr).1
    refine ⟨_, Option.map_eq_some_iff.2 ⟨r, hr, rfl⟩, rfl, ?_⟩
    simp only [BitRange.mirror]
    omega
  noBits := Option.map_eq_none_iff.2

theorem Layout.mirrorImages_mapMembers {l : Layout} (h : ∀ p ∈ l.members, p.BitsInMachineWord) :
    l.MirrorImages (l.mapMembers (·.mirror)) where
  tag := rfl
  form := rfl
  size := rfl
  alignment := rfl
  solid := rfl
  padding := rfl
  hasPointers := rfl
  members := by
    refine List.forall₂_map_right_iff.2 (List.forall₂_same.2 fun p hp => ?_)
    exact MemberLayout.mirrorImages_mirror (h p hp)

section Build

variable {limit : SizeLimit} {config : Config} {decl : RecordDecl} {members : List ResolvedMember}

/-- Bit-fields have words that a machine word holds, by the types that they may have. -/
theorem MembersOf.bitsInMachineWord {Has : Tag → Layout → Prop} {order : BitOrder}
    (h : MembersOf limit Has config decl members) {placed : List MemberLayout} {stop : Nat}
    (hplaced : placeMembers limit order decl members = .ok (placed, stop)) :
    ∀ p ∈ placed, p.BitsInMachineWord := by
  obtain ⟨pack, -, -, hmembers⟩ := h
  intro p hp r hr
  have hforall := placeMembers_forall₂ (membersOf_bitsFit hmembers) hplaced
  obtain ⟨m, hm, hmp⟩ := exists_mem_of_forall₂ hforall hp
  obtain ⟨d, -, hd⟩ := exists_mem_of_forall₂ hmembers hm
  have hlength := hd.length_le hmp hr
  exact ⟨(hd.exact_bits hmp hr).fits, by omega⟩

/-- Members that are put together in one order and in the other give mirror images, or fail
alike. -/
theorem MembersOf.assemble_mirrors {Has : Tag → Layout → Prop}
    (h : MembersOf limit Has config decl members) :
    Outcomes Eq Layout.MirrorImages (assemble limit .lsbFirst decl members)
      (assemble limit .msbFirst decl members) := by
  have hmirror := assemble_map MemberLayout.keepsPlace_mirror
    (Coverage.ofMembers_map MemberLayout.keepsPlace_mirror (fun _ => rfl) (fun _ => rfl)
      fun _ => rfl)
    (placeMembers_mirror decl members) (fun placed stop hplaced a ha b hb =>
      MemberLayout.mayShare_mirror (h.bitsInMachineWord hplaced a ha)
        (h.bitsInMachineWord hplaced b hb))
  rw [hmirror]
  cases hlayout : assemble limit .lsbFirst decl members with
  | error e => exact .error rfl
  | ok l =>
    obtain ⟨placed, stop, size, alignment, hplaced, -, -, -, rfl⟩ := assemble_eq_ok hlayout
    exact .ok (Layout.mirrorImages_mapMembers (h.bitsInMachineWord hplaced))

/-- **The bit order only mirrors bits.**  Built with one order and with the other, from one state, a
declaration is refused for the same reason, or has layouts that are mirror images of each other. -/
theorem build_mirrors {σ : Type} (limit : SizeLimit) (config : Config)
    (resolve : Resolver (StateM σ)) (decl : RecordDecl) (s : σ) :
    let lsb := (build limit { config with bitOrder := .lsbFirst } resolve decl).run s
    let msb := (build limit { config with bitOrder := .msbFirst } resolve decl).run s
    Outcomes Eq Layout.MirrorImages lsb.1 msb.1 ∧ lsb.2 = msb.2 := by
  have hrun (order : BitOrder) :
      (build limit { config with bitOrder := order } resolve decl).run s =
        match (resolveDecl limit config resolve decl).run s with
        | (.ok members, t) => (assemble limit order decl members, t)
        | (.error e, t) => (.error e, t) := by
    have hresolve : resolveDecl limit { config with bitOrder := order } resolve decl =
      resolveDecl limit config resolve decl := rfl
    rw [build_eq_resolveDecl, run_bind, hresolve]
    rcases (resolveDecl limit config resolve decl).run s with ⟨e | members, t⟩ <;> rfl
  rw [hrun, hrun]
  rcases hmembers : (resolveDecl limit config resolve decl).run s with ⟨e | members, t⟩
  · exact ⟨.error rfl, rfl⟩
  · exact ⟨(membersOf_of_run hmembers).assemble_mirrors, rfl⟩

end Build

end NativeRecord
