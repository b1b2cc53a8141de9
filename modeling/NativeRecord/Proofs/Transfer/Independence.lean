import NativeRecord.Proofs.Transfer.Reading
import NativeRecord.Transfer.Access

/-!
# Independence of members

Members of a struct own different bits, unless they belong to one anonymous union: they lie apart,
or they are bit-fields of one word with masks that have no bit in common.  So what is written to
one of them cannot be seen in another.

The argument has two halves.  Writing a member is confined to the bits that it owns, and reading it
depends on no others, whatever the view holds; this is so for any layout that is sound.  And the
check of the layout has found every two members compatible, from which it follows that they own no
bit in common.  Two steps that are confined to different bits commute, and neither affects the
other's answer.

## What is here

* `MemberLayout.Compatible.not_owns` — other members that were found compatible own no bit in
  common.
* `Layout.set_independent` — writing one member leaves the others as they are, and the order in
  which two members are written does not matter.
-/

set_option autoImplicit false
namespace NativeRecord

namespace MemberLayout

/-- **Compatible members own no bit in common,** unless they belong to one anonymous union. -/
theorem Compatible.not_owns {a b : MemberLayout} (h : a.Compatible b) (hunion : ¬ a.SameUnion b)
    {e : Endianness} {start p : Nat} (ha : a.Owns e start p) : ¬ b.Owns e start p := by
  intro hb
  obtain ⟨hbytesA, hmaskA⟩ := ha
  obtain ⟨hbytesB, hmaskB⟩ := hb
  rw [InBytes] at hbytesA hbytesB
  have hmeet : a.span.Intersects b.span := by
    simp only [Span.Intersects, offset_span, stop_span]
    omega
  have hshare := mayShare_eq_true_iff.1 (h (by omega) (by omega) hmeet)
  obtain ⟨x, y, hx, hy, hspan, hdisjoint⟩ := hshare.resolve_left hunion
  have hoffset : a.offset = b.offset := congrArg Span.offset hspan
  have hlength : a.length = b.length := congrArg Span.length hspan
  have hxbit := hmaskA x hx
  have hybit := hmaskB y hy
  rw [← hoffset, ← hlength] at hybit
  have hbit := congrArg (·.getLsbD (e.wordBit (start + a.offset) a.length p)) hdisjoint
  simp [hxbit, hybit] at hbit

end MemberLayout

theorem pairwise_getElem? {α : Type} {R : α → α → Prop} (hsymm : ∀ a b, R a b → R b a)
    {xs : List α} (h : xs.Pairwise R) {i j : Nat} (hij : i ≠ j) {a b : α} (ha : xs[i]? = some a)
    (hb : xs[j]? = some b) : R a b := by
  obtain ⟨hi, rfl⟩ := List.getElem?_eq_some_iff.1 ha
  obtain ⟨hj, rfl⟩ := List.getElem?_eq_some_iff.1 hb
  rcases Nat.lt_or_gt_of_ne hij with hlt | hgt
  · exact List.pairwise_iff_getElem.1 h i j hi hj hlt
  · exact hsymm _ _ (List.pairwise_iff_getElem.1 h j i hj hi hgt)

namespace Layout

variable {platform : Platform} {l : Layout} {v : View}

/-- The accessors find the members by their index. -/
theorem memberAt_eq_ok_iff {i : Nat} {m : MemberLayout} :
    l.memberAt i = .ok m ↔ l.members[i]? = some m := by
  rw [memberAt]
  cases l.members[i]? <;> simp

/-- The bits of the member at an index; none if there is no such member. -/
def OwnsAt (e : Endianness) (l : Layout) (i p : Nat) : Prop :=
  ∃ m, l.members[i]? = some m ∧ m.Owns e 0 p

/-- A write to the member at an index is confined to the bits of that member. -/
theorem set_confined (hpointers : v.pointerWidth = platform.pointerWidth) (h : l.Sound platform)
    (i : Nat) (x : Value) : (l.set i x).Confined v (OwnsAt v.endianness l i) := by
  obtain ⟨hplaced, hmembers⟩ := Layout.sound_iff.1 h
  refine .lift_bind ?_
  intro m hm
  have hi := memberAt_eq_ok_iff.1 hm
  have hmem := List.mem_of_getElem? hi
  exact (m.write_owns hpointers (hplaced.bits m hmem) (hmembers m hmem) _ _ _).mono
    fun p hp => ⟨m, hi, hp⟩

/-- What is read for the member at an index depends on its bits alone. -/
theorem get_congr {w : View} (hvw : v.Alike w) (hpointers : v.pointerWidth = platform.pointerWidth)
    (h : l.Sound platform) {i : Nat}
    (hbit : ∀ p, OwnsAt v.endianness l i p → v.bit p = w.bit p) : l.get v i = l.get w i := by
  obtain ⟨hplaced, hmembers⟩ := Layout.sound_iff.1 h
  rw [get, get]
  rcases hm : l.memberAt i with e | m
  · rfl
  · have hi := memberAt_eq_ok_iff.1 hm
    have hmem := List.mem_of_getElem? hi
    exact m.read_congr hvw hpointers (hplaced.bits m hmem) (hmembers m hmem) _ _
      fun p hp => hbit p ⟨m, hi, hp⟩

/-- Different members of a sound struct own no bit in common, unless they belong to one anonymous
union. -/
theorem not_ownsAt (h : l.Sound platform) (hform : l.form = .struct) {i j : Nat} (hij : i ≠ j)
    (hunion : ∀ a b, l.members[i]? = some a → l.members[j]? = some b → ¬ a.SameUnion b)
    (e : Endianness) (p : Nat) (hi : OwnsAt e l i p) (hj : OwnsAt e l j p) : False := by
  obtain ⟨a, ha, hownsA⟩ := hi
  obtain ⟨b, hb, hownsB⟩ := hj
  have hcompatible := pairwise_getElem? (fun _ _ => MemberLayout.Compatible.symm)
    ((Layout.sound_iff.1 h).1.apart hform) hij ha hb
  exact hcompatible.not_owns (hunion a b ha hb) hownsA hownsB

/-- **Writing one member of a struct, with success or not, cannot be seen in another one** that is
not of the same anonymous union, and two such members can be written in either order: each write
answers as it would alone, and the same bytes are left behind. -/
theorem set_independent {config : Config} (hvalid : config.validate = .ok ())
    (hbuilt : Built config l) (hform : l.form = .struct)
    (hpointers : v.pointerWidth = config.platform.pointerWidth) {i j : Nat} (hij : i ≠ j)
    (hunion : ∀ a b, l.members[i]? = some a → l.members[j]? = some b → ¬ a.SameUnion b)
    (x y : Value) :
    l.get ((l.set i x).run v).2 j = l.get v j ∧
      ((l.set j y).run ((l.set i x).run v).2).1 = ((l.set j y).run v).1 ∧
      ((l.set j y).run ((l.set i x).run v).2).2 = ((l.set i x).run ((l.set j y).run v).2).2 := by
  have hsound := hbuilt.sound (Config.usable_of_validate hvalid)
  have hi := set_confined hpointers hsound i x
  have hj := set_confined hpointers hsound j y
  have hdisjoint := not_ownsAt hsound hform hij hunion v.endianness
  refine ⟨(get_congr hi.alike hpointers hsound fun p hp => ?_).symm, hi.comm hj hdisjoint⟩
  exact (hi.bit_eq fun hp' => hdisjoint p hp' hp).symm

end Layout

/-! ## Two bit-fields in one byte -/

/-- An unsigned bit-field and a signed one that share a byte. -/
def sharedByte : RecordDecl where
  tag := ⟨"shared"⟩
  members := [{ name := "low", type := .arith (.unsigned .w8), bits := some 3 },
    { name := "high", type := .arith (.signed .w8), bits := some 5 }]

/-- Their layout on a little-endian platform, the first one in the low bits. -/
def sharedByteLayout : Layout :=
  let shape (a : Arith) : Shape := .scalar (.arith a) 1 ⟨0⟩
  .ofMembers ⟨"shared"⟩ .struct
    [⟨"low", .arith (.unsigned .w8), shape (.unsigned .w8), 0, ⟨0⟩, some ⟨0, 3⟩, false, none⟩,
      ⟨"high", .arith (.signed .w8), shape (.signed .w8), 0, ⟨0⟩, some ⟨3, 5⟩, false, none⟩]
    1 ⟨0⟩

theorem built_sharedByte : Built .standard sharedByteLayout :=
  Built.of_answers (fun _ _ h => by cases h)
    (show build? .standard (fun tag => .error (.unknownTag tag)) sharedByte = .ok _ from rfl) 0

/-- The byte `0xA5` that the two bit-fields share. -/
def sharedByteView : View := .ofBytes .host #[0xA5]

theorem set_independent_sharedByte :
    sharedByteLayout.get ((sharedByteLayout.set 0 (.uint 2)).run sharedByteView).2 1 =
        sharedByteLayout.get sharedByteView 1 ∧
      ((sharedByteLayout.set 1 (.int 9)).run
          ((sharedByteLayout.set 0 (.uint 2)).run sharedByteView).2).1 =
        ((sharedByteLayout.set 1 (.int 9)).run sharedByteView).1 ∧
      ((sharedByteLayout.set 1 (.int 9)).run
          ((sharedByteLayout.set 0 (.uint 2)).run sharedByteView).2).2 =
        ((sharedByteLayout.set 0 (.uint 2)).run
          ((sharedByteLayout.set 1 (.int 9)).run sharedByteView).2).2 :=
  Layout.set_independent (show Config.standard.validate = .ok () by decide) built_sharedByte rfl rfl
    (by decide) (by rintro _ _ ⟨⟩ ⟨⟩; decide) _ _

end NativeRecord
