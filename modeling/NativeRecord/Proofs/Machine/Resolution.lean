import NativeRecord.Proofs.Layout.Arrangement
import NativeRecord.Proofs.Machine.Coverage
import NativeRecord.Proofs.Machine.Steps

/-!
# Resolving members on a machine

Resolving computes with few numbers of its own: the size of an array is checked, and everything else
has come from somewhere that bounds it.  This file says where.  A scalar is as large as the platform
says or a width that the language fixes; the layout of an embedded record was built, and the builder
has checked its size; alignments are powers of two that were words when they were asked for.  So the
numbers in a resolved member fit (`ResolvedMember.Fits`), which placing on the machine starts from.

The metered functions below are the builder's with the machine's operations.  Those that are not
checked are two: the size of a shape is computed again from its parts, and the width of a bit-field
is compared with the bits of its type.  The first is in range since the product was checked when the
array was resolved, the second since a type that allows bit-fields has eight bytes at most.

## What is here

* `Config.Representable`, `RecordDecl.Representable` — all numbers in a configuration and in a
  declaration are words of a 64-bit machine.
* `Metered.resolveMembers` — the first part of the builder, and `Metered.resolveMembers_tracks`,
  that its sizes are checked before they can wrap.
* `ResolvedMember.Fits` — what is known about a resolved member: its size is admitted, and its bits
  have their place in a word.
-/

set_option autoImplicit false
namespace NativeRecord

/-! ## Numbers of a machine -/

/-- The numbers of a platform are counts of a 64-bit machine. -/
structure Platform.Representable (p : Platform) : Prop where
  pointerWidth : p.pointerWidth < 2 ^ (64 : Nat)
  sizeTWidth : p.sizeTWidth < 2 ^ (64 : Nat)
  longWidth : p.longWidth < 2 ^ (64 : Nat)
  timeTWidth : p.timeTWidth < 2 ^ (64 : Nat)
  maxScalarAlignment : p.maxScalarAlignment < 2 ^ (64 : Nat)

/-- The numbers of a configuration are counts of a 64-bit machine. -/
structure Config.Representable (c : Config) : Prop where
  platform : c.platform.Representable
  defaultPack : ∀ n, c.defaultPack = some n → n < 2 ^ (64 : Nat)

/-- The lengths of arrays are.  A pointer's target is not looked at. -/
def CType.Representable : CType → Prop
  | .array element length => length < 2 ^ (64 : Nat) ∧ element.Representable
  | _ => True

structure MemberDecl.Representable (m : MemberDecl) : Prop where
  type : m.type.Representable
  bits : ∀ n, m.bits = some n → n < 2 ^ (32 : Nat)
  alignment : ∀ n, m.alignment = some n → n < 2 ^ (64 : Nat)
  offset : ∀ n, m.offset = some n → n < 2 ^ (64 : Nat)

/-- The numbers of a declaration, and that of its members, are counts of a 64-bit machine; the
widths of bit-fields have 32 bits. -/
structure RecordDecl.Representable (d : RecordDecl) : Prop where
  members : ∀ m ∈ d.members, m.Representable
  length : d.members.length < 2 ^ (64 : Nat)
  alignment : ∀ n, d.alignment = some n → n < 2 ^ (64 : Nat)
  pack : ∀ n, d.pack = some n → n < 2 ^ (64 : Nat)

/-- The size of a scalar is a number of the platform's or a fixed width. -/
theorem Platform.Representable.size_lt {p : Platform} (h : p.Representable) (s : Scalar) :
    s.size p < 2 ^ (64 : Nat) := by
  rcases s.size_mem_or_accessWidth p with hown | haccess
  · simp only [ownWidths, List.mem_cons, List.not_mem_nil, or_false] at hown
    rcases hown with hs | hs | hs | hs <;> rw [hs]
    · exact h.pointerWidth
    · exact h.sizeTWidth
    · exact h.longWidth
    · exact h.timeTWidth
  · rcases haccess with hs | hs | hs | hs <;> rw [hs] <;> decide

/-- Constructed layouts have sizes and alignments within the counts of a 64-bit machine. -/
theorem Layout.Constructed.fits {l : Layout} (h : l.Constructed) :
    l.size < 2 ^ (64 : Nat) ∧ l.alignment.log ≤ 64 := by
  cases h with
  | intro nested run serial =>
    obtain ⟨_, _, -, -, -, hlayout⟩ := builds_of_run nested run
    simp only [assemble, except_bind_eq_ok, orOverflow_eq_ok_iff] at hlayout
    obtain ⟨_, -, alignment, -, size, hsize, _, -, hlayout⟩ := hlayout
    cases hlayout
    exact (Alignment.align?_word64_eq_some hsize).symm

/-! ## Resolved members

What is known of a resolved member follows from `MemberOf`, without looking at how it was resolved.
-/

/-- What is known about a resolved member. -/
structure ResolvedMember.Fits (A : Machine) (limit : SizeLimit) (m : ResolvedMember) : Prop where
  surveyed : m.shape.Surveyed
  measured : Metered.Measured A.counts m.shape
  size : limit.Admits m.size
  alignment : m.alignment.log ≤ 64
  bits : ∀ n, m.decl.bits = some n → m.size ≤ 8 ∧ 0 < n ∧ n ≤ 8 * m.size

section Fits

variable {A : Machine} {limit : SizeLimit} {platform : Platform} {owner : Tag}
  {Has : Tag → Layout → Prop} {name : String} {type : CType} {shape : Shape}

/-- A scalar is no more aligned than it is large. -/
theorem scalarShape_fits (hplatform : platform.Representable) {s : Scalar}
    (h : scalarShape platform owner name s = .ok shape) :
    shape.size < 2 ^ (64 : Nat) ∧ shape.alignment.log ≤ 64 := by
  have hsize := hplatform.size_lt s
  simp only [scalarShape] at h
  split at h
  · rename_i alignment halign
    cases h
    refine ⟨hsize, Alignment.log_le_of_ofBytes? halign ?_⟩
    rw [Platform.naturalAlignment]
    omega
  · cases h

/-- The size of every array in the shape has been checked. -/
theorem ShapeOf.measured (hA : A.Reaches limit)
    (h : ShapeOf limit platform owner Has name type shape) : Metered.Measured A.counts shape := by
  induction h with
  | arith h => obtain ⟨_, rfl⟩ := scalarShape_eq_ok h; rfl
  | pointer h => obtain ⟨_, rfl⟩ := scalarShape_eq_ok h; rfl
  | record => rfl
  | array _ hsize ih => exact Metered.measured_array_iff.2 ⟨ih, hA.counts hsize⟩

/-- The shape of a type has a size that was checked or came from what was built. -/
theorem ShapeOf.fits (hA : A.Reaches limit) (hplatform : platform.Representable)
    (h : ShapeOf limit platform owner (fun _ l => l.Constructed) name type shape) :
    limit.Admits shape.size ∧ shape.alignment.log ≤ 64 := by
  induction h with
  | arith h => exact (scalarShape_fits hplatform h).imp_left hA.word
  | pointer h => exact (scalarShape_fits hplatform h).imp_left hA.word
  | record h => exact h.fits.imp_left hA.word
  | array _ hsize ih => exact ⟨hsize, ih.2⟩

/-- A type that allows bit-fields has a shape of at most eight bytes. -/
theorem ShapeOf.size_le (h : ShapeOf limit platform owner Has name type shape)
    (htype : type.allowsBitField = true) : shape.size ≤ 8 := by
  cases h with
  | arith h =>
    obtain ⟨_, rfl⟩ := scalarShape_eq_ok h
    exact Arith.size_le_of_allowsBitField htype
  | _ => cases htype

theorem checkAlignment_le {subject : AlignmentSubject} {bytes : Nat} {a : Alignment}
    (h : checkAlignment subject bytes = .ok a) (hbytes : bytes < 2 ^ (64 : Nat)) : a.log ≤ 64 := by
  rw [checkAlignment] at h
  split at h
  · rename_i hof
    cases h
    exact Alignment.log_le_of_ofBytes? hof hbytes
  · cases h

/-- A member's alignment is that of its type or lower, or the one it asks for. -/
theorem memberAlignment_le {decl : MemberDecl} (hdecl : decl.Representable)
    {pack : Option Alignment} {natural a : Alignment} (hnatural : natural.log ≤ 64)
    (h : memberAlignment owner decl pack natural = .ok a) : a.log ≤ 64 := by
  rw [memberAlignment] at h
  split at h
  · cases h
    exact Nat.le_trans (natural.packed_le_self pack) hnatural
  · rename_i bytes hbytes
    obtain ⟨requested, hrequested, h⟩ := except_bind_eq_ok.1 h
    split at h <;> cases h
    exact checkAlignment_le hrequested (hdecl.alignment bytes hbytes)

/-- **All that is known of a resolved member.** -/
theorem MemberOf.fits (hA : A.Reaches limit) (hplatform : platform.Representable)
    {pack : Option Alignment} {decl : MemberDecl} (hdecl : decl.Representable) {m : ResolvedMember}
    (h : MemberOf limit platform owner (fun _ l => l.Constructed) pack decl m) :
    m.Fits A limit where
  surveyed := h.shape.surveyed fun _ _ h => h.surveyed
  measured := h.shape.measured hA
  size := (h.shape.fits hA hplatform).1
  alignment := memberAlignment_le hdecl (h.shape.fits hA hplatform).2 h.alignment
  bits n hn := by
    rw [h.decl_eq] at hn
    obtain ⟨htype, hpos, hle⟩ := checkBits_eq_ok_iff.1 h.bits n hn
    exact ⟨h.shape.size_le htype, hpos, hle⟩

end Fits

/-! ## Metered resolution -/

namespace Metered

section Resolve

variable {m : Type → Type} [Monad m] (A : Machine) (platform : Platform) (resolve : Resolver m)
  (owner : Tag)

/-- The shape of a type.  The size of an array is checked, that of its elements is computed anew. -/
def resolveShape (name : String) : CType → Metering m Shape
  | .arith a => ofExcept (scalarShape platform owner name (.arith a))
  | .pointer target => ofExcept (scalarShape platform owner name (.pointer target))
  | .record tag => do return .record (← ask (resolve tag))
  | .array element length => do
    let shape ← resolveShape name element
    let stride ← unwrapped (size A.counts shape)
    let _ ← count A owner name (stride * length)
    return .array shape length

/-- The number of bits in the word is computed only once the type and the width are in order. -/
def checkBits (decl : MemberDecl) (size : Nat) : Metering m Unit :=
  match decl.bits with
  | none => return ()
  | some bits =>
    if !decl.type.allowsBitField || bits = 0 then
      throw (.refused (.invalidBitField owner decl.name))
    else do
      let capacity ← unwrapped (capacity A size)
      if capacity < bits then
        throw (.refused (.bitFieldTooWide owner decl.name bits capacity))
      else return ()

def resolveMember (pack : Option Alignment) (decl : MemberDecl) : Metering m ResolvedMember := do
  let shape ← resolveShape A platform resolve owner decl.name decl.type
  let length ← unwrapped (size A.counts shape)
  checkBits A owner decl length
  let alignment ← ofExcept (memberAlignment owner decl pack shape.alignment)
  return ⟨decl, shape, alignment⟩

def resolveMembers (pack : Option Alignment) (seen : List String) :
    List MemberDecl → Metering m (List ResolvedMember)
  | [] => return []
  | decl :: decls =>
    if decl.name = "" ∨ decl.name ∈ seen then
      throw (.refused (.invalidMember owner decl.name .unusableName))
    else do
      let first ← resolveMember A platform resolve owner pack decl
      let rest ← resolveMembers pack (decl.name :: seen) decls
      return first :: rest

end Resolve

section Tracks

variable {A : Machine} {limit : SizeLimit} {platform : Platform} {owner : Tag} {σ : Type}
  {resolve : Resolver (StateM σ)}

theorem checkBits_tracks (hA : A.Reaches limit) {decl : MemberDecl} {size : Nat}
    (hsize : decl.type.allowsBitField = true → size ≤ 8) :
    Tracks A limit owner (checkBits A owner decl size : Metering (StateM σ) Unit)
      (liftM (NativeRecord.checkBits owner decl size))
      fun _ => NativeRecord.checkBits owner decl size = .ok () := by
  rw [checkBits, NativeRecord.checkBits]
  cases decl.bits with
  | none => exact .pure rfl
  | some bits =>
    dsimp only
    split
    · exact .throw
    · rename_i htype
      have htype : decl.type.allowsBitField = true := by
        cases h : decl.type.allowsBitField
        · rw [h] at htype
          exact absurd rfl htype
        · rfl
      refine .unwrap (capacity_eq hA (hsize htype)) ?_
      split
      · exact .throw
      · exact .pure rfl

variable (hA : A.Reaches limit)
  (hresolve : ∀ tag s l t, (resolve tag).run s = (.ok l, t) → l.Constructed)

include hA hresolve

theorem resolveShape_tracks (name : String) (type : CType) :
    Tracks A limit owner (resolveShape A platform resolve owner name type)
      (NativeRecord.resolveShape limit platform resolve owner name type)
      (ShapeOf limit platform owner (fun _ l => l.Constructed) name type) := by
  induction type with
  | arith a => exact .ofExcept fun _ h => .arith h
  | pointer target => exact .ofExcept fun _ h => .pointer h
  | record tag =>
    have hask : Tracks A limit owner (ask (resolve tag)) (resolve tag) Layout.Constructed :=
      .ask fun s l t h => hresolve tag s l t h
    exact hask.bind fun l hl => .pure (.record hl)
  | array element length ih =>
    refine ih.bind fun shape hshape => ?_
    refine .unwrap (hshape.measured hA) ?_
    refine (Tracks.count hA _).bind fun _ hcount => ?_
    exact .pure (.array hshape hcount.2)

theorem resolveMember_tracks (pack : Option Alignment) (decl : MemberDecl) :
    Tracks A limit owner (resolveMember A platform resolve owner pack decl)
      (NativeRecord.resolveMember limit platform resolve owner pack decl)
      (MemberOf limit platform owner (fun _ l => l.Constructed) pack decl) := by
  refine (resolveShape_tracks hA hresolve decl.name decl.type).bind fun shape hshape => ?_
  refine .unwrap (hshape.measured hA) ?_
  refine (checkBits_tracks hA hshape.size_le).bind fun _ hbits => ?_
  refine (Tracks.ofExcept fun _ h => h).bind fun alignment halignment => ?_
  exact .pure ⟨rfl, hshape, hbits, halignment⟩

/-- **Resolving tracks the builder:** what is not checked cannot wrap. -/
theorem resolveMembers_tracks (pack : Option Alignment) (seen : List String)
    (decls : List MemberDecl) :
    Tracks A limit owner (resolveMembers A platform resolve owner pack seen decls)
      (NativeRecord.resolveMembers limit platform resolve owner pack seen decls)
      (List.Forall₂ (MemberOf limit platform owner (fun _ l => l.Constructed) pack) decls) := by
  induction decls generalizing seen with
  | nil => exact .pure .nil
  | cons decl decls ih =>
    rw [resolveMembers, resolveMembers_cons]
    split
    · exact .throw
    · refine (resolveMember_tracks hA hresolve pack decl).bind fun first hfirst => ?_
      refine (ih (decl.name :: seen)).bind fun rest hrest => ?_
      exact .pure (.cons hfirst hrest)

end Tracks

end Metered

end NativeRecord
