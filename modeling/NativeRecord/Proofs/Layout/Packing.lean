import NativeRecord.Proofs.Layout.Alike
import NativeRecord.Proofs.Layout.AnonymousUnion
import NativeRecord.Proofs.Layout.SharedWords
import NativeRecord.Proofs.Layout.Tightness

/-!
# Packing a declaration tighter

A pack lowers the alignments of members.  Two layouts of one declaration under different packs are
compared step by step: where each step of the placement rounds up, less is added under the smaller
pack, and whether a bit-field finds room in a word depends on no alignment at all.

Both runs are over the same list of members, cut into the same units, so the comparison is a
relation between the two states that every step keeps: the one cursor is no later than the other,
and the same words are open with as much room (`Cursor.NoLater`).  The latter is what makes the
induction go through.  Had a bit-field found room in one run and not in the other, the runs would
place different things from there on, and being earlier would be no help.  Since room depends on
sizes and bits alone, this cannot happen, and each kind of unit is left with one fact about rounding
up (`align_mono`).

The members have to be resolved under both packs first.  The resolver is asked for the embedded
records in both runs, and a stateful one could tell of other sizes the second time; `Repeats` is
what the comparison needs of it.  It holds of every resolver from one and the same state, and from
any two states if it always tells of the same extents.

## What is here

* `Alignment.align_mono`, `Alignment.strictest_mono`, `Alignment.packed_mono` — rounding up adds no
  more for a lower alignment, and a smaller pack gives lower ones.
* `ResolvedMember.Tighter`, `MemberLayout.NoLater`, `Cursor.NoLater` — the same members, cursors and
  places under the smaller pack and the larger one; each step keeps them (`placeUnit_noLater`), and
  so does the run (`placeUnits_noLater`).
* `Layout.Tighter` — the whole layouts compared; `build_tighter` — building under two packs.
-/

set_option autoImplicit false
namespace NativeRecord

/-! ## Alignments -/

namespace Alignment

/-- **Rounding up is monotone** in the alignment and in the offset. -/
theorem align_mono {a b : Alignment} (hab : a ≤ b) {m n : Nat} (hmn : m ≤ n) :
    a.align m ≤ b.align n :=
  align_le_of_dvd (Nat.dvd_trans (bytes_dvd_bytes hab) (b.bytes_dvd_align n))
    (Nat.le_trans hmn (b.le_align n))

/-- The strictest of lower alignments is lower. -/
theorem strictest_mono {as bs : List Alignment} (h : List.Forall₂ (· ≤ ·) as bs) :
    strictest as ≤ strictest bs := by
  refine strictest_le fun a ha => ?_
  obtain ⟨b, hb, hab⟩ := exists_mem_of_forall₂ h.flip ha
  exact le_trans hab (le_strictest hb)

/-- **A smaller pack lowers an alignment at least as much.** -/
theorem packed_mono (a : Alignment) {p q : Option Alignment} (h : ∀ d ∈ q, ∃ c ∈ p, c ≤ d) :
    a.packed p ≤ a.packed q := by
  cases q with
  | none => exact packed_le_self a p
  | some d =>
    obtain ⟨c, hc, hcd⟩ := h d rfl
    show a.packed p ≤ min a d
    rw [min_def]
    split
    · exact packed_le_self a p
    · exact le_trans (packed_le a hc) hcd

end Alignment

/-! ## The same members under two packs -/

/-- One member under a smaller pack and a larger one. -/
structure ResolvedMember.Tighter (m m' : ResolvedMember) : Prop where
  decl : m.decl = m'.decl
  size : m.size = m'.size
  alignment : m.alignment ≤ m'.alignment

/-- One member at two places, the first of them no later and no more aligned. -/
structure MemberLayout.NoLater (p p' : MemberLayout) : Prop extends p.SameKind p' where
  offset : p.offset ≤ p'.offset
  alignment : p.alignment ≤ p'.alignment

/-- One word at two places. -/
structure BackingWord.NoLater (w w' : BackingWord) : Prop where
  offset : w.offset ≤ w'.offset
  size : w.size = w'.size
  used : w.used = w'.used

/-- Cursors behind the same members at two places. -/
structure Cursor.NoLater (c c' : Cursor) : Prop where
  next : c.next ≤ c'.next
  word : Option.Rel BackingWord.NoLater c.word c'.word

/-- Tighter members at two places are no later there if the offsets are not. -/
theorem ResolvedMember.Tighter.noLater {m m' : ResolvedMember} (h : m.Tighter m')
    {offset offset' : Nat} (hoffset : offset ≤ offset') (bits : Option BitRange) (fixed : Bool)
    (group : Option Nat) :
    (m.placedAt offset bits fixed group).NoLater (m'.placedAt offset' bits fixed group) where
  name := congrArg MemberDecl.name h.decl
  type := congrArg MemberDecl.type h.decl
  length := h.size
  bits := rfl
  fixed := rfl
  unionGroup := rfl
  offset := hoffset
  alignment := h.alignment

/-- The bits of a member that has its word to itself depend on its size alone. -/
theorem ResolvedMember.Tighter.aloneInWord_eq {order : BitOrder} {m m' : ResolvedMember}
    (h : m.Tighter m') : aloneInWord order m = aloneInWord order m' := by
  rw [aloneInWord, aloneInWord, h.decl, h.size]

namespace Cursor.NoLater

variable {c c' : Cursor}

theorem start : Cursor.start.NoLater Cursor.start := ⟨Nat.le_refl 0, .none⟩

/-- The open words end no later either, since they are of one size. -/
theorem close (h : c.NoLater c') : c.close ≤ c'.close := by
  obtain ⟨next, word⟩ := c
  obtain ⟨next', word'⟩ := c'
  obtain ⟨hnext, hword⟩ := h
  cases hword with
  | none => exact hnext
  | @some w w' hword =>
    have hoffset := hword.offset
    have hsize := hword.size
    simp only [Cursor.close] at hnext ⊢
    omega

/-- The same words are open, with as much room. -/
theorem room? (h : c.NoLater c') (size bits : Nat) :
    Option.Rel BackingWord.NoLater (c.room? size bits) (c'.room? size bits) := by
  obtain ⟨next, word⟩ := c
  obtain ⟨next', word'⟩ := c'
  obtain ⟨-, hword⟩ := h
  rw [Cursor.room?, Cursor.room?]
  cases hword with
  | none => exact .none
  | @some w w' hword =>
    rw [Option.filter_some, Option.filter_some, hword.size, hword.used]
    split
    · exact .some hword
    · exact .none

end Cursor.NoLater

/-- A bit-field goes into the same word, and leaves the cursor at the same one. -/
theorem Cursor.WordFor.noLater {c c' : Cursor} {m m' : ResolvedMember} {bits next next' : Nat}
    {w w' : BackingWord} (hc : c.NoLater c') (hm : m.Tighter m') (h : c.WordFor m bits w next)
    (h' : c'.WordFor m' bits w' next') : w.NoLater w' ∧ next ≤ next' := by
  have hroom := hc.room? m.size bits
  cases h with
  | shared hword hsize hfits =>
    rw [room?_eq_some_iff.2 ⟨hword, hsize, hfits⟩, hm.size] at hroom
    cases h' with
    | shared hword' hsize' hfits' =>
      rw [room?_eq_some_iff.2 ⟨hword', hsize', hfits'⟩] at hroom
      cases hroom with
      | some hw => exact ⟨hw, hc.next⟩
    | opened hfull =>
      rw [hfull] at hroom
      cases hroom
  | opened hfull =>
    rw [hfull, hm.size] at hroom
    cases h' with
    | shared hword' hsize' hfits' =>
      rw [room?_eq_some_iff.2 ⟨hword', hsize', hfits'⟩] at hroom
      cases hroom
    | opened =>
      have hstart := Alignment.align_mono hm.alignment hc.close
      exact ⟨⟨hstart, hm.size, rfl⟩, hstart⟩

/-! ## Placing under two packs

A step for each kind of unit, and the run. -/

section Place

variable {limit : SizeLimit} {order : BitOrder} {owner : Tag}

/-- A pack changes no size. -/
theorem sizes_of_tighter {ms ms' : List ResolvedMember}
    (h : List.Forall₂ ResolvedMember.Tighter ms ms') : ms.map (·.size) = ms'.map (·.size) :=
  map_eq_map_of_forall₂ (fun _ _ hm => hm.size) h

/-- The members of an anonymous union are aligned together, by the strictest of them. -/
theorem strictest_of_tighter {ms ms' : List ResolvedMember}
    (h : List.Forall₂ ResolvedMember.Tighter ms ms') :
    Alignment.strictest (ms.map (·.alignment)) ≤ Alignment.strictest (ms'.map (·.alignment)) := by
  refine Alignment.strictest_mono ?_
  rw [List.forall₂_map_left_iff, List.forall₂_map_right_iff]
  exact h.imp fun _ _ hm => hm.alignment

/-- **Each step places no member later,** and leaves no cursor later behind. -/
theorem placeUnit_noLater {index : Nat} {c c' next next' : Cursor} {u u' : PlacementUnit}
    {placed placed' : List MemberLayout} (hu : u.Related ResolvedMember.Tighter u')
    (hc : c.NoLater c') (h : placeUnit limit order owner index c u = .ok (placed, next))
    (h' : placeUnit limit order owner index c' u' = .ok (placed', next')) :
    List.Forall₂ MemberLayout.NoLater placed placed' ∧ next.NoLater next' := by
  have hclose := hc.close
  cases hu with
  | @fixed m m' offset hm =>
    obtain ⟨rfl, rfl⟩ := placeUnit_fixed_eq_ok h
    obtain ⟨rfl, rfl⟩ := placeUnit_fixed_eq_ok h'
    rw [hm.aloneInWord_eq, hm.size]
    refine ⟨.cons (hm.noLater (Nat.le_refl _) ..) .nil, ?_, .none⟩
    show max c.close _ ≤ max c'.close _
    omega
  | @overlay first first' rest rest' hm hrest =>
    obtain ⟨rfl, rfl⟩ := placeUnit_overlay_eq_ok h
    obtain ⟨rfl, rfl⟩ := placeUnit_overlay_eq_ok h'
    have hall : List.Forall₂ ResolvedMember.Tighter (first :: rest) (first' :: rest') :=
      .cons hm hrest
    have hstart := Alignment.align_mono (strictest_of_tighter hall) hclose
    rw [sizes_of_tighter hall]
    refine ⟨?_, Nat.add_le_add_right hstart _, .none⟩
    rw [List.forall₂_map_left_iff, List.forall₂_map_right_iff]
    refine hall.imp fun a b hab => ?_
    rw [hab.aloneInWord_eq]
    exact hab.noLater hstart ..
  | bitField hm =>
    obtain ⟨word, next, hword, rfl, rfl⟩ := placeUnit_bitField_eq_ok h
    obtain ⟨word', next', hword', rfl, rfl⟩ := placeUnit_bitField_eq_ok h'
    obtain ⟨hw, hnext⟩ := hword.noLater hc hm hword'
    rw [hm.size, hw.used]
    exact ⟨.cons (hm.noLater hw.offset ..) .nil, hnext, .some ⟨hw.offset, hw.size, rfl⟩⟩
  | plain hm =>
    obtain ⟨rfl, rfl⟩ := placeUnit_plain_eq_ok h
    obtain ⟨rfl, rfl⟩ := placeUnit_plain_eq_ok h'
    have hstart := Alignment.align_mono hm.alignment hclose
    rw [hm.size]
    exact ⟨.cons (hm.noLater hstart ..) .nil, Nat.add_le_add_right hstart _, .none⟩

/-- **A run places no member later,** and ends no later. -/
theorem placeUnits_noLater {us us' : List PlacementUnit}
    (hus : List.Forall₂ (PlacementUnit.Related ResolvedMember.Tighter) us us') {index : Nat}
    {c c' : Cursor} {placed placed' : List MemberLayout} {stop stop' : Nat} (hc : c.NoLater c')
    (h : placeUnits limit order owner index c us = .ok (placed, stop))
    (h' : placeUnits limit order owner index c' us' = .ok (placed', stop')) :
    List.Forall₂ MemberLayout.NoLater placed placed' ∧ stop ≤ stop' := by
  induction hus generalizing index c c' placed placed' with
  | nil =>
    cases h
    cases h'
    exact ⟨.nil, hc.close⟩
  | cons hu _ ih =>
    obtain ⟨first, next, others, hfirst, hothers, rfl⟩ := placeUnits_cons_eq_ok h
    obtain ⟨first', next', others', hfirst', hothers', rfl⟩ := placeUnits_cons_eq_ok h'
    obtain ⟨hplaced, hnext⟩ := placeUnit_noLater hu hc hfirst hfirst'
    rw [← hplaced.length_eq] at hothers'
    obtain ⟨hrest, hstop⟩ := ih hnext hothers hothers'
    exact ⟨List.rel_append hplaced hrest, hstop⟩

/-- The same for a union, whose members are all at its start. -/
theorem overlayMembers_noLater {ms ms' : List ResolvedMember}
    (hms : List.Forall₂ ResolvedMember.Tighter ms ms') {placed placed' : List MemberLayout}
    {stop stop' : Nat} (h : overlayMembers order owner ms = .ok (placed, stop))
    (h' : overlayMembers order owner ms' = .ok (placed', stop')) :
    List.Forall₂ MemberLayout.NoLater placed placed' ∧ stop ≤ stop' := by
  obtain ⟨-, rfl, rfl⟩ := overlayMembers_eq_ok_iff.1 h
  obtain ⟨-, rfl, rfl⟩ := overlayMembers_eq_ok_iff.1 h'
  rw [sizes_of_tighter hms]
  refine ⟨?_, Nat.le_refl _⟩
  rw [List.forall₂_map_left_iff, List.forall₂_map_right_iff]
  refine hms.imp fun a b hab => ?_
  rw [hab.aloneInWord_eq]
  exact hab.noLater (Nat.le_refl 0) ..

/-- A struct places a sequence and a union an overlay; both compare. -/
theorem placeMembers_noLater {decl : RecordDecl} {ms ms' : List ResolvedMember}
    (hms : List.Forall₂ ResolvedMember.Tighter ms ms') {placed placed' : List MemberLayout}
    {stop stop' : Nat} (h : placeMembers limit order decl ms = .ok (placed, stop))
    (h' : placeMembers limit order decl ms' = .ok (placed', stop')) :
    List.Forall₂ MemberLayout.NoLater placed placed' ∧ stop ≤ stop' := by
  rw [placeMembers] at h h'
  cases hform : decl.form with
  | struct =>
    rw [hform] at h h'
    exact placeUnits_noLater (placementUnits_related (fun _ _ hm => hm.decl) hms) .start h h'
  | union =>
    rw [hform] at h h'
    exact overlayMembers_noLater hms h h'

end Place

/-! ## Resolving under two packs

The pack plays no part in what the resolver is asked, so the runs ask the same questions in the same
order. -/

/-- Shapes of one size and one alignment. -/
def Shape.SameExtent (s s' : Shape) : Prop := s.size = s'.size ∧ s.alignment = s'.alignment

/-- Asked twice for a record, in like states, the resolver tells of one size and one alignment. -/
def Resolver.Repeats {σ : Type} (resolve : Resolver (StateM σ)) (Like : σ → σ → Prop) : Prop :=
  ∀ tag, Agree Like (fun l l' => l.size = l'.size ∧ l.alignment = l'.alignment) (resolve tag)
    (resolve tag)

section Resolve

variable {limit : SizeLimit} {config : Config} {platform : Platform} {owner : Tag} {σ : Type}
  {Like : σ → σ → Prop} {resolve : Resolver (StateM σ)}

/-- A request is granted as it is under both packs; without one, the smaller pack lowers more. -/
theorem memberAlignment_mono {m : MemberDecl} {p q : Option Alignment} {natural a b : Alignment}
    (hpq : ∀ d ∈ q, ∃ c ∈ p, c ≤ d) (h : memberAlignment owner m p natural = .ok a)
    (h' : memberAlignment owner m q natural = .ok b) : a ≤ b := by
  rcases memberAlignment_eq_ok_iff.1 h with ⟨hnone, rfl⟩ | ⟨hsome, -⟩
  · rcases memberAlignment_eq_ok_iff.1 h' with ⟨-, rfl⟩ | ⟨hsome, -⟩
    · exact natural.packed_mono hpq
    · exact nomatch hnone.symm.trans hsome
  · rcases memberAlignment_eq_ok_iff.1 h' with ⟨hnone, -⟩ | ⟨hsome', -⟩
    · exact nomatch hnone.symm.trans hsome
    · exact Alignment.bytes_le_bytes_iff.1 (Option.some.inj (hsome.symm.trans hsome')).le

theorem resolveShape_agree (h : resolve.Repeats Like) (name : String) (type : CType) :
    Agree Like Shape.SameExtent (resolveShape limit platform resolve owner name type)
      (resolveShape limit platform resolve owner name type) := by
  have hself {s s' : Shape} {x : Except LayoutError Shape} (hs : x = .ok s) (hs' : x = .ok s') :
      s.SameExtent s' := by
    cases Except.ok.inj (hs.symm.trans hs')
    exact ⟨rfl, rfl⟩
  induction type with
  | arith a => exact .lift fun _ _ => hself
  | pointer target => exact .lift fun _ _ => hself
  | record tag => exact .bind (h tag) fun l l' hl => .pure hl
  | array element length ih =>
    refine .bind ih fun shape shape' hshape => ?_
    refine .bind (A := fun _ _ => True) (.lift fun _ _ _ _ => trivial) fun _ _ _ => .pure ?_
    exact ⟨congrArg (· * length) hshape.1, hshape.2⟩

/-- A member resolves to the same size and to no higher an alignment. -/
theorem resolveMember_agree (h : resolve.Repeats Like) {p q : Option Alignment}
    (hpq : ∀ d ∈ q, ∃ c ∈ p, c ≤ d) (decl : MemberDecl) :
    Agree Like ResolvedMember.Tighter (resolveMember limit platform resolve owner p decl)
      (resolveMember limit platform resolve owner q decl) := by
  refine .bind (resolveShape_agree h decl.name decl.type) fun shape shape' hshape => ?_
  refine .bind (A := fun _ _ => True) (.lift fun _ _ _ _ => trivial) fun _ _ _ => ?_
  refine .bind (A := (· ≤ ·)) (.lift fun a b ha hb => ?_) fun a b hab => .pure ⟨rfl, hshape.1, hab⟩
  rw [hshape.2] at ha
  exact memberAlignment_mono hpq ha hb

theorem resolveMembers_agree (h : resolve.Repeats Like) {p q : Option Alignment}
    (hpq : ∀ d ∈ q, ∃ c ∈ p, c ≤ d) (seen : List String) (decls : List MemberDecl) :
    Agree Like (List.Forall₂ ResolvedMember.Tighter)
      (resolveMembers limit platform resolve owner p seen decls)
      (resolveMembers limit platform resolve owner q seen decls) := by
  induction decls generalizing seen with
  | nil => exact .pure .nil
  | cons decl decls ih =>
    rw [resolveMembers_cons, resolveMembers_cons]
    split
    · exact fun s t _ _ _ _ _ hfails => nomatch hfails
    · refine .bind (resolveMember_agree h hpq decl) fun first first' hfirst => ?_
      exact .bind (ih (decl.name :: seen)) fun rest rest' hrest => .pure (.cons hfirst hrest)

/-- Packs of a declaration that are in order are in order as alignments. -/
theorem effectivePack_mono {decl : RecordDecl} {p q : Option Nat} {c d : Option Alignment}
    (hdefault : config.defaultPack = none) (hpq : ∀ n ∈ q, ∃ m ∈ p, m ≤ n)
    (h : effectivePack config { decl with pack := p } = .ok c)
    (h' : effectivePack config { decl with pack := q } = .ok d) : ∀ b ∈ d, ∃ a ∈ c, a ≤ b := by
  rw [effectivePack_eq_ok_iff, hdefault, Option.or_none] at h h'
  obtain rfl : p = c.map (·.bytes) := h
  obtain rfl : q = d.map (·.bytes) := h'
  rintro b rfl
  obtain ⟨m, hm, hle⟩ := hpq b.bytes rfl
  obtain ⟨a, ha, rfl⟩ := Option.map_eq_some_iff.1 hm
  exact ⟨a, ha, Alignment.bytes_le_bytes_iff.1 hle⟩

/-- The packs of the declaration come before the members do. -/
theorem resolveDecl_agree (h : resolve.Repeats Like) (hdefault : config.defaultPack = none)
    (decl : RecordDecl) {p q : Option Nat} (hpq : ∀ n ∈ q, ∃ m ∈ p, m ≤ n) :
    Agree Like (List.Forall₂ ResolvedMember.Tighter)
      (resolveDecl limit config resolve { decl with pack := p })
      (resolveDecl limit config resolve { decl with pack := q }) := by
  refine .bind (A := fun c d => ∀ b ∈ d, ∃ a ∈ c, a ≤ b)
    (.lift fun c d hc hd => effectivePack_mono hdefault hpq hc hd) fun c d hcd => ?_
  exact resolveMembers_agree h hcd [] decl.members

end Resolve

/-! ## Whole layouts -/

/-- **One layout of a declaration is packed tighter than another one:** no member lies later, the
record is neither larger nor more aligned, and the same bit-fields share a word. -/
structure Layout.Tighter (l l' : Layout) : Prop where
  members : List.Forall₂ MemberLayout.NoLater l.members l'.members
  size : l.size ≤ l'.size
  alignment : l.alignment ≤ l'.alignment
  shared : ∀ x ∈ l.members.zip l'.members, ∀ y ∈ l.members.zip l'.members, SharedAlike x y
  /-- A bit-field at a fixed offset shares its word with no other one. -/
  alone : ∀ x ∈ l.members.zip l'.members, ∀ y ∈ l.members.zip l'.members,
    x.1.name ≠ y.1.name → x.1.isBitField = true → y.1.isBitField = true → x.1.fixed = true →
      x.1.span ≠ y.1.span ∧ x.2.span ≠ y.2.span

section Whole

variable {limit : SizeLimit} {config : Config} {decl : RecordDecl} {l l' : Layout}

/-- A record that asks for an alignment has it under both packs. -/
theorem recordAlignment_mono {a b c d : Alignment} (hab : a ≤ b)
    (h : recordAlignment decl a = .ok c) (h' : recordAlignment decl b = .ok d) : c ≤ d := by
  rcases recordAlignment_eq_ok_iff.1 h with ⟨hnone, rfl⟩ | ⟨hsome, -⟩
  · rcases recordAlignment_eq_ok_iff.1 h' with ⟨-, rfl⟩ | ⟨hsome, -⟩
    · exact hab
    · exact nomatch hnone.symm.trans hsome
  · rcases recordAlignment_eq_ok_iff.1 h' with ⟨hnone, -⟩ | ⟨hsome', -⟩
    · exact nomatch hnone.symm.trans hsome
    · exact Alignment.bytes_le_bytes_iff.1 (Option.some.inj (hsome.symm.trans hsome')).le

/-- Tighter members are put together to a record that is no larger. -/
theorem assemble_noLater {order : BitOrder} {ms ms' : List ResolvedMember}
    (hms : List.Forall₂ ResolvedMember.Tighter ms ms') (h : assemble limit order decl ms = .ok l)
    (h' : assemble limit order decl ms' = .ok l') :
    List.Forall₂ MemberLayout.NoLater l.members l'.members ∧ l.size ≤ l'.size ∧
      l.alignment ≤ l'.alignment := by
  obtain ⟨placed, stop, _, alignment, hplaced, halignment, rfl, -, rfl⟩ := assemble_eq_ok h
  obtain ⟨placed', stop', _, alignment', hplaced', halignment', rfl, -, rfl⟩ := assemble_eq_ok h'
  obtain ⟨hmembers, hstop⟩ := placeMembers_noLater hms hplaced hplaced'
  have hstrictest : Alignment.strictest (placed.map (·.alignment)) ≤
      Alignment.strictest (placed'.map (·.alignment)) := by
    refine Alignment.strictest_mono ?_
    rw [List.forall₂_map_left_iff, List.forall₂_map_right_iff]
    exact hmembers.imp fun _ _ hp => hp.alignment
  have hle := recordAlignment_mono hstrictest halignment halignment'
  exact ⟨hmembers, Alignment.align_mono hle hstop, hle⟩

/-- Two layouts of one declaration are compared by their members, sizes and alignments. -/
theorem Builds.tighter {Has : Tag → Layout → Prop} {p q : Option Nat}
    (h : Builds limit Has config { decl with pack := p } l)
    (h' : Builds limit Has config { decl with pack := q } l')
    (hmembers : List.Forall₂ MemberLayout.NoLater l.members l'.members) (hsize : l.size ≤ l'.size)
    (halignment : l.alignment ≤ l'.alignment) : l.Tighter l' := by
  have hkind := hmembers.imp fun _ _ hp => hp.toSameKind
  refine ⟨hmembers, hsize, halignment, h.sharedAlike h' rfl ?_ hkind, ?_⟩
  · exact h.exists_members.2.1.trans h'.exists_members.2.1.symm
  · intro x hx y hy hname hxbits hybits hfixed
    obtain ⟨hxl, hxl'⟩ := List.of_mem_zip hx
    obtain ⟨hyl, hyl'⟩ := List.of_mem_zip hy
    have hxkind : x.1.SameKind x.2 := (List.forall₂_iff_zip.1 hkind).2 hx
    have hykind : y.1.SameKind y.2 := (List.forall₂_iff_zip.1 hkind).2 hy
    refine ⟨h.span_ne_of_fixed hxl hyl hname hxbits hybits hfixed, ?_⟩
    rw [hxkind.name, hykind.name] at hname
    rw [hxkind.fixed] at hfixed
    rw [MemberLayout.isBitField, hxkind.bits] at hxbits
    rw [MemberLayout.isBitField, hykind.bits] at hybits
    exact h'.span_ne_of_fixed hxl' hyl' hname hxbits hybits hfixed

end Whole

/-! ## Building under two packs

The two ways in which the resolver can be known to repeat itself, and the theorem. -/

section Runs

variable {σ : Type} {resolve : Resolver (StateM σ)}

/-- From one state, every resolver tells the same. -/
theorem Resolver.repeats_eq (resolve : Resolver (StateM σ)) : resolve.Repeats Eq := by
  rintro tag s _ rfl l s' l' t' hrun hrun'
  cases hrun.symm.trans hrun'
  exact ⟨⟨rfl, rfl⟩, rfl⟩

/-- A steady resolver tells of the same extents from whatever states. -/
theorem Resolver.Steady.repeats {extent : Tag → Nat × Alignment} (h : resolve.Steady extent) :
    resolve.Repeats fun _ _ => True := by
  intro tag s t _ l s' l' t' hrun hrun'
  exact ⟨Prod.mk.inj ((h tag s l s' hrun).trans (h tag t l' t' hrun').symm), trivial⟩

theorem Resolver.Repeats.tighter {Like : σ → σ → Prop} (h : resolve.Repeats Like)
    {limit : SizeLimit} {config : Config} (hdefault : config.defaultPack = none)
    {decl : RecordDecl} {p q : Option Nat} (hpq : ∀ n ∈ q, ∃ m ∈ p, m ≤ n) {l l' : Layout}
    {s t s' t' : σ} (hlike : Like s t)
    (run : (build limit config resolve { decl with pack := p }).run s = (.ok l, s'))
    (run' : (build limit config resolve { decl with pack := q }).run t = (.ok l', t')) :
    l.Tighter l' := by
  have hbuilds : Builds limit (fun _ _ => True) config _ l :=
    builds_of_run (fun _ _ _ _ _ => trivial) run
  have hbuilds' : Builds limit (fun _ _ => True) config _ l' :=
    builds_of_run (fun _ _ _ _ _ => trivial) run'
  rw [build_eq_resolveDecl] at run run'
  obtain ⟨members, s₁, hmembers, hassemble⟩ := run_bind_eq_ok.1 run
  obtain ⟨members', t₁, hmembers', hassemble'⟩ := run_bind_eq_ok.1 run'
  obtain ⟨htighter, -⟩ :=
    resolveDecl_agree h hdefault decl hpq s t hlike members s₁ members' t₁ hmembers hmembers'
  obtain ⟨hplaced, hsize, halignment⟩ :=
    assemble_noLater htighter (Prod.mk.inj hassemble).1 (Prod.mk.inj hassemble').1
  exact hbuilds.tighter hbuilds' hplaced hsize halignment

/-- **A smaller pack packs tighter.**  If a declaration builds under two packs, from one state of
the resolver, or with one that always tells of the same sizes and alignments, then under the
smaller one no member lies later, the record is neither larger nor more aligned, and the bits of
the bit-fields and the words that they share are the same. -/
theorem build_tighter {config : Config} (hdefault : config.defaultPack = none) {decl : RecordDecl}
    {p q : Option Nat} (hpq : ∀ n ∈ q, ∃ m ∈ p, m ≤ n) {l l' : Layout} {s t s' t' : σ}
    (hsame : s = t ∨ ∃ extent, resolve.Steady extent)
    (run : (build .word64 config resolve { decl with pack := p }).run s = (.ok l, s'))
    (run' : (build .word64 config resolve { decl with pack := q }).run t = (.ok l', t')) :
    l.Tighter l' := by
  rcases hsame with rfl | ⟨extent, hsteady⟩
  · exact resolve.repeats_eq.tighter hdefault hpq rfl run run'
  · exact hsteady.repeats.tighter hdefault hpq trivial run run'

end Runs

/-- A byte that leaves a gap, bit-fields that fill one word and open another, an embedded record,
and a member at a fixed offset. -/
def frame : RecordDecl where
  tag := ⟨"frame"⟩
  members := [{ name := "kind", type := .arith (.unsigned .w8) },
    { name := "id", type := .arith (.unsigned .w32) },
    { name := "low", type := .arith (.unsigned .w16), bits := some 4 },
    { name := "high", type := .arith (.unsigned .w16), bits := some 12 },
    { name := "more", type := .arith (.unsigned .w16), bits := some 8 },
    { name := "body", type := .record ⟨"payload"⟩ },
    { name := "checksum", type := .arith (.unsigned .w16), offset := some 32 }]

/-- The frame without a gap. -/
def tightFrameLayout : Layout :=
  let shape (w : IntWidth) (log : Nat) : Shape := .scalar (.arith (.unsigned w)) w.bytes ⟨log⟩
  .ofMembers ⟨"frame"⟩ .struct
    [⟨"kind", .arith (.unsigned .w8), shape .w8 0, 0, ⟨0⟩, none, false, none⟩,
      ⟨"id", .arith (.unsigned .w32), shape .w32 2, 1, ⟨0⟩, none, false, none⟩,
      ⟨"low", .arith (.unsigned .w16), shape .w16 1, 5, ⟨0⟩, some ⟨0, 4⟩, false, none⟩,
      ⟨"high", .arith (.unsigned .w16), shape .w16 1, 5, ⟨0⟩, some ⟨4, 12⟩, false, none⟩,
      ⟨"more", .arith (.unsigned .w16), shape .w16 1, 7, ⟨0⟩, some ⟨0, 8⟩, false, none⟩,
      ⟨"body", .record ⟨"payload"⟩, .record payloadLayout, 9, ⟨0⟩, none, false, none⟩,
      ⟨"checksum", .arith (.unsigned .w16), shape .w16 1, 32, ⟨0⟩, none, true, none⟩]
    34 ⟨0⟩

/-- The frame under a pack that lowers no alignment. -/
def looseFrameLayout : Layout :=
  let shape (w : IntWidth) (log : Nat) : Shape := .scalar (.arith (.unsigned w)) w.bytes ⟨log⟩
  .ofMembers ⟨"frame"⟩ .struct
    [⟨"kind", .arith (.unsigned .w8), shape .w8 0, 0, ⟨0⟩, none, false, none⟩,
      ⟨"id", .arith (.unsigned .w32), shape .w32 2, 4, ⟨2⟩, none, false, none⟩,
      ⟨"low", .arith (.unsigned .w16), shape .w16 1, 8, ⟨1⟩, some ⟨0, 4⟩, false, none⟩,
      ⟨"high", .arith (.unsigned .w16), shape .w16 1, 8, ⟨1⟩, some ⟨4, 12⟩, false, none⟩,
      ⟨"more", .arith (.unsigned .w16), shape .w16 1, 10, ⟨1⟩, some ⟨0, 8⟩, false, none⟩,
      ⟨"body", .record ⟨"payload"⟩, .record payloadLayout, 12, ⟨1⟩, none, false, none⟩,
      ⟨"checksum", .arith (.unsigned .w16), shape .w16 1, 32, ⟨1⟩, none, true, none⟩]
    36 ⟨2⟩

theorem build_tighter_frame :
    (build .word64 .standard payloadResolver { frame with pack := some 1 }).run () =
        (.ok tightFrameLayout, ()) ∧
      (build .word64 .standard payloadResolver { frame with pack := some 4 }).run () =
        (.ok looseFrameLayout, ()) ∧
      tightFrameLayout.Tighter looseFrameLayout := by
  have htight : (build .word64 .standard payloadResolver { frame with pack := some 1 }).run () =
      (.ok tightFrameLayout, ()) := rfl
  have hloose : (build .word64 .standard payloadResolver { frame with pack := some 4 }).run () =
      (.ok looseFrameLayout, ()) := rfl
  have hpacks : ∀ n ∈ some 4, ∃ m ∈ some 1, m ≤ n := by
    rintro _ ⟨⟩
    exact ⟨1, rfl, by decide⟩
  exact ⟨htight, hloose, build_tighter rfl hpacks (.inl rfl) htight hloose⟩

end NativeRecord
