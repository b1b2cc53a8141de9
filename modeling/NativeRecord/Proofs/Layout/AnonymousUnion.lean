import NativeRecord.Proofs.Alignment
import NativeRecord.Proofs.Layout.Alike
import NativeRecord.Proofs.Layout.Arrangement

/-!
# Anonymous unions beside named ones

A run of members that share their storage takes the place of one member whose type is the union of
them.  The two do not come to the same: a union is as large as its largest member rounded up to its
alignment, while behind the run the next member may start right after the largest one.

The comparison is made in three parts.  Before the run the two structs are placed in the same way.
The run and the single member start at the same offset, since both are aligned for the strictest
member of the union.  Behind them the same members are placed from two offsets, the end of the
largest member of the run and the end of the union; these differ by the rounding, and the placements
are the same from then on if the first of the members starts at one offset in both.

That the rounding does not show is therefore a statement about the one member behind the run.  What
is known of embedded records is only their size and alignment (`HasExtent`), so the resolver may
answer with another layout each time, as long as these stay the same.

## What is here

* `UnionRun` — a run of members that share their storage, between the other members of a struct;
  `RecordDecl.unionOf` and `RecordDecl.withNested` — the union of them, and the struct with a
  member of that type in their place.
* `Layout.SameAround` — the two structs have one size and one alignment, and their other members
  have the same bytes and bits.
* `sameAround_iff_rounding_unseen` — they do exactly when the rounding of the union does not show
  in the member behind it; `sameAround_of_unrounded` — it does not when the union needs none, or
  when that member's alignment is as strict.
-/

set_option autoImplicit false
namespace NativeRecord

/-! ## The two declarations

The union takes the pack of the struct with it, so that its members have the alignments that they
have in the run. -/

/-- Neighbours that share their storage, as many as there are, between the other members of a
struct.  No member has a fixed offset, and these have no alignment of their own. -/
structure UnionRun (d : RecordDecl) (before run after : List MemberDecl) : Prop where
  form : d.form = .struct
  members : d.members = before ++ (run ++ after)
  free : ∀ m ∈ d.members, m.offset = none
  nonempty : run ≠ []
  shared : ∀ m ∈ run, m.inUnion = true ∧ m.alignment = none
  before_apart : ∀ m ∈ before.getLast?, m.inUnion = false
  after_apart : ∀ m ∈ after.head?, m.inUnion = false

/-- The union of some members, under the pack of the struct. -/
def RecordDecl.unionOf (d : RecordDecl) (tag : Tag) (run : List MemberDecl) : RecordDecl where
  tag := tag
  form := .union
  members := run
  pack := d.pack

/-- The struct with one member of a named type between the others. -/
def RecordDecl.withNested (d : RecordDecl) (before after : List MemberDecl) (name : String)
    (tag : Tag) : RecordDecl :=
  { d with members := before ++ { name := name, type := .record tag } :: after }

/-- One size, one alignment, and the same bytes and bits for the members before and after a run,
and before and after a single member. -/
structure Layout.SameAround (l l' : Layout) (before run : Nat) : Prop where
  front : List.Forall₂ MemberLayout.SamePlace (l.members.take before) (l'.members.take before)
  back : List.Forall₂ MemberLayout.SamePlace (l.members.drop (before + run))
    (l'.members.drop (before + 1))
  size : l.size = l'.size
  alignment : l.alignment = l'.alignment

/-! ## Resolving the members

The three declarations are resolved in three builds, which may be told of different layouts for one
type.  What comes out is alike in all that placing looks at. -/

/-- Lists that are each related to one list are related to each other. -/
theorem forall₂_of_common {α β γ : Type} {R : α → β → Prop} {S : α → γ → Prop} {T : β → γ → Prop}
    {xs : List α} (hT : ∀ x ∈ xs, ∀ y z, R x y → S x z → T y z) {ys : List β} {zs : List γ}
    (h : List.Forall₂ R xs ys) (h' : List.Forall₂ S xs zs) : List.Forall₂ T ys zs := by
  induction h generalizing zs with
  | nil => cases h'; exact .nil
  | cons hab _ ih =>
    obtain ⟨hhead, htail⟩ := List.forall_mem_cons.1 hT
    cases h' with
    | cons hac hrest => exact .cons (hhead _ _ hab hac) (ih htail hrest)

/-- The layout has the size and the alignment that records of its type have. -/
def HasExtent (extent : Tag → Nat × Alignment) (tag : Tag) (l : Layout) : Prop :=
  (l.size, l.alignment) = extent tag

section Resolve

variable {limit : SizeLimit} {platform : Platform} {owner owner' : Tag}
  {extent : Tag → Nat × Alignment}

/-- A type has one size and one alignment if every embedded record has. -/
theorem ShapeOf.extent_eq {name name' : String} {type : CType} {s s' : Shape}
    (h : ShapeOf limit platform owner (HasExtent extent) name type s)
    (h' : ShapeOf limit platform owner' (HasExtent extent) name' type s') :
    s.size = s'.size ∧ s.alignment = s'.alignment := by
  have scalar {x : Scalar} {s s' : Shape} (hs : scalarShape platform owner name x = .ok s)
      (hs' : scalarShape platform owner' name' x = .ok s') :
      s.size = s'.size ∧ s.alignment = s'.alignment := by
    simp only [scalarShape] at hs hs'
    split at hs <;> cases hs
    rename_i hwidth
    rw [hwidth] at hs'
    cases hs'
    exact ⟨rfl, rfl⟩
  induction h generalizing s' with
  | arith hs => cases h' with | arith hs' => exact scalar hs hs'
  | pointer hs => cases h' with | pointer hs' => exact scalar hs hs'
  | record hl =>
    cases h' with
    | record hl' => exact Prod.mk.inj (hl.trans hl'.symm)
  | array _ _ ih =>
    cases h' with
    | array hs' =>
      obtain ⟨hsize, halignment⟩ := ih hs'
      exact ⟨congrArg (· * _) hsize, halignment⟩

theorem MemberOf.extent_eq {pack : Option Alignment} {decl : MemberDecl} {m m' : ResolvedMember}
    (h : MemberOf limit platform owner (HasExtent extent) pack decl m)
    (h' : MemberOf limit platform owner' (HasExtent extent) pack decl m') :
    m.size = m'.size ∧ m.shape.alignment = m'.shape.alignment :=
  h.shape.extent_eq h'.shape

theorem MemberOf.alike {pack : Option Alignment} {decl : MemberDecl} {m m' : ResolvedMember}
    (h : MemberOf limit platform owner (HasExtent extent) pack decl m)
    (h' : MemberOf limit platform owner (HasExtent extent) pack decl m') : m.Alike m' := by
  obtain ⟨hsize, hnatural⟩ := h.extent_eq h'
  refine ⟨h.decl_eq.trans h'.decl_eq.symm, hsize, ?_⟩
  have halignment := h.alignment
  rw [hnatural, h'.alignment] at halignment
  exact (Except.ok.inj halignment).symm

/-- Members that ask for no alignment are alike also in a record of another tag. -/
theorem MemberOf.alike_of_free {pack : Option Alignment} {decl : MemberDecl}
    {m m' : ResolvedMember} (hfree : decl.alignment = none)
    (h : MemberOf limit platform owner (HasExtent extent) pack decl m)
    (h' : MemberOf limit platform owner' (HasExtent extent) pack decl m') : m.Alike m' := by
  obtain ⟨hsize, hnatural⟩ := h.extent_eq h'
  refine ⟨h.decl_eq.trans h'.decl_eq.symm, hsize, ?_⟩
  rw [h.alignment_eq hfree, h'.alignment_eq hfree, hnatural]

/-- A member that is a record, and asks for nothing else, has the extent of its type under the
pack. -/
theorem MemberOf.of_record {pack : Option Alignment} {name : String} {tag : Tag}
    {m : ResolvedMember}
    (h : MemberOf limit platform owner (HasExtent extent) pack
      { name := name, type := .record tag } m) :
    m.size = (extent tag).1 ∧ m.alignment = (extent tag).2.packed pack := by
  rw [h.alignment_eq rfl, ResolvedMember.size]
  have hshape := h.shape
  generalize m.shape = shape at hshape
  cases hshape with
  | record hl =>
    rw [← hl]
    exact ⟨rfl, rfl⟩

variable {pack : Option Alignment} {decls : List MemberDecl} {ms ms' : List ResolvedMember}

/-- The members of one declaration come out alike in two builds. -/
theorem membersOf_alike
    (h : List.Forall₂ (MemberOf limit platform owner (HasExtent extent) pack) decls ms)
    (h' : List.Forall₂ (MemberOf limit platform owner (HasExtent extent) pack) decls ms') :
    List.Forall₂ ResolvedMember.Alike ms ms' :=
  forall₂_of_common (fun _ _ _ _ hm hm' => hm.alike hm') h h'

theorem membersOf_alike_of_free (hfree : ∀ d ∈ decls, d.alignment = none)
    (h : List.Forall₂ (MemberOf limit platform owner (HasExtent extent) pack) decls ms)
    (h' : List.Forall₂ (MemberOf limit platform owner' (HasExtent extent) pack) decls ms') :
    List.Forall₂ ResolvedMember.Alike ms ms' :=
  forall₂_of_common (fun d hd _ _ hm hm' => hm.alike_of_free (hfree d hd) hm') h h'

end Resolve

/-! ## The union

What the struct sees of the union, which is one of its members: its size and its alignment. -/

section Builds

variable {limit : SizeLimit} {Has : Tag → Layout → Prop} {config : Config} {d : RecordDecl}

/-- **A union has the alignment of its strictest member, and is as large as its largest one rounded
up to that.**  No pack lowers its alignment further. -/
theorem Builds.union_extent {tag : Tag} {run : List MemberDecl} {u : Layout}
    (h : Builds limit Has config (d.unionOf tag run) u)
    (hfree : ∀ m ∈ run, m.alignment = none) :
    ∃ pack members, effectivePack config (d.unionOf tag run) = .ok pack ∧
      List.Forall₂ (MemberOf limit config.platform tag Has pack) run members ∧
      u.alignment = Alignment.strictest (members.map (·.alignment)) ∧
      u.alignment.packed pack = u.alignment ∧
      u.members.map (·.length) = members.map (·.size) ∧
      u.size = u.alignment.align ((members.map (·.size)).foldr max 0) := by
  obtain ⟨pack, members, stop, hpack, hmembers, hplaced, hlengths, -, halignment, hsize⟩ :=
    h.exists_placed
  have halignment : u.alignment = Alignment.strictest (members.map (·.alignment)) :=
    (Except.ok.inj halignment).symm
  refine ⟨pack, members, hpack, hmembers, halignment, ?_, hlengths, ?_⟩
  · rw [halignment]
    refine Alignment.packed_eq_self fun p hp => Alignment.strictest_le ?_
    refine List.forall_mem_map.2 fun m hm => ?_
    obtain ⟨decl, hdecl, hof⟩ := exists_mem_of_forall₂ hmembers hm
    rw [hof.alignment_eq (hfree decl hdecl)]
    exact Alignment.packed_le _ hp
  · have hplaced : overlayMembers config.bitOrder tag members = .ok (u.members, stop) := hplaced
    obtain ⟨-, -, rfl⟩ := overlayMembers_eq_ok_iff.1 hplaced
    exact hsize

end Builds

/-! ## Around the run

The run is placed at one step, since it is one unit, and so is the single member.  The steps behind
it start with the same number of members to place and no open word. -/

/-- The members of a run and those around it, resolved. -/
structure ResolvedRun (bs rs as : List ResolvedMember) : Prop where
  free : ∀ m ∈ bs ++ (rs ++ as), m.decl.offset = none
  nonempty : rs ≠ []
  shared : ∀ m ∈ rs, m.decl.inUnion = true
  before_apart : ∀ m ∈ bs.getLast?, m.decl.inUnion = false
  after_apart : ∀ m ∈ as.head?, m.decl.inUnion = false

/-- Resolving keeps what the declaration says about the run: which members share their storage, and
that none has a fixed offset. -/
theorem UnionRun.resolved {d : RecordDecl} {before run after : List MemberDecl}
    (hrun : UnionRun d before run after) {bs rs as : List ResolvedMember}
    (hbs : bs.map (·.decl) = before) (hrs : rs.map (·.decl) = run)
    (has : as.map (·.decl) = after) : ResolvedRun bs rs as := by
  subst hbs hrs has
  constructor
  · intro m hm
    refine hrun.free m.decl ?_
    rw [hrun.members, ← List.map_append, ← List.map_append]
    exact List.mem_map_of_mem hm
  · exact fun hnil => hrun.nonempty (List.map_eq_nil_iff.2 hnil)
  · exact fun m hm => (hrun.shared m.decl (List.mem_map_of_mem hm)).1
  · intro m hm
    refine hrun.before_apart m.decl ?_
    rw [List.getLast?_map]
    exact Option.mem_map_of_mem _ hm
  · intro m hm
    refine hrun.after_apart m.decl ?_
    rw [List.head?_map]
    exact Option.mem_map_of_mem _ hm

section Place

variable {limit : SizeLimit} {order : BitOrder} {owner : Tag}

/-- What comes before a run and before a single member in its place lies alike.  What comes behind
is placed from the end of the largest member of the run, and from the end of the single member. -/
theorem placeInSequence_around {bs bs' rs as as' : List ResolvedMember} {n : ResolvedMember}
    {placed placed' : List MemberLayout} {stop stop' : Nat}
    (hrun : ResolvedRun bs rs as) (hbefore : List.Forall₂ ResolvedMember.Alike bs bs')
    (hplain : n.decl.offset = none ∧ n.decl.inUnion = false ∧ n.decl.bits = none)
    (halignment : n.alignment = Alignment.strictest (rs.map (·.alignment)))
    (h : placeInSequence limit order owner (bs ++ (rs ++ as)) = .ok (placed, stop))
    (h' : placeInSequence limit order owner (bs' ++ n :: as') = .ok (placed', stop')) :
    ∃ start i i' first first' group others others',
      placed = first ++ (group ++ others) ∧
      placed' = first' ++ n.placedAt start none :: others' ∧
      first.length = bs.length ∧ group.length = rs.length ∧
      List.Forall₂ MemberLayout.SamePlace first first' ∧ n.alignment.bytes ∣ start ∧
      placeUnits limit order owner i ⟨start + (rs.map (·.size)).foldr max 0, none⟩
        (placementUnits as) = .ok (others, stop) ∧
      placeUnits limit order owner i' ⟨start + n.size, none⟩ (placementUnits as') =
        .ok (others', stop') := by
  obtain ⟨leader, rest, rfl⟩ := List.exists_cons_of_ne_nil hrun.nonempty
  have hshared (m : ResolvedMember) (hm : m ∈ leader :: rest) :
      m.decl.offset = none ∧ m.decl.inUnion = true :=
    ⟨hrun.free m (List.mem_append_right _ (List.mem_append_left _ hm)), hrun.shared m hm⟩
  have hnested : placementUnits (n :: as') = .plain n :: placementUnits as' := by
    rw [placementUnits, hplain.1, hplain.2.1, hplain.2.2]
    rfl
  rw [placeInSequence, placementUnits_append (.inl hrun.before_apart),
    placementUnits_append (.inr hrun.after_apart),
    placementUnits_overlay hshared] at h
  rw [placeInSequence, placementUnits_append (.inr fun m hm => by cases hm; exact hplain.2.1),
    hnested] at h'
  obtain ⟨i, i', cursor, first, first', _, _, hsame, hlength, hrun, hsingle, rfl, rfl⟩ :=
    placeUnits_append_alike (placementUnits_alike hbefore) h h'
  obtain ⟨group, _, others, hgroup, hothers, rfl⟩ := placeUnits_cons_eq_ok hrun
  obtain ⟨single, _, others', hmember, hothers', rfl⟩ := placeUnits_cons_eq_ok hsingle
  have hcount := length_placeUnit hgroup
  obtain ⟨-, rfl⟩ := placeUnit_overlay_eq_ok hgroup
  obtain ⟨rfl, rfl⟩ := placeUnit_plain_eq_ok hmember
  rw [flatMap_placementUnits] at hlength
  rw [← halignment] at hothers
  exact ⟨_, _, _, first, first', group, others, others', rfl, rfl, hlength, hcount, hsame,
    Alignment.bytes_dvd_align _ _, hothers, hothers'⟩

/-- Like members behind two offsets lie alike exactly when the first of them starts at one offset
in both.  Then they end at one offset as well, if there are any. -/
theorem placeUnits_behind {as as' : List ResolvedMember}
    (has : List.Forall₂ ResolvedMember.Alike as as')
    (hfree : ∀ m ∈ as, m.decl.offset = none) (hnext : ∀ m ∈ as.head?, m.decl.inUnion = false)
    {i i' a b stop stop' : Nat} {others others' : List MemberLayout}
    (h : placeUnits limit order owner i ⟨a, none⟩ (placementUnits as) = .ok (others, stop))
    (h' : placeUnits limit order owner i' ⟨b, none⟩ (placementUnits as') = .ok (others', stop')) :
    (List.Forall₂ MemberLayout.SamePlace others others' ↔
        ∀ p ∈ others.head?, p.alignment.align a = p.alignment.align b) ∧
      ((∀ p ∈ others.head?, p.alignment.align a = p.alignment.align b) →
        stop = stop' ∨ stop = a ∧ stop' = b) := by
  cases has with
  | nil =>
    cases h
    cases h'
    exact ⟨⟨nofun, fun _ => .nil⟩, fun _ => .inr ⟨rfl, rfl⟩⟩
  | @cons m m' ms ms' hm hms =>
    have hoffset : m.decl.offset = none := hfree m List.mem_cons_self
    have hunion : m.decl.inUnion = false := hnext m rfl
    obtain ⟨rest, rfl, hrest⟩ := placeUnits_fresh hoffset hunion h
    obtain ⟨rest', rfl, hrest'⟩ := placeUnits_fresh (hm.decl ▸ hoffset) (hm.decl ▸ hunion) h'
    have hback (hsame : List.Forall₂ MemberLayout.SamePlace
        (m.placedAt (m.alignment.align a) (aloneInWord order m) :: rest)
        (m'.placedAt (m'.alignment.align b) (aloneInWord order m') :: rest')) :
        m.alignment.align a = m.alignment.align b := by
      cases hsame with
      | cons hhead => exact hm.alignment.symm ▸ hhead.offset
    have hstart (hstart : m.alignment.align a = m.alignment.align b) :
        List.Forall₂ MemberLayout.SamePlace
          (m.placedAt (m.alignment.align a) (aloneInWord order m) :: rest)
          (m'.placedAt (m'.alignment.align b) (aloneInWord order m') :: rest') ∧
        stop = stop' := by
      have hcursor : m.cursorFrom = m'.cursorFrom := by
        funext start
        rw [ResolvedMember.cursorFrom.eq_def, ResolvedMember.cursorFrom.eq_def, hm.decl, hm.size]
      rw [← hm.alignment, ← hstart] at hrest' ⊢
      rw [hcursor] at hrest
      obtain ⟨hsame, hstop⟩ := placeUnits_alike (placementUnits_alike hms) hrest hrest'
      rw [hm.aloneInWord_eq]
      exact ⟨.cons (hm.samePlace ..) hsame, hstop⟩
    refine ⟨⟨?_, fun h => (hstart (h _ rfl)).1⟩, fun h => .inl (hstart (h _ rfl)).2⟩
    rintro hsame p ⟨⟩
    exact hback hsame

end Place

/-! ## The layouts

The size is where the members end, rounded up to the alignment of the record.  So it is the same in
both structs if the members behind the run are; and if there are none, it depends on the rounding of
the union against that of the record, which is at least as strict. -/

/-- The largest length of a layout's members. -/
def Layout.largest (l : Layout) : Nat := (l.members.map (·.length)).foldr max 0

/-- Behind a union at an offset, the next member, if there is one, starts where it would start right
behind the largest member of the union. -/
def Layout.RoundingUnseen (u : Layout) (start : Nat) (next : Option MemberLayout) : Prop :=
  ∀ m ∈ next, m.alignment.align (start + u.largest) = m.alignment.align (start + u.size)

theorem effectivePack_unique {config : Config} {d d' : RecordDecl} {pack pack' : Option Alignment}
    (h : effectivePack config d = .ok pack) (h' : effectivePack config d' = .ok pack')
    (hpack : d.pack = d'.pack) : pack = pack' := by
  rw [effectivePack_eq_ok_iff, hpack] at h
  rw [effectivePack_eq_ok_iff] at h'
  exact Option.map_injective (fun _ _ => Alignment.bytes_injective) (h.symm.trans h')

section Builds

variable {limit : SizeLimit} {config : Config} {extent : Tag → Nat × Alignment} {d : RecordDecl}
  {before run after : List MemberDecl} {name : String} {tag : Tag} {u l l' : Layout}

/-- The resolved members of the two structs: alike before the run and behind it, and between them
the run in one struct and a single member with the extent of the union in the other. -/
structure ResolvedBeside (u : Layout) (bs rs as bs' : List ResolvedMember) (n : ResolvedMember)
    (as' : List ResolvedMember) : Prop where
  run : ResolvedRun bs rs as
  before : List.Forall₂ ResolvedMember.Alike bs bs'
  after : List.Forall₂ ResolvedMember.Alike as as'
  plain : n.decl.offset = none ∧ n.decl.inUnion = false ∧ n.decl.bits = none
  size : n.size = u.size
  alignment : n.alignment = u.alignment
  strictest : u.alignment = Alignment.strictest (rs.map (·.alignment))
  largest : (rs.map (·.size)).foldr max 0 = u.largest
  rounded : u.size = u.alignment.align u.largest

theorem ResolvedBeside.strictest_eq {bs rs as bs' as' : List ResolvedMember} {n : ResolvedMember}
    (h : ResolvedBeside u bs rs as bs' n as') :
    Alignment.strictest ((bs ++ (rs ++ as)).map (·.alignment)) =
      Alignment.strictest ((bs' ++ n :: as').map (·.alignment)) := by
  rw [List.map_append, List.map_append, List.map_append, List.map_cons,
    h.alignment.trans h.strictest, Alignment.strictest_middle, alignments_of_alike h.before,
    alignments_of_alike h.after]

/-- Resolving the two structs gives such members, part by part. -/
theorem UnionRun.resolvedBeside (hrun : UnionRun d before run after)
    (htag : HasExtent extent tag u)
    (hunion : Builds limit (HasExtent extent) config (d.unionOf tag run) u)
    {pack : Option Alignment} (hpack : effectivePack config d = .ok pack)
    {ms ms' : List ResolvedMember}
    (hms : List.Forall₂ (MemberOf limit config.platform d.tag (HasExtent extent) pack) d.members ms)
    (hms' : List.Forall₂ (MemberOf limit config.platform d.tag (HasExtent extent) pack)
      (d.withNested before after name tag).members ms') :
    ∃ bs rs as bs' n as', ms = bs ++ (rs ++ as) ∧ ms' = bs' ++ n :: as' ∧
      bs.length = before.length ∧ rs.length = run.length ∧
      ResolvedBeside u bs rs as bs' n as' := by
  obtain ⟨upack, us, hupack, hus, hualign, hupacked, hulengths, husize⟩ :=
    hunion.union_extent fun m hm => (hrun.shared m hm).2
  obtain rfl := effectivePack_unique hpack hupack rfl
  rw [hrun.members] at hms
  obtain ⟨bs, _, rfl, hbs, hms⟩ := forall₂_append_split hms
  obtain ⟨rs, as, rfl, hrs, has⟩ := forall₂_append_split hms
  obtain ⟨bs', _, rfl, hbs', hms'⟩ := forall₂_append_split hms'
  obtain ⟨n, as', hn, has', rfl⟩ := List.forall₂_cons_left_iff.1 hms'
  -- The members of the run are the same in the union, up to its tag.
  have hshare := membersOf_alike_of_free (fun m hm => (hrun.shared m hm).2) hus hrs
  rw [alignments_of_alike hshare] at hualign
  rw [sizes_of_alike hshare] at hulengths husize
  have hlargest : (rs.map (·.size)).foldr max 0 = u.largest :=
    congrArg (List.foldr max 0) hulengths.symm
  obtain ⟨hnsize, hnalign⟩ := hn.of_record
  rw [← htag] at hnsize hnalign
  refine ⟨bs, rs, as, bs', n, as', rfl, rfl, hbs.length_eq.symm, hrs.length_eq.symm, ?_⟩
  exact {
    run := hrun.resolved (decls_of_membersOf hbs) (decls_of_membersOf hrs) (decls_of_membersOf has)
    before := membersOf_alike hbs hbs'
    after := membersOf_alike has has'
    plain := by rw [hn.decl_eq]; exact ⟨rfl, rfl, rfl⟩
    size := hnsize
    alignment := hnalign.trans hupacked
    strictest := hualign
    largest := hlargest
    rounded := by rw [husize, hlargest] }

/-- **A run and a single member in its place have the same around them** exactly when the rounding
of the union does not show in the member behind it.  What comes before, and the alignment of the
struct, are the same in any case. -/
theorem Builds.sameAround_iff (hrun : UnionRun d before run after)
    (htag : HasExtent extent tag u)
    (hunion : Builds limit (HasExtent extent) config
      (d.unionOf tag run) u)
    (hgroup : Builds limit (HasExtent extent) config d l)
    (hnested : Builds limit (HasExtent extent) config
      (d.withNested before after name tag) l') :
    List.Forall₂ MemberLayout.SamePlace (l.members.take before.length)
        (l'.members.take before.length) ∧
      l.alignment = l'.alignment ∧
      ∃ start, l'.members[before.length]?.map (·.offset) = some start ∧
        u.alignment.bytes ∣ start ∧
        (l.SameAround l' before.length run.length ↔
          u.RoundingUnseen start l.members[before.length + run.length]?) := by
  obtain ⟨pack, ms, stop, hpack, hms, hplaced, -, -, halign, hsize⟩ := hgroup.exists_placed
  obtain ⟨pack', ms', stop', hpack', hms', hplaced', -, -, halign', hsize'⟩ :=
    hnested.exists_placed
  obtain rfl := effectivePack_unique hpack hpack' rfl
  obtain ⟨bs, rs, as, bs', n, as', rfl, rfl, hbs, hrs, hbeside⟩ :=
    hrun.resolvedBeside htag hunion hpack hms hms'
  have halignment : l.alignment = l'.alignment := by
    rw [hbeside.strictest_eq] at halign
    exact Except.ok.inj (halign.symm.trans halign')
  have hle : u.alignment ≤ l'.alignment := by
    rw [← hbeside.alignment]
    refine Alignment.le_trans (Alignment.le_strictest ?_) (Alignment.le_of_recordAlignment halign')
    exact List.mem_map_of_mem (List.mem_append_right _ List.mem_cons_self)
  -- The placements around the run and around the single member.
  have hform' : (d.withNested before after name tag).form = .struct := hrun.form
  rw [placeMembers, hrun.form] at hplaced
  rw [placeMembers, hform'] at hplaced'
  obtain ⟨start, i, i', first, first', group, others, others', hfirst, hfirst', hbefore, hmiddle,
    hfront, hstart, hothers, hothers'⟩ := placeInSequence_around hbeside.run hbeside.before
      hbeside.plain (hbeside.alignment.trans hbeside.strictest) hplaced hplaced'
  rw [hbeside.largest] at hothers
  rw [hbeside.size] at hothers'
  rw [hbeside.alignment] at hstart
  have hsplit : l.Split before.length run.length first group others :=
    ⟨hfirst, hbefore.trans hbs, hmiddle.trans hrs⟩
  have hsplit' : l'.Split before.length 1 first' [n.placedAt start none] others' :=
    ⟨hfirst', hfront.length_eq.symm.trans hsplit.before, rfl⟩
  obtain ⟨hback, hends⟩ := placeUnits_behind hbeside.after
    (fun m hm => hbeside.run.free m (List.mem_append_right _ (List.mem_append_right _ hm)))
    hbeside.run.after_apart hothers hothers'
  have hsizes (hseen : ∀ p ∈ others.head?,
      p.alignment.align (start + u.largest) = p.alignment.align (start + u.size)) :
      l.size = l'.size := by
    rw [hsize, hsize', halignment]
    rcases hends hseen with hstop | ⟨rfl, rfl⟩
    · rw [hstop]
    · rw [hbeside.rounded]
      exact (Alignment.align_add_align hle hstart _).symm
  rw [← hsplit.take, ← hsplit'.take] at hfront
  refine ⟨hfront, halignment, start, ?_, hstart, ?_⟩
  · exact congrArg (Option.map _) (hsplit'.getElem?_from 0)
  rw [hsplit.getElem?_behind]
  constructor
  · intro hsame
    have hothers := hsame.back
    rw [hsplit.drop, hsplit'.drop] at hothers
    exact hback.1 hothers
  · intro hseen
    exact ⟨hfront, by rw [hsplit.drop, hsplit'.drop]; exact hback.2 hseen, hsizes hseen, halignment⟩

theorem Builds.size_union {Has : Tag → Layout → Prop}
    (h : Builds limit Has config (d.unionOf tag run) u) (hfree : ∀ m ∈ run, m.alignment = none) :
    u.size = u.alignment.align u.largest := by
  obtain ⟨_, _, _, _, _, _, hlengths, hsize⟩ := h.union_extent hfree
  rw [hsize, Layout.largest, hlengths]

end Builds

/-! ## Runs of the builder -/

/-- Whenever the resolver answers, it is with a layout of the extent that its type has. -/
def Resolver.Steady {σ : Type} (resolve : Resolver (StateM σ)) (extent : Tag → Nat × Alignment) :
    Prop :=
  ∀ tag s l s', (resolve tag).run s = (.ok l, s') → HasExtent extent tag l

section Runs

variable {σ : Type} {resolve : Resolver (StateM σ)} {extent : Tag → Nat × Alignment}
  {limit : SizeLimit} {config : Config} {d : RecordDecl} {before run after : List MemberDecl}
  {name : String} {tag : Tag} {u l l' : Layout} {s₁ s₂ s₃ t₁ t₂ t₃ : σ}

theorem Resolver.Steady.builds (h : resolve.Steady extent)
    (hrun : (build limit config resolve d).run s₁ = (.ok l, t₁)) :
    Builds limit (HasExtent extent) config d l := by
  have hinforms : resolve.Informs (fun _ _ => True) (fun _ => HasExtent extent) :=
    ⟨fun _ => trivial, fun _ _ _ _ _ => trivial, fun _ _ _ h => h,
      fun tag s => ⟨trivial, fun inner hinner => h tag s inner _ (Prod.ext hinner rfl)⟩⟩
  exact (build_ensures hinforms config d s₁).2 l (by rw [hrun])

/-- **A struct with an anonymous union is laid out like the one with a named union in its place**
exactly when the rounding of the union does not show in the member behind it.  What comes before,
and the alignment of the struct, are the same in any case. -/
theorem sameAround_iff_rounding_unseen (hsteady : resolve.Steady extent)
    (hrun : UnionRun d before run after) (htag : HasExtent extent tag u)
    (hunion : (build limit config resolve (d.unionOf tag run)).run s₁ = (.ok u, t₁))
    (hgroup : (build limit config resolve d).run s₂ = (.ok l, t₂))
    (hnested : (build limit config resolve (d.withNested before after name tag)).run s₃ =
      (.ok l', t₃)) :
    List.Forall₂ MemberLayout.SamePlace (l.members.take before.length)
        (l'.members.take before.length) ∧
      l.alignment = l'.alignment ∧
      ∃ start, l'.members[before.length]?.map (·.offset) = some start ∧
        u.alignment.bytes ∣ start ∧
        (l.SameAround l' before.length run.length ↔
          u.RoundingUnseen start l.members[before.length + run.length]?) :=
  Builds.sameAround_iff hrun htag (hsteady.builds hunion) (hsteady.builds hgroup)
    (hsteady.builds hnested)

/-- **Around a union that needs no rounding, or behind which a member with as strict an alignment
comes, the two structs are the same.** -/
theorem sameAround_of_unrounded (hsteady : resolve.Steady extent)
    (hrun : UnionRun d before run after) (htag : HasExtent extent tag u)
    (hunion : (build limit config resolve (d.unionOf tag run)).run s₁ = (.ok u, t₁))
    (hgroup : (build limit config resolve d).run s₂ = (.ok l, t₂))
    (hnested : (build limit config resolve (d.withNested before after name tag)).run s₃ =
      (.ok l', t₃))
    (hfits : u.alignment.bytes ∣ u.largest ∨
      ∀ next ∈ l.members[before.length + run.length]?, u.alignment ≤ next.alignment) :
    l.SameAround l' before.length run.length := by
  have hsize := (hsteady.builds hunion).size_union fun m hm => (hrun.shared m hm).2
  obtain ⟨-, -, start, -, hstart, hiff⟩ := Builds.sameAround_iff hrun htag
    (hsteady.builds hunion) (hsteady.builds hgroup) (hsteady.builds hnested)
  refine hiff.2 fun next hnext => ?_
  rw [hsize]
  rcases hfits with hdvd | hstrict
  · rw [Alignment.align_eq_self hdvd]
  · exact (Alignment.align_add_align (hstrict next hnext) hstart _).symm

end Runs

/-! ## A union that needs rounding -/

/-- Two bytes or three that share their storage, then a byte. -/
def packet : RecordDecl where
  tag := ⟨"packet"⟩
  members := [{ name := "word", type := .arith (.unsigned .w16), inUnion := true },
    { name := "bytes", type := .array (.arith (.unsigned .w8)) 3, inUnion := true },
    { name := "last", type := .arith (.unsigned .w8) }]

theorem packet_unionRun :
    UnionRun packet [] (packet.members.take 2) (packet.members.drop 2) := by
  constructor <;> decide

/-- The two members as a union: three bytes, rounded up to four. -/
def payloadLayout : Layout :=
  let byte : Shape := .scalar (.arith (.unsigned .w8)) 1 ⟨0⟩
  .ofMembers ⟨"payload"⟩ .union
    [⟨"word", .arith (.unsigned .w16), .scalar (.arith (.unsigned .w16)) 2 ⟨1⟩, 0, ⟨1⟩, none, false,
        none⟩,
      ⟨"bytes", .array (.arith (.unsigned .w8)) 3, .array byte 3, 0, ⟨0⟩, none, false, none⟩]
    4 ⟨1⟩

/-- The byte follows the third one of the run. -/
def packetLayout : Layout :=
  let byte : Shape := .scalar (.arith (.unsigned .w8)) 1 ⟨0⟩
  .ofMembers ⟨"packet"⟩ .struct
    [⟨"word", .arith (.unsigned .w16), .scalar (.arith (.unsigned .w16)) 2 ⟨1⟩, 0, ⟨1⟩, none, false,
        some 0⟩,
      ⟨"bytes", .array (.arith (.unsigned .w8)) 3, .array byte 3, 0, ⟨0⟩, none, false, some 0⟩,
      ⟨"last", .arith (.unsigned .w8), byte, 3, ⟨0⟩, none, false, none⟩]
    4 ⟨1⟩

/-- The byte follows the four bytes of the union. -/
def nestedPacketLayout : Layout :=
  let byte : Shape := .scalar (.arith (.unsigned .w8)) 1 ⟨0⟩
  .ofMembers ⟨"packet"⟩ .struct
    [⟨"payload", .record ⟨"payload"⟩, .record payloadLayout, 0, ⟨1⟩, none, false, none⟩,
      ⟨"last", .arith (.unsigned .w8), byte, 4, ⟨0⟩, none, false, none⟩]
    6 ⟨1⟩

/-- Knows the union and nothing else. -/
def payloadResolver : Resolver (StateM Unit) := fun tag =>
  if tag = ⟨"payload"⟩ then pure payloadLayout else throw (.unknownTag tag)

theorem payloadResolver_steady : payloadResolver.Steady fun _ => (4, ⟨1⟩) := by
  intro tag s l s' h
  unfold payloadResolver at h
  split at h
  · cases h; rfl
  · cases h

theorem packet_runs :
    (build .word64 .standard payloadResolver
        (packet.unionOf ⟨"payload"⟩ (packet.members.take 2))).run () = (.ok payloadLayout, ()) ∧
      (build .word64 .standard payloadResolver packet).run () = (.ok packetLayout, ()) ∧
      (build .word64 .standard payloadResolver
        (packet.withNested [] (packet.members.drop 2) "payload" ⟨"payload"⟩)).run () =
        (.ok nestedPacketLayout, ()) := ⟨rfl, rfl, rfl⟩

/-- **An anonymous union and a named one differ** where the rounding shows: the byte behind it lies
at offset three or four, and the struct takes four bytes or six. -/
theorem packet_not_sameAround :
    UnionRun packet [] (packet.members.take 2) (packet.members.drop 2) ∧
      (build .word64 .standard payloadResolver
        (packet.unionOf ⟨"payload"⟩ (packet.members.take 2))).run () = (.ok payloadLayout, ()) ∧
      (build .word64 .standard payloadResolver packet).run () = (.ok packetLayout, ()) ∧
      (build .word64 .standard payloadResolver
        (packet.withNested [] (packet.members.drop 2) "payload" ⟨"payload"⟩)).run () =
        (.ok nestedPacketLayout, ()) ∧
      ¬ packetLayout.SameAround nestedPacketLayout 0 2 :=
  ⟨packet_unionRun, packet_runs.1, packet_runs.2.1, packet_runs.2.2, fun h => by cases h.size⟩

theorem packet_sameAround_iff :
    packetLayout.SameAround nestedPacketLayout 0 2 ↔
      payloadLayout.RoundingUnseen 0 packetLayout.members[2]? := by
  obtain ⟨hunion, hgroup, hnested⟩ := packet_runs
  have htag : HasExtent (fun _ => (4, ⟨1⟩)) ⟨"payload"⟩ payloadLayout := rfl
  obtain ⟨-, -, start, hstart, -, hiff⟩ := sameAround_iff_rounding_unseen payloadResolver_steady
    packet_unionRun htag hunion hgroup hnested
  cases hstart
  exact hiff

end NativeRecord
