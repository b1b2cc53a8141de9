import NativeRecord.Proofs.Layout.Soundness

/-!
# Placing like members

The placement of a member depends on its declaration, its size and its alignment.  Members that
agree in these are placed alike, also where what surrounds them differs.

Later files compare placements of two lists of members that agree in one part and differ in another:
a row in place of an array, a record in place of an anonymous union.  What they have in common is
here.  Two relations are kept apart.  `ResolvedMember.Alike` is what goes into the placement —
declaration, size and alignment — and `MemberLayout.SamePlace` is what comes out of it; it leaves
out the numbers of anonymous unions, which count members that may differ in the two lists.

A comparison runs along the units, and two things could get in its way.  Members of an anonymous
union could join ones from the other part, so a list is cut only where no union goes across
(`placementUnits_append`).  And a word that is open at the end of one part could take in a bit-field
of the next, so the state carried over is the whole cursor, unless it is known that no word is open
(`placeUnits_fresh`).

## What is here

* `ResolvedMember.Alike`, `MemberLayout.SamePlace` — members that a placement does not tell apart,
  and placed members that have the same bytes and bits.
* `PlacementUnit.Related` — units of one kind, member by member (`placementUnits_related`).
* `Layout.Split` — the members of a layout in three parts; `placementUnits_append` — the units of
  two lists in a row.
* `placeUnits_append_alike` — like members are placed alike from one cursor on, whatever follows.
* `placeUnits_fresh` — where no word is open, the placement depends on the start of the next member
  alone.
-/

set_option autoImplicit false
namespace NativeRecord

/-! ## Like members -/

/-- Resolved members that a placement does not tell apart. -/
structure ResolvedMember.Alike (m m' : ResolvedMember) : Prop where
  decl : m.decl = m'.decl
  size : m.size = m'.size
  alignment : m.alignment = m'.alignment

/-- Members of one name that have the same bytes and the same bits. -/
structure MemberLayout.SamePlace (p p' : MemberLayout) : Prop where
  name : p.name = p'.name
  offset : p.offset = p'.offset
  length : p.length = p'.length
  alignment : p.alignment = p'.alignment
  bits : p.bits = p'.bits

/-- Units of one kind, with members that are related in their order. -/
inductive PlacementUnit.Related (R : ResolvedMember → ResolvedMember → Prop) :
    PlacementUnit → PlacementUnit → Prop
  | fixed {m m' : ResolvedMember} {offset : Nat} (h : R m m') :
      Related R (.fixed m offset) (.fixed m' offset)
  | overlay {first first' : ResolvedMember} {rest rest' : List ResolvedMember}
      (h : R first first') (hrest : List.Forall₂ R rest rest') :
      Related R (.overlay first rest) (.overlay first' rest')
  | bitField {m m' : ResolvedMember} {bits : Nat} (h : R m m') :
      Related R (.bitField m bits) (.bitField m' bits)
  | plain {m m' : ResolvedMember} (h : R m m') : Related R (.plain m) (.plain m')

/-- Units of one kind, with like members. -/
abbrev PlacementUnit.Alike : PlacementUnit → PlacementUnit → Prop := Related ResolvedMember.Alike

section Related

variable {R : ResolvedMember → ResolvedMember → Prop}

/-- Related members join related overlays. -/
theorem PlacementUnit.consOverlay_related {m m' : ResolvedMember} {us us' : List PlacementUnit}
    (hm : R m m') (h : List.Forall₂ (Related R) us us') :
    List.Forall₂ (Related R) (consOverlay m us) (consOverlay m' us') := by
  cases h with
  | nil => exact .cons (.overlay hm .nil) .nil
  | cons hu hus =>
    cases hu with
    | overlay hfirst hrest => exact .cons (.overlay hm (.cons hfirst hrest)) hus
    | fixed h => exact .cons (.overlay hm .nil) (.cons (.fixed h) hus)
    | bitField h => exact .cons (.overlay hm .nil) (.cons (.bitField h) hus)
    | plain h => exact .cons (.overlay hm .nil) (.cons (.plain h) hus)

/-- **Members of one declaration form units of one kind,** however else they differ. -/
theorem placementUnits_related (hdecl : ∀ m m', R m m' → m.decl = m'.decl)
    {ms ms' : List ResolvedMember} (h : List.Forall₂ R ms ms') :
    List.Forall₂ (PlacementUnit.Related R) (placementUnits ms) (placementUnits ms') := by
  induction h with
  | nil => exact .nil
  | @cons m m' ms ms' hm _ ih =>
    rw [placementUnits, placementUnits, ← hdecl m m' hm]
    cases m.decl.offset with
    | some offset => exact .cons (.fixed hm) ih
    | none =>
      dsimp only
      split
      · exact PlacementUnit.consOverlay_related hm ih
      · cases m.decl.bits with
        | some bits => exact .cons (.bitField hm) ih
        | none => exact .cons (.plain hm) ih

end Related

theorem placementUnits_alike {ms ms' : List ResolvedMember}
    (h : List.Forall₂ ResolvedMember.Alike ms ms') :
    List.Forall₂ PlacementUnit.Alike (placementUnits ms) (placementUnits ms') :=
  placementUnits_related (fun _ _ hm => hm.decl) h

/-! ## Lists in parts

A layout whose members are three lists in a row, and where the units of a list come apart. -/

/-- The members of a layout in three parts. -/
structure Layout.Split (l : Layout) (before middle : Nat)
    (first group others : List MemberLayout) : Prop where
  members : l.members = first ++ (group ++ others)
  before : first.length = before
  middle : group.length = middle

namespace Layout.Split

variable {l : Layout} {i j : Nat} {first group others : List MemberLayout}

/-- The members before the middle part. -/
theorem take (h : l.Split i j first group others) : l.members.take i = first := by
  rw [h.members, ← h.before, List.take_left]

/-- The members behind the middle part. -/
theorem drop (h : l.Split i j first group others) : l.members.drop (i + j) = others := by
  rw [h.members, ← h.before, ← h.middle, ← List.append_assoc, ← List.length_append,
    List.drop_left]

theorem getElem?_from (h : l.Split i j first group others) (k : Nat) :
    l.members[i + k]? = (group ++ others)[k]? := by
  rw [h.members, ← h.before, List.getElem?_append_right (Nat.le_add_right _ _),
    Nat.add_sub_cancel_left]

theorem getElem?_behind (h : l.Split i j first group others) :
    l.members[i + j]? = others.head? := by
  rw [← List.head?_drop, h.drop]

end Layout.Split

/-- A member is in some unit. -/
theorem placementUnits_ne_nil {m : ResolvedMember} {ms : List ResolvedMember} :
    placementUnits (m :: ms) ≠ [] := by
  intro h
  have hmembers := flatMap_placementUnits (m :: ms)
  rw [h] at hmembers
  cases hmembers

/-- Joining looks at the first unit only. -/
theorem PlacementUnit.consOverlay_append (m : ResolvedMember) {us : List PlacementUnit}
    (h : us ≠ []) (vs : List PlacementUnit) :
    consOverlay m (us ++ vs) = consOverlay m us ++ vs := by
  cases us with
  | nil => exact absurd rfl h
  | cons u us => cases u <;> rfl

/-- A member joins only an anonymous union whose first member comes right after it. -/
theorem PlacementUnit.consOverlay_apart (m : ResolvedMember) {ms : List ResolvedMember}
    (h : ∀ n ∈ ms.head?, n.decl.inUnion = false) :
    consOverlay m (placementUnits ms) = .overlay m [] :: placementUnits ms := by
  cases ms with
  | nil => rfl
  | cons n ms =>
    have hn : n.decl.inUnion = false := h n rfl
    rw [placementUnits, hn]
    cases n.decl.offset with
    | some offset => rfl
    | none => cases n.decl.bits <;> rfl

/-- **The units of two lists in a row are those of each,** unless an anonymous union goes from one
into the other. -/
theorem placementUnits_append {ms ns : List ResolvedMember}
    (h : (∀ m ∈ ms.getLast?, m.decl.inUnion = false) ∨ ∀ n ∈ ns.head?, n.decl.inUnion = false) :
    placementUnits (ms ++ ns) = placementUnits ms ++ placementUnits ns := by
  induction ms with
  | nil => rfl
  | cons m ms ih =>
    have ih : placementUnits (ms ++ ns) = placementUnits ms ++ placementUnits ns := by
      refine ih (h.imp_left fun hlast n hn => hlast n ?_)
      cases ms with
      | nil => cases hn
      | cons => rwa [List.getLast?_cons_cons]
    rw [List.cons_append, placementUnits, placementUnits, ih]
    cases m.decl.offset with
    | some offset => rfl
    | none =>
      dsimp only
      split
      · rename_i hunion
        cases ms with
        | nil =>
          have hapart : ∀ n ∈ ns.head?, n.decl.inUnion = false :=
            h.resolve_left fun hlast => by
              rw [hlast m rfl] at hunion
              cases hunion
          exact PlacementUnit.consOverlay_apart m hapart
        | cons n ms => exact PlacementUnit.consOverlay_append m placementUnits_ne_nil _
      · cases m.decl.bits <;> rfl

/-- Members that share their storage are placed in one step. -/
theorem placementUnits_overlay {first : ResolvedMember} {rest : List ResolvedMember}
    (h : ∀ m ∈ first :: rest, m.decl.offset = none ∧ m.decl.inUnion = true) :
    placementUnits (first :: rest) = [.overlay first rest] := by
  induction rest generalizing first with
  | nil =>
    obtain ⟨hoffset, hunion⟩ := h first List.mem_cons_self
    rw [placementUnits, hoffset, hunion]
    rfl
  | cons second rest ih =>
    obtain ⟨hfirst, hrest⟩ := List.forall_mem_cons.1 h
    rw [placementUnits, ih hrest, hfirst.1, hfirst.2]
    rfl

/-! ## Placing like members

Like units lead from one cursor to one cursor. -/

section Place

variable {limit : SizeLimit} {order : BitOrder} {owner : Tag}

/-- Like members at one offset with the same bits have the same place. -/
theorem ResolvedMember.Alike.samePlace {m m' : ResolvedMember} (h : m.Alike m') (offset : Nat)
    (bits : Option BitRange) (fixed fixed' : Bool) (group group' : Option Nat) :
    (m.placedAt offset bits fixed group).SamePlace (m'.placedAt offset bits fixed' group') :=
  ⟨congrArg MemberDecl.name h.decl, rfl, h.size, h.alignment, rfl⟩

theorem ResolvedMember.Alike.aloneInWord_eq {m m' : ResolvedMember} (h : m.Alike m') :
    aloneInWord order m = aloneInWord order m' := by
  rw [aloneInWord, aloneInWord, h.decl, h.size]

/-- Like members have the same sizes, one by one. -/
theorem sizes_of_alike {ms ms' : List ResolvedMember}
    (h : List.Forall₂ ResolvedMember.Alike ms ms') : ms.map (·.size) = ms'.map (·.size) :=
  map_eq_map_of_forall₂ (fun _ _ hm => hm.size) h

/-- Like members have the same alignments, one by one. -/
theorem alignments_of_alike {ms ms' : List ResolvedMember}
    (h : List.Forall₂ ResolvedMember.Alike ms ms') :
    ms.map (·.alignment) = ms'.map (·.alignment) :=
  map_eq_map_of_forall₂ (fun _ _ hm => hm.alignment) h

/-- Like bit-fields find the same word. -/
theorem Cursor.WordFor.eq_of_alike {cursor : Cursor} {m m' : ResolvedMember} {bits next next' : Nat}
    {word word' : BackingWord} (hm : m.Alike m') (h : cursor.WordFor m bits word next)
    (h' : cursor.WordFor m' bits word' next') : word = word' ∧ next = next' := by
  have hroom : cursor.room? m.size bits = cursor.room? m'.size bits := by rw [hm.size]
  cases h with
  | shared hword hsize hfits =>
    have hopen : cursor.room? m.size bits = some word :=
      room?_eq_some_iff.2 ⟨hword, hsize, hfits⟩
    cases h' with
    | shared hword' => exact ⟨Option.some.inj (hword.symm.trans hword'), rfl⟩
    | opened hfull => rw [hopen, hfull] at hroom; cases hroom
  | opened hfull =>
    cases h' with
    | shared hword hsize hfits =>
      have hopen : cursor.room? m'.size bits = some word' :=
        room?_eq_some_iff.2 ⟨hword, hsize, hfits⟩
      rw [hopen, hfull] at hroom
      cases hroom
    | opened => rw [hm.alignment, hm.size]; exact ⟨rfl, rfl⟩

/-- **Like units are placed alike** from one cursor, and leave one cursor behind. -/
theorem placeUnit_alike {index index' : Nat} {cursor next next' : Cursor} {u u' : PlacementUnit}
    {placed placed' : List MemberLayout} (hu : u.Alike u')
    (h : placeUnit limit order owner index cursor u = .ok (placed, next))
    (h' : placeUnit limit order owner index' cursor u' = .ok (placed', next')) :
    List.Forall₂ MemberLayout.SamePlace placed placed' ∧ next = next' := by
  cases hu with
  | fixed hm =>
    obtain ⟨rfl, rfl⟩ := placeUnit_fixed_eq_ok h
    obtain ⟨rfl, rfl⟩ := placeUnit_fixed_eq_ok h'
    rw [hm.aloneInWord_eq, hm.size]
    exact ⟨.cons (hm.samePlace ..) .nil, rfl⟩
  | @overlay first first' rest rest' hm hrest =>
    obtain ⟨rfl, rfl⟩ := placeUnit_overlay_eq_ok h
    obtain ⟨rfl, rfl⟩ := placeUnit_overlay_eq_ok h'
    have hall : List.Forall₂ ResolvedMember.Alike (first :: rest) (first' :: rest') :=
      .cons hm hrest
    rw [sizes_of_alike hall, alignments_of_alike hall]
    refine ⟨?_, rfl⟩
    rw [List.forall₂_map_left_iff, List.forall₂_map_right_iff]
    refine hall.imp fun a b hab => ?_
    rw [hab.aloneInWord_eq]
    exact hab.samePlace ..
  | bitField hm =>
    obtain ⟨word, next, hword, rfl, rfl⟩ := placeUnit_bitField_eq_ok h
    obtain ⟨word', next', hword', rfl, rfl⟩ := placeUnit_bitField_eq_ok h'
    obtain ⟨rfl, rfl⟩ := hword.eq_of_alike hm hword'
    rw [hm.size]
    exact ⟨.cons (hm.samePlace ..) .nil, rfl⟩
  | plain hm =>
    obtain ⟨rfl, rfl⟩ := placeUnit_plain_eq_ok h
    obtain ⟨rfl, rfl⟩ := placeUnit_plain_eq_ok h'
    rw [hm.size, hm.alignment]
    exact ⟨.cons (hm.samePlace ..) .nil, rfl⟩

/-- A unit places as many members as it has. -/
theorem length_placeUnit {index : Nat} {cursor next : Cursor} {u : PlacementUnit}
    {placed : List MemberLayout}
    (h : placeUnit limit order owner index cursor u = .ok (placed, next)) :
    placed.length = u.members.length := by
  cases u with
  | fixed => obtain ⟨rfl, -⟩ := placeUnit_fixed_eq_ok h; rfl
  | overlay => obtain ⟨rfl, -⟩ := placeUnit_overlay_eq_ok h; exact List.length_map _
  | bitField => obtain ⟨_, _, -, rfl, -⟩ := placeUnit_bitField_eq_ok h; rfl
  | plain => obtain ⟨rfl, -⟩ := placeUnit_plain_eq_ok h; rfl

/-- **Like members are placed alike from one cursor on,** whatever follows them, and what follows
is placed from one cursor as well. -/
theorem placeUnits_append_alike {us us' : List PlacementUnit}
    (hus : List.Forall₂ PlacementUnit.Alike us us') {vs vs' : List PlacementUnit}
    {index index' stop stop' : Nat} {cursor : Cursor} {placed placed' : List MemberLayout}
    (h : placeUnits limit order owner index cursor (us ++ vs) = .ok (placed, stop))
    (h' : placeUnits limit order owner index' cursor (us' ++ vs') = .ok (placed', stop')) :
    ∃ i i' next first first' others others',
      List.Forall₂ MemberLayout.SamePlace first first' ∧
      first.length = (us.flatMap PlacementUnit.members).length ∧
      placeUnits limit order owner i next vs = .ok (others, stop) ∧
      placeUnits limit order owner i' next vs' = .ok (others', stop') ∧
      placed = first ++ others ∧ placed' = first' ++ others' := by
  induction hus generalizing index index' cursor placed placed' with
  | nil => exact ⟨_, _, _, [], [], _, _, .nil, rfl, h, h', rfl, rfl⟩
  | cons hu _ ih =>
    obtain ⟨first, next, others, hfirst, hothers, rfl⟩ := placeUnits_cons_eq_ok h
    obtain ⟨first', next', others', hfirst', hothers', rfl⟩ := placeUnits_cons_eq_ok h'
    obtain ⟨hsame, rfl⟩ := placeUnit_alike hu hfirst hfirst'
    obtain ⟨i, i', last, before, before', after, after', hbefore, hlength, hafter, hafter', rfl,
      rfl⟩ := ih hothers hothers'
    refine ⟨i, i', last, first ++ before, first' ++ before', after, after',
      List.rel_append hsame hbefore, ?_, hafter, hafter', ?_, ?_⟩
    · rw [List.length_append, List.flatMap_cons, List.length_append, hlength,
        length_placeUnit hfirst]
    · exact (List.append_assoc ..).symm
    · exact (List.append_assoc ..).symm

/-- **Like members are placed alike,** and end at the same offset. -/
theorem placeUnits_alike {us us' : List PlacementUnit}
    (hus : List.Forall₂ PlacementUnit.Alike us us') {index index' stop stop' : Nat}
    {cursor : Cursor} {placed placed' : List MemberLayout}
    (h : placeUnits limit order owner index cursor us = .ok (placed, stop))
    (h' : placeUnits limit order owner index' cursor us' = .ok (placed', stop')) :
    List.Forall₂ MemberLayout.SamePlace placed placed' ∧ stop = stop' := by
  rw [← List.append_nil us] at h
  rw [← List.append_nil us'] at h'
  obtain ⟨_, _, _, first, first', _, _, hsame, -, hnil, hnil', rfl, rfl⟩ :=
    placeUnits_append_alike hus h h'
  cases hnil
  cases hnil'
  rw [List.append_nil, List.append_nil]
  exact ⟨hsame, rfl⟩

/-- The cursor behind a member that starts at an offset where no word is open. -/
def ResolvedMember.cursorFrom (m : ResolvedMember) (start : Nat) : Cursor :=
  match m.decl.bits with
  | none => ⟨start + m.size, none⟩
  | some bits => ⟨start, some ⟨start, m.size, bits⟩⟩

/-- Where no word is open, a member of no anonymous union starts at the first offset that is
aligned for it, and what follows depends on nothing but that start. -/
theorem placeUnits_fresh {m : ResolvedMember} {ms : List ResolvedMember}
    (hoffset : m.decl.offset = none) (hunion : m.decl.inUnion = false) {index next stop : Nat}
    {placed : List MemberLayout}
    (h : placeUnits limit order owner index ⟨next, none⟩ (placementUnits (m :: ms)) =
      .ok (placed, stop)) :
    let start := m.alignment.align next
    ∃ others, placed = m.placedAt start (aloneInWord order m) :: others ∧
      placeUnits limit order owner (index + 1) (m.cursorFrom start) (placementUnits ms) =
        .ok (others, stop) := by
  rw [placementUnits, hoffset, hunion] at h
  unfold aloneInWord ResolvedMember.cursorFrom
  cases hbits : m.decl.bits with
  | none =>
    rw [hbits] at h
    obtain ⟨first, cursor', others, hfirst, hothers, rfl⟩ := placeUnits_cons_eq_ok h
    obtain ⟨rfl, rfl⟩ := placeUnit_plain_eq_ok hfirst
    exact ⟨others, rfl, hothers⟩
  | some bits =>
    rw [hbits] at h
    obtain ⟨first, cursor', others, hfirst, hothers, rfl⟩ := placeUnits_cons_eq_ok h
    obtain ⟨word, next', hword, rfl, rfl⟩ := placeUnit_bitField_eq_ok hfirst
    cases hword with
    | shared hword => cases hword
    | opened => rw [Nat.zero_add] at hothers; exact ⟨others, rfl, hothers⟩

end Place

end NativeRecord
