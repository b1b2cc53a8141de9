import NativeRecord.Proofs.Alignment
import NativeRecord.Proofs.Layout.Alike
import NativeRecord.Proofs.Layout.ArrayRow
import NativeRecord.Proofs.Layout.MemberMap

/-!
# Unrolled arrays

An array that is a member of a struct is placed like a row of members, one for each element: each of
them ends where the next one may start, since the size of an element is a multiple of its alignment.
What comes behind is placed from the same end, so nothing else moves.  Only the anonymous unions
behind the array are numbered further on.

The proof compares two runs of the placement that start alike, differ in the middle and go on alike.
`placeUnits_append` cuts a run at the array; what comes before it is the same run on both sides.  In
the middle, one step stands against as many steps as there are elements, and the invariant of the
latter is that each of them starts where an aligned offset has been reached, so that aligning
changes nothing (`placeRun_row`).  Both leave the cursor at the same end with no open word, or both
run past the limit, though with different errors: a member of the row is blamed where the array was,
and this is why `Outcomes` does not compare the errors.  What comes behind sees the same cursor and
another index, and the index only goes into the numbers of anonymous unions (`placeUnits_regroup`).

Two layouts related in this way then agree in all that is computed from the placed members: the
strictest alignment, the final check and the coverage are shown for `RowInPlace` one by one.

## What is here

* `placeRun`, `placeUnits_append` — units placed up to a point, and from there on.
* `MemberLayout.regroup` — the numbers of anonymous unions moved on; the placement of what is
  counted further on is that (`placeUnits_regroup`).
* `ResolvedMember.Unrolls` — an array and a row in its place; `placeInSequence_unrolls` — they are
  placed alike.
* `Layout.Unrolled` — two layouts that differ in nothing else; `assemble_unrolls` — they are put
  together from such members, or neither is.
-/

set_option autoImplicit false
namespace NativeRecord

/-! ## Placing in parts

`placeUnits` closes the open word at its end, so it cannot be continued; `placeRun` is the same
without this, and placing a list is a run over its first part and a placement of the rest. -/

section Parts

variable (limit : SizeLimit) (order : BitOrder) (owner : Tag)

/-- Places the units in order, and leaves the cursor behind them. -/
def placeRun (index : Nat) (cursor : Cursor) :
    List PlacementUnit → Except LayoutError (List MemberLayout × Cursor)
  | [] => .ok ([], cursor)
  | unit :: units => do
    let (members, cursor) ← placeUnit limit order owner index cursor unit
    let (others, cursor) ← placeRun (index + members.length) cursor units
    return (members ++ others, cursor)

variable {limit order owner} {index : Nat} {cursor next : Cursor} {us : List PlacementUnit}
  {placed : List MemberLayout}

theorem placeRun_cons_eq_ok {u : PlacementUnit}
    (h : placeRun limit order owner index cursor (u :: us) = .ok (placed, next)) :
    ∃ first cursor' others, placeUnit limit order owner index cursor u = .ok (first, cursor') ∧
      placeRun limit order owner (index + first.length) cursor' us = .ok (others, next) ∧
      placed = first ++ others := by
  simp only [placeRun, except_bind_eq_ok] at h
  obtain ⟨⟨first, cursor'⟩, hfirst, ⟨others, _⟩, hothers, h⟩ := h
  cases h
  exact ⟨first, cursor', others, hfirst, hothers, rfl⟩

/-- Placing as a bind, for the outcomes of two placements to be compared step by step. -/
theorem placeUnits_cons (index : Nat) (cursor : Cursor) (u : PlacementUnit)
    (us : List PlacementUnit) :
    placeUnits limit order owner index cursor (u :: us) =
      placeUnit limit order owner index cursor u >>= fun (first, next) =>
        (placeUnits limit order owner (index + first.length) next us).map fun (others, stop) =>
          (first ++ others, stop) := by
  rw [placeUnits]
  rcases placeUnit limit order owner index cursor u with e | ⟨first, next⟩
  · rfl
  · show (placeUnits limit order owner (index + first.length) next us >>= _) = Except.map _ _
    cases placeUnits limit order owner (index + first.length) next us <;> rfl

/-- **Units in a row are placed one part after the other.** -/
theorem placeUnits_append (index : Nat) (cursor : Cursor) (us vs : List PlacementUnit) :
    placeUnits limit order owner index cursor (us ++ vs) =
      placeRun limit order owner index cursor us >>= fun (first, next) =>
        (placeUnits limit order owner (index + first.length) next vs).map fun (others, stop) =>
          (first ++ others, stop) := by
  induction us generalizing index cursor with
  | nil =>
    show placeUnits limit order owner index cursor vs =
      (placeUnits limit order owner index cursor vs).map _
    cases placeUnits limit order owner index cursor vs <;> rfl
  | cons u us ih =>
    rw [List.cons_append, placeUnits, placeRun]
    rcases placeUnit limit order owner index cursor u with e | ⟨first, cursor'⟩
    · rfl
    · show (placeUnits limit order owner (index + first.length) cursor' (us ++ vs) >>= _) =
        (placeRun limit order owner (index + first.length) cursor' us >>= _) >>= _
      rw [ih]
      rcases placeRun limit order owner (index + first.length) cursor' us with e | ⟨middle, next⟩
      · rfl
      · show ((placeUnits limit order owner (index + first.length + middle.length) next
            vs).map _ >>= _) =
          (placeUnits limit order owner (index + (first ++ middle).length) next vs).map _
        rw [List.length_append, Nat.add_assoc]
        rcases placeUnits limit order owner (index + (first.length + middle.length)) next vs with
          e | ⟨others, stop⟩
        · rfl
        · refine congrArg (fun placed => Except.ok (placed, stop)) ?_
          rw [List.append_assoc]

/-- A run places as many members as its units have. -/
theorem length_placeRun (h : placeRun limit order owner index cursor us = .ok (placed, next)) :
    placed.length = (us.flatMap PlacementUnit.members).length := by
  induction us generalizing index cursor placed with
  | nil => cases h; rfl
  | cons u us ih =>
    obtain ⟨first, cursor', others, hfirst, hothers, rfl⟩ := placeRun_cons_eq_ok h
    rw [List.length_append, List.flatMap_cons, List.length_append, length_placeUnit hfirst,
      ih hothers]

end Parts

/-! ## Numbers of anonymous unions

The number of a union is the index of its first member, so a row that is longer than one moves the
numbers behind it on.  All that the numbers are ever used for is to tell which members may share
storage, and that survives. -/

namespace MemberLayout

/-- The member with its anonymous union counted further on, if its number is not less than that. -/
def regroup (least further : Nat) (m : MemberLayout) : MemberLayout :=
  { m with unionGroup := m.unionGroup.map fun g => if least ≤ g then g + further else g }

theorem keepsPlace_regroup (least further : Nat) : KeepsPlace (regroup least further) :=
  ⟨fun _ => rfl, fun _ => rfl, fun _ => rfl, fun _ => rfl, fun _ => rfl⟩

/-- Members of one anonymous union stay together, and apart from others. -/
theorem mayShare_regroup (least further : Nat) (a b : MemberLayout) :
    (a.regroup least further).mayShare (b.regroup least further) = a.mayShare b := by
  have hinjective : Function.Injective fun g => if least ≤ g then g + further else g := by
    intro g h hgh
    dsimp only at hgh
    split at hgh <;> split at hgh <;> omega
  have hunion : (a.regroup least further).SameUnion (b.regroup least further) ↔ a.SameUnion b := by
    simp only [SameUnion, regroup, Option.isSome_map, (Option.map_injective hinjective).eq_iff]
  rw [Bool.eq_iff_iff, mayShare_eq_true_iff, mayShare_eq_true_iff, hunion]
  rfl

/-- Unions that are numbered lower keep their numbers. -/
theorem regroup_eq_self {least further : Nat} {m : MemberLayout}
    (h : ∀ g ∈ m.unionGroup, g < least) : m.regroup least further = m := by
  obtain ⟨_, _, _, _, _, _, _, group⟩ := m
  refine congrArg (MemberLayout.mk _ _ _ _ _ _ _) ?_
  cases group with
  | none => rfl
  | some g => exact congrArg some (if_neg (Nat.not_le.2 (h g rfl)))

end MemberLayout

section Regroup

variable {limit : SizeLimit} {order : BitOrder} {owner : Tag} {least further index : Nat}

/-- A unit that is placed further on has its union counted further on, and nothing else changes. -/
theorem placeUnit_regroup (hindex : index ≥ least) (cursor : Cursor) (unit : PlacementUnit) :
    placeUnit limit order owner (index + further) cursor unit =
      (placeUnit limit order owner index cursor unit).map
        fun (placed, cursor) => (placed.map (·.regroup least further), cursor) := by
  cases unit with
  | fixed m offset =>
    simp only [placeUnit]
    cases orOverflow owner m.decl.name (limit.add? offset m.size) <;> rfl
  | plain m =>
    simp only [placeUnit]
    cases orOverflow owner m.decl.name (nextPlace limit cursor.close m.alignment m.size) <;> rfl
  | bitField m bits =>
    simp only [placeUnit]
    cases cursor.room? m.size bits with
    | some word => rfl
    | none =>
      cases orOverflow owner m.decl.name (nextPlace limit cursor.close m.alignment m.size) <;> rfl
  | overlay first rest =>
    have hgroup : (some index).map (fun g => if least ≤ g then g + further else g) =
        some (index + further) := congrArg some (if_pos hindex)
    simp only [placeUnit]
    cases orOverflow owner first.decl.name (nextPlace limit cursor.close _ _) with
    | error e => rfl
    | ok place =>
      refine congrArg (fun placed => Except.ok (placed, _)) ?_
      rw [List.map_map]
      refine List.map_congr_left fun m _ => ?_
      rw [← hgroup]
      rfl

/-- **What is counted further on is placed at the same offsets.** -/
theorem placeUnits_regroup (further : Nat) (hindex : least ≤ index) (cursor : Cursor)
    (units : List PlacementUnit) :
    placeUnits limit order owner (index + further) cursor units =
      (placeUnits limit order owner index cursor units).map
        fun (placed, stop) => (placed.map (·.regroup least further), stop) := by
  have hunits : placeUnits limit order owner (index + further) cursor (units.map id) = _ :=
    placeUnits_map further (fun _ => placeUnit_regroup) hindex cursor units
  rwa [List.map_id] at hunits

/-- The index of a unit is the number of its union. -/
theorem unionGroup_of_placeUnit {cursor next : Cursor} {u : PlacementUnit}
    {placed : List MemberLayout}
    (h : placeUnit limit order owner index cursor u = .ok (placed, next)) :
    ∀ p ∈ placed, ∀ g ∈ p.unionGroup, g = index := by
  cases u with
  | fixed =>
    obtain ⟨rfl, -⟩ := placeUnit_fixed_eq_ok h
    exact List.forall_mem_singleton.2 fun _ hg => by cases hg
  | overlay =>
    obtain ⟨rfl, -⟩ := placeUnit_overlay_eq_ok h
    exact List.forall_mem_map.2 fun _ _ _ hg => (Option.some.inj hg).symm
  | bitField =>
    obtain ⟨_, _, -, rfl, -⟩ := placeUnit_bitField_eq_ok h
    exact List.forall_mem_singleton.2 fun _ hg => by cases hg
  | plain =>
    obtain ⟨rfl, -⟩ := placeUnit_plain_eq_ok h
    exact List.forall_mem_singleton.2 fun _ hg => by cases hg

/-- The anonymous unions of a run are numbered by their first members, counted on from an index. -/
theorem unionGroup_lt_of_placeRun {cursor next : Cursor} {us : List PlacementUnit}
    {placed : List MemberLayout}
    (h : placeRun limit order owner index cursor us = .ok (placed, next)) :
    ∀ p ∈ placed, ∀ g ∈ p.unionGroup, g < index + placed.length := by
  induction us generalizing index cursor placed with
  | nil => cases h; exact List.forall_mem_nil _
  | cons u us ih =>
    obtain ⟨first, cursor', others, hfirst, hothers, rfl⟩ := placeRun_cons_eq_ok h
    rw [List.length_append]
    refine List.forall_mem_append.2 ⟨fun p hp g hg => ?_, fun p hp g hg => ?_⟩
    · have hgroup := unionGroup_of_placeUnit hfirst p hp g hg
      have hlength := List.length_pos_of_mem hp
      omega
    · have hlt := ih hothers p hp g hg
      omega

end Regroup

/-! ## Placing an array and a row

The array is one plain unit and the row is as many as it has members, so a run over the row is set
against one step.  Both start at an offset that is aligned for the element.  A row whose end is
within the limit has all of its members within it, so that it is placed exactly when the array is.
-/

/-- A resolved member that is an array and asks for nothing, and a row of members for its elements,
aligned alike. -/
structure ResolvedMember.Unrolls (a : ResolvedMember) (element : Shape) (es : List ResolvedMember) :
    Prop where
  plain : (PlacementUnit.plain a).Faithful
  shape : a.shape = .array element es.length
  stride : a.alignment.bytes ∣ element.size
  nonempty : es ≠ []
  elements : ∀ e ∈ es,
    (PlacementUnit.plain e).Faithful ∧ e.shape = element ∧ e.alignment = a.alignment

/-- A plain member is a unit of its own. -/
theorem placementUnits_plain_cons {m : ResolvedMember} (h : (PlacementUnit.plain m).Faithful)
    (ms : List ResolvedMember) : placementUnits (m :: ms) = .plain m :: placementUnits ms := by
  rw [placementUnits, h.1, h.2.1, h.2.2]
  rfl

theorem placementUnits_plain_append {ms : List ResolvedMember}
    (h : ∀ m ∈ ms, (PlacementUnit.plain m).Faithful) (ns : List ResolvedMember) :
    placementUnits (ms ++ ns) = ms.map .plain ++ placementUnits ns := by
  induction ms with
  | nil => rfl
  | cons m ms ih =>
    obtain ⟨hm, hms⟩ := List.forall_mem_cons.1 h
    rw [List.cons_append, placementUnits_plain_cons hm, ih hms]
    rfl

section Row

variable {order : BitOrder} {owner : Tag} {cursor : Cursor} {start : Nat}

/-- A plain member is placed where its aligned offset is within the limit, if its end is. -/
theorem placeUnit_plain {limit : SizeLimit} {m : ResolvedMember}
    (hstart : m.alignment.align? limit cursor.close = some start) (index : Nat) :
    placeUnit limit order owner index cursor (.plain m) =
      if limit.Admits (start + m.size) then
        .ok ([m.placedAt start none], ⟨start + m.size, none⟩)
      else .error (.invalidMember owner m.decl.name .sizeOverflow) := by
  have hplace : nextPlace limit cursor.close m.alignment m.size =
      if limit.Admits (start + m.size) then some (start, start + m.size) else none := by
    rw [nextPlace, hstart]
    show ((if limit.Admits (start + m.size) then some (start + m.size) else none) >>= _) = _
    split <;> rfl
  simp only [placeUnit, hplace]
  by_cases hstop : limit.Admits (start + m.size)
  · rw [if_pos hstop, if_pos hstop]
    rfl
  · rw [if_neg hstop, if_neg hstop]
    rfl

/-- The members of a row at their places, from an offset on. -/
def rowFrom (start size : Nat) (es : List ResolvedMember) : List MemberLayout :=
  es.mapIdx fun i e => e.placedAt (start + i * size) none

/-- The rest of a row starts where its first member ends. -/
theorem rowFrom_cons (size : Nat) (e : ResolvedMember) (es : List ResolvedMember) :
    rowFrom start size (e :: es) = e.placedAt start none :: rowFrom (start + size) size es := by
  simp only [rowFrom, List.mapIdx_cons, Nat.zero_mul, Nat.add_zero, item_offset_succ]

variable (order owner) in
/-- **A row is placed without gaps,** from an offset that is aligned for it on, if its end is within
the limit. -/
theorem placeRun_row {alignment : Alignment} {size : Nat} (hlog : alignment.log ≤ 64)
    (hstride : alignment.bytes ∣ size) {es : List ResolvedMember}
    (hes : ∀ e ∈ es, e.size = size ∧ e.alignment = alignment) (hstart : alignment.bytes ∣ start)
    (hfits : SizeLimit.word64.Admits start) (index : Nat) :
    ∃ e, placeRun .word64 order owner index ⟨start, none⟩ (es.map .plain) =
      if SizeLimit.word64.Admits (start + size * es.length) then
        .ok (rowFrom start size es, ⟨start + size * es.length, none⟩)
      else .error e := by
  induction es generalizing start index with
  | nil => exact ⟨.unknownTag owner, (if_pos hfits).symm⟩
  | cons e es ih =>
    obtain ⟨⟨hsize, halignment⟩, hes⟩ := List.forall_mem_cons.1 hes
    have halign : e.alignment.align? .word64 start = some start := by
      rw [halignment]
      exact Alignment.align?_word64_of_dvd hlog hstart (SizeLimit.admits_word64_iff.1 hfits)
    have hstop : start + size * (e :: es).length = start + size + size * es.length := by
      rw [List.length_cons, Nat.mul_succ, Nat.add_comm (size * es.length), Nat.add_assoc]
    rw [List.map_cons, placeRun, placeUnit_plain halign, hsize, hstop, rowFrom_cons]
    split
    · rename_i hnext
      obtain ⟨err, hrest⟩ := ih hes (Nat.dvd_add hstart hstride) hnext (index + 1)
      refine ⟨err, ?_⟩
      show (placeRun .word64 order owner (index + 1) ⟨start + size, none⟩ (es.map .plain) >>= _) = _
      rw [hrest]
      split <;> rfl
    · rename_i hnext
      refine ⟨_, (if_neg fun hlast => hnext (hlast.mono (Nat.le_add_right _ _))).symm⟩

/-- What placing an array comes to, and placing a row in its place. -/
def PlacedUnrolled (a : ResolvedMember) (element : Shape) (es : List ResolvedMember)
    (x y : List MemberLayout × Cursor) : Prop :=
  ∃ start, a.alignment.bytes ∣ start ∧ SizeLimit.word64.Admits a.size ∧
    x = ([a.placedAt start none], ⟨start + a.size, none⟩) ∧
    y = (rowFrom start element.size es, ⟨start + a.size, none⟩)

/-- **An array and a row in its place are placed alike,** or both run past the limit. -/
theorem placeUnit_unrolls {a : ResolvedMember} {element : Shape} {es : List ResolvedMember}
    (ha : a.Unrolls element es) (index : Nat) :
    Outcomes (fun _ _ => True) (PlacedUnrolled a element es)
      (placeUnit .word64 order owner index cursor (.plain a))
      (placeRun .word64 order owner index cursor (es.map .plain)) := by
  have hsize : a.size = element.size * es.length := by
    rw [ResolvedMember.size, ha.shape]
    rfl
  have hes : ∀ e ∈ es, e.size = element.size ∧ e.alignment = a.alignment := fun e he =>
    ⟨congrArg Shape.size (ha.elements e he).2.1, (ha.elements e he).2.2⟩
  obtain ⟨e, rest, rfl⟩ := List.exists_cons_of_ne_nil ha.nonempty
  obtain ⟨⟨hfirst, hfirst'⟩, hrest⟩ := List.forall_mem_cons.1 hes
  cases halign : a.alignment.align? .word64 cursor.close with
  | none =>
    have hnone (size : Nat) : nextPlace .word64 cursor.close a.alignment size = none := by
      rw [nextPlace, halign]
      rfl
    simp only [List.map_cons, placeRun, placeUnit, hfirst', hnone]
    exact .error trivial
  | some start =>
    obtain ⟨hlog, hstart⟩ := Alignment.align?_word64_eq_some halign
    have hdvd : a.alignment.bytes ∣ start := by
      rw [Alignment.align?_eq_some halign]
      exact a.alignment.bytes_dvd_align _
    -- From its second member on, the row is placed as from an aligned offset.
    have hrow : placeRun .word64 order owner index cursor ((e :: rest).map .plain) =
        placeRun .word64 order owner index ⟨start, none⟩ ((e :: rest).map .plain) := by
      have hagain := Alignment.align?_word64_of_dvd hlog hdvd hstart
      rw [← hfirst'] at halign hagain
      rw [List.map_cons, placeRun, placeRun, placeUnit_plain halign, placeUnit_plain hagain]
    obtain ⟨err, hplaced⟩ := placeRun_row order owner hlog ha.stride hes hdvd
      (SizeLimit.admits_word64_iff.2 hstart) index
    rw [← hsize] at hplaced
    rw [hrow, hplaced, placeUnit_plain halign]
    split
    · rename_i hstop
      exact .ok ⟨start, hdvd, hstop.mono (Nat.le_add_left _ _), rfl, rfl⟩
    · exact .error trivial

/-- The placed members of a struct with an array, behind `before` others, and of one with a row of
`length` members in its place, for which the anonymous unions behind it are counted further on. -/
inductive RowInPlace (element : Shape) (before length : Nat) :
    List MemberLayout → List MemberLayout → Prop
  | intro {placed first others row : List MemberLayout} {p : MemberLayout}
      (hrow : p.Unrolls element row) (hbefore : first.length = before)
      (hlength : row.length = length)
      (hplaced : placed.map (·.regroup before (length - 1)) = first ++ p :: others) :
      RowInPlace element before length placed (first ++ (row ++ others))

/-- A placed array and the row at its place stand to each other as the resolved ones do. -/
theorem unrolls_rowFrom {a : ResolvedMember} {element : Shape} {es : List ResolvedMember}
    (ha : a.Unrolls element es) (hstart : a.alignment.bytes ∣ start) :
    (a.placedAt start none).Unrolls element (rowFrom start element.size es) where
  plain := ⟨rfl, rfl, rfl⟩
  shape := by
    rw [rowFrom, List.length_mapIdx]
    exact ha.shape
  aligned := hstart
  stride := ha.stride
  nonempty := by
    rw [rowFrom, Ne, List.mapIdx_eq_nil_iff]
    exact ha.nonempty
  elements i q hq := by
    rw [rowFrom, List.getElem?_mapIdx, Option.map_eq_some_iff] at hq
    obtain ⟨e, he, rfl⟩ := hq
    obtain ⟨-, hshape, halignment⟩ := ha.elements e (List.mem_of_getElem? he)
    exact ⟨⟨rfl, rfl, rfl⟩, hshape, halignment, rfl⟩

theorem length_rowFrom (start size : Nat) (es : List ResolvedMember) :
    (rowFrom start size es).length = es.length := List.length_mapIdx

/-- What is placed from an array on, and from a row in its place on. -/
theorem placeUnits_unrolls {a : ResolvedMember} {element : Shape} {es : List ResolvedMember}
    (ha : a.Unrolls element es) (index : Nat) (units : List PlacementUnit) :
    Outcomes (fun _ _ => True)
      (fun x y => SizeLimit.word64.Admits a.size ∧ x.2 = y.2 ∧
        ∃ p row others, p.Unrolls element row ∧ row.length = es.length ∧
          x.1.map (·.regroup index (es.length - 1)) = p :: others ∧ y.1 = row ++ others)
      (placeUnits .word64 order owner index cursor (.plain a :: units))
      (placeUnits .word64 order owner index cursor (es.map .plain ++ units)) := by
  rw [placeUnits_cons, placeUnits_append]
  refine (placeUnit_unrolls ha index).bind ?_
  rintro _ _ ⟨start, hstart, hadmits, rfl, rfl⟩
  have hlength := length_rowFrom start element.size es
  have hindex : index + (rowFrom start element.size es).length = index + 1 + (es.length - 1) := by
    have := List.length_pos_iff.2 ha.nonempty
    omega
  show Outcomes _ _
    ((placeUnits .word64 order owner (index + 1) ⟨start + a.size, none⟩ units).map _)
    ((placeUnits .word64 order owner (index + (rowFrom start element.size es).length)
      ⟨start + a.size, none⟩ units).map _)
  rw [hindex, placeUnits_regroup (es.length - 1) (Nat.le_add_right index 1)]
  rcases placeUnits .word64 order owner (index + 1) ⟨start + a.size, none⟩ units with
    e | ⟨others, stop⟩
  · exact .error trivial
  · exact .ok ⟨hadmits, rfl, _, _, _, unrolls_rowFrom ha hstart, hlength, rfl, rfl⟩

/-- **A struct with an array and one with a row in its place are placed alike,** or the sizes of
both run past the limit. -/
theorem placeInSequence_unrolls {a : ResolvedMember} {element : Shape} {es : List ResolvedMember}
    (ha : a.Unrolls element es) (bs as : List ResolvedMember) :
    Outcomes (fun _ _ => True)
      (fun x y => SizeLimit.word64.Admits a.size ∧ x.2 = y.2 ∧
        RowInPlace element bs.length es.length x.1 y.1)
      (placeInSequence .word64 order owner (bs ++ a :: as))
      (placeInSequence .word64 order owner (bs ++ (es ++ as))) := by
  have hunits : placementUnits (bs ++ a :: as) =
      placementUnits bs ++ .plain a :: placementUnits as := by
    rw [placementUnits_append (.inr fun m hm => by cases hm; exact ha.plain.2.1),
      placementUnits_plain_cons ha.plain]
  have hunits' : placementUnits (bs ++ (es ++ as)) =
      placementUnits bs ++ (es.map .plain ++ placementUnits as) := by
    have hapart : ∀ m ∈ (es ++ as).head?, m.decl.inUnion = false := by
      rw [List.head?_append_of_ne_nil _ ha.nonempty]
      exact fun m hm => (ha.elements m (List.mem_of_mem_head? hm)).1.2.1
    rw [placementUnits_append (.inr hapart),
      placementUnits_plain_append fun e he => (ha.elements e he).1]
  rw [placeInSequence, placeInSequence, hunits, hunits', placeUnits_append, placeUnits_append]
  rcases hfirst : placeRun .word64 order owner 0 .start (placementUnits bs) with e | ⟨first, next⟩
  · exact .error trivial
  have hlength : first.length = bs.length := by
    rw [length_placeRun hfirst, flatMap_placementUnits]
  have hsame : first.map (·.regroup bs.length (es.length - 1)) = first := by
    refine (List.map_congr_left fun p hp => ?_).trans (List.map_id _)
    have hlt := unionGroup_lt_of_placeRun hfirst p hp
    rw [Nat.zero_add, hlength] at hlt
    exact MemberLayout.regroup_eq_self hlt
  have hindex : 0 + first.length = bs.length := by rw [hlength, Nat.zero_add]
  refine (placeUnits_unrolls ha (0 + first.length) (placementUnits as)).map ?_
  rintro ⟨placed, stop⟩ ⟨_, _⟩ ⟨hadmits, hstop, p, row, others, hrow, hcount, hplaced, rfl⟩
  rw [hindex] at hplaced
  refine ⟨hadmits, hstop, .intro hrow hlength hcount ?_⟩
  rw [List.map_append, hsame, hplaced]

end Row

/-! ## Layouts

What is computed from the placed members — alignment, size, the final check and the coverage — is
the same for both layouts. -/

/-- A map that keeps what is said about the places of members. -/
structure MemberLayout.KeepsSlot (f : MemberLayout → MemberLayout) : Prop extends KeepsPlace f where
  bits : ∀ m, (f m).bits = m.bits
  elementSize : ∀ m, (f m).elementSize = m.elementSize

/-- The layouts of a struct with an array behind `before` members, and of one with a row of `length`
members in its place: one size, one alignment and the same bytes with values, the other members at
the same places, and the members of the row at those of the elements. -/
structure Layout.Unrolled (l l' : Layout) (before length : Nat) : Prop where
  size : l.size = l'.size
  alignment : l.alignment = l'.alignment
  hasPointers : l.hasPointers = l'.hasPointers
  solid : l.solid = l'.solid
  padding : l.padding = l'.padding
  front : List.Forall₂ MemberLayout.SamePlace (l.members.take before) (l'.members.take before)
  back : List.Forall₂ MemberLayout.SamePlace (l.members.drop (before + 1))
    (l'.members.drop (before + length))
  items : ∃ p ∈ l.members[before]?, ∀ i < length, ∃ q ∈ l'.members[before + i]?,
    q.offset = p.offset + i * p.elementSize ∧ q.length = p.elementSize ∧ q.bits = none

theorem MemberLayout.KeepsSlot.samePlace_iff {f g : MemberLayout → MemberLayout}
    (hf : KeepsSlot f) (hg : KeepsSlot g) {p q : MemberLayout} :
    (f p).SamePlace (g q) ↔ p.SamePlace q := by
  constructor
  · rintro ⟨hname, hoffset, hlength, halignment, hbits⟩
    rw [hf.name, hg.name] at hname
    rw [hf.offset, hg.offset] at hoffset
    rw [hf.length, hg.length] at hlength
    rw [hf.alignment, hg.alignment] at halignment
    rw [hf.bits, hg.bits] at hbits
    exact ⟨hname, hoffset, hlength, halignment, hbits⟩
  · rintro ⟨hname, hoffset, hlength, halignment, hbits⟩
    constructor
    · rw [hf.name, hg.name, hname]
    · rw [hf.offset, hg.offset, hoffset]
    · rw [hf.length, hg.length, hlength]
    · rw [hf.alignment, hg.alignment, halignment]
    · rw [hf.bits, hg.bits, hbits]

/-- Maps that keep the places do not show. -/
theorem Layout.Unrolled.of_mapMembers {f g : MemberLayout → MemberLayout}
    (hf : MemberLayout.KeepsSlot f) (hg : MemberLayout.KeepsSlot g) {l l' : Layout}
    {before length : Nat} (h : (l.mapMembers f).Unrolled (l'.mapMembers g) before length) :
    l.Unrolled l' before length where
  size := h.size
  alignment := h.alignment
  hasPointers := h.hasPointers
  solid := h.solid
  padding := h.padding
  front := by
    have hfront := h.front
    simp only [mapMembers, ← List.map_take] at hfront
    rw [List.forall₂_map_left_iff, List.forall₂_map_right_iff] at hfront
    exact hfront.imp fun _ _ => (hf.samePlace_iff hg).1
  back := by
    have hback := h.back
    simp only [mapMembers, ← List.map_drop] at hback
    rw [List.forall₂_map_left_iff, List.forall₂_map_right_iff] at hback
    exact hback.imp fun _ _ => (hf.samePlace_iff hg).1
  items := by
    obtain ⟨_, hp, hitems⟩ := h.items
    rw [mapMembers, List.getElem?_map] at hp
    obtain ⟨p, hp', rfl⟩ := Option.map_eq_some_iff.1 hp
    refine ⟨p, hp', fun i hi => ?_⟩
    obtain ⟨_, hq, hoffset, hlength, hbits⟩ := hitems i hi
    rw [mapMembers, List.getElem?_map] at hq
    obtain ⟨q, hq', rfl⟩ := Option.map_eq_some_iff.1 hq
    rw [hg.offset, hf.offset, hf.elementSize] at hoffset
    rw [hg.length, hf.elementSize] at hlength
    rw [hg.bits] at hbits
    exact ⟨q, hq', hoffset, hlength, hbits⟩

theorem MemberLayout.keepsSlot_regroup (least further : Nat) : KeepsSlot (regroup least further) :=
  ⟨keepsPlace_regroup least further, fun _ => rfl, fun _ => rfl⟩

theorem MemberLayout.keepsSlot_id : KeepsSlot id :=
  ⟨⟨fun _ => rfl, fun _ => rfl, fun _ => rfl, fun _ => rfl, fun _ => rfl⟩, fun _ => rfl,
    fun _ => rfl⟩

namespace RowInPlace

variable {element : Shape} {before length : Nat} {placed placed' : List MemberLayout}

/-- An array has the alignment of each member of the row. -/
theorem strictest_eq (h : RowInPlace element before length placed placed') :
    Alignment.strictest (placed.map (·.alignment)) =
      Alignment.strictest (placed'.map (·.alignment)) := by
  obtain @⟨first, others, row, p, hrow, -, -, hplaced⟩ := h
  have halignments : placed.map (·.alignment) = (first ++ p :: others).map (·.alignment) := by
    rw [← hplaced, List.map_map]
    rfl
  have hone : Alignment.strictest (row.map (·.alignment)) = p.alignment := by
    refine Alignment.strictest_eq_of_forall ?_ (List.forall_mem_map.2 fun q hq => ?_)
    · rw [Ne, List.map_eq_nil_iff]
      exact hrow.nonempty
    · obtain ⟨i, hi⟩ := List.mem_iff_getElem?.1 hq
      exact (hrow.elements i q hi).alignment
  rw [halignments, List.map_append, List.map_append, List.map_append, List.map_cons, ← hone,
    Alignment.strictest_middle]

/-- The final check lets both pass or neither.  It may object to other members, so only success is
compared. -/
theorem checkPlacement_iff (h : RowInPlace element before length placed placed') (owner : Tag)
    (size : Nat) :
    checkPlacement owner .struct size placed = .ok () ↔
      checkPlacement owner .struct size placed' = .ok () := by
  obtain ⟨hrow, -, -, hplaced⟩ := h
  have hkeeps := MemberLayout.keepsPlace_regroup before (length - 1)
  rw [← hrow.checkPlacement_iff, ← hplaced, checkPlacement_map hkeeps _ _ _ fun a _ b _ =>
    MemberLayout.mayShare_regroup _ _ a b]

/-- The two cover the same bytes, and coverage is computed to a normal form. -/
theorem coverage_eq (h : RowInPlace element before length placed placed') (hs : element.Surveyed)
    (size : Nat) : Coverage.ofMembers size placed = .ofMembers size placed' := by
  obtain ⟨hrow, -, -, hplaced⟩ := h
  rw [← hrow.coverage_eq hs, ← hplaced, Coverage.ofMembers_map
    (MemberLayout.keepsPlace_regroup _ _) (fun _ => rfl) (fun _ => rfl) fun _ => rfl]

/-- Layouts of members in this relation are unrolled from each other. -/
theorem unrolled (h : RowInPlace element before length placed placed') (hs : element.Surveyed)
    (tag : Tag) (form : RecordForm) (size : Nat) (alignment : Alignment) :
    (Layout.ofMembers tag form placed size alignment).Unrolled
      (.ofMembers tag form placed' size alignment) before length := by
  have hcoverage := h.coverage_eq hs size
  obtain @⟨first, others, row, p, hrow, hbefore, hlength, hplaced⟩ := h
  refine .of_mapMembers (MemberLayout.keepsSlot_regroup before (length - 1))
    MemberLayout.keepsSlot_id ?_
  let l := (Layout.ofMembers tag form placed size alignment).mapMembers
    (·.regroup before (length - 1))
  let l' := (Layout.ofMembers tag form (first ++ (row ++ others)) size alignment).mapMembers id
  have hsplit : l.Split before 1 first [p] others := ⟨hplaced, hbefore, rfl⟩
  have hsplit' : l'.Split before length first row others :=
    ⟨List.map_id _, hbefore, hlength⟩
  constructor
  · rfl
  · rfl
  · exact congrArg Coverage.hasPointers hcoverage
  · exact congrArg Coverage.solid hcoverage
  · exact congrArg Coverage.padding hcoverage
  · show List.Forall₂ _ (l.members.take before) (l'.members.take before)
    rw [hsplit.take, hsplit'.take]
    exact List.forall₂_same.2 fun m _ => ⟨rfl, rfl, rfl, rfl, rfl⟩
  · show List.Forall₂ _ (l.members.drop (before + 1)) (l'.members.drop (before + length))
    rw [hsplit.drop, hsplit'.drop]
    exact List.forall₂_same.2 fun m _ => ⟨rfl, rfl, rfl, rfl, rfl⟩
  · refine ⟨p, hsplit.getElem?_from 0, fun i hi => ?_⟩
    have hlt : i < row.length := hlength ▸ hi
    have hget : row[i]? = some row[i] := List.getElem?_eq_getElem hlt
    have hitem := hrow.elements i _ hget
    have hsize : p.elementSize = element.size := by rw [MemberLayout.elementSize, hrow.shape]
    refine ⟨_, ?_, ?_, ?_, hitem.plain.2.2⟩
    · show l'.members[before + i]? = some _
      rw [hsplit'.getElem?_from, List.getElem?_append_left hlt, hget]
    · rw [hsize]
      exact hitem.offset
    · rw [hsize, MemberLayout.length, hitem.shape]

end RowInPlace

/-- **A struct with an array and one with a row in its place are put together alike,** or neither
is. -/
theorem assemble_unrolls {order : BitOrder} {d : RecordDecl} {a : ResolvedMember} {element : Shape}
    {es : List ResolvedMember} (ha : a.Unrolls element es) (hs : element.Surveyed)
    (hform : d.form = .struct) (decls : List MemberDecl) (bs as : List ResolvedMember) :
    Outcomes (fun _ _ => True)
      (fun l l' => SizeLimit.word64.Admits a.size ∧ l.Unrolled l' bs.length es.length)
      (assemble .word64 order d (bs ++ a :: as))
      (assemble .word64 order { d with members := decls } (bs ++ (es ++ as))) := by
  have hplaced : Outcomes (fun _ _ => True)
      (fun x y => SizeLimit.word64.Admits a.size ∧ x.2 = y.2 ∧
        RowInPlace element bs.length es.length x.1 y.1)
      (placeMembers .word64 order d (bs ++ a :: as))
      (placeMembers .word64 order { d with members := decls } (bs ++ (es ++ as))) := by
    simp only [placeMembers, hform]
    exact placeInSequence_unrolls ha bs as
  rw [assemble, assemble]
  refine hplaced.bind ?_
  rintro ⟨placed, stop⟩ ⟨placed', _⟩ ⟨hadmits, rfl, hrow⟩
  have halignment : Outcomes (fun _ _ => True) Eq
      (recordAlignment d (Alignment.strictest (placed.map (·.alignment))))
      (recordAlignment d (Alignment.strictest (placed'.map (·.alignment)))) := by
    rw [hrow.strictest_eq]
    exact .self (fun _ => rfl) fun _ _ => trivial
  refine halignment.bind ?_
  rintro alignment _ rfl
  have hsize (name name' : String) : Outcomes (fun _ _ => True) Eq
      (orOverflow d.tag name (alignment.align? .word64 stop))
      (orOverflow d.tag name' (alignment.align? .word64 stop)) := by
    cases alignment.align? .word64 stop with
    | none => exact .error trivial
    | some size => exact .ok rfl
  refine (hsize _ _).bind ?_
  rintro size _ rfl
  have hcheck : Outcomes (fun _ _ => True) (fun _ _ => True)
      (checkPlacement d.tag d.form size placed) (checkPlacement d.tag d.form size placed') := by
    have hiff := hrow.checkPlacement_iff d.tag size
    rw [hform]
    cases hx : checkPlacement d.tag .struct size placed with
    | ok _ => rw [hiff.1 hx]; exact .ok trivial
    | error e =>
      cases hy : checkPlacement d.tag .struct size placed' with
      | ok _ => rw [hiff.2 hy] at hx; cases hx
      | error e' => exact .error trivial
  exact hcheck.bind fun _ _ _ => .ok ⟨hadmits, hrow.unrolled hs _ _ _ _⟩

end NativeRecord
