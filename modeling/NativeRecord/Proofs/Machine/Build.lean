import NativeRecord.Proofs.Machine.Placement

/-!
# Building layouts on a machine

The whole builder, operation by operation.  Once the members are placed and the size is rounded, all
members end within the record, so neither its coverage nor the search for overlaps can wrap.

Of the checks at the end of the builder, the metered versions compute every end and every index on
the machine, and here no check protects these sums: the size of the record was rounded and checked,
and the members lie within it only if the placement is right, which is what is being checked.  But
the ends were checked one by one when the members were placed (`Metered.Placed`), so the sums are in
range for that reason, and the order in which the steps are made is what matters.

`build_refines` is then read off `build_tracks` on two machines: with the bound of 64 bits, where
both runs end alike and hence nothing wraps, and without a bound, where the values written down are
those of exact arithmetic and the first that does not fit is the one the builder reports.

## What is here

* `Metered.build` — the metered builder, and `Metered.build_tracks`.
* `build_refines` — on a 64-bit machine nothing wraps, layouts are those of exact arithmetic for as
  long as all sizes and offsets fit, and the first one that does not is reported.
-/

set_option autoImplicit false
namespace NativeRecord

namespace Metered

/-! ## Checking a placement -/

section Check

variable (limit : SizeLimit)

/-- The low bits of an offset are masked by one less than the alignment. -/
def misaligned (m : MemberLayout) : Option Bool :=
  if m.fixed then some false
  else do
    let _ ← subtract? m.alignment.bytes 1
    return !m.alignment.Aligned m.offset

/-- What is the matter with the place of a member, with its end computed on the machine. -/
def fault? (size : Nat) (m : MemberLayout) : Option (Option MemberFault) := do
  if ← misaligned m then return some (.misaligned m.offset m.alignment.bytes)
  else if size < (← stop limit m.span) then return some (.pastEnd size)
  else return none

/-- The first member with a fault; those behind it are not looked at. -/
def firstFault? (size : Nat) : List MemberLayout → Option (Option (MemberLayout × MemberFault))
  | [] => some none
  | m :: members => do
    match ← fault? limit size m with
    | some fault => return some (m, fault)
    | none => firstFault? size members

/-- The end of `a` is computed anew for each of the later members. -/
def conflictWith? (a : MemberLayout) : List MemberLayout → Option (Option MemberLayout)
  | [] => some none
  | b :: later => do
    if b.offset < (← stop limit a.span) then
      if a.mayShare b then conflictWith? a later else return some b
    else return none

/-- The members behind the one at an index start at the next index. -/
def sweep? (index : Nat) : List MemberLayout → Option (Option (MemberLayout × MemberLayout))
  | [] => some none
  | a :: later => do
    let next ← limit.add? index 1
    match ← conflictWith? limit a later with
    | some b => return some (a, b)
    | none => sweep? next later

end Check

section Build

variable {M : Type → Type} [Monad M] (A : Machine)

/-- The check of a placement: the places first, then the overlaps of a struct. -/
def checkPlacement (owner : Tag) (form : RecordForm) (size : Nat) (members : List MemberLayout) :
    Metering M Unit := do
  match ← unwrapped (firstFault? A.counts size members) with
  | some (m, fault) => throw (.refused (.invalidMember owner m.name fault))
  | none =>
    match form with
    | .union => return ()
    | .struct =>
      let sorted := stableSort (·.offset ≤ ·.offset) (members.filter (0 < ·.length))
      match ← unwrapped (sweep? A.counts 0 sorted) with
      | some (a, b) => throw (.refused (.overlap owner a.name b.name))
      | none => return ()

/-- The coverage of a record is worked out before its placement is checked. -/
def assemble (order : BitOrder) (decl : RecordDecl) (members : List ResolvedMember) :
    Metering M Layout := do
  let (placed, stop) ← placeMembers A order decl members
  let alignment ← ofExcept (recordAlignment decl (Alignment.strictest (placed.map (·.alignment))))
  let size ← roundUp A decl.tag ((placed.getLast?.map (·.name)).getD "") alignment stop
  let coverage ← unwrapped (coverage A.counts size placed)
  checkPlacement A decl.tag decl.form size placed
  return ⟨decl.tag, decl.form, placed, size, alignment, coverage, 0⟩

/-- The layout of a declaration, or why there is none, and the sizes and offsets on the way. -/
def build (config : Config) (resolve : Resolver M) (decl : RecordDecl) : Metering M Layout := do
  let pack ← ofExcept (effectivePack config decl)
  let members ← resolveMembers A config.platform resolve decl.tag pack [] decl.members
  assemble A config.bitOrder decl members

end Build

/-! ## Nothing wraps in a check

The ends of all members are in range, so each function comes to the builder's own. -/

section Eq

variable {limit : SizeLimit}

/-- Masking the low bits tests for divisibility, since an alignment is a power of two. -/
theorem misaligned_eq (m : MemberLayout) :
    misaligned m = some (decide (¬ m.fixed ∧ ¬ m.alignment.Aligned m.offset)) := by
  rw [misaligned, subtract?_eq m.alignment.bytes_pos]
  cases m.fixed <;> simp

/-- One member. -/
theorem fault?_eq {m : MemberLayout} (h : limit.Admits m.span.stop) (size : Nat) :
    fault? limit size m = some (m.fault? size) := by
  rw [fault?, misaligned_eq, stop_eq h, MemberLayout.fault?]
  by_cases hskewed : ¬ m.fixed ∧ ¬ m.alignment.Aligned m.offset
  · simp [hskewed]
  · simp only [hskewed, decide_false]
    show (if size < m.span.stop then some (some (MemberFault.pastEnd size)) else some none) = _
    split <;> rfl

/-- The first of several. -/
theorem firstFault?_eq {members : List MemberLayout}
    (h : ∀ m ∈ members, limit.Admits m.span.stop) (size : Nat) :
    firstFault? limit size members =
      some (members.findSome? fun m => (m.fault? size).map fun fault => (m, fault)) := by
  induction members with
  | nil => rfl
  | cons m members ih =>
    obtain ⟨hm, hmembers⟩ := List.forall_mem_cons.1 h
    rw [firstFault?, fault?_eq hm, List.findSome?_cons]
    cases m.fault? size with
    | some fault => rfl
    | none => exact ih hmembers

/-- The search behind one member. -/
theorem conflictWith?_eq {a : MemberLayout} (h : limit.Admits a.span.stop)
    (later : List MemberLayout) :
    conflictWith? limit a later = some (NativeRecord.conflictWith? a later) := by
  induction later with
  | nil => rfl
  | cons b later ih =>
    rw [conflictWith?, stop_eq h, NativeRecord.conflictWith?, List.takeWhile_cons]
    show (if b.offset < a.span.stop then
        if a.mayShare b then conflictWith? limit a later else some (some b)
      else some none) = _
    split
    · rename_i hmeet
      rw [if_pos (decide_eq_true hmeet), List.find?_cons]
      split
      · rename_i hshare
        rw [hshare]
        exact ih
      · rename_i hshare
        rw [Bool.eq_false_of_not_eq_true hshare]
        rfl
    · rename_i hapart
      rw [if_neg fun h => hapart (of_decide_eq_true h)]
      rfl

/-- The sweep over all of them. -/
theorem sweep?_eq {members : List MemberLayout} (h : ∀ m ∈ members, limit.Admits m.span.stop)
    {index : Nat} (hindex : limit.Admits (index + members.length)) :
    sweep? limit index members = some (NativeRecord.sweep? members) := by
  induction members generalizing index with
  | nil => rfl
  | cons a later ih =>
    obtain ⟨ha, hlater⟩ := List.forall_mem_cons.1 h
    rw [List.length_cons] at hindex
    rw [sweep?, SizeLimit.add?_eq (hindex.mono (by omega)), NativeRecord.sweep?]
    show (conflictWith? limit a later >>= _) = _
    rw [conflictWith?_eq ha]
    cases NativeRecord.conflictWith? a later with
    | some b => rfl
    | none => exact ih hlater (hindex.mono (by omega))

/-- The sweep sees no member and no index that the machine does not have. -/
theorem sweep?_sweepOrder_eq {members : List MemberLayout}
    (h : ∀ m ∈ members, limit.Admits m.span.stop) (hlength : limit.Admits members.length) :
    sweep? limit 0 (sweepOrder members) = some (findOverlap? members) := by
  refine sweep?_eq (fun m hm => h m (mem_sweepOrder.1 hm).1) (hlength.mono ?_)
  rw [Nat.zero_add]
  exact (sweepOrder_subperm members).length_le

end Eq

/-! ## The builder

The parts put together. -/

section Tracks

variable {A : Machine} {limit : SizeLimit} (hA : A.Reaches limit) {σ : Type}

/-- A record is aligned as its members are, or as it asks to be. -/
theorem recordAlignment_le {decl : RecordDecl} (hdecl : decl.Representable)
    {natural a : Alignment} (hnatural : natural.log ≤ 64)
    (h : recordAlignment decl natural = .ok a) : a.log ≤ 64 := by
  rw [recordAlignment] at h
  split at h
  · cases h
    exact hnatural
  · rename_i bytes hbytes
    obtain ⟨requested, hrequested, h⟩ := except_bind_eq_ok.1 h
    split at h <;> cases h
    exact checkAlignment_le hrequested (hdecl.alignment bytes hbytes)

/-- Checking a placement does nothing that could wrap. -/
theorem checkPlacement_tracks {owner : Tag} (form : RecordForm) (size : Nat)
    {members : List MemberLayout} (h : ∀ m ∈ members, A.counts.Admits m.span.stop)
    (hlength : A.counts.Admits members.length) :
    Tracks A limit owner (checkPlacement A owner form size members : Metering (StateM σ) Unit)
      (liftM (NativeRecord.checkPlacement owner form size members)) fun _ => True := by
  refine .unwrap (firstFault?_eq h size) ?_
  unfold NativeRecord.checkPlacement
  cases members.findSome? fun m => (m.fault? size).map fun fault => (m, fault) with
  | some fault => exact .throw
  | none =>
    cases form with
    | union => exact .pure trivial
    | struct =>
      refine .unwrap (sweep?_sweepOrder_eq h hlength) ?_
      dsimp only
      cases findOverlap? members with
      | some conflict => exact .throw
      | none => exact .pure trivial

include hA

/-- Putting a layout together tracks the builder, by its steps in order. -/
theorem assemble_tracks (order : BitOrder) {decl : RecordDecl} (hdecl : decl.Representable)
    {members : List ResolvedMember} (hfits : ∀ m ∈ members, m.Fits A limit)
    (hlength : members.length < 2 ^ (64 : Nat)) :
    Tracks A limit decl.tag (assemble A order decl members : Metering (StateM σ) Layout)
      (liftM (NativeRecord.assemble limit order decl members)) fun _ => True := by
  refine .bind_lift (placeMembers_tracks hA decl hfits hlength) ?_
  rintro ⟨placed, stop⟩ ⟨hcount, hplaced, hstop⟩
  refine .bind_lift (.ofExcept fun _ h => h) ?_
  intro alignment halignment
  have hnatural : (Alignment.strictest (placed.map (·.alignment))).log ≤ 64 :=
    Alignment.strictest_le (b := ⟨64⟩) (List.forall_mem_map.2 fun p hp => (hplaced p hp).alignment)
  refine .bind_lift (.roundUp hA (recordAlignment_le hdecl hnatural halignment) stop) ?_
  rintro _ ⟨rfl, hsize⟩
  have hcounts := hA.counts hsize
  have hheld : ∀ p ∈ placed, Held A.counts (alignment.align stop) p := fun p hp =>
    ((hplaced p hp).mono (alignment.le_align stop)).toHeld
  refine .unwrap (coverage_eq hcounts hheld) ?_
  refine .bind_lift (checkPlacement_tracks decl.form _ ?_ ?_) ?_
  · exact fun p hp => hcounts.mono (hheld p hp).within
  · rw [hcount]
    exact hA.counts (hA.word hlength)
  · exact fun _ _ => .pure trivial

/-- **The metered builder tracks the builder.** -/
theorem build_tracks {config : Config} (hconfig : config.Representable) {decl : RecordDecl}
    (hdecl : decl.Representable) {resolve : Resolver (StateM σ)}
    (hresolve : ∀ tag s l t, (resolve tag).run s = (.ok l, t) → l.Constructed) :
    Tracks A limit decl.tag (build A config resolve decl)
      (NativeRecord.build limit config resolve decl) fun _ => True := by
  refine (Tracks.ofExcept fun _ _ => trivial).bind fun pack _ => ?_
  refine (resolveMembers_tracks hA hresolve pack [] decl.members).bind fun members hmembers => ?_
  have hlength := hmembers.length_eq ▸ hdecl.length
  refine assemble_tracks hA config.bitOrder hdecl (fun m hm => ?_) hlength
  obtain ⟨d, hd, hmember⟩ := exists_mem_of_forall₂ hmembers hm
  exact hmember.fits hA hconfig.platform (hdecl.members d hd)

end Tracks

end Metered

/-! ## Beside exact arithmetic

The run without a bound gives the values, and the run with the bound of the machine gives the
answer. -/

section Refines

variable {σ : Type} (config : Config) (resolve : Resolver (StateM σ)) (decl : RecordDecl) (s : σ)

/-- The sizes, starts and ends that the builder comes by with natural numbers, in their order and
with the members that they belong to. -/
def exactValues : Values := ((Metered.build .ideal config resolve decl).exec s).2.1

/-- How a record is built on a 64-bit machine and with natural numbers. -/
structure BuildRefines : Prop where
  /-- The metered run on the machine ends like the builder under its limit. -/
  host : EndsAlike ((Metered.build .host config resolve decl).exec s)
    ((build .word64 config resolve decl).run s)
  no_wrap : ((Metered.build .host config resolve decl).exec s).1 ≠ .error .wraps
  /-- The metered run with natural numbers ends like the builder without a limit. -/
  ideal : EndsAlike ((Metered.build .ideal config resolve decl).exec s)
    ((build .unbounded config resolve decl).run s)
  /-- If all values fit, both come to the same. -/
  exact : (∀ v ∈ exactValues config resolve decl s, v.2 < 2 ^ (64 : Nat)) →
    (build .word64 config resolve decl).run s = (build .unbounded config resolve decl).run s
  /-- The first value that does not fit is reported. -/
  overflow : ∀ name n,
    (exactValues config resolve decl s).find? (2 ^ (64 : Nat) ≤ ·.2) = some (name, n) →
      ((build .word64 config resolve decl).run s).1 =
        .error (.invalidMember decl.tag name .sizeOverflow)

end Refines

/-- If all values fit, the builder comes to the same on a 64-bit machine and with natural
numbers. -/
theorem build_word64_eq_unbounded {σ : Type} {config : Config} (hconfig : config.Representable)
    {decl : RecordDecl} (hdecl : decl.Representable) {resolve : Resolver (StateM σ)}
    (hresolve : ∀ tag s l t, (resolve tag).run s = (.ok l, t) → l.Constructed) {s : σ}
    (hfit : ∀ v ∈ exactValues config resolve decl s, v.2 < 2 ^ (64 : Nat)) :
    (build .word64 config resolve decl).run s = (build .unbounded config resolve decl).run s := by
  have htracks {A : Machine} {limit : SizeLimit} (hA : A.Reaches limit) :=
    Metered.build_tracks hA hconfig hdecl hresolve s
  have hideal := (htracks Machine.ideal_reaches_unbounded).endsAlike rfl
  have hbeside := htracks Machine.ideal_reaches_word64
  exact (hbeside.endsAlike_of_admits fun v hv => SizeLimit.admits_word64_iff.2 (hfit v hv)).eq
    hideal

/-- **Building a record on a 64-bit machine refines exact arithmetic.**  Nothing wraps, checked or
not; if all sizes, starts and ends fit, the answer is that of natural numbers; and the first one
that does not is reported as an overflow.  Rounding to an alignment fails exactly if the rounded
number does not fit. -/
theorem build_refines {σ : Type} {config : Config} (hconfig : config.Representable)
    {decl : RecordDecl} (hdecl : decl.Representable) {resolve : Resolver (StateM σ)}
    (hresolve : ∀ tag s l t, (resolve tag).run s = (.ok l, t) → l.Constructed) (s : σ) :
    BuildRefines config resolve decl s ∧
      MemberFault.sizeOverflow.text = "size overflows usize" ∧
      ∀ (a : Alignment) (offset : Nat), a.bytes < 2 ^ (64 : Nat) →
        (a.align? .word64 offset = none ↔ 2 ^ (64 : Nat) ≤ a.align offset) := by
  have htracks {A : Machine} {limit : SizeLimit} (hA : A.Reaches limit) :=
    Metered.build_tracks hA hconfig hdecl hresolve s
  have hhost := (htracks Machine.host_reaches).endsAlike rfl
  have hideal := (htracks Machine.ideal_reaches_unbounded).endsAlike rfl
  have hbeside := htracks Machine.ideal_reaches_word64
  refine ⟨⟨hhost, hhost.not_wraps, hideal, build_word64_eq_unbounded hconfig hdecl hresolve,
    fun name n hfirst => ?_⟩, rfl, ?_⟩
  · rw [exactValues] at hfirst
    refine hbeside.eq_error (n := n) ?_
    simpa only [SizeLimit.admits_word64_iff, Nat.not_lt] using hfirst
  · exact fun a offset ha =>
      Alignment.align?_word64_eq_none_iff (Alignment.log_le_of_bytes_le (Nat.le_of_lt ha))

/-! ## A record that does not fit -/

/-- A row that fits on its own, but not behind a byte. -/
def farRow : RecordDecl where
  tag := ⟨"far"⟩
  members := [{ name := "flag", type := .arith (.unsigned .w8) },
    { name := "row", type := .array (.arith (.unsigned .w64)) (2 ^ (61 : Nat) - 1) }]

/-- A resolver that knows no type. -/
def noRecords : Resolver (StateM Unit) := fun tag => throw (.unknownTag tag)

/-- The row would end just past the last offset. -/
theorem build_refines_farRow :
    Config.standard.Representable ∧ farRow.Representable ∧
      exactValues .standard noRecords farRow () =
        [("row", 2 ^ (64 : Nat) - 8), ("flag", 0), ("flag", 1), ("row", 8),
          ("row", 2 ^ (64 : Nat)), ("row", 2 ^ (64 : Nat))] ∧
      ((build .word64 .standard noRecords farRow).run ()).1 =
        .error (.invalidMember ⟨"far"⟩ "row" .sizeOverflow) := by
  have hconfig : Config.standard.Representable :=
    ⟨⟨by decide, by decide, by decide, by decide, by decide⟩, nofun⟩
  have hdecl : farRow.Representable := by
    refine ⟨?_, by decide, nofun, nofun⟩
    refine List.forall_mem_cons.2 ⟨⟨trivial, nofun, nofun, nofun⟩, ?_⟩
    exact List.forall_mem_singleton.2 ⟨⟨by decide, trivial⟩, nofun, nofun, nofun⟩
  have hresolve : ∀ tag s l t, (noRecords tag).run s = (.ok l, t) → l.Constructed := nofun
  have hvalues : exactValues .standard noRecords farRow () =
      [("row", 2 ^ (64 : Nat) - 8), ("flag", 0), ("flag", 1), ("row", 8),
        ("row", 2 ^ (64 : Nat)), ("row", 2 ^ (64 : Nat))] := rfl
  have hfirst : (exactValues .standard noRecords farRow ()).find? (2 ^ (64 : Nat) ≤ ·.2) =
      some ("row", 2 ^ (64 : Nat)) := by
    rw [hvalues]
    decide
  obtain ⟨hrefines, -, -⟩ := build_refines hconfig hdecl hresolve ()
  exact ⟨hconfig, hdecl, hvalues, hrefines.overflow _ _ hfirst⟩

end NativeRecord
