import NativeRecord.Proofs.Layout.Compatibility
import NativeRecord.Proofs.Machine.Build

/-!
# Which declarations are accepted

A declaration without fixed offsets that asks for nothing impossible is laid out, unless the
validation finds a bit-field at an offset that is not aligned for it.  That happens where a
bit-field joins the word of the one before it: the word is chosen by its size and its room alone.

To show that something is accepted, every check on the way has to be shown to pass, and for each the
reason is another one: scalars have a natural alignment because the configuration is valid, names
and bit widths are in order because the declaration is, embedded records have layouts because the
resolver is assumed to answer.  `Answers` is the form that this takes for steps that ask the
resolver, and it also says what the answer is, so the lemmas about `ShapeOf` and `MemberOf` apply to
it.

That the sizes fit is treated apart.  The declaration is first built with natural numbers, where no
sum can be too large; the metered run then says that the bounded builder does the same as long as
all values fit.  What is left is the validation at the end.  `Orderly` lists what placing guarantees
already — members end within the record, those of a struct are compatible, all but bit-fields are
aligned — so that the check comes down to the one thing it does not guarantee: a bit-field joins an
open word by its size and room, and its alignment is not looked at.

## What is here

* `RecordDecl.WellDeclared` — a declaration that asks for nothing impossible.
* `resolveMembers_answers`, `placeMembers_unbounded` — its members are resolved and placed, whatever
  they are; `placeExactly` is both.
* `build_accepts` — it is laid out exactly when no bit-field joins a word askew, which none does
  where bit-fields ask for no alignment; a failure names one that does.
-/

set_option autoImplicit false
namespace NativeRecord

/-! ## Declarations that ask for nothing impossible -/

/-- A member at no fixed offset, whose bit width goes with its type and whose request for an
alignment goes with the pack. -/
structure MemberDecl.WellDeclared (platform : Platform) (pack : Option Nat) (m : MemberDecl) :
    Prop where
  free : m.offset = none
  bits : ∀ bits, m.bits = some bits → ∃ a, m.type = .arith a ∧ a.allowsBitField = true ∧
    0 < bits ∧ bits ≤ 8 * a.size platform
  request : ∀ n, m.alignment = some n → ∃ a : Alignment, a.bytes = n ∧ ∀ p ∈ pack, n ≤ p

/-- Such members, under names that can be told apart and a pack that is an alignment. -/
structure RecordDecl.WellDeclared (config : Config) (d : RecordDecl) : Prop where
  named : ∀ m ∈ d.members, m.name ≠ ""
  distinct : (d.members.map (·.name)).Nodup
  members : ∀ m ∈ d.members, m.WellDeclared config.platform (d.pack.or config.defaultPack)
  pack : ∀ n, d.pack = some n → ∃ a : Alignment, a.bytes = n

/-! ## Valid configurations -/

section Config

variable {config : Config}

/-- A valid configuration has alignments for the cap on scalars and for the default pack. -/
theorem Config.alignments_of_validate (h : config.validate = .ok ()) :
    (∃ a : Alignment, a.bytes = config.platform.maxScalarAlignment) ∧
      ∀ n, config.defaultPack = some n → ∃ a : Alignment, a.bytes = n := by
  have hpower {n : Nat} (hn : ¬ (Alignment.ofBytes? n).isNone) : ∃ a : Alignment, a.bytes = n := by
    obtain ⟨a, ha⟩ := Option.ne_none_iff_exists'.1 (mt Option.isNone_iff_eq_none.2 hn)
    exact ⟨a, Alignment.ofBytes?_eq_some_iff.1 ha⟩
  simp only [validate, except_bind_eq_ok] at h
  obtain ⟨_, -, _, -, _, -, _, -, h⟩ := h
  split at h
  · cases h
  · rename_i hscalar
    refine ⟨hpower hscalar, fun n hn => hpower fun hnone => ?_⟩
    rw [hn] at h
    simp only [hnone, if_true] at h
    cases h

/-- **Under a valid configuration, every scalar has a natural alignment.** -/
theorem exists_scalarShape (h : config.validate = .ok ()) (owner : Tag) (name : String)
    (s : Scalar) : ∃ shape, scalarShape config.platform owner name s = .ok shape := by
  obtain ⟨⟨greatest, hgreatest⟩, -⟩ := Config.alignments_of_validate h
  obtain ⟨own, hown⟩ := ((Config.usable_of_validate h).accessWidth s).exists_bytes
  have hnatural : ∃ a : Alignment,
      a.bytes = config.platform.naturalAlignment (s.size config.platform) := by
    rw [Platform.naturalAlignment, ← hgreatest, ← hown]
    rcases Nat.le_total own.bytes greatest.bytes with hle | hle
    · exact ⟨own, by rw [Nat.min_eq_left hle, Nat.max_eq_left own.bytes_pos]⟩
    · exact ⟨greatest, by rw [Nat.min_eq_right hle, Nat.max_eq_left greatest.bytes_pos]⟩
  obtain ⟨a, ha⟩ := hnatural
  refine ⟨.scalar s (s.size config.platform) a, ?_⟩
  rw [scalarShape, Alignment.ofBytes?_eq_some_iff.2 ha]

end Config

/-- The pack is an alignment, whether it comes from the declaration or from the configuration. -/
theorem RecordDecl.WellDeclared.exists_effectivePack {config : Config} {decl : RecordDecl}
    (h : decl.WellDeclared config) (hvalid : config.validate = .ok ()) :
    ∃ pack, effectivePack config decl = .ok pack := by
  have hpower : ∀ n, decl.pack.or config.defaultPack = some n → ∃ a : Alignment, a.bytes = n := by
    intro n hn
    rcases Option.or_eq_some_iff.1 hn with hn | ⟨-, hn⟩
    · exact h.pack n hn
    · exact (Config.alignments_of_validate hvalid).2 n hn
  cases hpack : decl.pack.or config.defaultPack with
  | none => exact ⟨none, effectivePack_eq_ok_iff.2 hpack⟩
  | some n =>
    obtain ⟨a, rfl⟩ := hpower n hpack
    exact ⟨some a, effectivePack_eq_ok_iff.2 hpack⟩

/-! ## Resolving

The members are resolved in order; each of the checks made of them passes for a reason of its own.
-/

section Resolve

variable {σ : Type} {config : Config} {resolve : Resolver (StateM σ)} {owner : Tag}
  {Has : Tag → Layout → Prop}

/-- A type has a shape if every record that lies in it has a layout. -/
theorem resolveShape_answers (hvalid : config.validate = .ok ()) (name : String) (type : CType)
    (hknown : ∀ tag, type.Embeds tag → Answers (resolve tag) (Has tag)) :
    Answers (resolveShape .unbounded config.platform resolve owner name type)
      (ShapeOf .unbounded config.platform owner Has name type) := by
  induction type with
  | arith a =>
    obtain ⟨shape, hshape⟩ := exists_scalarShape hvalid owner name (.arith a)
    exact .lift hshape (.arith hshape)
  | pointer target =>
    obtain ⟨shape, hshape⟩ := exists_scalarShape hvalid owner name (.pointer target)
    exact .lift hshape (.pointer hshape)
  | record tag => exact .bind (hknown tag (.record tag)) fun l hl => .pure (.record hl)
  | array element length ih =>
    refine .bind (ih fun tag htag => hknown tag (.array htag)) fun shape hshape => ?_
    have hsize : orOverflow owner name (SizeLimit.unbounded.mul? shape.size length) =
        .ok (shape.size * length) := orOverflow_eq_ok_iff.2 (SizeLimit.check?_unbounded _)
    refine .bind (P := fun _ => True) (.lift hsize trivial) fun _ _ => ?_
    exact .pure (.array hshape trivial)

/-- A member that asks for nothing impossible is resolved. -/
theorem resolveMember_answers (hvalid : config.validate = .ok ()) {pack : Option Alignment}
    {decl : MemberDecl} (hdecl : decl.WellDeclared config.platform (pack.map (·.bytes)))
    (hknown : ∀ tag, decl.type.Embeds tag → Answers (resolve tag) (Has tag)) :
    Answers (resolveMember .unbounded config.platform resolve owner pack decl)
      (MemberOf .unbounded config.platform owner Has pack decl) := by
  refine .bind (resolveShape_answers hvalid decl.name decl.type hknown) fun shape hshape => ?_
  have hbits : checkBits owner decl shape.size = .ok () := by
    refine checkBits_eq_ok_iff.2 fun bits hbits => ?_
    obtain ⟨a, htype, hallows, hpos, hfits⟩ := hdecl.bits bits hbits
    rw [htype] at hshape ⊢
    cases hshape with
    | arith hscalar =>
      obtain ⟨_, rfl⟩ := scalarShape_eq_ok hscalar
      exact ⟨hallows, hpos, hfits⟩
  have halignment : ∃ a, memberAlignment owner decl pack shape.alignment = .ok a := by
    cases hrequest : decl.alignment with
    | none => exact ⟨_, memberAlignment_eq_ok_iff.2 (.inl ⟨hrequest, rfl⟩)⟩
    | some n =>
      obtain ⟨a, rfl, hpack⟩ := hdecl.request n hrequest
      refine ⟨a, memberAlignment_eq_ok_iff.2 (.inr ⟨hrequest, fun p hp => ?_⟩)⟩
      exact Alignment.bytes_le_bytes_iff.1 (hpack p.bytes (Option.mem_map_of_mem _ hp))
  obtain ⟨a, ha⟩ := halignment
  refine .bind (P := fun _ => True) (.lift hbits trivial) fun _ _ => ?_
  exact .bind (P := (· = a)) (.lift ha rfl) fun _ h => .pure ⟨rfl, hshape, hbits, h ▸ ha⟩

/-- **So are all members,** if their names can be told apart. -/
theorem resolveMembers_answers (hvalid : config.validate = .ok ()) {pack : Option Alignment}
    {seen : List String} {decls : List MemberDecl} (hnames : UsableNames seen decls)
    (hdecls : ∀ m ∈ decls, m.WellDeclared config.platform (pack.map (·.bytes)))
    (hknown : ∀ m ∈ decls, ∀ tag, m.type.Embeds tag → Answers (resolve tag) (Has tag)) :
    Answers (resolveMembers .unbounded config.platform resolve owner pack seen decls)
      (List.Forall₂ (MemberOf .unbounded config.platform owner Has pack) decls) := by
  induction decls generalizing seen with
  | nil => exact .pure .nil
  | cons decl decls ih =>
    obtain ⟨hname, hnames⟩ := usableNames_cons.1 hnames
    obtain ⟨hdecl, hdecls⟩ := List.forall_mem_cons.1 hdecls
    obtain ⟨hfirst, hknown⟩ := List.forall_mem_cons.1 hknown
    rw [resolveMembers_cons, if_neg hname]
    refine .bind (resolveMember_answers hvalid hdecl hfirst) fun m hm => ?_
    exact .bind (ih hnames hdecls hknown) fun ms hms => .pure (.cons hm hms)

end Resolve

/-! ## Placing

With natural numbers no sum is refused, so placing fails only for an offset that a union does not
have. -/

section Place

variable (order : BitOrder) (owner : Tag)

theorem nextPlace_unbounded (next : Nat) (a : Alignment) (size : Nat) :
    nextPlace .unbounded next a size = some (a.align next, a.align next + size) := by
  simp [nextPlace, SizeLimit.add?]

/-- A unit has its place wherever the cursor is. -/
theorem placeUnit_unbounded (index : Nat) (cursor : Cursor) (unit : PlacementUnit) :
    ∃ placed cursor',
      placeUnit .unbounded order owner index cursor unit = .ok (placed, cursor') := by
  cases unit with
  | fixed m offset => simp [placeUnit, SizeLimit.add?, orOverflow]
  | overlay first rest => simp [placeUnit, nextPlace_unbounded, orOverflow]
  | bitField m bits =>
    rw [placeUnit]
    cases cursor.room? m.size bits with
    | some word => exact ⟨_, _, rfl⟩
    | none => simp only [nextPlace_unbounded, orOverflow]; exact ⟨_, _, rfl⟩
  | plain m => simp [placeUnit, nextPlace_unbounded, orOverflow]

/-- **With natural numbers, all units have their places.** -/
theorem placeUnits_unbounded (index : Nat) (cursor : Cursor) (units : List PlacementUnit) :
    ∃ placed stop, placeUnits .unbounded order owner index cursor units = .ok (placed, stop) := by
  induction units generalizing index cursor with
  | nil => exact ⟨_, _, rfl⟩
  | cons unit units ih =>
    obtain ⟨first, cursor', hfirst⟩ := placeUnit_unbounded order owner index cursor unit
    obtain ⟨others, stop, hothers⟩ := ih (index + first.length) cursor'
    refine ⟨first ++ others, stop, ?_⟩
    rw [placeUnits, hfirst]
    show (placeUnits .unbounded order owner (index + first.length) cursor' units >>= _) = _
    rw [hothers]
    rfl

/-- The members of a declaration without fixed offsets have their places. -/
theorem placeMembers_unbounded {decl : RecordDecl} {members : List ResolvedMember}
    (hfree : ∀ m ∈ members, m.decl.offset = none) :
    ∃ placed stop, placeMembers .unbounded order decl members = .ok (placed, stop) := by
  rw [placeMembers]
  cases decl.form with
  | struct => exact placeUnits_unbounded order decl.tag 0 .start (placementUnits members)
  | union =>
    refine ⟨_, _, overlayMembers_eq_ok_iff.2 ⟨fun m hm => ?_, rfl, rfl⟩⟩
    rw [hfree m hm]
    rfl

/-! ## Checking -/

/-- Placed members to which the validation can object only for a bit-field that joins a word
askew. -/
structure Orderly (form : RecordForm) (placed : List MemberLayout) (stop : Nat) : Prop where
  free : ∀ p ∈ placed, p.fixed = false
  within : ∀ p ∈ placed, p.offset + p.length ≤ stop
  apart : form = .struct → placed.Pairwise MemberLayout.Compatible
  aligned : ∀ before p after, placed = before ++ p :: after →
    p.alignment.bytes ∣ p.offset ∨ p.JoinsAskew before

variable {order owner}

/-- **What placing guarantees.**  A sequence keeps its members apart, and the members of a union all
lie at its start. -/
theorem placeMembers_orderly {limit : SizeLimit} {decl : RecordDecl}
    {members : List ResolvedMember} {placed : List MemberLayout} {stop : Nat}
    (hfree : ∀ m ∈ members, m.decl.offset = none) (hbits : ∀ m ∈ members, m.BitsUsable)
    (h : placeMembers limit order decl members = .ok (placed, stop)) :
    Orderly decl.form placed stop := by
  have hunfixed := placeMembers_unfixed hfree hbits h
  refine ⟨hunfixed, placeMembers_stop_le hbits h, placeMembers_compatible hfree hbits h, ?_⟩
  rintro before p after rfl
  have hp : p.fixed = false := hunfixed p (by simp)
  rw [placeMembers] at h
  cases hform : decl.form with
  | struct =>
    rw [hform] at h
    exact (placeInSequence_inSequence hbits h).1.aligned_or_joinsAskew hp
  | union =>
    rw [hform] at h
    rw [offset_overlayMembers h p (by simp)]
    exact .inl (Nat.dvd_zero _)

/-- Packed bit-fields are aligned where those of one length are aligned alike. -/
theorem placeMembers_aligned {limit : SizeLimit} {decl : RecordDecl}
    {members : List ResolvedMember} {placed : List MemberLayout} {stop : Nat}
    (hbits : ∀ m ∈ members, m.BitsUsable)
    (halike : ∀ p ∈ placed, ∀ q ∈ placed, p.Packed → q.Packed → p.length = q.length →
      p.alignment = q.alignment)
    (h : placeMembers limit order decl members = .ok (placed, stop)) :
    ∀ p ∈ placed, p.Packed → p.alignment.bytes ∣ p.offset := by
  rw [placeMembers] at h
  cases hform : decl.form with
  | struct =>
    rw [hform] at h
    exact (placeInSequence_inSequence hbits h).1.aligned halike
  | union =>
    rw [hform] at h
    intro p hp _
    rw [offset_overlayMembers h p hp]
    exact Nat.dvd_zero _

end Place

section Check

variable {owner : Tag} {form : RecordForm} {placed : List MemberLayout} {stop size : Nat}

/-- A member of an orderly placement can only be misaligned. -/
theorem Orderly.fault?_eq (h : Orderly form placed stop) (hsize : stop ≤ size) {p : MemberLayout}
    (hp : p ∈ placed) :
    p.fault? size = if p.alignment.bytes ∣ p.offset then none
      else some (.misaligned p.offset p.alignment.bytes) := by
  have hstop := h.within p hp
  have hwithin : ¬ size < p.span.stop := by
    rw [MemberLayout.stop_span]
    omega
  simp only [MemberLayout.fault?, h.free p hp, Alignment.aligned_iff_dvd, Bool.false_eq_true,
    not_false_eq_true, true_and, if_neg hwithin, ite_not]

/-- **The validation objects to a bit-field that joins a word askew, and to nothing else.** -/
theorem Orderly.checkPlacement_eq_ok_iff (h : Orderly form placed stop) (hsize : stop ≤ size) :
    checkPlacement owner form size placed = .ok () ↔
      ∀ before p after, placed = before ++ p :: after → ¬ p.JoinsAskew before := by
  rw [NativeRecord.checkPlacement_eq_ok_iff, and_iff_left h.apart]
  constructor
  · rintro hfault before p after rfl hskew
    have hp := hfault p (by simp)
    rw [h.fault?_eq hsize (by simp), if_neg hskew.2.2] at hp
    cases hp
  · intro hnone p hp
    obtain ⟨before, after, hsplit⟩ := List.append_of_mem hp
    have haligned := (h.aligned before p after hsplit).resolve_right (hnone before p after hsplit)
    rw [h.fault?_eq hsize hp, if_pos haligned]

/-- A failure of the check names a bit-field that joins a word askew, and its offset. -/
theorem Orderly.exists_of_checkPlacement_eq_error (h : Orderly form placed stop)
    (hsize : stop ≤ size) {e : LayoutError}
    (he : checkPlacement owner form size placed = .error e) :
    ∃ before p after, placed = before ++ p :: after ∧ p.JoinsAskew before ∧
      e = .invalidMember owner p.name (.misaligned p.offset p.alignment.bytes) := by
  rcases checkPlacement_eq_error he with ⟨p, hp, fault, hfault, rfl⟩ | ⟨rfl, a, b, hoverlap, -⟩
  · rw [h.fault?_eq hsize hp] at hfault
    split at hfault
    · cases hfault
    · rename_i hskew
      cases hfault
      obtain ⟨before, after, hsplit⟩ := List.append_of_mem hp
      have hjoins := (h.aligned before p after hsplit).resolve_left hskew
      exact ⟨before, p, after, hsplit, hjoins, rfl⟩
  · rw [findOverlap?_eq_none_iff.2 (h.apart rfl)] at hoverlap
    cases hoverlap

end Check

/-! ## Building

The run with natural numbers comes first, then the alignment that the declaration asks for, and then
the check. -/

/-- The members of a declaration as they are placed with natural numbers, and the end of the last
byte. -/
def placeExactly {m : Type → Type} [Monad m] (config : Config) (resolve : Resolver m)
    (decl : RecordDecl) : ExceptT LayoutError m (List MemberLayout × Nat) := do
  let pack ← effectivePack config decl
  let members ← resolveMembers .unbounded config.platform resolve decl.tag pack [] decl.members
  placeMembers .unbounded config.bitOrder decl members

/-- The alignment that a declaration asks for, if it does, is one that its placed members allow. -/
def RecordDecl.AllowsRequest (decl : RecordDecl) (placed : List MemberLayout) : Prop :=
  ∀ n, decl.alignment = some n → ∃ a : Alignment, a.bytes = n ∧ ∀ p ∈ placed, p.alignment ≤ a

/-- How the building of a declaration ends whose members have their places: with these, unless a
bit-field joins a word askew. -/
structure EndsOrderly (decl : RecordDecl) (placed : List MemberLayout)
    (outcome : Except LayoutError Layout) : Prop where
  accepted_iff : (∃ l, outcome = .ok l ∧ l.members = placed) ↔
    ∀ before p after, placed = before ++ p :: after → ¬ p.JoinsAskew before
  refused : ∀ e, outcome = .error e → ∃ before p after, placed = before ++ p :: after ∧
    p.JoinsAskew before ∧
    e = .invalidMember decl.tag p.name (.misaligned p.offset p.alignment.bytes)
  accepted : (∀ m ∈ decl.members, m.bits.isSome = true → m.alignment = none) →
    ∃ l, outcome = .ok l ∧ l.members = placed

/-- With natural numbers, members that have their places are a layout if they pass the checks. -/
theorem assemble_unbounded {order : BitOrder} {decl : RecordDecl} {members : List ResolvedMember}
    {placed : List MemberLayout} {stop : Nat} {a : Alignment}
    (hplaced : placeMembers .unbounded order decl members = .ok (placed, stop))
    (halignment : recordAlignment decl (Alignment.strictest (placed.map (·.alignment))) = .ok a) :
    assemble .unbounded order decl members =
      (checkPlacement decl.tag decl.form (a.align stop) placed).map fun _ =>
        .ofMembers decl.tag decl.form placed (a.align stop) a := by
  have hbind {α β : Type} (x : α) (f : α → Except LayoutError β) : Except.ok x >>= f = f x := rfl
  simp only [assemble, hplaced, halignment, Alignment.align?_unbounded, orOverflow, hbind]
  cases checkPlacement decl.tag decl.form (a.align stop) placed <;> rfl

/-- A request that the members allow is granted. -/
theorem RecordDecl.AllowsRequest.exists_recordAlignment {decl : RecordDecl}
    {placed : List MemberLayout} (h : decl.AllowsRequest placed) :
    ∃ a, recordAlignment decl (Alignment.strictest (placed.map (·.alignment))) = .ok a := by
  cases hrequest : decl.alignment with
  | none => exact ⟨_, recordAlignment_eq_ok_iff.2 (.inl ⟨hrequest, rfl⟩)⟩
  | some n =>
    obtain ⟨a, rfl, hle⟩ := h n hrequest
    have hstrictest : Alignment.strictest (placed.map (·.alignment)) ≤ a :=
      Alignment.strictest_le (List.forall_mem_map.2 hle)
    exact ⟨a, recordAlignment_eq_ok_iff.2 (.inr ⟨hrequest, hstrictest⟩)⟩

section Accepts

variable {Has : Tag → Layout → Prop} {config : Config} {decl : RecordDecl}
  {pack : Option Alignment} {members : List ResolvedMember} {placed : List MemberLayout}

/-- A bit-field that asks for no alignment has the natural one of its size, lowered to the pack. -/
theorem MemberOf.alignment_of_bits {limit : SizeLimit} {platform : Platform} {owner : Tag}
    {d : MemberDecl} {m : ResolvedMember} (h : MemberOf limit platform owner Has pack d m)
    (hbits : d.bits.isSome = true) (hfree : d.alignment = none) :
    ∃ a : Alignment, a.bytes = platform.naturalAlignment m.size ∧ m.alignment = a.packed pack := by
  obtain ⟨bits, hbits⟩ := Option.isSome_iff_exists.1 hbits
  have hallows := (checkBits_eq_ok_iff.1 h.bits bits hbits).1
  have hshape := h.shape
  refine ⟨m.shape.alignment, ?_, h.alignment_eq hfree⟩
  rw [ResolvedMember.size]
  cases htype : d.type with
  | arith a =>
    rw [htype] at hshape
    generalize m.shape = shape at hshape
    cases hshape with
    | arith hscalar =>
      simp only [scalarShape] at hscalar
      split at hscalar
      · rename_i hof
        cases hscalar
        exact Alignment.ofBytes?_eq_some_iff.1 hof
      · cases hscalar
  | _ => rw [htype] at hallows; cases hallows

/-- Where bit-fields ask for no alignment, those of one length are aligned alike. -/
theorem alignment_eq_of_length_eq {limit : SizeLimit} {platform : Platform} {owner : Tag}
    {decls : List MemberDecl}
    (hmembers : List.Forall₂ (MemberOf limit platform owner Has pack) decls members)
    (hplaced : List.Forall₂ PlacedAs members placed)
    (hfree : ∀ d ∈ decls, d.bits.isSome = true → d.alignment = none) :
    ∀ p ∈ placed, ∀ q ∈ placed, p.Packed → q.Packed → p.length = q.length →
      p.alignment = q.alignment := by
  have hnatural (p : MemberLayout) (hp : p ∈ placed) (hpacked : p.Packed) :
      ∃ a : Alignment, a.bytes = platform.naturalAlignment p.length ∧
        p.alignment = a.packed pack := by
    obtain ⟨m, hm, hmp⟩ := exists_mem_of_forall₂ hplaced hp
    obtain ⟨d, hd, hdm⟩ := exists_mem_of_forall₂ hmembers hm
    have hbits : d.bits.isSome = true := by
      rw [← hdm.decl_eq, ← hmp.bits, Option.isSome_map]
      exact hpacked.2.2
    rw [MemberLayout.length, hmp.shape, hmp.alignment]
    exact hdm.alignment_of_bits hbits (hfree d hd hbits)
  intro p hp q hq hpacked hpacked' hlength
  obtain ⟨a, ha, hpa⟩ := hnatural p hp hpacked
  obtain ⟨b, hb, hqb⟩ := hnatural q hq hpacked'
  rw [hpa, hqb, Alignment.bytes_injective (ha.trans (hlength ▸ hb.symm))]

/-- **Members that are resolved and placed are assembled** unless a bit-field joins a word askew. -/
theorem assemble_endsOrderly {stop : Nat}
    (hfree : ∀ d ∈ decl.members, d.offset = none)
    (hmembers : List.Forall₂ (MemberOf .unbounded config.platform decl.tag Has pack) decl.members
      members)
    (hplaced : placeMembers .unbounded config.bitOrder decl members = .ok (placed, stop))
    (hrequest : decl.AllowsRequest placed) :
    EndsOrderly decl placed (assemble .unbounded config.bitOrder decl members) := by
  have hbits := membersOf_bitsUsable hmembers
  have hunfixed : ∀ m ∈ members, m.decl.offset = none := by
    intro m hm
    obtain ⟨d, hd, hdm⟩ := exists_mem_of_forall₂ hmembers hm
    rw [hdm.decl_eq]
    exact hfree d hd
  have horderly := placeMembers_orderly hunfixed hbits hplaced
  obtain ⟨a, halignment⟩ := hrequest.exists_recordAlignment
  have hsize := a.le_align stop
  rw [assemble_unbounded hplaced halignment]
  have hiff : checkPlacement decl.tag decl.form (a.align stop) placed = .ok () ↔ _ :=
    horderly.checkPlacement_eq_ok_iff hsize
  have hok : (∃ l, (checkPlacement decl.tag decl.form (a.align stop) placed).map (fun _ =>
        Layout.ofMembers decl.tag decl.form placed (a.align stop) a) = .ok l ∧ l.members = placed) ↔
      checkPlacement decl.tag decl.form (a.align stop) placed = .ok () := by
    cases checkPlacement decl.tag decl.form (a.align stop) placed with
    | ok => exact iff_of_true ⟨_, rfl, rfl⟩ rfl
    | error e => exact iff_of_false (fun ⟨_, h, _⟩ => nomatch h) nofun
  refine ⟨hok.trans hiff, fun e he => ?_, fun hnatural => hok.2 (hiff.2 ?_)⟩
  · refine horderly.exists_of_checkPlacement_eq_error hsize ?_
    cases hcheck : checkPlacement decl.tag decl.form (a.align stop) placed with
    | ok => rw [hcheck] at he; cases he
    | error => rw [hcheck] at he; cases he; rfl
  · have halike := alignment_eq_of_length_eq hmembers
      (placeMembers_forall₂ (fun m hm => (hbits m hm).fit) hplaced) hnatural
    rintro before p after rfl hskew
    exact hskew.2.2 (placeMembers_aligned hbits halike hplaced p (by simp) hskew.1)

end Accepts

/-- **A declaration that asks for nothing impossible has its members resolved and placed, and it is
laid out unless a bit-field joins a word askew.**  The configuration is a valid one, all embedded
records have layouts, and all sizes fit. -/
theorem build_accepts {σ : Type} {config : Config} (hvalid : config.validate = .ok ())
    (hconfig : config.Representable) {decl : RecordDecl} (hdecl : decl.Representable)
    (hwell : decl.WellDeclared config) {resolve : Resolver (StateM σ)}
    (hbuilt : ∀ tag t l t', (resolve tag).run t = (.ok l, t') → l.Constructed)
    (hknown : ∀ tag, decl.Embeds tag → ∀ t, ∃ l t', (resolve tag).run t = (.ok l, t')) {s : σ}
    (hrequest : ∀ placed stop t,
      (placeExactly config resolve decl).run s = (.ok (placed, stop), t) →
      decl.AllowsRequest placed)
    (hfit : ∀ v ∈ exactValues config resolve decl s, v.2 < 2 ^ (64 : Nat)) :
    ∃ placed stop t, (placeExactly config resolve decl).run s = (.ok (placed, stop), t) ∧
      EndsOrderly decl placed ((build .word64 config resolve decl).run s).1 := by
  obtain ⟨pack, hpack⟩ := hwell.exists_effectivePack hvalid
  have hrequested := effectivePack_eq_ok_iff.1 hpack
  have hnames : UsableNames [] decl.members :=
    ⟨fun m hm => ⟨hwell.named m hm, List.not_mem_nil⟩, hwell.distinct⟩
  have hresolve : Answers (resolveMembers .unbounded config.platform resolve decl.tag pack []
      decl.members) (List.Forall₂ (MemberOf .unbounded config.platform decl.tag
        (fun _ _ => True) pack) decl.members) := by
    have hmembers := hrequested ▸ hwell.members
    refine resolveMembers_answers hvalid hnames hmembers fun m hm tag htag t => ?_
    obtain ⟨l, t', hrun⟩ := hknown tag ⟨m, hm, htag⟩ t
    exact ⟨l, t', hrun, trivial⟩
  obtain ⟨members, t, hrun, hmembers⟩ := hresolve s
  have hfree : ∀ m ∈ members, m.decl.offset = none := by
    intro m hm
    obtain ⟨d, hd, hdm⟩ := exists_mem_of_forall₂ hmembers hm
    rw [hdm.decl_eq]
    exact (hwell.members d hd).free
  obtain ⟨placed, stop, hplaced⟩ := placeMembers_unbounded config.bitOrder hfree
  have hexact : (placeExactly config resolve decl).run s = (.ok (placed, stop), t) := by
    rw [placeExactly, hpack]
    refine run_bind_eq_ok.2 ⟨pack, s, rfl, run_bind_eq_ok.2 ⟨members, t, hrun, ?_⟩⟩
    rw [hplaced]
    rfl
  have hbuild : ((build .word64 config resolve decl).run s).1 =
      assemble .unbounded config.bitOrder decl members := by
    rw [build_word64_eq_unbounded hconfig hdecl hbuilt hfit, build, hpack, run_bind]
    show ((resolveMembers _ _ resolve _ _ _ _ >>= _).run s).1 = _
    rw [run_bind, hrun]
    rfl
  refine ⟨placed, stop, t, hexact, ?_⟩
  rw [hbuild]
  exact assemble_endsOrderly (fun d hd => (hwell.members d hd).free) hmembers hplaced
    (hrequest placed stop t hexact)

/-! ## A bit-field that joins askew -/

/-- Two bit-fields behind a byte, of which the second one asks for an even offset. -/
def skewed : RecordDecl where
  tag := ⟨"r"⟩
  members := [{ name := "lead", type := .arith (.unsigned .w8) },
    { name := "a", type := .arith (.unsigned .w8), bits := some 4 },
    { name := "b", type := .arith (.unsigned .w8), bits := some 4, alignment := some 2 }]

/-- The second bit-field goes into the word of the first one, at offset 1. -/
def skewedMembers : List MemberLayout :=
  let type : CType := .arith (.unsigned .w8)
  let shape : Shape := .scalar (.arith (.unsigned .w8)) 1 ⟨0⟩
  [⟨"lead", type, shape, 0, ⟨0⟩, none, false, none⟩,
    ⟨"a", type, shape, 1, ⟨0⟩, some ⟨0, 4⟩, false, none⟩,
    ⟨"b", type, shape, 1, ⟨1⟩, some ⟨4, 4⟩, false, none⟩]

/-- Nothing in the declaration is impossible by itself. -/
theorem skewed_wellDeclared : skewed.WellDeclared .standard where
  named := by decide
  distinct := by decide
  pack := nofun
  members := by
    have hbits {m : MemberDecl} (htype : m.type = .arith (.unsigned .w8)) (h : m.bits = some 4) :
        ∀ bits, m.bits = some bits → ∃ a, m.type = .arith a ∧ a.allowsBitField = true ∧
          0 < bits ∧ bits ≤ 8 * a.size Config.standard.platform := by
      rw [h]
      rintro _ ⟨⟩
      exact ⟨.unsigned .w8, htype, rfl, by decide, by decide⟩
    refine List.forall_mem_cons.2 ⟨⟨rfl, nofun, nofun⟩, List.forall_mem_cons.2 ⟨⟨rfl, ?_, nofun⟩,
      List.forall_mem_singleton.2 ⟨rfl, ?_, ?_⟩⟩⟩
    · exact hbits rfl rfl
    · exact hbits rfl rfl
    · rintro _ ⟨⟩
      exact ⟨⟨1⟩, rfl, nofun⟩

theorem skewed_representable : Config.standard.Representable ∧ skewed.Representable := by
  refine ⟨⟨⟨by decide, by decide, by decide, by decide, by decide⟩, nofun⟩,
    ⟨?_, by decide, nofun, nofun⟩⟩
  have hbits : ∀ n, some 4 = some n → n < 2 ^ (32 : Nat) := by rintro _ ⟨⟩; decide
  have halignment : ∀ n, some 2 = some n → n < 2 ^ (64 : Nat) := by rintro _ ⟨⟩; decide
  refine List.forall_mem_cons.2 ⟨⟨trivial, nofun, nofun, nofun⟩, List.forall_mem_cons.2
    ⟨⟨trivial, hbits, nofun, nofun⟩, ?_⟩⟩
  exact List.forall_mem_singleton.2 ⟨trivial, hbits, halignment, nofun⟩

theorem skewed_placed : (placeExactly .standard noRecords skewed).run () =
    (.ok (skewedMembers, 2), ()) := rfl

theorem skewed_fits : ∀ v ∈ exactValues .standard noRecords skewed (), v.2 < 2 ^ (64 : Nat) := by
  have hvalues : exactValues .standard noRecords skewed () =
      [("lead", 0), ("lead", 1), ("a", 1), ("a", 2), ("b", 2)] := rfl
  rw [hvalues]
  decide

theorem skewed_embeds (tag : Tag) : ¬ skewed.Embeds tag := by
  rintro ⟨m, hm, htag⟩
  have htype : ∀ m ∈ skewed.members, m.type = .arith (.unsigned .w8) := by decide
  rw [htype m hm] at htag
  cases htag

/-- The bit-field is placed askew, and nothing else is the matter. -/
theorem build_accepts_skewed :
    Config.standard.validate = .ok () ∧ Config.standard.Representable ∧ skewed.Representable ∧
      skewed.WellDeclared .standard ∧ skewed.AllowsRequest skewedMembers ∧
      (∀ v ∈ exactValues .standard noRecords skewed (), v.2 < 2 ^ (64 : Nat)) ∧
      EndsOrderly skewed skewedMembers ((build .word64 .standard noRecords skewed).run ()).1 := by
  obtain ⟨hconfig, hdecl⟩ := skewed_representable
  have hbuilt : ∀ tag t l t', (noRecords tag).run t = (.ok l, t') → l.Constructed := nofun
  obtain ⟨placed, stop, t, hplaced, hends⟩ := build_accepts (s := ()) rfl hconfig hdecl
    skewed_wellDeclared hbuilt (fun tag h => absurd h (skewed_embeds tag))
    (fun _ _ _ _ => nofun) skewed_fits
  cases skewed_placed.symm.trans hplaced
  exact ⟨rfl, hconfig, hdecl, skewed_wellDeclared, nofun, skewed_fits, hends⟩

/-- The declaration asks for nothing impossible, and is refused. -/
theorem skewed_refused :
    Config.standard.validate = .ok () ∧ Config.standard.Representable ∧ skewed.Representable ∧
      skewed.WellDeclared .standard ∧ skewed.AllowsRequest skewedMembers ∧
      (∀ tag, ¬ skewed.Embeds tag) ∧
      (∀ v ∈ exactValues .standard noRecords skewed (), v.2 < 2 ^ (64 : Nat)) ∧
      ((build .word64 .standard noRecords skewed).run ()).1 =
        .error (.invalidMember ⟨"r"⟩ "b" (.misaligned 1 2)) :=
  ⟨rfl, skewed_representable.1, skewed_representable.2, skewed_wellDeclared, nofun, skewed_embeds,
    skewed_fits, rfl⟩

end NativeRecord
