import NativeRecord.Proofs.Registry.LookupOrder
import NativeRecord.Proofs.Transfer.Conformance
import NativeRecord.Proofs.Transfer.RoundTrip

/-!
# Transfers from a registry

What is known of reading and writing records is known of layouts that were built.  A program does
not build layouts itself: it declares types in a registry and asks the registry for what moves their
records.  This module joins the two ends.  Whatever was declared, asked for and forgotten before,
the layouts that a registry keeps and those that it answers with were built for its configuration,
so all that holds of built layouts holds of them.

Soundness of a registry says of each kept layout that it builds when the kept layouts are the
answers, which would also be true of two layouts that embed each other.  What rules these out is
that an embedded record is a smaller term than the record around it.  So the induction is on the
size of a layout, and it must first reduce the answers to the layouts that are embedded: of the
others the registry only knows that they are kept.

## What is here

* `Registry.Sound.built_of_kept` — a kept layout was built, also while others are being built.
* `Registry.built_afterAll` — after every row of operations, the kept layouts and the answers of
  `Registry.layoutOf` and `Registry.transferOf` were built.
* `Registry.transferOf_restores` — a transfer from a registry writes what conforms to its layout and
  reads it back.
-/

set_option autoImplicit false
namespace NativeRecord

namespace Registry

variable {r : Registry} {tag : Tag}

/-! ## Where layouts come from -/

/-- **A kept layout was built,** also in the middle of a lookup. -/
theorem Sound.built_of_kept (h : Sound r) {l : Layout} (hl : r.kept? tag = some l) :
    Built r.config l := by
  induction hsize : sizeOf l using Nat.strongRecOn generalizing tag l with
  | ind size ih =>
    obtain ⟨decl, -, hbuilds⟩ := h.built tag l hl
    have hembedded := hbuilds.mapRecords Layout.agrees_id
    rw [Layout.mapRecords_id] at hembedded
    have hbuilt : Built r.config { { l with serial := 0 } with serial := l.serial } := by
      refine .of_builds ?_ ?_ hembedded l.serial
      · rintro tag' _ _ ⟨inner, hinner, -, rfl⟩ ⟨inner', hinner', -, rfl⟩
        exact Option.some.inj (hinner.symm.trans hinner')
      · rintro tag' inner ⟨_, hinner, hemb, rfl⟩
        have hsmaller : sizeOf inner < sizeOf l := Layout.Embeds.sizeOf_lt (l := l) hemb
        exact ih _ (hsize ▸ hsmaller) hinner rfl
    cases l
    exact hbuilt

/-- What a lookup answers with is kept afterwards. -/
theorem kept_of_layoutOf {l : Layout} (hl : (r.layoutOf tag).1 = .ok l) :
    (r.layoutOf tag).2.kept? tag = some l :=
  (resolve_ensures (r.decls.length + 1) tag r).2 l hl

theorem AtRest.built_of_layoutOf (h : AtRest r) {l : Layout} (hl : (r.layoutOf tag).1 = .ok l) :
    l.tag = tag ∧ Built r.config l := by
  have hkept := kept_of_layoutOf hl
  have hbuilt := (h.layoutOf tag).sound.built_of_kept hkept
  rw [(r.layoutOf_later tag).1.config] at hbuilt
  exact ⟨key_of_lookup? hkept, hbuilt⟩

/-- A transfer consists of the layout of the type and of the registry's setting. -/
theorem transferOf_eq_ok_iff {t : RecordTransfer} :
    (r.transferOf tag).1 = .ok t ↔
      (r.layoutOf tag).1 = .ok t.layout ∧ t.zeroFill = r.config.zeroFill := by
  have hconfig := (r.layoutOf_later tag).1.config
  rw [transferOf]
  obtain ⟨layout, zeroFill⟩ := t
  rcases hrun : r.layoutOf tag with ⟨e | l, s⟩
  · simp [Except.map]
  · rw [hrun] at hconfig
    simp [Except.map, show s.config = r.config from hconfig, eq_comm]

/-- **Every layout that comes out of a registry was built for its configuration,** whatever
operations went before, and so was the layout of every transfer. -/
theorem built_afterAll (config : Config) (ops : List Op) (tag : Tag) :
    (∀ l, ((new config).afterAll ops).kept? tag = some l → l.tag = tag ∧ Built config l) ∧
      (∀ l, (((new config).afterAll ops).layoutOf tag).1 = .ok l →
        l.tag = tag ∧ Built config l) ∧
      ∀ t, (((new config).afterAll ops).transferOf tag).1 = .ok t →
        t.layout.tag = tag ∧ Built config t.layout ∧ t.zeroFill = config.zeroFill := by
  have hrest := (atRest_new config).afterAll ops
  have hconfig : ((new config).afterAll ops).config = config := config_afterAll _ ops
  have hlayoutOf : ∀ l, (((new config).afterAll ops).layoutOf tag).1 = .ok l →
      l.tag = tag ∧ Built config l := fun l hl => hconfig ▸ hrest.built_of_layoutOf hl
  refine ⟨fun l hl => ?_, hlayoutOf, fun t ht => ?_⟩
  · exact ⟨key_of_lookup? hl, hconfig ▸ hrest.sound.built_of_kept hl⟩
  · obtain ⟨hl, hfill⟩ := transferOf_eq_ok_iff.1 ht
    obtain ⟨htag, hbuilt⟩ := hlayoutOf _ hl
    exact ⟨htag, hbuilt, hconfig ▸ hfill⟩

/-! ## What transfers do -/

/-- **What a transfer from a registry takes, it writes and reads back.**  On every view of the
platform that is long enough and in which no access is made to fail, a record is written if it
conforms to the layout and otherwise refused for a fault in its names or values; after it is written
it is read again, at every path with the canonical form of its value there. -/
theorem transferOf_restores {config : Config} (hvalid : config.validate = .ok ()) (ops : List Op)
    {t : RecordTransfer} (ht : (((new config).afterAll ops).transferOf tag).1 = .ok t)
    {view : View} (hview : view.Writable config.platform) (hsize : t.layout.size ≤ view.size)
    (record : Record) :
    ((Value.record record).ConformsTo (.record t.layout) →
      (Value.record record).ExclusiveIn t.layout.slot →
        ∃ after back, t.layout.write t.zeroFill record view = (.ok (), after) ∧
          t.layout.read after = .ok back ∧ ∀ path x, (Value.record record).at? path = some x →
            ∃ slot y, t.layout.slot.at? path = some slot ∧
              (Value.record back).at? path = some y ∧ slot.Keeps x y) ∧
      (¬ (Value.record record).ConformsTo (.record t.layout) →
        ∃ e, (t.layout.write t.zeroFill record view).1 = .error e ∧ e.BlamesValue) := by
  obtain ⟨-, hbuilt, -⟩ := (built_afterAll config ops tag).2.2 t ht
  have hs := hbuilt.sound (Config.usable_of_validate hvalid)
  have hdecides := Layout.write_decides hview hs hbuilt.constructed.surveyed.stop_padding_le hsize
    t.zeroFill record
  refine ⟨fun hconforms hexclusive => ?_, fun hrefused => ?_⟩
  · have hok : (t.layout.write t.zeroFill record view).1 = .ok () := hdecides.ok_iff.2 hconforms
    have hwrite : t.layout.write t.zeroFill record view =
        (.ok (), (t.layout.write t.zeroFill record view).2) := Prod.ext hok rfl
    obtain ⟨back, hback, hkeeps⟩ :=
      Layout.read_of_write hs hview.toReadable hsize hexclusive hwrite
    exact ⟨_, back, hwrite, hback, hkeeps⟩
  · cases hanswer : (t.layout.write t.zeroFill record view).1 with
    | ok u => exact absurd (hdecides.ok_iff.1 hanswer) hrefused
    | error e => exact ⟨e, rfl, hdecides.blamesValue hanswer⟩

/-- The lookup of `mark` fails for want of `style`.  Once that is declared, there is a transfer. -/
example :
    (((new .standard).afterAll [.declare mark, .declare point, .layoutOf mark.tag,
        .declare style]).transferOf mark.tag).1.toOption.map (·.layout.size) = some 8 := by
  decide

end Registry

end NativeRecord
