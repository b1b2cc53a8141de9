import NativeRecord.Config.File
import NativeRecord.Proofs.Json.RoundTrip

/-!
# Saved configurations

Saving takes a name without an extension to be that of a JSON file, and loading does not, so a
configuration that was saved under such a name cannot be loaded.  Under any other name it can, and
is the one that was saved.

Three things come together here.  A configuration is written as a document that is read back to the
same configuration (`Config.decode?_pretty`), since the numbers in it fit into machine words.  A
place to which files are written gives back what was written (`Site.Faithful`).  And the extension
is the same both times, as it depends on the path alone; only what stands for a missing one differs.

## What is here

* `Config.decode?_pretty` — a configuration is read back from its text.
* `Site.Faithful` — a place where files hold what was written to them.
* `isSome_fileExtension?_iff` — the paths that have an extension.
* `Config.loadAs_of_saveAt` — what is loaded from the place to which a configuration was saved;
  `Config.load_saved` — when this is the configuration.
-/

set_option autoImplicit false
namespace NativeRecord

/-! ## Configurations in documents

The parts of a configuration are read back one by one.  The depth is the room for nesting that the
reader has left, and each part needs as much as it is nested. -/

theorem Endianness.ofJson?_jsonName (depth : Nat) (e : Endianness) :
    ofJson? depth (.text e.jsonName) = some e := by cases e <;> rfl

theorem BitOrder.ofJson?_jsonName (depth : Nat) (o : BitOrder) :
    ofJson? depth (.text o.jsonName) = some o := by cases o <;> rfl

/-- The numbers of the platform fit into machine words. -/
structure Platform.FitsWords (p : Platform) : Prop where
  pointerWidth : p.pointerWidth < Json.wordBound
  sizeTWidth : p.sizeTWidth < Json.wordBound
  longWidth : p.longWidth < Json.wordBound
  timeTWidth : p.timeTWidth < Json.wordBound
  maxScalarAlignment : p.maxScalarAlignment < Json.wordBound

theorem Platform.ofJson?_toJson {p : Platform} (h : p.FitsWords) (depth : Nat) :
    ofJson? (depth + 1) p.toJson = some p := by
  have hentries : p.toJson.entries? ["pointer_width", "size_t_width", "long_width", "time_t_width",
      "max_scalar_alignment", "endianness"] = some [some (.nat p.pointerWidth),
      some (.nat p.sizeTWidth), some (.nat p.longWidth), some (.nat p.timeTWidth),
      some (.nat p.maxScalarAlignment), some (.text p.endianness.jsonName)] :=
    Json.entries?_ofFields rfl (by decide)
  rw [ofJson?, hentries]
  simp only [Option.bind_eq_bind, Option.bind_some, Json.nat?_nat h.pointerWidth,
    Json.nat?_nat h.sizeTWidth, Json.nat?_nat h.longWidth, Json.nat?_nat h.timeTWidth,
    Json.nat?_nat h.maxScalarAlignment, Endianness.ofJson?_jsonName]
  rfl

/-- The numbers of the configuration fit into machine words. -/
structure Config.FitsWords (c : Config) : Prop where
  platform : c.platform.FitsWords
  defaultPack : ∀ pack ∈ c.defaultPack, pack < Json.wordBound

theorem Config.ofJson?_toJson {c : Config} (h : c.FitsWords) (depth : Nat) :
    ofJson? (depth + 2) c.toJson = some c := by
  have hentries : c.toJson.entries? ["platform", "bit_order", "zero_fill_padding", "default_pack"] =
      some [some c.platform.toJson, some (.text c.bitOrder.jsonName), some (.bool c.zeroFill),
        some (.ofOption .nat c.defaultPack)] := Json.entries?_ofFields rfl (by decide)
  have hpack : Json.optional? (Json.nat? Json.wordBound) (some (.ofOption .nat c.defaultPack)) =
      some c.defaultPack := by
    rcases hpack : c.defaultPack with _ | pack
    · rfl
    · exact congrArg (·.map some) (Json.nat?_nat (h.defaultPack pack hpack))
  rw [ofJson?, hentries]
  simp only [Option.bind_eq_bind, Option.bind_some, Platform.ofJson?_toJson h.platform,
    BitOrder.ofJson?_jsonName, hpack]
  rfl

theorem Config.proper_toJson (c : Config) : c.toJson.Proper := by
  have hplatform : c.platform.toJson.Proper := by
    refine Json.proper_ofFields ?_
    simp only [List.forall_mem_cons]
    exact ⟨Json.proper_nat _, Json.proper_nat _, Json.proper_nat _, Json.proper_nat _,
      Json.proper_nat _, .text _, nofun⟩
  have hpack : (Json.ofOption .nat c.defaultPack).Proper := by
    cases c.defaultPack with
    | none => exact .null
    | some pack => exact Json.proper_nat pack
  refine Json.proper_ofFields ?_
  simp only [List.forall_mem_cons]
  exact ⟨hplatform, .text _, .bool _, hpack, nofun⟩

/-- **A configuration is read back from its text.** -/
theorem Config.decode?_pretty {c : Config} (h : c.FitsWords) :
    Json.decode? ofJson? c.toJson.pretty = some c := by
  rw [Json.decode?, Json.parse?_pretty c.proper_toJson]
  exact ofJson?_toJson h 125

/-! ## Saving and loading

The extension is said in terms of the last part of a path: there is one if a dot stands in that
part, not as its first character. -/

/-- The bytes of a text are read as this text. -/
theorem Found.text?_file (text : String) : (file text.toUTF8).text? = some text := by
  rw [text?, String.fromUTF8?]
  exact dif_pos text.isValidUTF8

/-- A file that was written holds what was written. -/
def Site.Faithful (site : Site) : Prop :=
  ∀ contents found, site.write contents = (true, found) → found = .file contents

theorem Site.faithful_ofPath (path : String) : (ofPath path).Faithful := by
  intro contents found h
  rw [ofPath] at h
  dsimp only at h
  split at h <;> cases h
  rfl

/-- Nothing stands before the last dot of a name if there is none behind its first character. -/
theorem stem_eq_nil_iff {name : List Char} :
    name.take (name.length - (name.reverse.takeWhile (· ≠ '.')).length - 1) = [] ↔
      '.' ∉ name.tail := by
  rcases name with _ | ⟨c, tail⟩
  · simp
  · rw [List.take_eq_nil_iff, List.tail_cons, List.length_cons, List.reverse_cons]
    by_cases hdot : '.' ∈ tail
    · have hpart := List.takeWhile_prefix (l := tail.reverse) (· ≠ '.')
      have hshort : (tail.reverse.takeWhile (· ≠ '.')).length ≠ tail.reverse.length := by
        intro hlength
        have hall := List.all_takeWhile (l := tail.reverse) (p := (· ≠ '.'))
        rw [hpart.eq_of_length hlength, List.all_eq_true] at hall
        exact absurd (hall '.' (List.mem_reverse.2 hdot)) (by decide)
      have hle := hpart.length_le
      rw [List.takeWhile_append, if_neg hshort]
      rw [List.length_reverse] at hle hshort
      refine ⟨fun h => ?_, fun h => absurd hdot h⟩
      rcases h with h | h
      · omega
      · cases h
    · have hall : ∀ d ∈ tail.reverse, decide (d ≠ '.') = true := fun d hd => by
        rw [decide_eq_true_eq]
        rintro rfl
        exact hdot (List.mem_reverse.1 hd)
      rw [List.takeWhile_append_of_pos hall, List.length_append, List.length_reverse]
      exact ⟨fun _ => hdot, fun _ => .inl (by omega)⟩

/-- **The paths that have an extension:** the last part does not lead up, and has a dot behind its
first character. -/
theorem isSome_fileExtension?_iff {path : String} :
    (fileExtension? path).isSome = true ↔
      ∃ name ∈ (pathParts path).getLast?, name ≠ parentPart ∧ '.' ∈ name.tail := by
  rw [fileExtension?]
  rcases (pathParts path).getLast? with _ | name
  · exact ⟨nofun, by rintro ⟨_, ⟨⟩, -⟩⟩
  · simp only [Option.mem_some_iff, exists_eq_left']
    by_cases hparent : name = parentPart
    · rw [if_pos hparent]
      exact ⟨nofun, fun h => absurd hparent h.1⟩
    · rw [if_neg hparent]
      split
      · rename_i hstem
        exact ⟨nofun, fun h => absurd h.2 (stem_eq_nil_iff.1 hstem)⟩
      · rename_i hstem
        exact ⟨fun _ => ⟨hparent, Decidable.not_not.1 (mt stem_eq_nil_iff.2 hstem)⟩, fun _ => rfl⟩

namespace Config

/-- Saving succeeds if the extension, `json` if there is none, is known and the file can be written.
-/
theorem saveAt_eq_ok_iff {c : Config} {site : Site} {found : Found} :
    c.saveAt site = (.ok (), found) ↔
      isJsonExtension (site.extension?.getD "json") = true ∧
        site.write c.toJson.pretty.toUTF8 = (true, found) := by
  rw [saveAt]
  rcases isJsonExtension (site.extension?.getD "json") with _ | _
  · exact ⟨nofun, nofun⟩
  · rcases site.write c.toJson.pretty.toUTF8 with ⟨_ | _, found'⟩
    · exact ⟨nofun, nofun⟩
    · exact ⟨fun h => ⟨rfl, by cases h; rfl⟩, fun h => by cases h.2; rfl⟩

theorem save_eq_ok {c : Config} {path : String}
    (hextension : isJsonExtension ((fileExtension? path).getD "json") = true)
    (hwritable : isWritable path = true) :
    c.save path = (.ok (), .file c.toJson.pretty.toUTF8) :=
  saveAt_eq_ok_iff.2 ⟨hextension, by rw [Site.ofPath]; exact if_pos hwritable⟩

/-- The configuration if it is valid, and its flaw otherwise. -/
def checked (c : Config) : Except ConfigError Config :=
  (c.validate.mapError .invalid).map fun _ => c

/-- What a file of text is loaded as. -/
theorem loadAs_file (extension? : Option String) (text : String) :
    loadAs extension? (.file text.toUTF8) =
      if isJsonExtension (extension?.getD "") then
        (Json.decode? ofJson? text).elim (.error .malformed) checked
      else .error (.unsupportedFormat (extension?.getD "")) := by
  rw [loadAs, Found.text?_file]
  · dsimp only
    rcases isJsonExtension (extension?.getD "") with _ | _
    · rfl
    · rcases Json.decode? ofJson? text with _ | c
      · rfl
      · rw [Option.elim_some, checked, Bool.not_true, if_neg Bool.false_ne_true, if_pos rfl]
        dsimp only
        cases c.validate <;> rfl
  · intro h
    cases h

/-- **What is loaded where a configuration was saved.** -/
theorem loadAs_of_saveAt {c : Config} (hfits : c.FitsWords) {site : Site} (hsite : site.Faithful)
    {found : Found} (hsave : c.saveAt site = (.ok (), found)) :
    loadAs site.extension? found =
      if site.extension?.isSome then c.checked else .error (.unsupportedFormat "") := by
  obtain ⟨hextension, hwrite⟩ := saveAt_eq_ok_iff.1 hsave
  obtain rfl := hsite _ _ hwrite
  rw [loadAs_file]
  rcases hname : site.extension? with _ | extension
  · have hnone : ¬ isJsonExtension "" = true := by decide
    rw [Option.getD_none, if_neg hnone]
    exact (if_neg (by decide)).symm
  · rw [hname, Option.getD_some] at hextension
    rw [Option.getD_some, if_pos hextension, decode?_pretty hfits]
    exact (if_pos rfl).symm

/-- **A valid configuration that was saved is loaded again if its name has an extension,** and only
then. -/
theorem load_saved {c : Config} (hvalid : c.validate = .ok ()) (hfits : c.FitsWords) :
    (∀ site found, site.Faithful → c.saveAt site = (.ok (), found) →
      loadAs site.extension? found =
        if site.extension?.isSome then .ok c else .error (.unsupportedFormat "")) ∧
    ∀ path found, c.save path = (.ok (), found) →
      (load path found = .ok c ↔
        ∃ name ∈ (pathParts path).getLast?, name ≠ parentPart ∧ '.' ∈ name.tail) := by
  have hsite : ∀ site : Site, ∀ found, site.Faithful → c.saveAt site = (.ok (), found) →
      loadAs site.extension? found =
        if site.extension?.isSome then .ok c else .error (.unsupportedFormat "") := by
    intro site found hfaithful hsave
    rw [loadAs_of_saveAt hfits hfaithful hsave, checked, hvalid]
    rfl
  refine ⟨hsite, fun path found hsave => ?_⟩
  have hload : load path found =
      if (fileExtension? path).isSome then .ok c else .error (.unsupportedFormat "") :=
    hsite (.ofPath path) found (Site.faithful_ofPath path) hsave
  rw [hload, ← isSome_fileExtension?_iff]
  split
  · rename_i hsome
    exact ⟨fun _ => hsome, fun _ => rfl⟩
  · rename_i hnone
    exact ⟨nofun, fun hsome => absurd hsome hnone⟩

theorem standard_fitsWords : standard.FitsWords :=
  ⟨⟨by decide, by decide, by decide, by decide, by decide⟩, nofun⟩

theorem load_saved_standard : ∃ found, standard.save "own/layout.JSON" = (.ok (), found) ∧
    load "own/layout.JSON" found = .ok standard := by
  have hsave : standard.save "own/layout.JSON" = (.ok (), .file standard.toJson.pretty.toUTF8) :=
    save_eq_ok (by decide +kernel) (by decide +kernel)
  exact ⟨_, hsave, ((load_saved rfl standard_fitsWords).2 _ _ hsave).2
    ⟨_, rfl, by decide +kernel, by decide +kernel⟩⟩

/-- A name without an extension is good enough for saving, not for loading. -/
theorem standard_not_loaded : standard.validate = .ok () ∧ ∃ found,
    standard.save "layout" = (.ok (), found) ∧
      load "layout" found = .error (.unsupportedFormat "") := by
  have hname : fileExtension? "layout" = none := by decide +kernel
  have hsave : standard.save "layout" = (.ok (), .file standard.toJson.pretty.toUTF8) :=
    save_eq_ok (by decide +kernel) (by decide +kernel)
  refine ⟨rfl, _, hsave, ?_⟩
  rw [load, hname, loadAs_file, if_neg (by decide)]
  rfl

end Config

end NativeRecord
