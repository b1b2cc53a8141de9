import Mathlib.Data.List.Nodup
import NativeRecord.Layout.Summary
import NativeRecord.Proofs.Numeral
import NativeRecord.Transfer.Error

/-!
# The text of a type

Types are told to users and to other programs by their text.  The name of a record type may hold
brackets, stars, semicolons and blanks, so the parts of a text cannot be found by looking for these:
the text of a pointer or of a record ends where the whole text ends, and the length of an array is
found from the back.

## What is here

* `Arith.all` — the arithmetic types, no two of which have the same text (`Arith.text_inj`), and
  `Arith.startsPlain`, that none of these starts like the text of another type.
* `append_length_inj` — where the element ends in the text of an array.
* `CType.text_inj` — different types have different texts; `CType.text_unambiguous` — so it is where
  the texts are used.
-/

set_option autoImplicit false
namespace NativeRecord

/-! ## Arithmetic types -/

namespace Arith

/-- The arithmetic types, one by one. -/
def all : List Arith :=
  [.signed .w8, .signed .w16, .signed .w32, .signed .w64,
    .unsigned .w8, .unsigned .w16, .unsigned .w32, .unsigned .w64,
    .enum .w8, .enum .w16, .enum .w32, .enum .w64,
    .float .f32, .float .f64, .bool,
    .platform .sizeT, .platform .long, .platform .unsignedLong, .platform .timeT]

theorem mem_all (a : Arith) : a ∈ all := by
  cases a with
  | signed w | unsigned w | enum w => cases w <;> decide
  | float w => cases w <;> decide
  | platform p => cases p <;> decide
  | bool => decide

theorem text_inj {a b : Arith} : a.text = b.text ↔ a = b := by
  have hnodup : (all.map text).Nodup := by decide +kernel
  exact ⟨List.inj_on_of_nodup_map hnodup (mem_all a) (mem_all b), congrArg text⟩

/-- Texts that start neither with a star or a bracket nor with the word for record types. -/
def StartsPlain (text : String) : Prop :=
  text.toList.head? ≠ some '*' ∧ text.toList.head? ≠ some '[' ∧
    ¬ "struct ".toList <+: text.toList

instance (text : String) : Decidable (StartsPlain text) :=
  inferInstanceAs (Decidable (text.toList.head? ≠ some '*' ∧ text.toList.head? ≠ some '[' ∧
    ¬ "struct ".toList <+: text.toList))

theorem startsPlain (a : Arith) : StartsPlain a.text := by
  have hall : ∀ a ∈ all, StartsPlain a.text := by decide +kernel
  exact hall a a.mem_all

end Arith

/-! ## Texts of arrays -/

/-- **A length at the end of a text is found from the back,** whatever stands before it. -/
theorem append_length_inj {s t : String} {m n : Nat} :
    s ++ "; " ++ toString m ++ "]" = t ++ "; " ++ toString n ++ "]" ↔ s = t ∧ m = n := by
  refine ⟨fun h => ?_, by rintro ⟨rfl, rfl⟩; rfl⟩
  rw [String.append_left_inj] at h
  -- Read backwards, the digits end at the blank.
  have hdigits (s : String) (n : Nat) :
      (s ++ "; " ++ toString n).toList.reverse.takeWhile Char.isDigit =
        (toString n).toList.reverse := by
    rw [String.toList_append, String.toList_append, List.reverse_append, List.reverse_append,
      List.takeWhile_append_of_pos fun c hc => isDigit_of_mem_toString (List.mem_reverse.1 hc)]
    exact List.append_nil _
  have hlength := hdigits s m
  rw [h, hdigits, List.reverse_inj, String.toList_inj] at hlength
  obtain rfl := toString_nat_inj.1 hlength
  rw [String.append_left_inj, String.append_left_inj] at h
  exact ⟨h, rfl⟩

/-! ## Types -/

namespace CType

theorem text_pointer_inj {a b : CType} :
    (pointer a).text = (pointer b).text ↔ a.text = b.text := String.append_right_inj _

theorem text_record_inj {s t : Tag} : (record s).text = (record t).text ↔ s = t := by
  cases s; cases t
  rw [text, text, String.append_right_inj, Tag.mk.injEq]

theorem text_array_inj {a b : CType} {m n : Nat} :
    (array a m).text = (array b n).text ↔ a.text = b.text ∧ m = n := by
  rw [text, text, ← append_length_inj]
  simp only [String.append_assoc, String.append_right_inj]

theorem head?_text_pointer (a : CType) : (pointer a).text.toList.head? = some '*' := by
  rw [text, String.toList_append]
  rfl

theorem head?_text_array (a : CType) (n : Nat) : (array a n).text.toList.head? = some '[' := by
  simp only [text, String.toList_append, List.append_assoc]
  rfl

theorem prefix_text_record (t : Tag) : "struct ".toList <+: (record t).text.toList := by
  rw [text, String.toList_append]
  exact List.prefix_append _ _

theorem head?_text_record (t : Tag) : (record t).text.toList.head? = some 's' := by
  rw [text, String.toList_append]
  rfl

/-- **Different types have different texts.** -/
theorem text_inj {a b : CType} : a.text = b.text ↔ a = b := by
  refine ⟨fun h => ?_, congrArg text⟩
  -- The start of the text tells which kind of type it is.
  have hhead : a.text.toList.head? = b.text.toList.head? := by rw [h]
  induction a generalizing b with
  | arith a =>
    obtain ⟨hpointer, harray, hrecord⟩ : Arith.StartsPlain b.text := h ▸ a.startsPlain
    cases b with
    | arith b => exact congrArg arith (Arith.text_inj.1 h)
    | pointer b => exact absurd b.head?_text_pointer hpointer
    | record t => exact absurd (prefix_text_record t) hrecord
    | array b n => exact absurd (b.head?_text_array n) harray
  | pointer a ih =>
    rw [head?_text_pointer] at hhead
    cases b with
    | arith b => exact absurd hhead.symm b.startsPlain.1
    | pointer b =>
      have htext := text_pointer_inj.1 h
      exact congrArg pointer (ih htext (by rw [htext]))
    | record t => rw [head?_text_record] at hhead; cases hhead
    | array b n => rw [head?_text_array] at hhead; cases hhead
  | record t =>
    rw [head?_text_record] at hhead
    cases b with
    | arith b => exact absurd (prefix_text_record t) (h ▸ b.startsPlain.2.2)
    | pointer b => rw [head?_text_pointer] at hhead; cases hhead
    | record t' => exact congrArg record (text_record_inj.1 h)
    | array b n => rw [head?_text_array] at hhead; cases hhead
  | array a m ih =>
    rw [head?_text_array] at hhead
    cases b with
    | arith b => exact absurd hhead.symm b.startsPlain.2.1
    | pointer b => rw [head?_text_pointer] at hhead; cases hhead
    | record t => rw [head?_text_record] at hhead; cases hhead
    | array b n =>
      obtain ⟨htext, rfl⟩ := text_array_inj.1 h
      rw [ih htext (by rw [htext])]

/-- No type has the text of what is expected where any array would do. -/
theorem text_ne_array (a : CType) : a.text ≠ "array" := by
  have harith : ∀ a ∈ Arith.all, a.text ≠ "array" := by decide +kernel
  intro h
  have hhead : a.text.toList.head? = some 'a' := by rw [h]; rfl
  cases a with
  | arith a => exact harith a a.mem_all h
  | pointer a => rw [head?_text_pointer] at hhead; cases hhead
  | record t => rw [head?_text_record] at hhead; cases hhead
  | array a n => rw [head?_text_array] at hhead; cases hhead

end CType

/-! ## Where the texts are used -/

theorem Expected.text_inj {a b : Expected} : a.text = b.text ↔ a = b := by
  refine ⟨fun h => ?_, congrArg text⟩
  cases a with
  | type a =>
    cases b with
    | type b => exact congrArg Expected.type (CType.text_inj.1 h)
    | array => exact absurd h a.text_ne_array
  | array =>
    cases b with
    | type b => exact absurd h.symm b.text_ne_array
    | array => rfl

/-- **A type is known by its text,** whatever the names of record types hold: in a failure that says
which type a field has, and in the summaries of layouts, member by member. -/
theorem CType.text_unambiguous :
    (∀ a b : CType, a.text = b.text ↔ a = b) ∧
      (∀ a b : Expected, a.text = b.text ↔ a = b) ∧
      ∀ l l' : Layout, (Summary.ofLayout l).members.map (·.type) =
          (Summary.ofLayout l').members.map (·.type) ↔
        l.members.map (·.type) = l'.members.map (·.type) := by
  refine ⟨fun _ _ => text_inj, fun _ _ => Expected.text_inj, fun l l' => ?_⟩
  have hinjective : Function.Injective text := fun _ _ => text_inj.1
  have htypes (l : Layout) : (Summary.ofLayout l).members.map (·.type) =
      (l.members.map (·.type)).map text := by
    rw [Summary.ofLayout, List.map_map, List.map_map]
    rfl
  rw [htypes, htypes]
  exact hinjective.list_map.eq_iff

/-- A name that goes on like an array differs from an array by the bracket in front. -/
example : (CType.array (.record ⟨"a; 2]"⟩) 3).text = "[struct a; 2]; 3]" ∧
    (CType.array (.array (.record ⟨"a"⟩) 2) 3).text = "[[struct a; 2]; 3]" := by decide +kernel

end NativeRecord
