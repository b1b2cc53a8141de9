import Mathlib.Tactic.SplitIfs
import NativeRecord.Json.Token
import NativeRecord.Proofs.Numeral

/-!
# Reading back strings and numbers

A string ends with its closing quote.  A number ends where it cannot go on, so what stands behind it
matters.

For strings the two directions match character by character: every character is written as one part,
and the reader finds that part again, whatever it is followed by.  The one trap is that a unit of
text may be half of a pair with the unit after it, so a part must be shown to stand for its
character whatever comes next (`StringPart.Names`).

A number has no closing mark.  Its reader takes optional pieces one after the other — a sign,
digits, a fraction, an exponent — and each of them looks at one character to see if it is there.
`StopsBefore` says that text which no number goes on with is left alone, and it is closed under
doing one reading after another, so the reader for numbers has it because its pieces have.

## What is here

* `Json.readString_escape` — what is written between quotes is read as the text it was written for.
* `Json.Delimits` — text with which no number goes on; `Json.stopsBefore_readNumber` — the number
  before it is read as it would be alone.
* `Json.readNumber_toString` — a numeral is read as it is.
-/

set_option autoImplicit false
namespace NativeRecord
namespace Json

/-! ## Strings -/

/-- The part stands for this one character, whatever comes next. -/
def StringPart.Names (p : StringPart) (c : Char) : Prop :=
  ∀ done rest, charsOfParts done (p :: rest) = charsOfParts (c :: done) rest

/-- A character as it is names itself. -/
theorem StringPart.Names.char (c : Char) : (StringPart.char c).Names c := fun _ _ => by
  rw [charsOfParts]

/-- A unit below the surrogates names the character with its number. -/
theorem StringPart.Names.unit {c : Char} (h : c.toNat < 0xd800) :
    (StringPart.unit c.toNat).Names c := by
  have hhigh : ¬ (0xd800 ≤ c.toNat ∧ c.toNat < 0xdc00) := by omega
  have hlow : ¬ (0xdc00 ≤ c.toNat ∧ c.toNat < 0xe000) := by omega
  have hany : ¬ (0xd800 ≤ c.toNat ∧ c.toNat < 0xe000) := by omega
  intro done rest
  -- A unit that follows could be the other half of a pair, but this one is no half.
  rcases rest with _ | ⟨_ | low, rest⟩
  case cons.unit => rw [charsOfParts, if_neg hhigh, if_neg hlow, Char.ofNat_toNat]
  all_goals
    rw [charsOfParts.eq_4 _ _ _ (by simp), if_neg hany, Char.ofNat_toNat]

/-- The four digits of a control character are read back. -/
theorem hexDigits?_control {n : Nat} (h : n < 0x20) :
    hexDigits? ['0', '0', Nat.digitChar (n / 16), Nat.digitChar (n % 16)] = some n := by
  revert n
  decide

/-- A character is written behind a backslash, as the number of a unit, or as it is. -/
theorem escape_cases (c : Char) :
    (∃ d, d ≠ 'u' ∧ unescape? d = some c ∧ escape c = ['\\', d]) ∨
    (c.toNat < 0x20 ∧ escape c =
      ['\\', 'u', '0', '0', Nat.digitChar (c.toNat / 16), Nat.digitChar (c.toNat % 16)]) ∨
    (c ≠ '"' ∧ c ≠ '\\' ∧ ¬ c.toNat < 0x20 ∧ escape c = [c]) := by
  rw [escape]
  split_ifs with hquote hslash hb ht hn hf hr hcontrol
  iterate 7
    · subst c
      exact .inl ⟨_, by decide, rfl, rfl⟩
  · exact .inr (.inl ⟨hcontrol, rfl⟩)
  · exact .inr (.inr ⟨hquote, hslash, hcontrol, rfl⟩)

/-- **What stands for a character between quotes is read as one part that names it.** -/
theorem readParts_escape (c : Char) : ∃ p : StringPart, p.Names c ∧ ∀ done rest,
    readParts done (escape c ++ rest) = readParts (p :: done) rest := by
  rcases escape_cases c with ⟨d, hd, hc, hescape⟩ | ⟨hcontrol, hescape⟩ |
    ⟨hquote, hslash, hcontrol, hescape⟩
  · refine ⟨.char c, .char c, fun done rest => ?_⟩
    rw [hescape, List.cons_append, List.singleton_append, readParts, hc]
    exact fun _ _ _ _ _ hu => absurd hu hd
  · refine ⟨.unit c.toNat, .unit (by omega), fun done rest => ?_⟩
    rw [hescape]
    simp only [List.cons_append, List.nil_append, readParts, hexDigits?_control hcontrol]
  · refine ⟨.char c, .char c, fun done rest => ?_⟩
    rw [hescape, List.singleton_append, readParts, if_neg hcontrol]
    · exact hquote
    · exact fun _ _ _ _ _ h => absurd h hslash
    · exact fun _ _ h => absurd h hslash

/-- Text that was escaped is read up to its closing quote, part by part. -/
theorem readParts_flatMap_escape (s : List Char) (done : List StringPart) (rest : List Char) :
    ∃ parts, readParts done (s.flatMap escape ++ '"' :: rest) = some (done.reverse ++ parts, rest) ∧
      ∀ chars, charsOfParts chars parts = some (chars.reverse ++ s) := by
  induction s generalizing done with
  | nil =>
    refine ⟨[], ?_, fun chars => ?_⟩
    · rw [List.flatMap_nil, List.nil_append, readParts, List.append_nil]
    · rw [charsOfParts, List.append_nil]
  | cons c s ih =>
    obtain ⟨p, hnames, hread⟩ := readParts_escape c
    obtain ⟨parts, hparts, hchars⟩ := ih (p :: done)
    refine ⟨p :: parts, ?_, fun chars => ?_⟩
    · rw [List.flatMap_cons, List.append_assoc, hread, hparts, List.reverse_cons, List.append_assoc]
      rfl
    · rw [hnames, hchars, List.reverse_cons, List.append_assoc]
      rfl

/-- **A text between quotes is read back.** -/
theorem readString_escape (s : String) (rest : List Char) :
    readString (s.toList.flatMap escape ++ '"' :: rest) = some (some s, rest) := by
  obtain ⟨parts, hparts, hchars⟩ := readParts_flatMap_escape s.toList [] rest
  rw [readString, hparts]
  show some ((charsOfParts [] parts).map String.ofList, rest) = _
  rw [hchars, List.reverse_nil, List.nil_append, Option.map_some, String.ofList_toList]

/-! ## Numbers

What a reader leaves and what it goes on with is decided by the first character. -/

/-- The characters that may stand in a number. -/
def isNumeric (c : Char) : Bool :=
  c.isDigit || c = '.' || c = 'e' || c = 'E' || c = '+' || c = '-'

/-- No number goes on with this text. -/
def Delimits (rest : List Char) : Prop := ∀ c ∈ rest.head?, isNumeric c = false

theorem delimits_nil : Delimits [] := nofun

theorem delimits_cons {c : Char} {rest : List Char} (h : isNumeric c = false) :
    Delimits (c :: rest) := fun _ hc => Option.some.inj hc ▸ h

theorem Delimits.ne {c d : Char} {rest : List Char} (h : Delimits (c :: rest))
    (hd : isNumeric d = true) : c ≠ d := by
  rintro rfl
  exact Bool.false_ne_true ((h c rfl).symm.trans hd)

/-- The reading stops in front of any text with which no number goes on. -/
def StopsBefore {α : Type} (read : List Char → Option (α × List Char)) : Prop :=
  ∀ cs rest, Delimits rest → read (cs ++ rest) = (read cs).map fun (a, left) => (a, left ++ rest)

namespace StopsBefore

theorem pure {α : Type} (a : α) : StopsBefore fun cs => some (a, cs) := fun _ _ _ => rfl

/-- Two readings in a row: what the first leaves, the second begins with. -/
theorem bind {α β : Type} {read : List Char → Option (α × List Char)}
    {next : α → List Char → Option (β × List Char)} (h : StopsBefore read)
    (hnext : ∀ a, StopsBefore (next a)) :
    StopsBefore fun cs => read cs >>= fun read => next read.1 read.2 := by
  intro cs rest hrest
  dsimp only
  rw [h cs rest hrest]
  rcases read cs with _ | ⟨a, left⟩
  · rfl
  · exact hnext a left rest hrest

/-- A reading may look at the first character and then leave it there or go on behind it. -/
theorem ofHead {α : Type} {read : List Char → Option (α × List Char)} {a : α}
    (starts : Char → Prop) (hnil : read [] = some (a, []))
    (hleave : ∀ c cs, ¬ starts c → read (c :: cs) = some (a, c :: cs))
    (hnumeric : ∀ c, starts c → isNumeric c = true)
    (hgo : ∀ c, starts c → StopsBefore fun cs => read (c :: cs)) : StopsBefore read := by
  intro cs rest hrest
  rcases cs with _ | ⟨c, cs⟩
  · rw [hnil]
    rcases rest with _ | ⟨d, rest⟩
    · exact hnil
    · exact hleave d rest fun hd => hrest.ne (hnumeric d hd) rfl
  · by_cases hc : starts c
    · exact hgo c hc cs rest hrest
    · rw [List.cons_append, hleave c _ hc, hleave c _ hc]
      rfl

end StopsBefore

/-- Digits are taken as long as there are any, and the text behind begins with none. -/
theorem stopsBefore_readDigits : StopsBefore readDigits := by
  intro cs rest hrest
  have hdigit : ∀ c ∈ rest.head?, c.isDigit = false := fun c hc => by
    have hnumeric := hrest c hc
    simp only [isNumeric, Bool.or_eq_false_iff] at hnumeric
    exact hnumeric.1.1.1.1.1
  have htake : rest.takeWhile Char.isDigit = [] := by
    rcases rest with _ | ⟨c, rest⟩
    · rfl
    · rw [List.takeWhile_cons_of_neg (by rw [hdigit c rfl]; decide)]
  have hdrop : rest.dropWhile Char.isDigit = rest := by
    rcases rest with _ | ⟨c, rest⟩
    · rfl
    · rw [List.dropWhile_cons_of_neg (by rw [hdigit c rfl]; decide)]
  have htakes : (cs ++ rest).takeWhile Char.isDigit = cs.takeWhile Char.isDigit := by
    rw [List.takeWhile_append, htake, List.append_nil]
    split
    · rename_i hall
      exact ((List.takeWhile_prefix _).eq_of_length hall).symm
    · rfl
  have hdrops : (cs ++ rest).dropWhile Char.isDigit = cs.dropWhile Char.isDigit ++ rest := by
    rw [List.dropWhile_append, hdrop]
    split
    · rename_i hall
      rw [List.isEmpty_iff.1 hall, List.nil_append]
    · rfl
  rw [readDigits, readDigits, htakes, hdrops]
  split <;> rfl

theorem readWhole_cons {c : Char} (hc : c ≠ '0') (cs : List Char) :
    readWhole (c :: cs) = readDigits (c :: cs) := by
  rw [readWhole]
  exact fun _ h => hc (List.cons.inj h).1

/-- A zero stands alone, and any other digit begins a run of digits. -/
theorem stopsBefore_readWhole : StopsBefore readWhole := by
  intro cs rest hrest
  have hdigits := stopsBefore_readDigits cs rest hrest
  rcases cs with _ | ⟨c, cs⟩
  · rcases rest with _ | ⟨d, rest⟩
    · rfl
    · rw [List.nil_append] at hdigits ⊢
      rw [readWhole_cons (hrest.ne (by decide)), hdigits]
      rfl
  · by_cases hc : c = '0'
    · rw [hc]
      rfl
    · rwa [List.cons_append, readWhole_cons hc, readWhole_cons hc]

/-- A sign is one character, or not there. -/
theorem stopsBefore_readSign (signs : List Char) (h : ∀ c ∈ signs, isNumeric c = true) :
    StopsBefore (readSign signs) := by
  refine .ofHead (· ∈ signs) rfl (fun _ _ hc => if_neg hc) h fun c hc => ?_
  simp only [readSign, if_pos hc]
  exact .pure [c]

/-- A fraction is a point with digits, or not there. -/
theorem stopsBefore_readFraction : StopsBefore readFraction := by
  refine .ofHead (· = '.') rfl (fun c cs hc => ?_) ?_ ?_
  · rw [readFraction]
    exact fun _ h => hc (List.cons.inj h).1
  · rintro _ rfl
    rfl
  · rintro _ rfl
    simp only [readFraction]
    exact stopsBefore_readDigits.bind fun digits => .pure ('.' :: digits)

/-- An exponent is a letter, a sign or none, and digits, or not there. -/
theorem stopsBefore_readExponent : StopsBefore readExponent := by
  have hsigns : ∀ sign ∈ ['+', '-'], isNumeric sign = true :=
    List.forall_mem_cons.2 ⟨rfl, List.forall_mem_singleton.2 rfl⟩
  refine .ofHead (fun c => c = 'e' ∨ c = 'E') rfl (fun _ _ hc => if_neg hc) ?_ fun c hc => ?_
  · rintro _ (rfl | rfl) <;> rfl
  · simp only [readExponent, if_pos hc]
    exact (stopsBefore_readSign _ hsigns).bind fun sign =>
      stopsBefore_readDigits.bind fun digits => .pure (c :: sign ++ digits)

/-- **A number is read as it would be alone** if no number goes on behind it. -/
theorem stopsBefore_readNumber : StopsBefore readNumber :=
  (stopsBefore_readSign ['-'] (List.forall_mem_singleton.2 rfl)).bind fun sign =>
    stopsBefore_readWhole.bind fun whole => stopsBefore_readFraction.bind fun fraction =>
      stopsBefore_readExponent.bind fun exponent =>
        .pure (String.ofList (sign ++ whole ++ fraction ++ exponent))

/-- Text that no number goes on with does not begin with one. -/
theorem readNumber_of_delimits {cs : List Char} (h : Delimits cs) : readNumber cs = none :=
  stopsBefore_readNumber [] cs h

/-- **The numeral of a number is read as it is.** -/
theorem readNumber_toString (n : Nat) :
    readNumber (toString n).toList = some (toString n, []) := by
  have hdigits : ∀ c ∈ Nat.toDigits 10 n, c.isDigit = true := fun _ =>
    Nat.isDigit_of_mem_toDigits (by decide) (by decide)
  have hzero := Nat.eq_zero_of_toDigits (n := n)
  rw [Nat.toString_eq_ofList_toDigits, String.toList_ofList]
  rcases hnumeral : Nat.toDigits 10 n with _ | ⟨c, cs⟩
  · exact absurd hnumeral Nat.toDigits_ne_nil
  · rw [hnumeral] at hdigits hzero
    have hall : (c :: cs).takeWhile Char.isDigit = c :: cs := by
      rw [← List.append_nil (c :: cs), List.takeWhile_append_of_pos hdigits, List.takeWhile_nil]
    have hnone : (c :: cs).dropWhile Char.isDigit = [] := by
      rw [← List.append_nil (c :: cs), List.dropWhile_append_of_pos hdigits, List.dropWhile_nil]
    have hsign : c ∉ ['-'] := by
      rw [List.mem_singleton]
      rintro rfl
      exact absurd (hdigits _ List.mem_cons_self) (by decide)
    have hwhole : readWhole (c :: cs) = some (c :: cs, []) := by
      by_cases hc : c = '0'
      · obtain rfl := hzero (congrArg some hc)
        rw [← hnumeral]
        rfl
      · rw [readWhole_cons hc, readDigits, hall, hnone]
    rw [readNumber, readSign, if_neg hsign]
    show (readWhole (c :: cs) >>= _) = _
    rw [hwhole]
    show some (String.ofList ([] ++ (c :: cs) ++ [] ++ []), _) = _
    rw [List.nil_append, List.append_nil, List.append_nil]

end Json

end NativeRecord
