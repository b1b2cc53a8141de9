import NativeRecord.Json.Decode
import NativeRecord.Proofs.Json.Scalars
import NativeRecord.Proofs.Run

/-!
# Reading back documents

A document is written by recursion on it, and read by a stack machine that sees one token after the
other.  What connects the two is what a piece of text does to the machine: from where the reading
has come before the piece, it takes it to where it has come after it.

Such facts compose: `Takes.append` puts two pieces together, and each piece of text that the
renderer writes — a mark, a quoted string, a number, blanks — has its own lemma.  Pieces are not
independent of what follows them, since a number ends only where a character stands that cannot be
part of it.  Hence the condition on the text behind, which a piece hands on to its neighbour: after
a number there must be a delimiter, and behind every value the renderer writes a comma, a closing
mark or a blank.

Arrays and objects are read by one argument.  `Course` names the states that the machine goes
through for a container with members of some type, and `Takes.enclose` is the induction over its
members.  The state keeps those that are done in reverse, and the induction runs over those still to
come, for any that are done.  Then `takes_render` is the induction over the document.

## What is here

* `Json.Proper` — the documents whose strings are text and whose numbers are numbers.
* `Json.Takes` — what a piece of text does to the reading, with one lemma for each way of putting
  pieces together; `Takes.enclose` is that of arrays and objects.
* `Json.parse?_render` — a document is read back from its text, in either style.
* `Json.nat?_nat`, `Json.entries?_ofFields` — numbers and fields are read back from a document.
-/

set_option autoImplicit false
namespace NativeRecord
namespace Json

/-- A document in which all strings are text, and all numbers are read as they are written. -/
inductive Proper : Json → Prop where
  | null : Proper .null
  | bool (b : Bool) : Proper (.bool b)
  | number {literal : String} (h : readNumber literal.toList = some (literal, [])) :
    Proper (.number literal)
  | text (s : String) : Proper (.text s)
  | array {items : List Json} (h : ∀ item ∈ items, Proper item) : Proper (.array items)
  | object {entries : List (Option String × Json)} (hnames : ∀ entry ∈ entries, entry.1.isSome)
    (hvalues : ∀ entry ∈ entries, Proper entry.2) : Proper (.object entries)

theorem proper_nat (n : Nat) : Proper (.nat n) := .number (readNumber_toString n)

theorem proper_ofFields {fields : List (String × Json)} (h : ∀ field ∈ fields, Proper field.2) :
    Proper (.ofFields fields) := by
  refine .object (fun entry hentry => ?_) fun entry hentry => ?_
  · obtain ⟨_, -, rfl⟩ := List.mem_map.1 hentry
    rfl
  · obtain ⟨field, hfield, rfl⟩ := List.mem_map.1 hentry
    exact h field hfield

/-! ## Pieces of text

The text is cut into tokens, with fuel, and these lead the machine from one state to another.
`Takes` says both in one definition, since nothing outside needs to know which tokens they are.
Each of them costs one unit of fuel and takes a character at least, so fuel for every character is
enough. -/

/-- The text takes the reading from `p` to `q` if text of this kind stands behind it.  Each of its
tokens takes a character. -/
def Takes (behind : List Char → Prop) (s : List Char) (p q : Progress) : Prop :=
  ∃ tokens : List Token, tokens.length ≤ s.length ∧ tokens.foldlM Progress.step? p = some q ∧
    ∀ rest, behind rest → ∀ done fuel,
      readTokens done (fuel + tokens.length) (s ++ rest) =
        readTokens (tokens.reverse ++ done) fuel rest

section Pieces

variable {behind behind' : List Char → Prop} {s s' : List Char} {p q r : Progress}

namespace Takes

/-- Two pieces, one behind the other.  What follows the first is the second and then the rest. -/
theorem append (h : Takes behind s p q) (h' : Takes behind' s' q r)
    (hbehind : ∀ rest, behind' rest → behind (s' ++ rest)) : Takes behind' (s ++ s') p r := by
  obtain ⟨tokens, hlength, hsteps, hread⟩ := h
  obtain ⟨tokens', hlength', hsteps', hread'⟩ := h'
  refine ⟨tokens ++ tokens', ?_, ?_, fun rest hrest done fuel => ?_⟩
  · rw [List.length_append, List.length_append]
    omega
  · rw [List.foldlM_append, hsteps]
    exact hsteps'
  · rw [List.length_append, Nat.add_comm tokens.length, ← Nat.add_assoc, List.append_assoc,
      hread _ (hbehind rest hrest), hread' rest hrest, List.reverse_append, List.append_assoc]

theorem nil : Takes behind [] p p :=
  ⟨[], Nat.le_refl _, rfl, fun _ _ _ _ => rfl⟩

/-- Blanks do nothing. -/
theorem blanks (h : Takes behind s p q) (hblank : ∀ c ∈ s', isBlank c = true) :
    Takes behind (s' ++ s) p q := by
  obtain ⟨tokens, hlength, hsteps, hread⟩ := h
  refine ⟨tokens, ?_, hsteps, fun rest hrest done fuel => ?_⟩
  · rw [List.length_append]
    omega
  · rw [← hread rest hrest, List.append_assoc]
    cases fuel + tokens.length with
    | zero => rfl
    | succ fuel => rw [readTokens, readTokens, List.dropWhile_append_of_pos hblank]

/-- One token leads one step on. -/
theorem token {c : Char} {t : Token} (hc : isBlank c = false)
    (hread : ∀ rest, behind rest → readToken (c :: s ++ rest) = some (t, rest))
    (hstep : p.step? t = some q) : Takes behind (c :: s) p q := by
  refine ⟨[t], Nat.succ_le_succ (Nat.zero_le _), ?_, fun rest hrest done fuel => ?_⟩
  · rw [List.foldlM_cons, hstep]
    rfl
  · show readTokens done (fuel + 1) (c :: s ++ rest) = readTokens (t :: done) fuel rest
    have htoken := hread rest hrest
    rw [List.cons_append] at htoken ⊢
    rw [readTokens, List.dropWhile_cons_of_neg (by rw [hc]; decide)]
    dsimp only
    rw [htoken]

end Takes

/-- **What leads the reading to the end of a document is its text.** -/
theorem parse?_of_takes {s : String} {j : Json} (h : Takes Delimits s.toList .start (.after j [])) :
    parse? s = some j := by
  obtain ⟨tokens, hlength, hsteps, hread⟩ := h
  have htokens : tokens? s = some tokens := by
    obtain ⟨fuel, hfuel⟩ := Nat.exists_eq_add_of_le' hlength
    rw [tokens?, hfuel, ← List.append_nil s.toList, Nat.add_right_comm,
      hread [] delimits_nil [] (fuel + 1), readTokens, List.append_nil, List.reverse_reverse]
    rfl
  rw [parse?, htokens, Option.bind_some, ofTokens?, hsteps]
  rfl

theorem isNumeric_of_isBlank {c : Char} (h : isBlank c = true) : isNumeric c = false := by
  simp only [isBlank, Bool.or_eq_true, decide_eq_true_eq] at h
  rcases h with ((rfl | rfl) | rfl) | rfl <;> decide

/-- Blanks end a number as well as what stands behind them does. -/
theorem delimits_blanks (h : ∀ c ∈ s, isBlank c = true) {rest : List Char} (hrest : Delimits rest) :
    Delimits (s ++ rest) := by
  cases s with
  | nil => exact hrest
  | cons c s => exact delimits_cons (isNumeric_of_isBlank (h c List.mem_cons_self))

/-- A mark is a token of one character, whatever stands behind it. -/
structure Marks (c : Char) (t : Token) : Prop where
  read : ∀ rest, readToken (c :: rest) = some (t, rest)
  not_blank : isBlank c = false
  not_numeric : isNumeric c = false

/-- A mark leads one step on, and then the rest of the piece is read. -/
theorem Takes.mark {c : Char} {t : Token} (h : Takes behind s q r) (hmarks : Marks c t)
    (hstep : p.step? t = some q) : Takes behind (c :: s) p r := by
  have hmark : Takes (fun _ => True) [c] p q :=
    .token hmarks.not_blank (fun rest _ => hmarks.read rest) hstep
  exact hmark.append h fun _ _ => trivial

theorem marks_comma : Marks ',' .comma := ⟨fun _ => rfl, rfl, rfl⟩

end Pieces

/-! ## Containers

Arrays and objects differ in what their members look like and in how the machine stores them, but
not in the order of steps: before a member, after it, and at the closing mark. -/

/-- How the reading goes through a container whose members are of this type. -/
structure Course (α : Type) where
  /-- A member may come, behind those that are given in reverse. -/
  before : List α → Progress
  /-- A member has just ended, behind those that are given in reverse. -/
  after : α → List α → Progress
  result : List α → Progress
  closing : Char
  close : Token
  marks : Marks closing close
  step_comma : ∀ a done, (after a done).step? .comma = some (before (a :: done))
  step_close : ∀ a done, (after a done).step? close = some (result (a :: done).reverse)
  step_close_nil : (before []).step? close = some (result [])

namespace Course

variable (outer : List OpenContainer)

/-- The steps through an array: each item is a member by itself. -/
def array : Course Json where
  before done := .before (.items done :: outer)
  after j done := .after j (.items done :: outer)
  result items := .after (.array items) outer
  closing := ']'
  close := .closeArray
  marks := ⟨fun _ => rfl, rfl, rfl⟩
  step_comma _ _ := rfl
  step_close _ _ := rfl
  step_close_nil := rfl

/-- The steps through an object: a member is a name with a value. -/
def object : Course (Option String × Json) where
  before done := .before (.entries done :: outer)
  after entry done := .after entry.2 (.awaiting done entry.1 :: outer)
  result entries := .after (.object entries) outer
  closing := '\x7d'
  close := .closeObject
  marks := ⟨fun _ => rfl, rfl, rfl⟩
  step_comma _ _ := rfl
  step_close _ _ := rfl
  step_close_nil := rfl

end Course

/-- Only blanks set the parts of a document apart. -/
structure Style.Blank (style : Style) : Prop where
  gap : ∀ depth, ∀ c ∈ (style.gap depth).toList, isBlank c = true
  colon : ∃ blanks, style.colon.toList = ':' :: blanks ∧ ∀ c ∈ blanks, isBlank c = true

theorem Style.blank_compact : Style.compact.Blank := ⟨nofun, [], rfl, nofun⟩

theorem Style.blank_pretty : Style.pretty.Blank where
  gap depth c hc := by
    rw [Style.pretty, String.toList_ofList, List.mem_cons, List.mem_replicate] at hc
    rcases hc with rfl | ⟨-, rfl⟩ <;> rfl
  colon := ⟨[' '], rfl, List.forall_mem_singleton.2 rfl⟩

section Containers

variable {α : Type} (course : Course α) {text : α → String} {style : Style}

-- The induction is on the members that are still to come, so the ones that are done vary.
theorem Takes.row (behind : List Char → Prop) (hstyle : style.Blank) (depth : Nat) {a : α}
    {members : List α}
    (h : ∀ b ∈ a :: members, ∀ done,
      Takes Delimits (text b).toList (course.before done) (course.after b done))
    (done : List α) :
    Takes behind
      ((String.intercalate ("," ++ style.gap (depth + 1)) ((a :: members).map text)).toList ++
        ((style.gap depth).toList ++ [course.closing]))
      (course.before done) (course.result (done.reverse ++ a :: members)) := by
  induction members generalizing a done with
  | nil =>
    have hlast : Takes behind ((style.gap depth).toList ++ [course.closing])
        (course.after a done) (course.result (a :: done).reverse) :=
      (Takes.nil.mark course.marks (course.step_close a done)).blanks (hstyle.gap depth)
    rw [List.reverse_cons] at hlast
    rw [List.map_singleton, String.intercalate_singleton]
    refine (h a List.mem_cons_self done).append hlast fun rest _ => ?_
    rw [List.append_assoc]
    exact delimits_blanks (hstyle.gap depth) (delimits_cons course.marks.not_numeric)
  | cons b members ih =>
    have hrest := ((ih (a := b) (fun c hc => h c (List.mem_cons_of_mem a hc)) (a :: done)).blanks
      (hstyle.gap (depth + 1))).mark marks_comma (course.step_comma a done)
    have htext := (h a List.mem_cons_self done).append hrest fun _ _ =>
      delimits_cons marks_comma.not_numeric
    rw [List.reverse_cons, List.append_assoc, List.singleton_append] at htext
    have hcomma : ",".toList = [','] := rfl
    rw [List.map_cons, List.map_cons, String.intercalate_cons_cons, String.toList_append,
      String.toList_append, String.toList_append, hcomma]
    simpa only [List.append_assoc, List.cons_append, List.nil_append, List.map_cons] using htext

/-- **A container is read member by member.** -/
theorem Takes.enclose {behind : List Char → Prop} (hstyle : style.Blank) (depth : Nat)
    {members : List α}
    (h : ∀ a ∈ members, ∀ done,
      Takes Delimits (text a).toList (course.before done) (course.after a done))
    {opening closing : String} (hclosing : closing.toList = [course.closing]) {c : Char}
    (hopening : opening.toList = [c]) {t : Token} (hmarks : Marks c t) {p : Progress}
    (hstep : p.step? t = some (course.before [])) :
    Takes behind (style.enclose depth opening closing (members.map text)).toList p
      (course.result members) := by
  cases members with
  | nil =>
    rw [List.map_nil, Style.enclose, String.toList_append, hopening, hclosing]
    exact (Takes.nil.mark course.marks course.step_close_nil).mark hmarks hstep
  | cons a members =>
    have hrow := ((Takes.row course behind hstyle depth h []).blanks
      (hstyle.gap (depth + 1))).mark hmarks hstep
    rw [List.map_cons] at hrow ⊢
    rw [Style.enclose]
    · simpa only [String.toList_append, hopening, hclosing, List.append_assoc, List.cons_append,
        List.nil_append, List.reverse_nil] using hrow
    · exact nofun

end Containers

/-! ## Documents

The renderer collects the texts of members in reverse; these are maps over the members. -/

/-- The texts of the items, in their order. -/
theorem renderItems_eq (style : Style) (depth : Nat) (done : List String) (items : List Json) :
    renderItems style depth done items = done.reverse ++ items.map (·.render style depth) := by
  induction items generalizing done with
  | nil => rw [renderItems, List.map_nil, List.append_nil]
  | cons item items ih =>
    rw [renderItems, ih, List.reverse_cons, List.append_assoc]
    rfl

/-- The text of an entry. -/
def renderEntry (style : Style) (depth : Nat) (entry : Option String × Json) : String :=
  quote (entry.1.getD "") ++ style.colon ++ entry.2.render style depth

/-- The texts of the entries, in their order. -/
theorem renderEntries_eq (style : Style) (depth : Nat) (done : List String)
    (entries : List (Option String × Json)) :
    renderEntries style depth done entries =
      done.reverse ++ entries.map (renderEntry style depth) := by
  induction entries generalizing done with
  | nil => rw [renderEntries, List.map_nil, List.append_nil]
  | cons entry entries ih =>
    rw [renderEntries, ih, List.reverse_cons, List.append_assoc]
    rfl

/-- A value may come next in the innermost container. -/
structure AwaitsValue (outer : List OpenContainer) : Prop where
  scalar : ∀ j, (Progress.before outer).step? (.scalar j) = some (.after j outer)
  array : (Progress.before outer).step? .openArray = some (.before (.items [] :: outer))
  object : (Progress.before outer).step? .openObject = some (.before (.entries [] :: outer))

theorem awaitsValue_nil : AwaitsValue [] := ⟨fun _ => rfl, rfl, rfl⟩

theorem awaitsValue_items (done : List Json) (outer : List OpenContainer) :
    AwaitsValue (.items done :: outer) := by
  cases done <;> exact ⟨fun _ => rfl, rfl, rfl⟩

theorem awaitsValue_awaiting (done : List (Option String × Json)) (name : Option String)
    (outer : List OpenContainer) : AwaitsValue (.awaiting done name :: outer) :=
  ⟨fun _ => rfl, rfl, rfl⟩

section Scalars

variable {behind : List Char → Prop} {p q : Progress}

/-- A quoted string is one token, whatever stands behind it. -/
theorem Takes.quote {s : String} (hstep : p.step? (.scalar (.text s)) = some q) :
    Takes behind (quote s).toList p q := by
  rw [Json.quote, String.toList_ofList, List.cons_append]
  refine .token rfl (fun rest _ => ?_) hstep
  rw [List.cons_append, List.append_assoc, readToken, List.singleton_append, readString_escape]
  rfl

/-- A character of a number begins a number, and none of the marks. -/
theorem readToken_of_isNumeric {c : Char} (h : isNumeric c = true) (cs : List Char) :
    readToken (c :: cs) = (readNumber (c :: cs)).map fun (literal, rest) =>
      (.scalar (.number literal), rest) := by
  rw [readToken]
  · cases readNumber (c :: cs) <;> rfl
  all_goals
    rintro rest hstart
    obtain ⟨rfl, -⟩ := List.cons.inj hstart
    exact absurd h (by decide)

/-- A number is one token if a delimiter stands behind it. -/
theorem Takes.number {literal : String} (h : readNumber literal.toList = some (literal, []))
    (hstep : p.step? (.scalar (.number literal)) = some q) :
    Takes Delimits literal.toList p q := by
  have hread := stopsBefore_readNumber literal.toList
  rw [h] at hread
  rcases hliteral : literal.toList with _ | ⟨c, cs⟩
  · rw [hliteral] at h
    cases h
  · rw [hliteral] at h hread
    have hc : isNumeric c = true := by
      rw [← Bool.not_eq_false]
      intro hc
      rw [readNumber_of_delimits (delimits_cons hc)] at h
      cases h
    have hblank : isBlank c = false := by
      rw [← Bool.not_eq_true]
      exact fun hblank => Bool.false_ne_true ((isNumeric_of_isBlank hblank).symm.trans hc)
    refine .token hblank (fun rest hrest => ?_) hstep
    have hnumber := hread rest hrest
    rw [List.cons_append] at hnumber ⊢
    rw [readToken_of_isNumeric hc, hnumber]
    rfl

end Scalars

/-- A name and a colon lead to the value. -/
theorem Takes.entry {style : Style} (hstyle : style.Blank) {behind : List Char → Prop} {depth : Nat}
    {name : String} {value : Json} {done : List (Option String × Json)}
    {outer : List OpenContainer}
    (h : Takes behind (value.render style depth).toList
      (.before (.awaiting done (some name) :: outer))
      (.after value (.awaiting done (some name) :: outer))) :
    Takes behind (renderEntry style depth (some name, value)).toList
      ((Course.object outer).before done)
      ((Course.object outer).after (some name, value) done) := by
  obtain ⟨blanks, hcolon, hblanks⟩ := hstyle.colon
  have hname : Takes (fun _ => True) (Json.quote name).toList (.before (.entries done :: outer))
      (.before (.named done (some name) :: outer)) := .quote rfl
  have hentry := hname.append ((h.blanks hblanks).mark (c := ':') ⟨fun _ => rfl, rfl, rfl⟩ rfl)
    fun _ _ => trivial
  rw [renderEntry, String.toList_append, String.toList_append, hcolon]
  rwa [List.append_assoc]

/-- **The text of a document takes the reading to its end.** -/
theorem takes_render {style : Style} (hstyle : style.Blank) {j : Json} (h : j.Proper) (depth : Nat)
    {outer : List OpenContainer} (houter : AwaitsValue outer) :
    Takes Delimits (j.render style depth).toList (.before outer) (.after j outer) := by
  induction h generalizing depth outer with
  | null =>
    rw [render]
    exact .token (c := 'n') (s := ['u', 'l', 'l']) rfl (fun _ _ => rfl) (houter.scalar .null)
  | bool b =>
    cases b with
    | true =>
      rw [render]
      exact .token (c := 't') (s := ['r', 'u', 'e']) rfl (fun _ _ => rfl)
        (houter.scalar (.bool true))
    | false =>
      rw [render]
      exact .token (c := 'f') (s := ['a', 'l', 's', 'e']) rfl (fun _ _ => rfl)
        (houter.scalar (.bool false))
  | number hliteral => exact .number hliteral (houter.scalar _)
  | text s => exact .quote (houter.scalar (.text s))
  | array _ ih =>
    rw [render, renderItems_eq]
    exact .enclose (.array outer) hstyle depth
      (fun item hitem done => ih item hitem (depth + 1) (awaitsValue_items done outer)) rfl rfl
      ⟨fun _ => rfl, rfl, rfl⟩ houter.array
  | object hnames hvalues ih =>
    rw [render, renderEntries_eq]
    refine .enclose (.object outer) hstyle depth (fun entry hentry done => ?_) rfl rfl
      ⟨fun _ => rfl, rfl, rfl⟩ houter.object
    have hname := hnames entry hentry
    have hvalue := ih entry hentry (depth + 1) (awaitsValue_awaiting done entry.1 outer)
    obtain ⟨_ | name, value⟩ := entry
    · cases hname
    · exact .entry hstyle hvalue

/-- **A document is read back from its text.** -/
theorem parse?_render {style : Style} (hstyle : style.Blank) {j : Json} (h : j.Proper) :
    parse? (j.render style 0) = some j :=
  parse?_of_takes (takes_render hstyle h 0 awaitsValue_nil)

theorem parse?_compact {j : Json} (h : j.Proper) : parse? j.compact = some j :=
  parse?_render Style.blank_compact h

theorem parse?_pretty {j : Json} (h : j.Proper) : parse? j.pretty = some j :=
  parse?_render Style.blank_pretty h

/-! ## Values in documents

What is read out of a document: numbers with a bound, and the fields of an object by their names. -/

/-- One more digit is appended if the number stays below the bound. -/
theorem appendDigit?_digitChar {bound m d : Nat} (hd : d < 10) (h : 10 * m + d < bound) :
    appendDigit? bound m (Nat.digitChar d) = some (10 * m + d) := by
  have hvalue : (Nat.digitChar d).toNat - '0'.toNat = d := by
    rw [Nat.toNat_digitChar_of_lt_ten hd]
    show 48 + d - 48 = d
    omega
  have hdigit : (Nat.digitChar d).isDigit = true := by
    rw [Nat.isDigit_digitChar, decide_eq_true hd]
  simp only [appendDigit?, hvalue, hdigit, true_and, if_pos h]

/-- **A number below the bound is read back.** -/
theorem nat?_nat {n bound : Nat} (h : n < bound) : nat? bound (nat n) = some n := by
  show (toString n).toList.foldlM (appendDigit? bound) 0 = some n
  rw [toList_toString]
  induction n using Nat.strongRecOn with
  | ind n ih =>
    rcases Nat.lt_or_ge n 10 with hn | hn
    · rw [Nat.toDigits_of_lt_base hn, List.foldlM_cons,
        appendDigit?_digitChar hn (by omega), Nat.mul_zero, Nat.zero_add]
      rfl
    · rw [Nat.toDigits_of_base_le (by decide) hn, List.foldlM_append,
        ih (n / 10) (by omega) (by omega)]
      show ([Nat.digitChar (n % 10)].foldlM (appendDigit? bound) (n / 10)) = _
      rw [List.foldlM_cons, appendDigit?_digitChar (by omega) (by omega), Nat.div_add_mod]
      rfl

/-- A name that is used once finds the field that has it. -/
theorem filter_eq_of_nodup {fields : List (String × Json)} (h : (fields.map Prod.fst).Nodup)
    {field : String × Json} (hfield : field ∈ fields) :
    fields.filter (·.1 = field.1) = [field] := by
  induction fields with
  | nil => cases hfield
  | cons first fields ih =>
    rw [List.map_cons, List.nodup_cons] at h
    rcases List.mem_cons.1 hfield with rfl | hmem
    · rw [List.filter_cons_of_pos (by simp)]
      refine congrArg (field :: ·) (List.filter_eq_nil_iff.2 fun other hother => ?_)
      rw [decide_eq_true_eq]
      exact fun hname => h.1 (hname ▸ List.mem_map_of_mem hother)
    · have hne : first.1 ≠ field.1 := fun hname => h.1 (hname ▸ List.mem_map_of_mem hmem)
      rw [List.filter_cons_of_neg (by simpa using hne), ih h.2 hmem]

/-- **The fields of an object are found,** each under its name. -/
theorem entries?_ofFields {names : List String} {fields : List (String × Json)}
    (hfields : fields.map Prod.fst = names) (h : names.Nodup) :
    (ofFields fields).entries? names = some (fields.map (some ·.2)) := by
  subst hfields
  have hread : (fields.map fun field => (some field.1, field.2)).mapM
      (fun (entry : Option String × Json) => do return (← entry.1, entry.2)) = some fields := by
    rw [List.mapM_map]
    exact (mapM_eq_some_map (g := id) fun _ _ => rfl).trans (by rw [List.map_id])
  rw [ofFields, entries?]
  refine (congrArg (· >>= _) hread).trans ?_
  rw [Option.bind_eq_bind, Option.bind_some, List.mapM_map]
  refine mapM_eq_some_map fun field hfield => ?_
  rw [Function.comp_apply, filter_eq_of_nodup h hfield]

end Json

end NativeRecord
