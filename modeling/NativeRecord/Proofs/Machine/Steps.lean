import Mathlib.Control.Monad.Writer
import NativeRecord.Proofs.Layout.Resolution
import NativeRecord.Proofs.Machine.Arithmetic

/-!
# Metered steps

A metered run of the builder halts when an operation wraps or when the declaration is refused, and
it writes down the values that are checked: all of them, also one that does not fit.

A run on a 64-bit machine stands beside a run with natural numbers, and the two go apart when a
value does not fit: the one reports it and the other goes on.  `Tracked` has a case for each.
Either all values are admitted and both end alike, or there is a first value that is not, and then
the builder under the limit reports just that one, whatever the metered run goes on to do.  The
second case has to keep what was written down before and after, because a later step in a row may
still add to it; this is what the proof of `Tracks.bind` is about.  The metered machine is not
assumed to have the limit as its own bound.  If it has, the two ends are equal
(`Tracked.endsAlike`), and if it has none, the values written down are those of exact arithmetic,
which is what the statements about overflow speak of.

## What is here

* `Metering` — metered steps, and `Metering.exec`, their runs.
* `Metered.count`, `Metered.roundUp`, `Metered.reserve` — the checked values.
* `Tracks` — metered steps end like steps of the builder under a limit as long as all values are
  admitted, and the builder reports the first one that is not.  It holds of steps in a row if it
  holds of each (`Tracks.bind`).
-/

set_option autoImplicit false
namespace NativeRecord

/-- Why a metered run has no answer. -/
inductive Halt where
  /-- An operation without a check does not fit. -/
  | wraps
  | refused (e : LayoutError)

/-- The values that a run has come by, with the members they belong to. -/
abbrev Values := List (String × Nat)

/-- Steps that may halt and write values down. -/
abbrev Metering (m : Type → Type) := ExceptT Halt (WriterT Values m)

namespace Metered

variable {m : Type → Type} [Monad m] {α : Type}

/-- The result of operations that are not checked. -/
def unwrapped : Option α → Metering m α
  | some a => pure a
  | none => throw .wraps

/-- A check of the builder, which does nothing else. -/
def ofExcept : Except LayoutError α → Metering m α
  | .ok a => pure a
  | .error e => throw (.refused e)

/-- The answer of a resolver. -/
def ask (x : ExceptT LayoutError m α) : Metering m α := ExceptT.mk <| WriterT.mk do
  let answer ← x.run
  return (answer.mapError .refused, [])

/-- Writes a value down, whether or not it fits. -/
def watch (name : String) (n : Nat) : Metering m Unit :=
  ExceptT.mk (WriterT.mk (pure (.ok (), [(name, n)])))

section Check

variable (A : Machine) (owner : Tag) (name : String)

/-- Reports that a value of that member does not fit. -/
def overflow : Metering m α := throw (.refused (.invalidMember owner name .sizeOverflow))

/-- A checked size or end. -/
def count (n : Nat) : Metering m Nat := do
  watch name n
  if A.counts.Admits n then return n else overflow owner name

/-- An offset rounded up, where only the sum on the way is checked. -/
def roundUp (a : Alignment) (offset : Nat) : Metering m Nat := do
  let low ← unwrapped (subtract? a.bytes 1)
  watch name (a.align offset)
  match A.counts.add? offset low with
  | some top => return top / a.bytes * a.bytes
  | none => overflow owner name

/-- Start and end of `size` bytes at the first aligned offset from `next` on. -/
def reserve (next : Nat) (a : Alignment) (size : Nat) : Metering m (Nat × Nat) := do
  let start ← roundUp A owner name a next
  let stop ← count A owner name (start + size)
  return (start, stop)

end Check

end Metered

/-! ## Runs -/

section Exec

variable {σ α β : Type}

/-- The outcome of a run from a state, the values that it has come by, and the state it leaves. -/
def Metering.exec (x : Metering (StateM σ) α) (s : σ) : Except Halt α × Values × σ :=
  let ((outcome, values), t) := (WriterT.run x.run).run s
  (outcome, values, t)

/-- The values of two steps in a row are those of the first and then those of the second. -/
theorem exec_bind (x : Metering (StateM σ) α) (f : α → Metering (StateM σ) β) (s : σ) :
    (x >>= f).exec s =
      match x.exec s with
      | (.ok a, values, t) =>
        (((f a).exec t).1, values ++ ((f a).exec t).2.1, ((f a).exec t).2.2)
      | (.error halt, values, t) => (.error halt, values, t) := by
  have hrun : (x >>= f).exec s =
      let (outcome, values, t) := x.exec s
      let next : Metering (StateM σ) β := ExceptT.mk (ExceptT.bindCont f outcome)
      ((next.exec t).1, values ++ (next.exec t).2.1, (next.exec t).2.2) := rfl
  rw [hrun]
  rcases x.exec s with ⟨halt | a, values, t⟩
  · exact congrArg (fun values => (Except.error halt, values, t)) (List.append_nil values)
  · rfl

end Exec

/-! ## Steps beside steps of the builder

How one run tracks another, and how it is shown of steps in a row. -/

theorem orOverflow_bind {α β : Type} {owner : Tag} {name : String} (x : Option α)
    (f : α → Option β) : orOverflow owner name (x >>= f) =
      orOverflow owner name x >>= fun a => orOverflow owner name (f a) := by
  cases x <;> rfl

section Tracks

variable {σ α β : Type}

/-- How a run on a machine ends beside a run of the builder under a limit. -/
inductive Tracked (A : Machine) (limit : SizeLimit) (owner : Tag) (P : α → Prop) :
    Except Halt α × Values × σ → Except LayoutError α × σ → Prop
  /-- All values are admitted, and both end alike. -/
  | alike (answer : Except LayoutError α) {values : Values} {s : σ}
      (hvalues : ∀ v ∈ values, limit.Admits v.2) (hanswer : ∀ a, answer = .ok a → P a) :
      Tracked A limit owner P (answer.mapError .refused, values, s) (answer, s)
  /-- The builder reports the first value that is not admitted, and so does the machine if the limit
  is its own. -/
  | past (before : Values) {outcome : Except Halt α} {after : Values} {name : String} {n : Nat}
      {s t : σ}
      (hbefore : ∀ v ∈ before, limit.Admits v.2) (hn : ¬ limit.Admits n)
      (hhalt : A.counts = limit →
        outcome = .error (.refused (.invalidMember owner name .sizeOverflow)) ∧ s = t) :
      Tracked A limit owner P (outcome, before ++ (name, n) :: after, s)
        (.error (.invalidMember owner name .sizeOverflow), t)

/-- A metered run ends like the builder: with the same answer or error, and in the same state. -/
def EndsAlike (r : Except Halt α × Values × σ) (q : Except LayoutError α × σ) : Prop :=
  r.1 = q.1.mapError .refused ∧ r.2.2 = q.2

theorem EndsAlike.not_wraps {r : Except Halt α × Values × σ} {q : Except LayoutError α × σ}
    (h : EndsAlike r q) : r.1 ≠ .error .wraps := by
  rw [h.1]
  cases q.1 <;> nofun

/-- Two runs of the builder that one metered run ends like are the same. -/
theorem EndsAlike.eq {r : Except Halt α × Values × σ} {q q' : Except LayoutError α × σ}
    (h : EndsAlike r q) (h' : EndsAlike r q') : q = q' := by
  have houtcome : q.1.mapError Halt.refused = q'.1.mapError .refused := h.1.symm.trans h'.1
  refine Prod.ext ?_ (h.2.symm.trans h'.2)
  generalize q.1 = answer at houtcome ⊢
  generalize q'.1 = answer' at houtcome ⊢
  cases answer <;> cases answer' <;> cases houtcome <;> rfl

namespace Tracked

variable {A : Machine} {limit : SizeLimit} {owner : Tag} {P : α → Prop}
  {r : Except Halt α × Values × σ} {q : Except LayoutError α × σ}

/-- On a machine with the same bound, both end alike. -/
theorem endsAlike (h : Tracked A limit owner P r q) (hA : A.counts = limit) : EndsAlike r q := by
  cases h with
  | alike => exact ⟨rfl, rfl⟩
  | past _ _ _ hhalt =>
    obtain ⟨rfl, rfl⟩ := hhalt hA
    exact ⟨rfl, rfl⟩

/-- If all values are admitted, both end alike on any machine. -/
theorem endsAlike_of_admits (h : Tracked A limit owner P r q)
    (hvalues : ∀ v ∈ r.2.1, limit.Admits v.2) : EndsAlike r q := by
  cases h with
  | alike => exact ⟨rfl, rfl⟩
  | past before _ hn =>
    exact absurd (hvalues _ (List.mem_append_right before List.mem_cons_self)) hn

/-- The builder reports the first value that is not admitted. -/
theorem eq_error (h : Tracked A limit owner P r q) {name : String} {n : Nat}
    (hfirst : r.2.1.find? (¬ limit.Admits ·.2) = some (name, n)) :
    q.1 = .error (.invalidMember owner name .sizeOverflow) := by
  cases h with
  | alike _ hvalues =>
    have hn := List.find?_some hfirst
    exact absurd (hvalues _ (List.mem_of_find?_eq_some hfirst)) (of_decide_eq_true hn)
  | @past before _ after name' n' _ _ hbefore hn =>
    have hnone : before.find? (¬ limit.Admits ·.2) = none :=
      List.find?_eq_none.2 fun v hv => by simpa using hbefore v hv
    have hfound : ((name', n') :: after).find? (¬ limit.Admits ·.2) = some (name', n') :=
      List.find?_cons_of_pos (decide_eq_true hn)
    rw [List.find?_append, hnone, Option.none_or, hfound] at hfirst
    cases hfirst
    rfl

end Tracked

/-- Metered steps on a machine end like steps of the builder under a limit, as long as all values
are admitted.  Answers are as said. -/
def Tracks (A : Machine) (limit : SizeLimit) (owner : Tag) (x : Metering (StateM σ) α)
    (y : ExceptT LayoutError (StateM σ) α) (P : α → Prop) : Prop :=
  ∀ s, Tracked A limit owner P (x.exec s) (y.run s)

namespace Tracks

variable {A : Machine} {limit : SizeLimit} {owner : Tag} {P : α → Prop} {Q : β → Prop}
  {x : Metering (StateM σ) α} {y : ExceptT LayoutError (StateM σ) α}

theorem pure {a : α} (h : P a) :
    Tracks A limit owner (Pure.pure a : Metering (StateM σ) α) (Pure.pure a) P :=
  fun _ => .alike (.ok a) nofun (by rintro _ ⟨⟩; exact h)

theorem throw {e : LayoutError} :
    Tracks A limit owner (MonadExcept.throw (Halt.refused e) : Metering (StateM σ) α)
      (MonadExcept.throw e) P :=
  fun _ => .alike (.error e) nofun nofun

theorem ofExcept {z : Except LayoutError α} (h : ∀ a, z = .ok a → P a) :
    Tracks A limit owner (Metered.ofExcept z : Metering (StateM σ) α) (liftM z) P := by
  intro s
  cases z with
  | ok a => exact .alike (.ok a) nofun h
  | error e => exact .alike (.error e) nofun nofun

/-- An answer of the resolver is handed on as it is. -/
theorem ask (h : ∀ s a t, y.run s = (.ok a, t) → P a) :
    Tracks A limit owner (Metered.ask y) y P := by
  intro s
  have hexec : (Metered.ask y).exec s = ((y.run s).1.mapError .refused, [], (y.run s).2) := rfl
  rw [hexec]
  exact .alike _ nofun fun a ha => h s a (y.run s).2 (Prod.ext ha rfl)

/-- **Steps in a row track steps in a row.** -/
theorem bind {f : α → Metering (StateM σ) β} {g : α → ExceptT LayoutError (StateM σ) β}
    (hx : Tracks A limit owner x y P) (hf : ∀ a, P a → Tracks A limit owner (f a) (g a) Q) :
    Tracks A limit owner (x >>= f) (y >>= g) Q := by
  intro s
  rw [exec_bind, run_bind]
  have h := hx s
  generalize x.exec s = r at h
  generalize y.run s = q at h
  cases h with
  | @alike answer values t hvalues hanswer =>
    cases answer with
    | error e => exact .alike (.error e) hvalues nofun
    | ok a =>
      have hnext := hf a (hanswer a rfl) t
      dsimp only [Except.mapError]
      generalize (f a).exec t = r at hnext
      generalize (g a).run t = q at hnext
      cases hnext with
      | alike _ hmore hanswer =>
        exact .alike _ (List.forall_mem_append.2 ⟨hvalues, hmore⟩) hanswer
      | past _ hbefore hn hhalt =>
        rw [← List.append_assoc]
        exact .past _ (List.forall_mem_append.2 ⟨hvalues, hbefore⟩) hn hhalt
  | @past before outcome after name n t u hbefore hn hhalt =>
    cases outcome with
    | error halt =>
      refine .past _ hbefore hn fun hA => ?_
      obtain ⟨houtcome, rfl⟩ := hhalt hA
      cases houtcome
      exact ⟨rfl, rfl⟩
    | ok a =>
      dsimp only
      rw [List.append_assoc, List.cons_append]
      refine .past _ hbefore hn fun hA => ?_
      cases (hhalt hA).1

/-- Steps in a row beside steps without a state. -/
theorem bind_lift {f : α → Metering (StateM σ) β} {z : Except LayoutError α}
    {g : α → Except LayoutError β} (hx : Tracks A limit owner x (liftM z) P)
    (hf : ∀ a, P a → Tracks A limit owner (f a) (liftM (g a)) Q) :
    Tracks A limit owner (x >>= f) (liftM (z >>= g)) Q := by
  have hlift : (liftM (z >>= g) : ExceptT LayoutError (StateM σ) β) =
      liftM z >>= fun a => liftM (g a) := by cases z <;> rfl
  rw [hlift]
  exact hx.bind hf

theorem imp {R : α → Prop} (h : Tracks A limit owner x y P) (hPR : ∀ a, P a → R a) :
    Tracks A limit owner x y R := by
  intro s
  have h := h s
  generalize x.exec s = r at h ⊢
  generalize y.run s = q at h ⊢
  cases h with
  | alike _ hvalues hanswer => exact .alike _ hvalues fun a ha => hPR a (hanswer a ha)
  | past _ hbefore hn hhalt => exact .past _ hbefore hn hhalt

variable {γ : Type}

/-- Operations that do not wrap leave no trace. -/
theorem unwrap {o : Option γ} {c : γ} {f : γ → Metering (StateM σ) α} (ho : o = some c)
    (h : Tracks A limit owner (f c) y P) :
    Tracks A limit owner (Metered.unwrapped o >>= f) y P := by
  intro s
  rw [ho, exec_bind]
  exact h s

/-- A value that is admitted is written down. -/
theorem watch {name : String} {n : Nat} {f : Unit → Metering (StateM σ) α} (hn : limit.Admits n)
    (h : Tracks A limit owner (f ()) y P) :
    Tracks A limit owner (Metered.watch name n >>= f) y P := by
  intro s
  have hexec : (Metered.watch name n : Metering (StateM σ) Unit).exec s =
      (.ok (), [(name, n)], s) := rfl
  rw [exec_bind, hexec]
  have h := h s
  dsimp only
  generalize (f ()).exec s = r at h ⊢
  generalize y.run s = q at h ⊢
  cases h with
  | alike _ hvalues hanswer => exact .alike _ (List.forall_mem_cons.2 ⟨hn, hvalues⟩) hanswer
  | past _ hbefore hn' hhalt =>
    exact .past (_ :: _) (List.forall_mem_cons.2 ⟨hn, hbefore⟩) hn' hhalt

/-- A value that is not admitted is reported. -/
theorem overflow {name : String} {n : Nat} {f : Unit → Metering (StateM σ) α}
    (hn : ¬ limit.Admits n) (hf : A.counts = limit → f () = Metered.overflow owner name) :
    Tracks A limit owner (Metered.watch name n >>= f)
      (liftM (.error (.invalidMember owner name .sizeOverflow) : Except LayoutError α)) P := by
  intro s
  have hexec : (Metered.watch name n : Metering (StateM σ) Unit).exec s =
      (.ok (), [(name, n)], s) := rfl
  rw [exec_bind, hexec]
  refine .past [] nofun hn fun hA => ?_
  rw [hf hA]
  exact ⟨rfl, rfl⟩

variable {name : String} (hA : A.Reaches limit)

include hA

/-- A checked value is written down before it is checked. -/
theorem count (n : Nat) :
    Tracks A limit owner (Metered.count A owner name n : Metering (StateM σ) Nat)
      (liftM (orOverflow owner name (limit.check? n))) fun a => a = n ∧ limit.Admits n := by
  by_cases hn : limit.Admits n
  · rw [SizeLimit.check?, if_pos hn]
    refine .watch hn ?_
    rw [if_pos (hA.counts hn)]
    exact .pure ⟨rfl, hn⟩
  · rw [SizeLimit.check?, if_neg hn]
    refine .overflow hn fun hcounts => ?_
    rw [hcounts, if_neg hn]

/-- **Rounding is refused when the rounded value is not admitted,** although only the sum on the way
is checked. -/
theorem roundUp {a : Alignment} (ha : a.log ≤ 64) (offset : Nat) :
    Tracks A limit owner (Metered.roundUp A owner name a offset : Metering (StateM σ) Nat)
      (liftM (orOverflow owner name (a.align? limit offset)))
      fun n => n = a.align offset ∧ limit.Admits n := by
  refine .unwrap (subtract?_eq a.bytes_pos) ?_
  rw [Alignment.align?]
  by_cases hround : limit.Admits (a.align offset)
  · have htop := hA.rounding ha hround
    rw [SizeLimit.add?_eq htop]
    refine .watch hround ?_
    rw [SizeLimit.add?_eq (hA.counts htop)]
    exact .pure ⟨rfl, hround⟩
  · have htop : ¬ limit.Admits (offset + (a.bytes - 1)) := by
      refine fun htop => hround (htop.mono ?_)
      have hlt := a.align_lt offset
      omega
    have hnone : limit.add? offset (a.bytes - 1) = none := SizeLimit.check?_eq_none_iff.2 htop
    rw [hnone]
    refine .overflow hround fun hcounts => ?_
    rw [hcounts, hnone]

/-- A place is a rounded start and a checked end. -/
theorem reserve {a : Alignment} (ha : a.log ≤ 64) (next size : Nat) :
    Tracks A limit owner
      (Metered.reserve A owner name next a size : Metering (StateM σ) (Nat × Nat))
      (liftM (orOverflow owner name (nextPlace limit next a size)))
      fun place => place = (a.align next, a.align next + size) ∧
        limit.Admits (a.align next + size) := by
  have hplace : orOverflow owner name (nextPlace limit next a size) = (do
      let start ← orOverflow owner name (a.align? limit next)
      let stop ← orOverflow owner name (limit.add? start size)
      return (start, stop)) := by
    rw [nextPlace, orOverflow_bind]
    refine congrArg (_ >>= ·) (funext fun start => ?_)
    rw [orOverflow_bind]
    rfl
  rw [hplace]
  refine .bind_lift (.roundUp hA ha next) ?_
  rintro start ⟨rfl, -⟩
  refine .bind_lift (.count hA _) ?_
  rintro stop ⟨rfl, hstop⟩
  exact .pure ⟨rfl, hstop⟩

end Tracks

end Tracks

end NativeRecord
