/-!
# Runs of steps that may fail

A step with a state that may fail is run from a state; it answers, or fails, and leaves a state
behind either way.

The builder, the registry and the transfer of records are all written in monads of this kind, and
what is proved about them compares runs: with the run of another declaration, with that of the same
builder without a state, with one that counts what it does.  Unfolding both sides would lead to a
case split over every way in which either may fail.  Instead, each kind of comparison is a predicate
on steps that is closed under `pure`, `lift` and `bind`, and a proof about a long function follows
its `do` block line by line, with one such lemma for each.

The predicates differ in what they compare.  `Ensures` and `Answers` are about one run; `Agree` is
about two that both answer and says nothing of failures, which is what is wanted where the failures
differ.  `Comparison` is the general form for runs whose failures are compared as well, in monads
that may differ: it is given by what it takes for the states, and its instances at the end of the
section are a run beside a stateless one, two runs from one state, and a run beside one on a part of
its state.

## What is here

* `run_bind` — a run of two steps in a row; `run_bind_eq_ok`, `run_bind_eq_error` — when it answers
  and when it fails.
* `Ensures` — what a step does to the state, and what its answer is like; the facts are proved for
  a sequence from those of its steps (`Ensures.bind`); `Answers` — it does answer.
* `Agree` — what two steps that both answer have in common, from like states to like states.
* `Comparison` — a way to compare runs in two monads, kept by steps in a row;
  `Comparison.Relates` — the same for runs that may fail.
* `Follows` — the step answers like a stateless one, up to a map of the answers.
-/

set_option autoImplicit false
namespace NativeRecord

section Run

variable {σ ε α β : Type}

/-- Two steps in a row answer if both do. -/
theorem except_bind_eq_ok {x : Except ε α} {f : α → Except ε β} {b : β} :
    (x >>= f) = .ok b ↔ ∃ a, x = .ok a ∧ f a = .ok b := by
  cases x with
  | error e => exact ⟨nofun, nofun⟩
  | ok a => exact ⟨fun h => ⟨a, rfl, h⟩, fun ⟨_, h, hf⟩ => by cases h; exact hf⟩

/-- They fail if the first does, or else the second. -/
theorem except_bind_eq_error {x : Except ε α} {f : α → Except ε β} {e : ε} :
    (x >>= f) = .error e ↔ x = .error e ∨ ∃ a, x = .ok a ∧ f a = .error e := by
  cases x with
  | error e' =>
    refine ⟨fun h => .inl ?_, ?_⟩
    · cases h; rfl
    · rintro (⟨⟨⟩⟩ | ⟨_, ⟨⟩, -⟩); rfl
  | ok a => exact ⟨fun h => .inr ⟨a, rfl, h⟩, by rintro (⟨⟨⟩⟩ | ⟨_, ⟨⟩, h⟩); exact h⟩

theorem except_map_eq_ok_iff {x : Except ε α} {f : α → β} {b : β} :
    x.map f = .ok b ↔ ∃ a, x = .ok a ∧ f a = b := by
  cases x with
  | error e => exact ⟨nofun, nofun⟩
  | ok a => exact ⟨fun h => ⟨a, rfl, Except.ok.inj h⟩, by rintro ⟨_, ⟨⟩, rfl⟩; rfl⟩

theorem except_map_map {γ : Type} (x : Except ε α) (f : α → β) (g : β → γ) :
    (x.map f).map g = x.map fun a => g (f a) := by
  cases x <;> rfl

theorem except_mapError_eq_error {ε' : Type} {x : Except ε α} {f : ε → ε'} {e : ε'} :
    x.mapError f = .error e ↔ ∃ cause, x = .error cause ∧ f cause = e := by
  cases x with
  | error cause =>
    exact ⟨fun h => ⟨cause, rfl, Except.error.inj h⟩, by rintro ⟨_, ⟨⟩, rfl⟩; rfl⟩
  | ok a => exact ⟨nofun, nofun⟩

/-- A map whose steps all have answers is the map of these. -/
theorem mapM_eq_some_map {f : α → Option β} {g : α → β} {xs : List α}
    (h : ∀ x ∈ xs, f x = some (g x)) : xs.mapM f = some (xs.map g) := by
  induction xs with
  | nil => rfl
  | cons x xs ih =>
    obtain ⟨hx, hxs⟩ := List.forall_mem_cons.1 h
    rw [List.mapM_cons, hx, ih hxs]
    rfl

theorem run_bind (x : ExceptT ε (StateM σ) α) (f : α → ExceptT ε (StateM σ) β) (s : σ) :
    (x >>= f).run s =
      match x.run s with
      | (.ok a, s') => (f a).run s'
      | (.error e, s') => (.error e, s') := by
  show (match x.run s with
    | (a, s') => ExceptT.bindCont f a s' : Except ε β × σ) = _
  rcases x.run s with ⟨e | a, s'⟩ <;> rfl

theorem run_bind_eq_ok {x : ExceptT ε (StateM σ) α} {f : α → ExceptT ε (StateM σ) β} {s u : σ}
    {b : β} :
    (x >>= f).run s = (.ok b, u) ↔
      ∃ a t, x.run s = (.ok a, t) ∧ (f a).run t = (.ok b, u) := by
  rw [run_bind]
  rcases x.run s with ⟨e | a, t⟩
  · exact ⟨nofun, nofun⟩
  · exact ⟨fun h => ⟨a, t, rfl, h⟩, fun ⟨_, _, hx, hf⟩ => by cases hx; exact hf⟩

theorem run_bind_eq_error {x : ExceptT ε (StateM σ) α} {f : α → ExceptT ε (StateM σ) β} {s : σ}
    {e : ε} :
    ((x >>= f).run s).1 = .error e ↔
      (x.run s).1 = .error e ∨ ∃ a t, x.run s = (.ok a, t) ∧ ((f a).run t).1 = .error e := by
  rw [run_bind]
  rcases x.run s with ⟨_ | a, t⟩
  · exact ⟨fun h => .inl (by cases h; rfl), by rintro (⟨⟨⟩⟩ | ⟨_, _, ⟨⟩, -⟩); rfl⟩
  · exact ⟨fun h => .inr ⟨a, t, rfl, h⟩, by rintro (⟨⟨⟩⟩ | ⟨_, _, ⟨⟩, h⟩); exact h⟩

end Run

/-! ## What a step does

A relation between states that is reflexive and transitive carries over from steps to a sequence;
what a later answer is like may depend on an earlier state. -/

section Ensures

variable {σ ε α β : Type}

/-- From every state, the step leads to one that is related to it, and its answer is as said. -/
def Ensures (x : ExceptT ε (StateM σ) α) (Later : σ → σ → Prop) (P : σ → α → Prop) : Prop :=
  ∀ s, Later s (x.run s).2 ∧ ∀ a, (x.run s).1 = .ok a → P (x.run s).2 a

variable {Later : σ → σ → Prop} {P : σ → α → Prop} {Q : σ → β → Prop}

theorem Ensures.lift (refl : ∀ s, Later s s) {x : Except ε α} (h : ∀ s a, x = .ok a → P s a) :
    Ensures (liftM x : ExceptT ε (StateM σ) α) Later P :=
  fun s => ⟨refl s, fun a ha => h s a ha⟩

theorem Ensures.pure (refl : ∀ s, Later s s) {a : α} (h : ∀ s, P s a) :
    Ensures (pure a : ExceptT ε (StateM σ) α) Later P :=
  fun s => ⟨refl s, by rintro _ ⟨⟩; exact h s⟩

/-- What the second step says may assume of the state before it all that the first has said. -/
theorem Ensures.bind (trans : ∀ s t u, Later s t → Later t u → Later s u)
    {x : ExceptT ε (StateM σ) α} {f : α → ExceptT ε (StateM σ) β} (hx : Ensures x Later P)
    (hf : ∀ a, Ensures (f a) Later fun t b => ∀ s, Later s t → P s a → Q t b) :
    Ensures (x >>= f) Later Q := by
  intro s
  obtain ⟨hlater, hanswer⟩ := hx s
  rw [run_bind]
  rcases hrun : x.run s with ⟨e | a, t⟩
  · rw [hrun] at hlater
    exact ⟨hlater, by rintro _ ⟨⟩⟩
  · rw [hrun] at hlater hanswer
    obtain ⟨hlater', hanswer'⟩ := hf a t
    exact ⟨trans _ _ _ hlater hlater', fun b hb => hanswer' b hb t hlater' (hanswer a rfl)⟩

/-- From every state, the step has an answer, and it is as said. -/
def Answers (x : ExceptT ε (StateM σ) α) (P : α → Prop) : Prop :=
  ∀ s, ∃ a t, x.run s = (.ok a, t) ∧ P a

namespace Answers

variable {P : α → Prop} {Q : β → Prop}

theorem lift {x : Except ε α} {a : α} (hx : x = .ok a) (h : P a) :
    Answers (liftM x : ExceptT ε (StateM σ) α) P := fun s => ⟨a, s, hx ▸ rfl, h⟩

theorem pure {a : α} (h : P a) : Answers (pure a : ExceptT ε (StateM σ) α) P :=
  fun s => ⟨a, s, rfl, h⟩

theorem bind {x : ExceptT ε (StateM σ) α} {f : α → ExceptT ε (StateM σ) β} (hx : Answers x P)
    (hf : ∀ a, P a → Answers (f a) Q) : Answers (x >>= f) Q := by
  intro s
  obtain ⟨a, t, hrun, ha⟩ := hx s
  obtain ⟨b, u, hrun', hb⟩ := hf a ha t
  exact ⟨b, u, run_bind_eq_ok.2 ⟨a, t, hrun, hrun'⟩, hb⟩

end Answers

/-- From like states, when both steps answer, their answers are related, and they lead to like
states. -/
def Agree (Like : σ → σ → Prop) (A : α → β → Prop) (x : ExceptT ε (StateM σ) α)
    (y : ExceptT ε (StateM σ) β) : Prop :=
  ∀ s t, Like s t → ∀ a s' b t', x.run s = (.ok a, s') → y.run t = (.ok b, t') →
    A a b ∧ Like s' t'

namespace Agree

variable {γ δ : Type} {Like : σ → σ → Prop} {A : α → β → Prop} {B : γ → δ → Prop}

theorem lift {x : Except ε α} {y : Except ε β} (h : ∀ a b, x = .ok a → y = .ok b → A a b) :
    Agree Like A (liftM x : ExceptT ε (StateM σ) α) (liftM y) := by
  intro s t hlike a s' b t' hx hy
  have hx : (x, s) = (.ok a, s') := hx
  have hy : (y, t) = (.ok b, t') := hy
  cases hx
  cases hy
  exact ⟨h a b rfl rfl, hlike⟩

theorem pure {a : α} {b : β} (h : A a b) :
    Agree Like A (pure a : ExceptT ε (StateM σ) α) (Pure.pure b) := by
  intro s t hlike a' s' b' t' hx hy
  cases hx
  cases hy
  exact ⟨h, hlike⟩

theorem bind {x : ExceptT ε (StateM σ) α} {y : ExceptT ε (StateM σ) β}
    {f : α → ExceptT ε (StateM σ) γ} {g : β → ExceptT ε (StateM σ) δ} (hx : Agree Like A x y)
    (hf : ∀ a b, A a b → Agree Like B (f a) (g b)) : Agree Like B (x >>= f) (y >>= g) := by
  intro s t hlike c s₂ d t₂ hrun hrun'
  obtain ⟨a, s₁, ha, hc⟩ := run_bind_eq_ok.1 hrun
  obtain ⟨b, t₁, hb, hd⟩ := run_bind_eq_ok.1 hrun'
  obtain ⟨hab, hlike⟩ := hx s t hlike a s₁ b t₁ ha hb
  exact hf a b hab s₁ t₁ hlike c s₂ d t₂ hc hd

end Agree

end Ensures

/-! ## Comparing runs

Outcomes are compared by a relation between errors and one between answers: an answer never compares
with a failure. -/

section Compare

variable {ε ε' α β γ δ : Type}

/-- Two outcomes compare if both are answers, related as said, or both are failures, related as
said. -/
inductive Outcomes (E : ε → ε' → Prop) (A : α → β → Prop) : Except ε α → Except ε' β → Prop
  | ok {a : α} {b : β} (h : A a b) : Outcomes E A (.ok a) (.ok b)
  | error {e : ε} {e' : ε'} (h : E e e') : Outcomes E A (.error e) (.error e')

/-- An outcome beside itself. -/
theorem Outcomes.self {E : ε → ε → Prop} {A : α → α → Prop} {x : Except ε α}
    (hok : ∀ a, A a a) (herror : ∀ e, x = .error e → E e e) : Outcomes E A x x := by
  cases x with
  | ok a => exact .ok (hok a)
  | error e => exact .error (herror e rfl)

theorem Outcomes.imp {E : ε → ε' → Prop} {A B : α → β → Prop} {x : Except ε α}
    {y : Except ε' β} (h : Outcomes E A x y) (hAB : ∀ a b, x = .ok a → A a b → B a b) :
    Outcomes E B x y := by
  cases h with
  | ok h => exact .ok (hAB _ _ rfl h)
  | error h => exact .error h

/-- Outcomes that compare go on to outcomes that compare. -/
theorem Outcomes.bind {E : ε → ε' → Prop} {A : α → β → Prop} {B : γ → δ → Prop} {x : Except ε α}
    {y : Except ε' β} {f : α → Except ε γ} {g : β → Except ε' δ} (h : Outcomes E A x y)
    (hf : ∀ a b, A a b → Outcomes E B (f a) (g b)) : Outcomes E B (x >>= f) (y >>= g) := by
  cases h with
  | ok h => exact hf _ _ h
  | error h => exact .error h

theorem Outcomes.map {E : ε → ε' → Prop} {A : α → β → Prop} {B : γ → δ → Prop} {x : Except ε α}
    {y : Except ε' β} {f : α → γ} {g : β → δ} (h : Outcomes E A x y)
    (hfg : ∀ a b, A a b → B (f a) (g b)) : Outcomes E B (x.map f) (y.map g) := by
  cases h with
  | ok h => exact .ok (hfg _ _ h)
  | error h => exact .error h

theorem Outcomes.mapError {ζ ζ' : Type} {E : ε → ε' → Prop} {E' : ζ → ζ' → Prop} {A : α → β → Prop}
    {x : Except ε α} {y : Except ε' β} {f : ε → ζ} {g : ε' → ζ'} (h : Outcomes E A x y)
    (hE : ∀ e e', E e e' → E' (f e) (g e')) : Outcomes E' A (x.mapError f) (y.mapError g) := by
  cases h with
  | ok h => exact .ok h
  | error h => exact .error (hE _ _ h)

/-- Where the first outcome is an answer, so is the second; and the other way round below. -/
theorem Outcomes.exists_right {E : ε → ε' → Prop} {A : α → β → Prop} {x : Except ε α}
    {y : Except ε' β} (h : Outcomes E A x y) {a : α} (hx : x = .ok a) : ∃ b, y = .ok b ∧ A a b := by
  cases h with
  | ok h => cases hx; exact ⟨_, rfl, h⟩
  | error => cases hx

theorem Outcomes.exists_left {E : ε → ε' → Prop} {A : α → β → Prop} {x : Except ε α}
    {y : Except ε' β} (h : Outcomes E A x y) {b : β} (hy : y = .ok b) : ∃ a, x = .ok a ∧ A a b := by
  cases h with
  | ok h => cases hy; exact ⟨_, rfl, h⟩
  | error => cases hy

theorem Outcomes.toOption_eq {E : ε → ε' → Prop} {φ : α → β} {x : Except ε α} {y : Except ε' β}
    (h : Outcomes E (fun a b => b = φ a) x y) : y.toOption = x.toOption.map φ := by
  cases h with
  | ok h => exact congrArg some h
  | error => rfl

/-- Comparing with equal errors and mapped answers is an equation. -/
theorem outcomes_eq_iff {φ : α → β} {x : Except ε α} {y : Except ε β} :
    Outcomes Eq (fun a b => b = φ a) x y ↔ x.map φ = y := by
  constructor
  · rintro (h | rfl)
    · exact congrArg Except.ok h.symm
    · rfl
  · rintro rfl
    cases x with
    | ok a => exact .ok rfl
    | error e => exact .error rfl

variable {m n : Type → Type} [Monad m] [Monad n]

/-- A way to compare runs in two monads, given how their answers are compared: it holds of what is
returned at once, and of steps in a row if it holds of each. -/
structure Comparison (m n : Type → Type) [Monad m] [Monad n] where
  Rel {α β : Type} : (α → β → Prop) → m α → n β → Prop
  pure {α β : Type} {A : α → β → Prop} {a : α} {b : β} : A a b → Rel A (pure a) (pure b)
  bind {α β γ δ : Type} {A : α → β → Prop} {B : γ → δ → Prop} {x : m α} {y : n β} {f : α → m γ}
    {g : β → n δ} : Rel A x y → (∀ a b, A a b → Rel B (f a) (g b)) → Rel B (x >>= f) (y >>= g)

/-- Two runs that may fail have outcomes that compare. -/
def Comparison.Relates (C : Comparison m n) (E : ε → ε' → Prop) (A : α → β → Prop)
    (x : ExceptT ε m α) (y : ExceptT ε' n β) : Prop :=
  C.Rel (Outcomes E A) x.run y.run

namespace Comparison.Relates

variable {C : Comparison m n} {E : ε → ε' → Prop} {A : α → β → Prop} {B : γ → δ → Prop}

theorem lift {x : Except ε α} {y : Except ε' β} (h : Outcomes E A x y) :
    C.Relates E A (liftM x : ExceptT ε m α) (liftM y : ExceptT ε' n β) := C.pure h

theorem pure {a : α} {b : β} (h : A a b) :
    C.Relates E A (Pure.pure a : ExceptT ε m α) (Pure.pure b : ExceptT ε' n β) := C.pure (.ok h)

theorem throw {e : ε} {e' : ε'} (h : E e e') :
    C.Relates E A (throw e : ExceptT ε m α) (throw e' : ExceptT ε' n β) := C.pure (.error h)

theorem bind {x : ExceptT ε m α} {y : ExceptT ε' n β} {f : α → ExceptT ε m γ}
    {g : β → ExceptT ε' n δ} (hx : C.Relates E A x y)
    (hf : ∀ a b, A a b → C.Relates E B (f a) (g b)) : C.Relates E B (x >>= f) (y >>= g) := by
  refine C.bind hx ?_
  intro outcome outcome' h
  cases h with
  | ok h => exact hf _ _ h
  | error h => exact C.pure (.error h)

end Comparison.Relates

variable {σ : Type}

/-- Stateless runs are compared by what they return. -/
def Comparison.stateless : Comparison Id Id where
  Rel A x y := A x.run y.run
  pure h := h
  bind hx hf := hf _ _ hx

/-- A run with a state beside a stateless one, from every state with the invariant, which it
keeps. -/
def Comparison.along (Inv : σ → Prop) : Comparison (StateM σ) Id where
  Rel A x y := ∀ s, Inv s → A (x.run s).1 y.run ∧ Inv (x.run s).2
  pure h _ hs := ⟨h, hs⟩
  bind hx hf s hs := hf _ _ (hx s hs).1 _ (hx s hs).2

/-- Two runs from one state with the invariant, which lead to one state with the invariant. -/
def Comparison.together (Inv : σ → Prop) : Comparison (StateM σ) (StateM σ) where
  Rel A x y := ∀ s, Inv s → A (x.run s).1 (y.run s).1 ∧ (x.run s).2 = (y.run s).2 ∧ Inv (y.run s).2
  pure h _ hs := ⟨h, rfl, hs⟩
  bind {α β γ δ A B x y f g} hx hf s hs := by
    obtain ⟨hanswer, hstate, hinv⟩ := hx s hs
    show B ((f (x.run s).1).run (x.run s).2).1 _ ∧ ((f (x.run s).1).run (x.run s).2).2 = _ ∧ _
    rw [hstate]
    exact hf _ _ hanswer _ hinv

/-- A run beside one whose state is part of its own. -/
def Comparison.through {τ : Type} (π : σ → τ) : Comparison (StateM σ) (StateM τ) where
  Rel A x y := ∀ s, A (x.run s).1 (y.run (π s)).1 ∧ π (x.run s).2 = (y.run (π s)).2
  pure h _ := ⟨h, rfl⟩
  bind {α β γ δ A B x y f g} hx hf s := by
    obtain ⟨hanswer, hstate⟩ := hx s
    show B _ ((g (y.run (π s)).1).run (y.run (π s)).2).1 ∧
      _ = ((g (y.run (π s)).1).run (y.run (π s)).2).2
    rw [← hstate]
    exact hf _ _ hanswer _

theorem Comparison.relates_through_iff {τ : Type} {π : σ → τ} {x : ExceptT ε (StateM σ) α}
    {y : ExceptT ε (StateM τ) α} :
    (Comparison.through π).Relates Eq (fun a b => b = a) x y ↔
      ∀ s, (x.run s).1 = (y.run (π s)).1 ∧ π (x.run s).2 = (y.run (π s)).2 := by
  refine forall_congr' fun s => and_congr_left fun _ => ?_
  have houtcomes := outcomes_eq_iff (φ := id) (x := (x.run s).1) (y := (y.run (π s)).1)
  rwa [Except.map_id] at houtcomes

theorem Comparison.relates_together_iff {Inv : σ → Prop} {x y : ExceptT ε (StateM σ) α} :
    (Comparison.together Inv).Relates Eq (fun a b => b = a) x y ↔
      ∀ s, Inv s → x.run s = y.run s ∧ Inv (y.run s).2 := by
  refine forall₂_congr fun s _ => ?_
  have houtcomes := outcomes_eq_iff (φ := id) (x := (x.run s).1) (y := (y.run s).1)
  rw [Except.map_id] at houtcomes
  rw [← and_assoc]
  exact and_congr_left fun _ => (and_congr_left fun _ => houtcomes).trans Prod.ext_iff.symm

end Compare

/-! ## Steps that act like stateless ones

The builder is stateless but for the resolver.  If that answers like a function as long as an
invariant holds, so does everything built on it. -/

section Follows

variable {σ ε α β : Type} {Inv : σ → Prop} {φ : α → β}

/-- As long as the invariant holds, the step answers like the stateless one, up to a map of the
answers, fails like it, and keeps the invariant. -/
def Follows (Inv : σ → Prop) (φ : α → β) (x : ExceptT ε (StateM σ) α) (y : ExceptT ε Id β) : Prop :=
  ∀ s, Inv s → (x.run s).1.map φ = y.run ∧ Inv (x.run s).2

theorem follows_iff {x : ExceptT ε (StateM σ) α} {y : ExceptT ε Id β} :
    Follows Inv φ x y ↔ (Comparison.along Inv).Relates Eq (fun a b => b = φ a) x y :=
  forall₂_congr fun _ _ => and_congr_left fun _ => outcomes_eq_iff.symm

theorem Follows.lift {x : Except ε α} {y : Except ε β} (h : x.map φ = y) :
    Follows Inv φ (liftM x : ExceptT ε (StateM σ) α) (liftM y : ExceptT ε Id β) :=
  fun _ hs => ⟨h, hs⟩

end Follows

end NativeRecord
