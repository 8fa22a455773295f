import Mathlib.Logic.Relation

/-!
# Labelled transition systems

The run layer shared by every component below: a system is an initial predicate
and a labelled step relation, `Reachable` is the inductive closure, and
`Reachable.invariant` is the one induction every safety proof goes through.

`restrict` keeps only the steps that meet a guard on the state *before* the step
and on the label. "Every run whose steps all meet the guard" is reachability in
the restricted system, and `Reachable.of_restrict` says that such a run is a run.
-/

namespace Zus.Lib

universe u v

/-- A labelled transition system over states `σ` and labels `α`. -/
structure Lts (σ : Type u) (α : Type v) where
  /-- the states a run may start in -/
  init : σ → Prop
  /-- one step: the state before, the label, the state after -/
  step : σ → α → σ → Prop

namespace Lts

variable {σ : Type u} {α : Type v} {L : Lts σ α}

/-- The states some run of the system ends in. -/
inductive Reachable (L : Lts σ α) : σ → Prop
  /-- the empty run -/
  | init {s : σ} : L.init s → Reachable L s
  /-- a run extended by one step -/
  | step {s s' : σ} {a : α} : Reachable L s → L.step s a s' → Reachable L s'

/-- **The invariant rule**: what holds initially and is kept by every step holds
in every reachable state. -/
theorem Reachable.invariant {I : σ → Prop} (hinit : ∀ s, L.init s → I s)
    (hstep : ∀ s a s', I s → L.step s a s' → I s') {s : σ} (h : L.Reachable s) : I s := by
  induction h with
  | init h₀ => exact hinit _ h₀
  | step _ hs ih => exact hstep _ _ _ ih hs

/-- **The simulation rule**: a system whose steps are steps of another one between the images of
its states reaches nothing else. -/
theorem Reachable.map {τ : Type*} {β : Type*} {M : Lts τ β} {f : σ → τ}
    (hinit : ∀ s, L.init s → M.init (f s))
    (hstep : ∀ s a s', L.Reachable s → L.step s a s' → ∃ b, M.step (f s) b (f s')) {s : σ}
    (h : L.Reachable s) : M.Reachable (f s) := by
  induction h with
  | init h₀ => exact .init (hinit _ h₀)
  | step hr hs ih =>
    obtain ⟨b, hb⟩ := hstep _ _ _ hr hs
    exact ih.step hb

/-- The system that only takes the steps meeting the guard `ok`. -/
def restrict (L : Lts σ α) (ok : σ → α → Prop) : Lts σ α where
  init := L.init
  step s a s' := ok s a ∧ L.step s a s'

/-- A run whose steps all meet a guard is a run. -/
theorem Reachable.of_restrict {ok : σ → α → Prop} {s : σ} (h : (L.restrict ok).Reachable s) :
    L.Reachable s := by
  induction h with
  | init h₀ => exact .init h₀
  | step _ hs ih => exact .step ih hs.2

/-- A run that meets a guard meets one that follows from it in the states it reaches. -/
theorem Reachable.restrict_imp {ok ok' : σ → α → Prop} {s : σ}
    (hok : ∀ s a, (L.restrict ok).Reachable s → ok s a → ok' s a)
    (h : (L.restrict ok).Reachable s) : (L.restrict ok').Reachable s := by
  induction h with
  | init h₀ => exact .init h₀
  | step hr hs ih => exact .step ih ⟨hok _ _ hr hs.1, hs.2⟩

/-- A run that meets a guard meets a weaker one. -/
theorem Reachable.restrict_mono {ok ok' : σ → α → Prop} (hok : ∀ s a, ok s a → ok' s a) {s : σ}
    (h : (L.restrict ok).Reachable s) : (L.restrict ok').Reachable s :=
  h.restrict_imp fun s a _ => hok s a

/-- The system started in one state. -/
def startAt (L : Lts σ α) (s₀ : σ) : Lts σ α where
  init s := s = s₀
  step := L.step

/-! ## Systems given by a step function -/

/-- The system whose steps are computed: `next s a` is the state after label `a`, or
`none` when the label is not enabled in `s`. -/
def ofNext (init : σ → Prop) (next : σ → α → Option σ) : Lts σ α where
  init := init
  step s a s' := next s a = some s'

/-- Run a computed system along a list of labels. -/
def runAll (next : σ → α → Option σ) : List α → σ → Option σ
  | [], s => some s
  | a :: as, s => (next s a).bind (runAll next as)

variable {init : σ → Prop} {next : σ → α → Option σ}

/-- The end of a computed run is reachable when its start is. -/
theorem Reachable.runAll {s s' : σ} (h : (ofNext init next).Reachable s) {as : List α}
    (hr : Lts.runAll next as s = some s') : (ofNext init next).Reachable s' := by
  induction as generalizing s with
  | nil =>
    obtain rfl := Option.some.inj hr
    exact h
  | cons a as ih =>
    obtain ⟨s₁, hn, hr⟩ := Option.bind_eq_some_iff.mp hr
    exact ih (h.step hn) hr

/-- A computed run that ends in a state passing a test reaches such a state. -/
theorem Reachable.exists_of_runAll {s : σ} (h : (ofNext init next).Reachable s) (as : List α)
    {p : σ → Bool} (hr : (Lts.runAll next as s).any p = true) :
    ∃ s', (ofNext init next).Reachable s' ∧ p s' = true := by
  rcases hs : Lts.runAll next as s with _ | s'
  · rw [hs] at hr
    cases hr
  · rw [hs] at hr
    exact ⟨s', h.runAll hs, hr⟩

/-- The same from a computed start. -/
theorem Reachable.exists_of_start {o : Option σ} (ho : ∀ s, o = some s → init s) (as : List α)
    {p : σ → Bool} (hr : (o.bind (Lts.runAll next as)).any p = true) :
    ∃ s', (ofNext init next).Reachable s' ∧ p s' = true := by
  rcases o with _ | s
  · cases hr
  · exact Reachable.exists_of_runAll (.init (ho s rfl)) as hr

/-- A computed run whose steps are checked against a guard meets it throughout. -/
theorem Reachable.restrict_runAll {ok : σ → α → Prop} [∀ s a, Decidable (ok s a)] {s s' : σ}
    (h : ((ofNext init next).restrict ok).Reachable s) {as : List α}
    (hr : Lts.runAll (fun s a => if ok s a then next s a else none) as s = some s') :
    ((ofNext init next).restrict ok).Reachable s' := by
  induction as generalizing s with
  | nil =>
    obtain rfl := Option.some.inj hr
    exact h
  | cons a as ih =>
    obtain ⟨s₁, hn, hr⟩ := Option.bind_eq_some_iff.mp hr
    dsimp only at hn
    split at hn
    · next hok => exact ih (h.step ⟨hok, hn⟩) hr
    · cases hn

/-- The same from a computed start, up to a state passing a test. -/
theorem Reachable.exists_of_restrict {ok : σ → α → Prop} [∀ s a, Decidable (ok s a)] {o : Option σ}
    (ho : ∀ s, o = some s → init s) (as : List α) {p : σ → Bool}
    (hr : (o.bind (Lts.runAll (fun s a => if ok s a then next s a else none) as)).any p = true) :
    ∃ s', ((ofNext init next).restrict ok).Reachable s' ∧ p s' = true := by
  obtain ⟨s', hs', hp⟩ := (Option.any_eq_true p _).mp hr
  obtain ⟨s, hs, hrun⟩ := Option.bind_eq_some_iff.mp hs'
  exact ⟨s', Reachable.restrict_runAll (.init (ho s hs)) hrun, hp⟩

end Lts

end Zus.Lib
