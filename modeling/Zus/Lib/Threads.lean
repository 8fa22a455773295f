import Mathlib.Algebra.Order.BigOperators.Group.Finset
import Mathlib.Logic.Function.Basic
import Zus.Lib.Lts

/-!
# Threads

Threads that move one at a time, each at a place of its own in its code. What a thread has is read
off its place: a lock, or something that no other thread may have. A lock table agrees with the
places when it names, for every lock, the thread whose place has it.
-/

namespace Zus.Lib

universe u v

variable {P : Type u} {A : Type v} {has : P → Option A} {pc : ℕ → P} {t : ℕ} {p : P} {a : A}

/-! ## Locks -/

/-- Every lock is held by the thread whose place has it. -/
def LocksAgree (has : P → Option A) (pc : ℕ → P) (lock : A → Option ℕ) : Prop :=
  ∀ t a, lock a = some t ↔ has (pc t) = some a

namespace LocksAgree

variable {lock : A → Option ℕ}

/-- A move with the same lock. -/
theorem keep (h : LocksAgree has pc lock) (hp : has p = has (pc t)) :
    LocksAgree has (Function.update pc t p) lock := by
  intro t' a
  by_cases ht : t' = t
  · subst ht
    rw [Function.update_self, hp]
    exact h t' a
  · rw [Function.update_of_ne ht]
    exact h t' a

/-- A thread without a lock takes a free one. -/
theorem acquire [DecidableEq A] (h : LocksAgree has pc lock) (hfree : lock a = none)
    (hnone : has (pc t) = none) (hp : has p = some a) :
    LocksAgree has (Function.update pc t p) (Function.update lock a (some t)) := by
  intro t' a'
  by_cases ha : a' = a
  · subst ha
    rw [Function.update_self]
    by_cases ht : t' = t
    · subst ht
      rw [Function.update_self, hp]
      exact iff_of_true rfl rfl
    · rw [Function.update_of_ne ht]
      refine iff_of_false (fun heq => ht (Option.some.inj heq).symm) fun hhas => ?_
      rw [(h t' a').mpr hhas] at hfree
      cases hfree
  · rw [Function.update_of_ne ha]
    by_cases ht : t' = t
    · subst ht
      rw [Function.update_self, hp]
      refine iff_of_false (fun hlock => ?_) fun heq => ha (Option.some.inj heq).symm
      rw [(h t' a').mp hlock] at hnone
      cases hnone
    · rw [Function.update_of_ne ht]
      exact h t' a'

/-- A thread gives its lock back. -/
theorem release [DecidableEq A] (h : LocksAgree has pc lock) (hhas : has (pc t) = some a)
    (hp : has p = none) :
    LocksAgree has (Function.update pc t p) (Function.update lock a none) := by
  intro t' a'
  by_cases ht : t' = t
  · subst ht
    rw [Function.update_self, hp]
    refine iff_of_false (fun hlock => ?_) nofun
    by_cases ha : a' = a
    · subst ha
      rw [Function.update_self] at hlock
      cases hlock
    · rw [Function.update_of_ne ha] at hlock
      exact ha (Option.some.inj (((h t' a').mp hlock).symm.trans hhas))
  · rw [Function.update_of_ne ht]
    by_cases ha : a' = a
    · subst ha
      rw [Function.update_self]
      refine iff_of_false nofun fun hhas' => ht ?_
      exact Option.some.inj (((h t' a').mpr hhas').symm.trans ((h t a').mpr hhas))
    · rw [Function.update_of_ne ha]
      exact h t' a'

/-- No two threads have one lock. -/
theorem unique (h : LocksAgree has pc lock) {t' : ℕ} (ht : has (pc t) = some a)
    (ht' : has (pc t') = some a) : t = t' :=
  Option.some.inj (((h t a).mpr ht).symm.trans ((h t' a).mpr ht'))

end LocksAgree

/-! ## What only one thread has -/

/-- No two threads have the same. -/
def OnlyOne (has : P → Option A) (pc : ℕ → P) : Prop :=
  ∀ a t t', has (pc t) = some a → has (pc t') = some a → t = t'

/-- A move to a place that has nothing of another thread's. -/
theorem OnlyOne.move (h : OnlyOne has pc)
    (hp : ∀ a, has p = some a → ∀ t', t' ≠ t → has (pc t') ≠ some a) :
    OnlyOne has (Function.update pc t p) := by
  intro a t₁ t₂ h₁ h₂
  by_cases ht₁ : t₁ = t
  · by_cases ht₂ : t₂ = t
    · exact ht₁.trans ht₂.symm
    · subst ht₁
      rw [Function.update_self] at h₁
      rw [Function.update_of_ne ht₂] at h₂
      exact absurd h₂ (hp a h₁ t₂ ht₂)
  · rw [Function.update_of_ne ht₁] at h₁
    by_cases ht₂ : t₂ = t
    · subst ht₂
      rw [Function.update_self] at h₂
      exact absurd h₁ (hp a h₂ t₁ ht₁)
    · rw [Function.update_of_ne ht₂] at h₂
      exact h a t₁ t₂ h₁ h₂

/-- A move to a place that has what the last one had, or nothing. -/
theorem OnlyOne.keep (h : OnlyOne has pc) (hp : has p = has (pc t) ∨ has p = none) :
    OnlyOne has (Function.update pc t p) := by
  refine h.move fun a ha t' ht hhas => ?_
  rcases hp with hp | hp
  · exact ht (h a t' t hhas (hp.symm.trans ha))
  · cases hp.symm.trans ha

/-! ## Work left -/

/-- The work left to the first `n` threads. -/
def work (rank : P → ℕ) (n : ℕ) (pc : ℕ → P) : ℕ := ∑ t ∈ Finset.range n, rank (pc t)

theorem work_le {rank : P → ℕ} {k : ℕ} (hle : ∀ p, rank p ≤ k) (n : ℕ) (pc : ℕ → P) :
    work rank n pc ≤ n * k := by
  induction n with
  | zero => exact Nat.zero_le _
  | succ n ih =>
    rw [work, Finset.sum_range_succ, Nat.succ_mul]
    exact Nat.add_le_add ih (hle _)

/-- A move that lowers the work of its thread lowers that of all. -/
theorem work_update_lt {rank : P → ℕ} {n : ℕ} (ht : t < n) (hlt : rank p < rank (pc t)) :
    work rank n (Function.update pc t p) < work rank n pc := by
  refine Finset.sum_lt_sum (fun t' _ => ?_) ⟨t, Finset.mem_range.mpr ht, ?_⟩
  · by_cases hne : t' = t
    · subst hne
      rw [Function.update_self]
      exact hlt.le
    · rw [Function.update_of_ne hne]
  · rw [Function.update_self]
    exact hlt

section Runs

variable {σ : Type u} {α : Type v} {next : σ → α → Option σ} {I : σ → Prop} {m : σ → ℕ}
  {as : List α} {s s' : σ}

/-- A run has no more steps of a kind than a measure that those lower and no step raises. -/
theorem runAll_countP_le {q : α → Bool}
    (hstep : ∀ s a s', I s → next s a = some s' →
      I s' ∧ m s' ≤ m s ∧ (q a = true → m s' < m s))
    (hs : I s) (hrun : Lts.runAll next as s = some s') : I s' ∧ as.countP q + m s' ≤ m s := by
  induction as generalizing s with
  | nil =>
    obtain rfl := Option.some.inj hrun
    exact ⟨hs, (Nat.zero_add _).le⟩
  | cons a as ih =>
    obtain ⟨s₁, hn, hrun⟩ := Option.bind_eq_some_iff.mp hrun
    obtain ⟨hs₁, hle₁, hlt⟩ := hstep s a s₁ hs hn
    obtain ⟨hs', hle⟩ := ih hs₁ hrun
    refine ⟨hs', ?_⟩
    by_cases hq : q a = true
    · rw [List.countP_cons_of_pos hq]
      have := hlt hq
      omega
    · rw [List.countP_cons_of_neg hq]
      omega

/-- A run whose every step lowers a measure is no longer than the measure. -/
theorem runAll_lowers (hstep : ∀ s a s', I s → next s a = some s' → I s' ∧ m s' < m s)
    (hs : I s) (hrun : Lts.runAll next as s = some s') : I s' ∧ as.length + m s' ≤ m s := by
  have hcount := runAll_countP_le (q := fun _ => true)
    (fun s a s' hI hn => ⟨(hstep s a s' hI hn).1, (hstep s a s' hI hn).2.le,
      fun _ => (hstep s a s' hI hn).2⟩) hs hrun
  rwa [List.countP_true] at hcount

end Runs

end Zus.Lib
