import Mathlib.Algebra.Order.Group.Multiset
import Mathlib.Control.Monad.Basic
import Mathlib.Data.Multiset.AddSub
import Mathlib.Data.Multiset.UnionInter

/-!
# Resources that are taken and given back

A ledger is what a process holds: files, mappings, memory. A program takes resources, which the
system chooses among those that are not in use, and gives them back. To give back what is not held
is noted as an error (a file closed twice, memory freed twice).

`Triple A p Q`: a program that owns `A` gives back nothing else, whatever else is held, and ends
with a result and a rest that `Q` describes. The frame is in the definition. `Grows p`: a program
that only takes; what it takes does not depend on what else is held.
-/

namespace Zus.Lib

universe u

/-- What is held, and whether something was given back that was not. -/
structure Ledger (R : Type u) where
  held : Multiset R := 0
  bad : Bool := false

namespace Ledger

variable {R : Type u} {α β : Type u}

/-- A program over a ledger; `none` when the system cannot have given the answer it is run with. -/
abbrev Prog (R α : Type u) := StateT (Ledger R) Option α

/-- The system hands out a resource. -/
def acquire [DecidableEq R] (r : R) : Prog R PUnit := fun l =>
  if r ∈ l.held then none else some (⟨⟩, { l with held := {r} + l.held })

/-- A resource is given back. -/
def release [DecidableEq R] (r : R) : Prog R PUnit := fun l =>
  some (⟨⟩, { held := l.held.erase r, bad := l.bad || decide (r ∉ l.held) })

/-- A program that asks whether a resource is held. -/
def ifHeld [DecidableEq R] (r : R) (p q : Prog R α) : Prog R α := fun l =>
  if r ∈ l.held then p l else q l

/-- The system cannot have given that answer. -/
def impossible : Prog R α := fun _ => none

/-- Nothing was given back that was not held, and nothing is held twice. -/
structure Sound (l : Ledger R) : Prop where
  ok : l.bad = false
  nodup : l.held.Nodup

/-! ## The rules of ownership -/

/-- Of a program that owns `A`: what it returns and what it then owns are as `Q` says. -/
def Triple (A : Multiset R) (p : Prog R α) (Q : α → Multiset R → Prop) : Prop :=
  ∀ F l a l', l.held = F + A → l.Sound → p l = some (a, l') →
    ∃ B, Q a B ∧ l'.held = F + B ∧ l'.Sound

variable {A B : Multiset R} {p : Prog R α} {k : α → Prog R β} {Q Q' : α → Multiset R → Prop}
  {S : β → Multiset R → Prop} {r : R}

/-- A run of a program on all that is held. -/
theorem Triple.run {l l' : Ledger R} {a : α} (hp : Triple 0 p Q) (hl : l.Sound)
    (hr : p l = some (a, l')) : ∃ B, Q a B ∧ l'.held = l.held + B ∧ l'.Sound :=
  hp l.held l a l' (add_zero _).symm hl hr

/-- A run of a program that owns a part of what is held. -/
theorem Triple.run_of {l l' : Ledger R} {a : α} {F : Multiset R} (hp : Triple A p Q)
    (hl : l.Sound) (hF : l.held = F + A) (hr : p l = some (a, l')) :
    ∃ B, Q a B ∧ l'.held = F + B ∧ l'.Sound := hp F l a l' hF hl hr

theorem Triple.pure {a : α} (h : Q a A) : Triple A (Pure.pure a) Q := by
  intro F l b l' hF hl hr
  obtain ⟨rfl, rfl⟩ := Prod.mk.inj (Option.some.inj hr)
  exact ⟨A, h, hF, hl⟩

theorem Triple.bind (hp : Triple A p Q) (hk : ∀ a B, Q a B → Triple B (k a) S) :
    Triple A (p >>= k) S := by
  intro F l b l' hF hl hr
  obtain ⟨⟨a, l₁⟩, hp₁, hk₁⟩ := Option.bind_eq_some_iff.mp hr
  obtain ⟨B, hQ, hB, hl₁⟩ := hp F l a l₁ hF hl hp₁
  exact hk a B hQ F l₁ b l' hB hl₁ hk₁

theorem Triple.mono (hp : Triple A p Q) (h : ∀ a B, Q a B → Q' a B) : Triple A p Q' := by
  intro F l a l' hF hl hr
  obtain ⟨B, hQ, hB⟩ := hp F l a l' hF hl hr
  exact ⟨B, h a B hQ, hB⟩

/-- **The frame rule**: what a program does not own is still there. -/
theorem Triple.frame (hp : Triple A p Q) (G : Multiset R) :
    Triple (G + A) p fun a B => ∃ C, B = G + C ∧ Q a C := by
  intro F l a l' hF hl hr
  obtain ⟨C, hQ, hC, hl'⟩ := hp (F + G) l a l' (by rw [hF, add_assoc]) hl hr
  exact ⟨G + C, ⟨C, rfl, hQ⟩, by rw [hC, add_assoc], hl'⟩

theorem Triple.acquire [DecidableEq R] : Triple A (acquire r) fun _ B => B = {r} + A := by
  intro F l a l' hF hl hr
  unfold Ledger.acquire at hr
  split at hr
  · cases hr
  · next hfresh =>
    obtain rfl := (Prod.mk.inj (Option.some.inj hr)).2
    refine ⟨{r} + A, rfl, ?_, hl.ok, Multiset.nodup_cons.mpr ⟨hfresh, hl.nodup⟩⟩
    change {r} + l.held = _
    rw [hF, add_left_comm]

theorem Triple.release [DecidableEq R] (h : A = {r} + B) :
    Triple A (release r) fun _ C => C = B := by
  intro F l a l' hF hl hr
  obtain rfl := (Prod.mk.inj (Option.some.inj hr)).2
  have hheld : l.held = r ::ₘ (F + B) := by
    rw [hF, h, ← Multiset.singleton_add, add_left_comm]
  refine ⟨B, rfl, ?_, ?_, hl.nodup.erase r⟩
  · change l.held.erase r = _
    rw [hheld, Multiset.erase_cons_head]
  · have hmem : r ∈ l.held := by
      rw [hheld]
      exact Multiset.mem_cons_self r _
    simp [hl.ok, hmem]

/-- What is owned is held. -/
theorem Triple.ifHeld_of_mem [DecidableEq R] {q : Prog R α} (hr : r ∈ A) (hp : Triple A p Q) :
    Triple A (ifHeld r p q) Q := by
  intro F l a l' hF hl h
  have hheld : r ∈ l.held := hF ▸ Multiset.mem_add.mpr (.inr hr)
  unfold Ledger.ifHeld at h
  rw [if_pos hheld] at h
  exact hp F l a l' hF hl h

theorem Triple.impossible : Triple A impossible Q := by
  intro F l a l' _ _ hr
  cases hr

/-! ## Programs that only take -/

/-- The program only takes, and what it takes is the same when nothing else is held. -/
def Grows (p : Prog R α) : Prop :=
  ∀ F A b a l', p ⟨F + A, b⟩ = some (a, l') →
    ∃ B, l' = ⟨F + (A + B), b⟩ ∧ p ⟨A, false⟩ = some (a, ⟨A + B, false⟩)

/-- What a program that only takes has taken, from its run on an empty ledger. -/
theorem Grows.run {l l' : Ledger R} {a : α} (hp : Grows p) (hr : p l = some (a, l')) :
    ∃ B, l'.held = l.held + B ∧ p {} = some (a, { held := B }) := by
  obtain ⟨B, rfl, hB⟩ := hp l.held 0 l.bad a l' (by rw [add_zero]; exact hr)
  rw [zero_add] at hB ⊢
  exact ⟨B, rfl, hB⟩

/-- The same of a program that is owned by another one. -/
theorem Triple.grows (ht : Triple A p Q) (hp : Grows p) :
    Triple A p fun a B => Q a B ∧ ∃ C, B = A + C ∧ p {} = some (a, { held := C }) := by
  intro F l a l' hF hl hr
  obtain ⟨B, hQ, hB, hl'⟩ := ht F l a l' hF hl hr
  obtain ⟨C, hC, halone⟩ := hp.run hr
  refine ⟨B, ⟨hQ, C, ?_, halone⟩, hB, hl'⟩
  rw [hB, hF, add_assoc] at hC
  exact add_left_cancel hC

theorem Grows.pure {a : α} : Grows (Pure.pure a : Prog R α) := by
  intro F A b a' l' hr
  obtain ⟨rfl, rfl⟩ := Prod.mk.inj (Option.some.inj hr)
  exact ⟨0, by rw [add_zero], by rw [add_zero]; rfl⟩

theorem Grows.bind (hp : Grows p) (hk : ∀ a, Grows (k a)) : Grows (p >>= k) := by
  intro F A b c l' hr
  obtain ⟨⟨a, l₁⟩, hp₁, hk₁⟩ := Option.bind_eq_some_iff.mp hr
  obtain ⟨B, rfl, hB⟩ := hp F A b a l₁ hp₁
  obtain ⟨C, rfl, hC⟩ := hk a F (A + B) b c l' hk₁
  refine ⟨B + C, by rw [add_assoc], ?_⟩
  rw [← add_assoc]
  exact Option.bind_eq_some_iff.mpr ⟨_, hB, hC⟩

theorem Grows.acquire [DecidableEq R] : Grows (acquire r) := by
  intro F A b a l' hr
  unfold Ledger.acquire at hr
  split at hr
  · cases hr
  · next hfresh =>
    obtain rfl := (Prod.mk.inj (Option.some.inj hr)).2
    have hA : r ∉ A := fun h => hfresh (Multiset.mem_add.mpr (.inr h))
    refine ⟨{r}, ?_, ?_⟩
    · congr 1
      change {r} + (F + A) = _
      rw [add_left_comm, add_comm A]
    · unfold Ledger.acquire
      rw [if_neg hA, add_comm A]

theorem Grows.impossible : Grows (impossible : Prog R α) := by
  intro F A b a l' hr
  cases hr

end Ledger

end Zus.Lib
