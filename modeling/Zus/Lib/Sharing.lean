import Mathlib.Data.Finset.Dedup
import Mathlib.Data.Set.Card
import Mathlib.Tactic.Ring

/-!
# Exclusive and counted ownership

Two ways a resource is held. A resource is *exclusive* when at most one owner holds it;
ownership is then a relation that is functional in the resource. A resource is *counted*
when several references may hold it and a count says how many do: the count is the number
of references that can be found, plus those in the hands of a running operation (or lost).
An operation takes and gives references one at a time, and each lemma below is one such
move: `held` before, `held` after.
-/

namespace Zus.Lib

/-! ## Exclusive ownership -/

section Exclusive

variable {ρ ω : Type*} {owns owns' : ρ → ω → Prop}

/-- No resource has two owners. -/
def Exclusive (owns : ρ → ω → Prop) : Prop := ∀ r o o', owns r o → owns r o' → o = o'

/-- Giving up ownership keeps it exclusive. -/
theorem Exclusive.mono (h : Exclusive owns) (hsub : ∀ r o, owns' r o → owns r o) :
    Exclusive owns' := fun r o o' ho ho' => h r o o' (hsub r o ho) (hsub r o' ho')

/-- A resource no one else owns may get an owner. -/
theorem Exclusive.insert (h : Exclusive owns) {r₀ : ρ} {o₀ : ω} (hfree : ∀ o, owns r₀ o → o = o₀)
    (hsub : ∀ r o, owns' r o → owns r o ∨ (r = r₀ ∧ o = o₀)) : Exclusive owns' := by
  intro r o o' ho ho'
  rcases hsub r o ho with h₁ | ⟨rfl, rfl⟩
  · rcases hsub r o' ho' with h₂ | ⟨rfl, rfl⟩
    · exact h r o o' h₁ h₂
    · exact hfree o h₁
  · rcases hsub r o' ho' with h₂ | ⟨-, rfl⟩
    · exact (hfree o' h₂).symm
    · rfl

end Exclusive

/-! ## Counted references -/

section Counted

variable {δ π : Type*} {refs refs' : δ → Set π} {held : δ → ℕ} {cnt cnt' : δ → ℕ} {d : δ} {p : π}

/-- The count of `d` is the number of references to it, found or held. -/
def Counted (refs : δ → Set π) (held cnt : δ → ℕ) : Prop :=
  ∀ d, (refs d).encard + held d = cnt d

namespace Counted

/-- What is referenced has a positive count. -/
theorem pos (h : Counted refs held cnt) (hp : p ∈ refs d) : 0 < cnt d := by
  have hne : (refs d).encard ≠ 0 := Set.encard_ne_zero.mpr ⟨p, hp⟩
  have hd := h d
  by_contra hzero
  have hz : cnt d = 0 := Nat.eq_zero_of_not_pos hzero
  rw [hz, Nat.cast_zero, add_eq_zero] at hd
  exact hne hd.1

/-- A count of one leaves room for one reference. -/
theorem eq_of_le_one (h : Counted refs held cnt) (hle : cnt d ≤ 1) {p' : π} (hp : p ∈ refs d)
    (hp' : p' ∈ refs d) : p = p' := by
  have hone : (refs d).encard ≤ 1 := calc
    (refs d).encard ≤ (refs d).encard + held d := le_self_add
    _ = cnt d := h d
    _ ≤ 1 := by exact_mod_cast hle
  exact Set.encard_le_one_iff.mp hone p p' hp hp'

/-- A count of two leaves room for two references. -/
theorem eq_pair_of_le_two (h : Counted refs held cnt) (hle : cnt d ≤ 2) {p' : π} (hp : p ∈ refs d)
    (hp' : p' ∈ refs d) (hne : p ≠ p') : refs d = {p, p'} := by
  have htwo : (refs d).encard ≤ 2 := calc
    (refs d).encard ≤ (refs d).encard + held d := le_self_add
    _ = cnt d := h d
    _ ≤ 2 := by exact_mod_cast hle
  have hsub : {p, p'} ⊆ refs d := Set.insert_subset hp (Set.singleton_subset_iff.mpr hp')
  have hfin : (refs d).Finite := Set.finite_of_encard_le_coe htwo
  refine ((Set.toFinite {p, p'}).eq_of_subset_of_encard_le hsub ?_).symm
  rwa [Set.encard_pair hne]

/-- Nothing is held exactly when every count is the number of references found. -/
theorem exact_iff : Counted refs (fun _ => 0) cnt ↔ ∀ d, (refs d).encard = cnt d := by
  simp [Counted]

theorem finite (h : Counted refs held cnt) : (refs d).Finite := by
  refine Set.encard_ne_top_iff.mp fun htop => ?_
  have hd := h d
  rw [htop, top_add] at hd
  exact ENat.natCast_ne_top _ hd.symm

/-- When fewer references are found and the counts are the same, more are held. -/
theorem held_of_subset {held' : δ → ℕ} (h : Counted refs held cnt) (h' : Counted refs' held' cnt)
    (hsub : ∀ d, refs' d ⊆ refs d) : held ≤ held' ∧ (held' = held ↔ ∀ d, refs' d = refs d) := by
  have hsum : ∀ d, (refs' d).encard + held' d = (refs d).encard + held d :=
    fun d => (h' d).trans (h d).symm
  refine ⟨fun d => ?_, fun heq d => ?_, fun heq => ?_⟩
  · have hle : (refs d).encard + held d ≤ (refs d).encard + held' d := calc
      (refs d).encard + held d = (refs' d).encard + held' d := (hsum d).symm
      _ ≤ (refs d).encard + held' d := add_le_add_left (Set.encard_le_encard (hsub d)) _
    have hfin : (refs d).encard ≠ ⊤ := Set.encard_ne_top_iff.mpr h.finite
    exact_mod_cast (ENat.add_le_add_iff_left hfin).mp hle
  · have hd := hsum d
    rw [heq] at hd
    have hcard := ENat.add_left_injective_of_ne_top (ENat.natCast_ne_top (held d)) hd
    exact (h.finite.subset (hsub d)).eq_of_subset_of_encard_le (hsub d) hcard.ge
  · funext d
    have hd := hsum d
    rw [heq d] at hd
    have hfin : (refs d).encard ≠ ⊤ := Set.encard_ne_top_iff.mpr h.finite
    exact_mod_cast ENat.add_right_injective_of_ne_top hfin hd

/-- References that are no longer found are held, by no one, from then on. -/
theorem lose (h : Counted refs held cnt) (hsub : ∀ d, refs' d ⊆ refs d) :
    ∃ held', Counted refs' held' cnt := by
  refine ⟨fun d => cnt d - (refs' d).encard.toNat, fun d => ?_⟩
  have hle : (refs' d).encard ≤ cnt d := calc
    (refs' d).encard ≤ (refs d).encard := Set.encard_le_encard (hsub d)
    _ ≤ (refs d).encard + held d := le_self_add
    _ = cnt d := h d
  obtain ⟨m, hm⟩ := ENat.ne_top_iff_exists.mp (ne_top_of_le_ne_top (ENat.natCast_ne_top _) hle)
  simp only
  rw [← hm] at hle ⊢
  have hnat : m ≤ cnt d := by exact_mod_cast hle
  rw [ENat.toNat_natCast]
  exact_mod_cast Nat.add_sub_cancel' hnat

end Counted

variable [DecidableEq δ]

/-- One more reference to `d`. -/
def bump (f : δ → ℕ) (d : δ) : δ → ℕ := fun d' => f d' + if d' = d then 1 else 0

@[simp] theorem bump_self (f : δ → ℕ) : bump f d d = f d + 1 := by
  simp [bump]

theorem bump_of_ne (f : δ → ℕ) {d' : δ} (h : d' ≠ d) : bump f d d' = f d' := by
  simp [bump, h]

namespace Counted

/-- A held reference is put where it is found. -/
theorem attach (h : Counted refs (bump held d) cnt) (hp : p ∉ refs d)
    (hself : refs' d = insert p (refs d)) (hrest : ∀ d', d' ≠ d → refs' d' = refs d') :
    Counted refs' held cnt := by
  intro d'
  by_cases hd : d' = d
  · subst hd
    rw [hself, Set.encard_insert_of_notMem hp, ← h d', bump_self]
    push_cast
    ring
  · rw [hrest d' hd, ← h d', bump_of_ne held hd]

/-- A reference that was found is taken in hand. -/
theorem detach (h : Counted refs held cnt) (hp : p ∉ refs' d) (hself : refs d = insert p (refs' d))
    (hrest : ∀ d', d' ≠ d → refs' d' = refs d') : Counted refs' (bump held d) cnt := by
  intro d'
  by_cases hd : d' = d
  · subst hd
    rw [← h d', hself, Set.encard_insert_of_notMem hp, bump_self]
    push_cast
    ring
  · rw [hrest d' hd, ← h d', bump_of_ne held hd]

/-- A reference is moved from one resource to another one that is held. -/
theorem move {d' : δ} (h : Counted refs (bump held d') cnt) (hne : d ≠ d') (hp' : p ∉ refs d')
    (hself' : refs' d' = insert p (refs d')) (hp : p ∉ refs' d)
    (hself : refs d = insert p (refs' d))
    (hrest : ∀ e, e ≠ d → e ≠ d' → refs' e = refs e) : Counted refs' (bump held d) cnt := by
  classical
  -- first out of the one, then into the other
  have h₁ : Counted (Function.update refs d (refs' d)) (bump (bump held d') d) cnt := by
    refine h.detach (p := p) ?_ ?_ fun e he => Function.update_of_ne he _ _
    · rwa [Function.update_self]
    · rw [Function.update_self, hself]
  have hcomm : bump (bump held d') d = bump (bump held d) d' := by
    funext e
    simp only [bump]
    ring
  rw [hcomm] at h₁
  refine h₁.attach (p := p) ?_ ?_ fun e he => ?_
  · rwa [Function.update_of_ne hne.symm]
  · rw [Function.update_of_ne hne.symm, hself']
  · by_cases hd : e = d
    · rw [hd, Function.update_self]
    · rw [Function.update_of_ne hd, hrest e hd he]

/-- The count goes up with a reference in hand. -/
theorem take (h : Counted refs held cnt) (hself : cnt' d = cnt d + 1)
    (hrest : ∀ d', d' ≠ d → cnt' d' = cnt d') : Counted refs (bump held d) cnt' := by
  intro d'
  by_cases hd : d' = d
  · subst hd
    rw [hself, bump_self, Nat.cast_add, Nat.cast_add, ← add_assoc, h d']
  · rw [hrest d' hd, bump_of_ne held hd, h d']

/-- The count goes down with a reference in hand. -/
theorem give (h : Counted refs (bump held d) cnt) (hself : cnt' d = cnt d - 1)
    (hrest : ∀ d', d' ≠ d → cnt' d' = cnt d') : Counted refs held cnt' := by
  intro d'
  by_cases hd : d' = d
  · subst hd
    have hd' := h d'
    rw [bump_self, Nat.cast_add, ← add_assoc] at hd'
    have hfin : (refs d').encard ≠ ⊤ := fun ht => by
      rw [ht] at hd'
      simp at hd'
    obtain ⟨m, hm⟩ := ENat.ne_top_iff_exists.mp hfin
    rw [← hm] at hd' ⊢
    have hnat : m + held d' + 1 = cnt d' := by exact_mod_cast hd'
    rw [hself, ← hnat]
    push_cast
    simp
  · rw [hrest d' hd, ← h d', bump_of_ne held hd]

end Counted

/-- The resources that lose their last reference when those of a list are put. -/
def lastRefs (cnt : δ → ℕ) (l : List δ) : ℕ := (l.toFinset.filter fun d => l.count d = cnt d).card

@[simp] theorem lastRefs_nil (cnt : δ → ℕ) : lastRefs cnt [] = 0 := rfl

/-- One reference is put after the other. -/
theorem lastRefs_cons {l : List δ} (h : l.count d < cnt d) :
    lastRefs cnt (d :: l) =
      (if cnt d = 1 then 1 else 0) + lastRefs (Function.update cnt d (cnt d - 1)) l := by
  have hother : ∀ e, e ≠ d → ((d :: l).count e = cnt e ↔
      l.count e = Function.update cnt d (cnt d - 1) e) := fun e he => by
    rw [Function.update_of_ne he, List.count_cons_of_ne he.symm]
  have hself : (d :: l).count d = cnt d ↔ l.count d = Function.update cnt d (cnt d - 1) d := by
    rw [Function.update_self, List.count_cons_self]
    omega
  have hall : ∀ e, ((d :: l).count e = cnt e ↔
      l.count e = Function.update cnt d (cnt d - 1) e) := fun e => by
    by_cases he : e = d
    · rw [he]
      exact hself
    · exact hother e he
  unfold lastRefs
  simp only [hall]
  by_cases hin : d ∈ l
  · -- it is not the last reference
    have hpos := List.count_pos_iff.mpr hin
    rw [if_neg (by omega), Nat.zero_add, List.toFinset_cons,
      Finset.insert_eq_of_mem (List.mem_toFinset.mpr hin)]
  · have hzero := List.count_eq_zero.mpr hin
    rw [List.toFinset_cons, Finset.filter_insert, hzero, Function.update_self]
    by_cases hone : cnt d = 1
    · have hnot : d ∉ l.toFinset.filter fun e => l.count e =
          Function.update cnt d (cnt d - 1) e := fun hmem =>
        hin (List.mem_toFinset.mp (Finset.mem_filter.mp hmem).1)
      rw [if_pos (by omega), if_pos hone, Finset.card_insert_of_notMem hnot, Nat.add_comm]
    · rw [if_neg (by omega), if_neg hone, Nat.zero_add]

end Counted

end Zus.Lib
