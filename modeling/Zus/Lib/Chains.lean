import Mathlib.Data.List.Nodup
import Mathlib.Logic.Function.Basic

/-!
# Chained hash tables

A table is an array of chains. An entry with key `k` belongs to the chain `slot k`, and a key
has at most one entry. A lookup walks the chain of the key. What an insertion, a removal and
a change of entries in place do to the set of entries is said once here, so that a user
reasons about the entries and never about a chain.
-/

namespace Zus.Lib

universe u v

variable {κ : Type u} {ε : Type v} {key : ε → κ} {slot : κ → ℕ} {t : ℕ → List ε} {e e' : ε} {k : κ}

/-- Each entry is in the chain of its key, and no key has two. -/
structure Chained (key : ε → κ) (slot : κ → ℕ) (t : ℕ → List ε) : Prop where
  placed : ∀ j, ∀ e ∈ t j, slot (key e) = j
  nodup : ∀ j, ((t j).map key).Nodup

/-- The entry is in the table. -/
def Holds (key : ε → κ) (slot : κ → ℕ) (t : ℕ → List ε) (e : ε) : Prop := e ∈ t (slot (key e))

namespace Chained

theorem holds_of_mem (h : Chained key slot t) {j : ℕ} (he : e ∈ t j) : Holds key slot t e := by
  rw [Holds, h.placed j e he]
  exact he

/-- A key has one entry. -/
theorem eq_of_key (h : Chained key slot t) (he : Holds key slot t e) (he' : Holds key slot t e')
    (hk : key e = key e') : e = e' := by
  rw [Holds, ← hk] at he'
  exact List.inj_on_of_nodup_map (h.nodup _) he he' hk

/-! ## Lookup -/

section Find

variable [BEq κ] [LawfulBEq κ]

/-- **A lookup finds the entry of the key.** -/
theorem find?_eq_some_iff (h : Chained key slot t) :
    (t (slot k)).find? (key · == k) = some e ↔ Holds key slot t e ∧ key e = k := by
  refine ⟨fun hf => ?_, ?_⟩
  · exact ⟨h.holds_of_mem (List.mem_of_find?_eq_some hf), by simpa using List.find?_some hf⟩
  · rintro ⟨he, rfl⟩
    rcases hf : (t (slot (key e))).find? (key · == key e) with _ | e'
    · exact absurd (beq_self_eq_true _) (List.find?_eq_none.mp hf e he)
    · have hk : key e' = key e := by simpa using List.find?_some hf
      rw [h.eq_of_key (h.holds_of_mem (List.mem_of_find?_eq_some hf)) he hk]

theorem find?_eq_none_iff (h : Chained key slot t) :
    (t (slot k)).find? (key · == k) = none ↔ ∀ e, Holds key slot t e → key e ≠ k := by
  refine ⟨?_, fun hall => ?_⟩
  · rintro hf e he rfl
    rw [h.find?_eq_some_iff.mpr ⟨he, rfl⟩] at hf
    cases hf
  · refine List.find?_eq_none.mpr fun e he => ?_
    simpa using hall e (h.holds_of_mem he)

end Find

/-! ## Changes of one chain -/

/-- The entries of a table in which one chain was replaced. -/
theorem holds_update {j : ℕ} {l : List ε} :
    Holds key slot (Function.update t j l) e ↔
      (slot (key e) = j ∧ e ∈ l) ∨ (slot (key e) ≠ j ∧ Holds key slot t e) := by
  obtain heq | hne := eq_or_ne (slot (key e)) j
  · simp [Holds, heq]
  · simp [Holds, hne]

/-- A chain may be replaced by one that is in order itself. -/
theorem update (h : Chained key slot t) {j : ℕ} {l : List ε} (hplaced : ∀ e ∈ l, slot (key e) = j)
    (hnodup : (l.map key).Nodup) : Chained key slot (Function.update t j l) := by
  refine ⟨fun j' e he => ?_, fun j' => ?_⟩
  · obtain rfl | hne := eq_or_ne j' j
    · rw [Function.update_self] at he
      exact hplaced e he
    · rw [Function.update_of_ne hne] at he
      exact h.placed j' e he
  · obtain rfl | hne := eq_or_ne j' j
    · rwa [Function.update_self]
    · rw [Function.update_of_ne hne]
      exact h.nodup j'

/-- **Insertion** of an entry with a new key, at the head of its chain. -/
theorem insert (h : Chained key slot t) (hnew : ∀ e', Holds key slot t e' → key e' ≠ key e) :
    Chained key slot (Function.update t (slot (key e)) (e :: t (slot (key e)))) ∧
      ∀ e', Holds key slot (Function.update t (slot (key e)) (e :: t (slot (key e)))) e' ↔
        e' = e ∨ Holds key slot t e' := by
  refine ⟨h.update ?_ ?_, fun e' => ?_⟩
  · intro e' he'
    rcases List.mem_cons.mp he' with rfl | he'
    · rfl
    · exact h.placed _ e' he'
  · rw [List.map_cons, List.nodup_cons]
    refine ⟨fun hmem => ?_, h.nodup _⟩
    obtain ⟨e', he', hk⟩ := List.mem_map.mp hmem
    exact hnew e' (h.holds_of_mem he') hk
  · rw [holds_update, List.mem_cons]
    constructor
    · rintro (⟨-, rfl | he'⟩ | ⟨-, he'⟩)
      · exact .inl rfl
      · exact .inr (h.holds_of_mem he')
      · exact .inr he'
    · rintro (rfl | he')
      · exact .inl ⟨rfl, .inl rfl⟩
      · by_cases hslot : slot (key e') = slot (key e)
        · refine .inl ⟨hslot, .inr ?_⟩
          rwa [Holds, hslot] at he'
        · exact .inr ⟨hslot, he'⟩

/-- **Removal** of the first entry of a chain that meets a test. -/
theorem erase (h : Chained key slot t) {p : ε → Bool} {j : ℕ} (hf : (t j).find? p = some e) :
    Chained key slot (Function.update t j ((t j).eraseP p)) ∧
      ∀ e', Holds key slot (Function.update t j ((t j).eraseP p)) e' ↔
        Holds key slot t e' ∧ e' ≠ e := by
  have hmem : e ∈ t j := List.mem_of_find?_eq_some hf
  obtain ⟨hp, l, r, hl, hlp⟩ := List.find?_eq_some_iff_append.mp hf
  have herase : (t j).eraseP p = l ++ r := by
    rw [hl, List.eraseP_append_right, List.eraseP_cons_of_pos hp]
    exact fun b hb => by simpa using hlp b hb
  have hnd : (t j).Nodup := (h.nodup j).of_map
  have hin : ∀ e', e' ∈ l ++ r ↔ e' ∈ t j ∧ e' ≠ e := by
    intro e'
    have hne : e ∉ l ++ r := by
      rw [hl] at hnd
      exact (List.nodup_middle.mp hnd).notMem
    refine ⟨fun he' => ⟨?_, fun heq => hne (heq ▸ he')⟩, ?_⟩
    · rw [hl]
      simp only [List.mem_append, List.mem_cons] at he' ⊢
      tauto
    · rintro ⟨he', hne'⟩
      rw [hl] at he'
      simp only [List.mem_append, List.mem_cons] at he' ⊢
      tauto
  refine ⟨h.update ?_ ?_, fun e' => ?_⟩
  · intro e' he'
    exact h.placed j e' (List.mem_of_mem_eraseP he')
  · exact (h.nodup j).sublist ((List.eraseP_sublist).map key)
  · rw [holds_update, herase, hin]
    constructor
    · rintro (⟨-, he', hne⟩ | ⟨hslot, he'⟩)
      · exact ⟨h.holds_of_mem he', hne⟩
      · refine ⟨he', ?_⟩
        rintro rfl
        exact hslot (h.placed j e' hmem)
    · rintro ⟨he', hne⟩
      by_cases hslot : slot (key e') = j
      · refine .inl ⟨hslot, ?_, hne⟩
        rwa [Holds, hslot] at he'
      · exact .inr ⟨hslot, he'⟩

/-- **Change in place**: the entry of one key becomes another one of that key. -/
theorem modify [DecidableEq κ] (h : Chained key slot t) {f : ε → ε} (hf : ∀ e, key (f e) = key e) :
    let l := (t (slot k)).map fun e => if key e = k then f e else e
    Chained key slot (Function.update t (slot k) l) ∧
      ∀ e', Holds key slot (Function.update t (slot k) l) e' ↔
        ∃ e, Holds key slot t e ∧ e' = if key e = k then f e else e := by
  intro l
  have hkey : ∀ e, key (if key e = k then f e else e) = key e := by
    intro e
    split
    · exact hf e
    · rfl
  have hmap : l.map key = (t (slot k)).map key := by
    rw [List.map_map]
    exact List.map_congr_left fun e _ => hkey e
  refine ⟨h.update ?_ ?_, fun e' => ?_⟩
  · intro e' he'
    obtain ⟨e, he, rfl⟩ := List.mem_map.mp he'
    rw [hkey]
    exact h.placed _ e he
  · rw [hmap]
    exact h.nodup _
  · rw [holds_update]
    constructor
    · rintro (⟨-, he'⟩ | ⟨hslot, he'⟩)
      · obtain ⟨e, he, rfl⟩ := List.mem_map.mp he'
        exact ⟨e, h.holds_of_mem he, rfl⟩
      · refine ⟨e', he', (if_neg ?_).symm⟩
        rintro rfl
        exact hslot rfl
    · rintro ⟨e, he, rfl⟩
      by_cases hslot : slot (key e) = slot k
      · refine .inl ⟨by rw [hkey, hslot], List.mem_map.mpr ⟨e, ?_, rfl⟩⟩
        rwa [Holds, hslot] at he
      · have hne : key e ≠ k := by
          rintro rfl
          exact hslot rfl
        rw [if_neg hne]
        exact .inr ⟨hslot, he⟩

end Chained

end Zus.Lib
