import Mathlib.Data.List.Basic

/-!
# Words

A text is cut into words at blanks. A word that starts with a quote goes to the next quote of that
kind, over blanks too, and does not have the quotes. A hash where a word would start is the end of
the words. `Spells` is the grammar of such texts; it reads every text, in one way.
-/

namespace Zus.Lib.Words

/-- What a character is to a text. -/
inductive Kind
  | blank
  | quote
  | hash
  | plain
  deriving DecidableEq

variable {α : Type*} (kind : α → Kind)

/-- The text spells the words, and the flag says that the last quote of it was closed. -/
inductive Spells : List α → List (List α) → Bool → Prop
  | nil : Spells [] [] true
  | blank {c s ws closed} : kind c = .blank → Spells s ws closed → Spells (c :: s) ws closed
  | hash {c s} : kind c = .hash → Spells (c :: s) [] true
  | quoted {q w s ws closed} : kind q = .quote → q ∉ w → Spells s ws closed →
      Spells (q :: (w ++ q :: s)) (w :: ws) closed
  | unclosed {q w} : kind q = .quote → q ∉ w → Spells (q :: w) [] false
  | plain {c w d s ws closed} : kind c = .plain → (∀ e ∈ w, kind e ≠ .blank) → kind d = .blank →
      Spells s ws closed → Spells (c :: (w ++ d :: s)) ((c :: w) :: ws) closed
  | last {c w} : kind c = .plain → (∀ e ∈ w, kind e ≠ .blank) → Spells (c :: w) [c :: w] true

variable {kind} {s s' w w' : List α} {ws ws' : List (List α)} {closed closed' : Bool} {c d d' : α}
  {P : α → Prop}

/-- A text up to the first character that has a property. -/
theorem exists_first (P : α → Prop) (s : List α) :
    (∀ e ∈ s, ¬ P e) ∨ ∃ w d rest, s = w ++ d :: rest ∧ (∀ e ∈ w, ¬ P e) ∧ P d := by
  induction s with
  | nil => exact .inl fun e he => absurd he List.not_mem_nil
  | cons c s ih =>
    by_cases hc : P c
    · exact .inr ⟨[], c, s, rfl, fun e he => absurd he List.not_mem_nil, hc⟩
    · obtain hnone | ⟨w, d, rest, rfl, hw, hd⟩ := ih
      · exact .inl (List.forall_mem_cons.mpr ⟨hc, hnone⟩)
      · exact .inr ⟨c :: w, d, rest, rfl, List.forall_mem_cons.mpr ⟨hc, hw⟩, hd⟩

/-- The first such character is at one place. -/
theorem first_inj (hw : ∀ e ∈ w, ¬ P e) (hw' : ∀ e ∈ w', ¬ P e) (hd : P d) (hd' : P d')
    (h : w ++ d :: s = w' ++ d' :: s') : w = w' ∧ d = d' ∧ s = s' := by
  induction w generalizing w' with
  | nil =>
    cases w' with
    | nil =>
      obtain ⟨rfl, rfl⟩ := List.cons.inj h
      exact ⟨rfl, rfl, rfl⟩
    | cons e w' =>
      obtain ⟨rfl, -⟩ := List.cons.inj h
      exact absurd hd (hw' d List.mem_cons_self)
  | cons e w ih =>
    obtain ⟨he, hw⟩ := List.forall_mem_cons.mp hw
    cases w' with
    | nil =>
      obtain ⟨rfl, -⟩ := List.cons.inj h
      exact absurd hd' he
    | cons e' w' =>
      obtain ⟨rfl, htail⟩ := List.cons.inj h
      obtain ⟨rfl, hrest⟩ := ih hw (List.forall_mem_cons.mp hw').2 htail
      exact ⟨rfl, hrest⟩

/-- **Every text is read.** -/
theorem exists_spells (kind : α → Kind) (s : List α) : ∃ ws closed, Spells kind s ws closed := by
  induction hn : s.length using Nat.strongRecOn generalizing s with
  | ind n ih =>
    cases s with
    | nil => exact ⟨[], true, .nil⟩
    | cons c s =>
      rw [List.length_cons] at hn
      cases hc : kind c with
      | blank =>
        obtain ⟨ws, closed, h⟩ := ih s.length (by omega) s rfl
        exact ⟨ws, closed, .blank hc h⟩
      | hash => exact ⟨[], true, .hash hc⟩
      | quote =>
        obtain hnone | ⟨w, d, rest, rfl, hw, rfl⟩ := exists_first (· = c) s
        · exact ⟨[], false, .unclosed hc fun hm => hnone c hm rfl⟩
        · rw [List.length_append, List.length_cons] at hn
          obtain ⟨ws, closed, h⟩ := ih rest.length (by omega) rest rfl
          exact ⟨w :: ws, closed, .quoted hc (fun hm => hw d hm rfl) h⟩
      | plain =>
        obtain hnone | ⟨w, d, rest, rfl, hw, hd⟩ := exists_first (kind · = .blank) s
        · exact ⟨[c :: s], true, .last hc hnone⟩
        · rw [List.length_append, List.length_cons] at hn
          obtain ⟨ws, closed, h⟩ := ih rest.length (by omega) rest rfl
          exact ⟨(c :: w) :: ws, closed, .plain hc hw hd h⟩

/-- The characters of the words are those of the text. -/
theorem Spells.mem (h : Spells kind s ws closed) (hw : w ∈ ws) (hc : c ∈ w) : c ∈ s := by
  induction h with
  | nil | hash _ | unclosed _ _ => cases hw
  | blank _ _ ih => exact List.mem_cons_of_mem _ (ih hw)
  | quoted _ _ _ ih =>
    obtain rfl | hw := List.mem_cons.mp hw
    · exact List.mem_cons_of_mem _ (List.mem_append_left _ hc)
    · exact List.mem_cons_of_mem _ (List.mem_append_right _ (List.mem_cons_of_mem _ (ih hw)))
  | plain _ _ _ _ ih =>
    rw [← List.cons_append]
    obtain rfl | hw := List.mem_cons.mp hw
    · exact List.mem_append_left _ hc
    · exact List.mem_append_right _ (List.mem_cons_of_mem _ (ih hw))
  | last _ _ =>
    rw [List.mem_singleton.mp hw] at hc
    exact hc

/-- What a text says of its first character. -/
theorem Spells.cons_inv (h : Spells kind (c :: s) ws closed) :
    match kind c with
    | .blank => Spells kind s ws closed
    | .hash => ws = [] ∧ closed = true
    | .quote =>
      (∃ w rest ws', s = w ++ c :: rest ∧ c ∉ w ∧ ws = w :: ws' ∧ Spells kind rest ws' closed) ∨
        (c ∉ s ∧ ws = [] ∧ closed = false)
    | .plain =>
      (∃ w d rest ws', s = w ++ d :: rest ∧ (∀ e ∈ w, kind e ≠ .blank) ∧ kind d = .blank ∧
        ws = (c :: w) :: ws' ∧ Spells kind rest ws' closed) ∨
        ((∀ e ∈ s, kind e ≠ .blank) ∧ ws = [c :: s] ∧ closed = true) := by
  cases h with
  | blank hc h =>
    rw [hc]
    exact h
  | hash hc =>
    rw [hc]
    exact ⟨rfl, rfl⟩
  | quoted hc hw h =>
    rw [hc]
    exact .inl ⟨_, _, _, rfl, hw, rfl, h⟩
  | unclosed hc hw =>
    rw [hc]
    exact .inr ⟨hw, rfl, rfl⟩
  | plain hc hw hd h =>
    rw [hc]
    exact .inl ⟨_, _, _, _, rfl, hw, hd, rfl, h⟩
  | last hc hw =>
    rw [hc]
    exact .inr ⟨hw, rfl, rfl⟩

/-- **In one way.** -/
theorem Spells.unique (h : Spells kind s ws closed) (h' : Spells kind s ws' closed') :
    ws = ws' ∧ closed = closed' := by
  induction h generalizing ws' closed' with
  | nil =>
    cases h'
    exact ⟨rfl, rfl⟩
  | blank hc _ ih =>
    have hinv := h'.cons_inv
    rw [hc] at hinv
    exact ih hinv
  | hash hc =>
    have hinv := h'.cons_inv
    rw [hc] at hinv
    exact ⟨hinv.1.symm, hinv.2.symm⟩
  | @quoted q w s _ _ hq hw _ ih =>
    have hinv := h'.cons_inv
    rw [hq] at hinv
    obtain ⟨w', rest, ws', htail, hw', rfl, h'⟩ | ⟨hnone, -⟩ := hinv
    · have hne : ∀ {w : List α}, q ∉ w → ∀ e ∈ w, ¬ e = q := fun hw e he heq => hw (heq ▸ he)
      obtain ⟨rfl, -, rfl⟩ := first_inj (hne hw) (hne hw') rfl rfl htail
      obtain ⟨rfl, rfl⟩ := ih h'
      exact ⟨rfl, rfl⟩
    · exact absurd (List.mem_append_right w List.mem_cons_self) hnone
  | @unclosed q w hq hw =>
    have hinv := h'.cons_inv
    rw [hq] at hinv
    obtain ⟨w', rest, ws', rfl, -⟩ | ⟨-, rfl, rfl⟩ := hinv
    · exact absurd (List.mem_append_right w' List.mem_cons_self) hw
    · exact ⟨rfl, rfl⟩
  | @plain c w d s _ _ hc hw hd _ ih =>
    have hinv := h'.cons_inv
    rw [hc] at hinv
    obtain ⟨w', d', rest, ws', htail, hw', hd', rfl, h'⟩ | ⟨hnone, -⟩ := hinv
    · obtain ⟨rfl, -, rfl⟩ := first_inj hw hw' hd hd' htail
      obtain ⟨rfl, rfl⟩ := ih h'
      exact ⟨rfl, rfl⟩
    · exact absurd hd (hnone d (List.mem_append_right w List.mem_cons_self))
  | @last c w hc hw =>
    have hinv := h'.cons_inv
    rw [hc] at hinv
    obtain ⟨w', d, rest, ws', rfl, -, hd, -⟩ | ⟨-, rfl, rfl⟩ := hinv
    · exact absurd hd (hw d (List.mem_append_right w' List.mem_cons_self))
    · exact ⟨rfl, rfl⟩

end Zus.Lib.Words
