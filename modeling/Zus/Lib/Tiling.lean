import Mathlib.Algebra.BigOperators.Group.List.Basic
import Mathlib.Algebra.GroupWithZero.Nat
import Mathlib.Data.List.Basic
import Mathlib.Data.List.Pairwise

/-!
# Tilings

Pieces of different sizes lie one after the other without a gap. `placed` gives every piece
of a list its start. A list in the middle can be exchanged for another one of the same
size, and the pieces around it stay where they are; this is how a slot allocator cuts a
piece out of free room and gives it back.
-/

namespace Zus.Lib

universe u

variable {α : Type u} (size : α → ℕ)

/-- The size of a list of pieces. -/
def total (xs : List α) : ℕ := (xs.map size).sum

/-- The pieces with their starts, the first one at `i`. -/
def placed : ℕ → List α → List (ℕ × α)
  | _, [] => []
  | i, x :: xs => (i, x) :: placed (i + size x) xs

variable {size}

@[simp] theorem total_nil : total size [] = 0 := rfl

@[simp] theorem total_cons (x : α) (xs : List α) : total size (x :: xs) = size x + total size xs := by
  simp [total]

@[simp] theorem total_append (xs ys : List α) :
    total size (xs ++ ys) = total size xs + total size ys := by
  simp [total]

@[simp] theorem total_replicate (n : ℕ) (x : α) :
    total size (List.replicate n x) = n * size x := by
  simp [total]

@[simp] theorem placed_nil (i : ℕ) : placed size i [] = [] := rfl

@[simp] theorem placed_cons (i : ℕ) (x : α) (xs : List α) :
    placed size i (x :: xs) = (i, x) :: placed size (i + size x) xs := rfl

@[simp] theorem placed_append (i : ℕ) (xs ys : List α) :
    placed size i (xs ++ ys) = placed size i xs ++ placed size (i + total size xs) ys := by
  induction xs generalizing i with
  | nil => simp
  | cons x xs ih => simp [ih, Nat.add_assoc]

/-- A piece lies between the start and the end of the list. -/
theorem bounds_of_mem_placed {i : ℕ} {xs : List α} {p : ℕ × α} (h : p ∈ placed size i xs) :
    i ≤ p.1 ∧ p.1 + size p.2 ≤ i + total size xs := by
  induction xs generalizing i with
  | nil => cases h
  | cons x xs ih =>
    rw [placed_cons, List.mem_cons] at h
    rw [total_cons]
    obtain rfl | h := h
    · exact ⟨Nat.le_refl i, by simp only; omega⟩
    · obtain ⟨hlo, hhi⟩ := ih h
      exact ⟨by omega, by omega⟩

/-- Every piece ends before the next ones start. -/
theorem placed_pairwise (i : ℕ) (xs : List α) :
    (placed size i xs).Pairwise fun p q => p.1 + size p.2 ≤ q.1 := by
  induction xs generalizing i with
  | nil => exact .nil
  | cons x xs ih =>
    refine List.Pairwise.cons (fun q hq => ?_) (ih (i + size x))
    exact (bounds_of_mem_placed hq).1

/-- The pieces leave no gap. -/
theorem exists_placed_of_lt {i k : ℕ} {xs : List α} (hlo : i ≤ k) (hhi : k < i + total size xs) :
    ∃ p ∈ placed size i xs, p.1 ≤ k ∧ k < p.1 + size p.2 := by
  induction xs generalizing i with
  | nil =>
    rw [total_nil] at hhi
    omega
  | cons x xs ih =>
    rw [total_cons] at hhi
    by_cases hk : k < i + size x
    · exact ⟨(i, x), by simp, hlo, hk⟩
    · obtain ⟨p, hp, hrange⟩ := ih (i := i + size x) (by omega) (by omega)
      exact ⟨p, by simp [hp], hrange⟩

/-- A piece splits the list into the pieces before it and those behind it. -/
theorem exists_append_of_mem_placed {i : ℕ} {xs : List α} {p : ℕ × α}
    (h : p ∈ placed size i xs) :
    ∃ ys zs, xs = ys ++ p.2 :: zs ∧ p.1 = i + total size ys := by
  induction xs generalizing i with
  | nil => cases h
  | cons x xs ih =>
    rw [placed_cons, List.mem_cons] at h
    obtain rfl | h := h
    · exact ⟨[], xs, rfl, by simp⟩
    · obtain ⟨ys, zs, rfl, hstart⟩ := ih h
      refine ⟨x :: ys, zs, rfl, ?_⟩
      rw [hstart, total_cons, Nat.add_assoc]

end Zus.Lib
