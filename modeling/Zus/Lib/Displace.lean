import Mathlib.Data.Set.Basic
import Zus.Lib.Lines

/-!
# Moving memory

A move over one distance gives each address of a set what was that far before it. Two moves one
after the other are one move over both sets, as long as the first has not overwritten what the
second reads. For ranges of addresses that grow upwards, or downwards, this depends on the
distance only.
-/

namespace Zus.Lib

universe u v

variable {A : Type u} {B : Type v} [Sub A] {δ : A} {D E : Set A} {m : A → B} {x : A}

open Classical in
/-- The addresses of `D` get what was `δ` before them. -/
noncomputable def displace (δ : A) (D : Set A) (m : A → B) : A → B :=
  fun x => if x ∈ D then m (x - δ) else m x

theorem displace_of_mem (h : x ∈ D) : displace δ D m x = m (x - δ) := if_pos h

theorem displace_of_notMem (h : x ∉ D) : displace δ D m x = m x := if_neg h

@[simp] theorem displace_empty : displace δ ∅ m = m := by
  funext x
  exact displace_of_notMem (Set.notMem_empty x)

/-- **Two moves are one** when the second reads nothing that the first has written. -/
theorem displace_displace (h : ∀ x ∈ E, x - δ ∉ D) :
    displace δ E (displace δ D m) = displace δ (D ∪ E) m := by
  funext x
  by_cases hE : x ∈ E
  · rw [displace_of_mem hE, displace_of_notMem (h x hE), displace_of_mem (Set.mem_union_right D hE)]
  · rw [displace_of_notMem hE]
    by_cases hD : x ∈ D
    · rw [displace_of_mem hD, displace_of_mem (Set.mem_union_left E hD)]
    · rw [displace_of_notMem hD, displace_of_notMem fun h => h.elim hD hE]

/-! ## Ranges -/

/-- The addresses of a range. -/
def rangeOf (p : UInt64) (n : ℕ) : Set UInt64 := {x | InRange p n x}

variable {p δ : UInt64} {m n : ℕ}

@[simp] theorem mem_rangeOf {x : UInt64} : x ∈ rangeOf p n ↔ InRange p n x := Iff.rfl

@[simp] theorem rangeOf_zero : rangeOf p 0 = ∅ := by
  ext x
  exact iff_of_false not_inRange_zero (Set.notMem_empty x)

theorem rangeOf_add (h : m + n ≤ 2 ^ 64) :
    rangeOf p (m + n) = rangeOf p m ∪ rangeOf (p + UInt64.ofNat m) n := by
  ext x
  exact inRange_add h

/-- How far the address before a move is from the start of a range. -/
theorem toNat_sub_sub (x δ p : UInt64) :
    (x - δ - p).toNat = (2 ^ 64 - δ.toNat + (x - p).toNat) % 2 ^ 64 := by
  have hswap : x - δ - p = x - p - δ := by grind
  rw [hswap, UInt64.toNat_sub]

/-- Going upwards: the distance is at least what is moved. -/
theorem upwards_notMem (h : m + n ≤ δ.toNat) :
    ∀ x ∈ rangeOf (p + UInt64.ofNat m) n, x - δ ∉ rangeOf p m := by
  intro x hx hmem
  have hδ := δ.toNat_lt
  rw [mem_rangeOf, inRange_shift (by omega)] at hx
  rw [mem_rangeOf, InRange, toNat_sub_sub] at hmem
  omega

/-- Going downwards: the distance and what is moved fit into the address space. -/
theorem downwards_notMem (h : δ.toNat + (m + n) ≤ 2 ^ 64) :
    ∀ x ∈ rangeOf p m, x - δ ∉ rangeOf (p + UInt64.ofNat m) n := by
  intro x hx hmem
  rw [mem_rangeOf, inRange_shift (by omega), toNat_sub_sub] at hmem
  rw [mem_rangeOf, InRange] at hx
  omega

end Zus.Lib
