import Mathlib.Data.Set.Basic
import Mathlib.Order.Interval.Set.Basic
import Mathlib.Tactic.Ring

/-!
# Lines

An address space is cut into lines of one size. A range of addresses meets a run of lines, and a
walk that starts at the first address of the range and goes on by one line at a time visits that
run when it takes the right number of steps.

Addresses of 64 bits wrap around, and a range of them may too.
-/

namespace Zus.Lib

variable {size a len n : ℕ}

/-- The lines that the range of `len` addresses from `a` on meets. -/
def linesOf (size a len : ℕ) : Set ℕ := {l | ∃ x, a ≤ x ∧ x < a + len ∧ x / size = l}

/-- The number of these lines. -/
def lineCount (size a len : ℕ) : ℕ := if len = 0 then 0 else (a % size + len + size - 1) / size

/-- The lines that a walk of `n` steps visits. -/
def visited (size a n : ℕ) : Set ℕ := {l | ∃ j < n, (a + size * j) / size = l}

theorem visited_eq_Ico (hsize : 0 < size) : visited size a n = Set.Ico (a / size) (a / size + n) := by
  ext l
  simp only [visited, Set.mem_ofPred_eq, Set.mem_Ico]
  constructor
  · rintro ⟨j, hj, rfl⟩
    rw [Nat.add_mul_div_left _ _ hsize]
    exact ⟨Nat.le_add_right _ _, Nat.add_lt_add_left hj _⟩
  · rintro ⟨hlo, hhi⟩
    refine ⟨l - a / size, by omega, ?_⟩
    rw [Nat.add_mul_div_left _ _ hsize]
    omega

/-- The last line of the range. -/
theorem last_line (hsize : 0 < size) (hlen : 0 < len) :
    (a + len - 1) / size + 1 = a / size + lineCount size a len := by
  have hsplit : a + len - 1 + size = a % size + len + size - 1 + size * (a / size) := by
    have := Nat.mod_add_div a size
    omega
  rw [lineCount, if_neg (Nat.ne_of_gt hlen), ← Nat.add_div_right _ hsize, hsplit,
    Nat.add_mul_div_left _ _ hsize, Nat.add_comm]

theorem linesOf_eq_Ico (hsize : 0 < size) :
    linesOf size a len = Set.Ico (a / size) (a / size + lineCount size a len) := by
  ext l
  simp only [linesOf, Set.mem_ofPred_eq, Set.mem_Ico]
  rcases Nat.eq_zero_or_pos len with rfl | hlen
  · rw [lineCount, if_pos rfl]
    constructor
    · rintro ⟨x, hlo, hhi, -⟩
      omega
    · rintro ⟨hlo, hhi⟩
      omega
  have hlast := @last_line size a len hsize hlen
  constructor
  · rintro ⟨x, hlo, hhi, rfl⟩
    have hle : x / size ≤ (a + len - 1) / size := Nat.div_le_div_right (by omega)
    exact ⟨Nat.div_le_div_right hlo, by omega⟩
  · rintro ⟨hlo, hhi⟩
    -- the first address of the line, or of the range when the line begins before it
    refine ⟨max a (l * size), Nat.le_max_left _ _, ?_, ?_⟩
    · have hle : l * size ≤ a + len - 1 := (Nat.le_div_iff_mul_le hsize).mp (by omega)
      omega
    · rcases Nat.le_total a (l * size) with h | h
      · rw [Nat.max_eq_right h, Nat.mul_div_cancel _ hsize]
      · rw [Nat.max_eq_left h]
        exact Nat.le_antisymm hlo ((Nat.le_div_iff_mul_le hsize).mpr h)

/-- **A walk visits the lines of the range** just when it has as many steps as there are lines. -/
theorem visited_eq_linesOf_iff (hsize : 0 < size) :
    visited size a n = linesOf size a len ↔ n = lineCount size a len := by
  rw [visited_eq_Ico hsize, linesOf_eq_Ico hsize]
  refine ⟨fun h => ?_, fun h => by rw [h]⟩
  have hmem : ∀ m, a / size + m ∈ Set.Ico (a / size) (a / size + n) ↔
      a / size + m ∈ Set.Ico (a / size) (a / size + lineCount size a len) := by
    rw [h]
    exact fun m => Iff.rfl
  simp only [Set.mem_Ico, Nat.le_add_right, true_and, Nat.add_lt_add_iff_left] at hmem
  exact Nat.le_antisymm (Nat.le_of_not_lt fun hlt => Nat.lt_irrefl _ ((hmem _).mp hlt))
    (Nat.le_of_not_lt fun hlt => Nat.lt_irrefl _ ((hmem _).mpr hlt))

/-! ## Ranges that wrap -/

/-- The address is one of the `n` addresses from `p` on. -/
def InRange (p : UInt64) (n : ℕ) (x : UInt64) : Prop := (x - p).toNat < n

instance (p : UInt64) (n : ℕ) (x : UInt64) : Decidable (InRange p n x) :=
  inferInstanceAs (Decidable (_ < _))

variable {p x : UInt64} {m : ℕ}

theorem not_inRange_zero : ¬ InRange p 0 x := Nat.not_lt_zero _

/-- The part of a range from its `m`-th address on. -/
theorem inRange_shift (h : m + n ≤ 2 ^ 64) :
    InRange (p + UInt64.ofNat m) n x ↔ m ≤ (x - p).toNat ∧ (x - p).toNat < m + n := by
  have hx := x.toNat_lt
  have hp := p.toNat_lt
  simp only [InRange, UInt64.toNat_sub, UInt64.toNat_add, UInt64.toNat_ofNat']
  omega

/-- A range in two parts. -/
theorem inRange_add (h : m + n ≤ 2 ^ 64) :
    InRange p (m + n) x ↔ InRange p m x ∨ InRange (p + UInt64.ofNat m) n x := by
  rw [inRange_shift h, InRange, InRange]
  omega

/-- The two parts have no address in common. -/
theorem not_inRange_shift (h : m + n ≤ 2 ^ 64) (hx : InRange p m x) :
    ¬ InRange (p + UInt64.ofNat m) n x := by
  rw [inRange_shift h]
  exact fun hx' => Nat.not_lt.mpr hx'.1 hx

/-- A range inside one line. -/
theorem div_eq_of_inRange {size : ℕ} (hsize : size ∣ 2 ^ 64) (hn : p.toNat % size + n ≤ size)
    (hx : InRange p n x) : x.toNat / size = p.toNat / size := by
  obtain ⟨k, hk⟩ := hsize
  have hp := p.toNat_lt
  have hpos : 0 < size := Nat.pos_of_ne_zero fun h => by
    rw [h, Nat.zero_mul] at hk
    cases hk
  -- the line of the first address does not go past the end of the address space
  have hline : p.toNat / size < k := Nat.div_lt_of_lt_mul (hk ▸ hp)
  have hend : size * (p.toNat / size) + size ≤ 2 ^ 64 := by
    rw [hk, ← Nat.mul_succ]
    exact Nat.mul_le_mul_left _ hline
  have hsplit := Nat.mod_add_div p.toNat size
  have hsum : x.toNat = p.toNat + (x - p).toNat := by
    have hlt := x.toNat_lt
    rw [InRange] at hx
    have hsub := UInt64.toNat_sub x p
    omega
  rw [InRange] at hx
  rw [hsum]
  refine Nat.div_eq_of_lt_le ?_ ?_
  · rw [Nat.mul_comm]
    omega
  · rw [Nat.succ_mul, Nat.mul_comm]
    omega

end Zus.Lib
