import Mathlib.Algebra.Group.Int.Defs
import Mathlib.Algebra.Group.Nat.Defs
import Mathlib.Data.Int.Basic
import Mathlib.Data.List.Basic

/-!
# Numbers in texts

`isspace`, `isdigit` and `strtoul` of the C library, in the C locale and in base ten, and the number
that a text is.
-/

namespace Zus.Lib

/-- `isspace`. -/
def isspace (c : UInt8) : Bool := c = 32 ∨ (9 ≤ c ∧ c ≤ 13)

/-- `isdigit`. -/
def isdigit (c : UInt8) : Bool := 48 ≤ c ∧ c ≤ 57

/-- A text as a number is read: whether there is a minus, the digits, and what is left. -/
def numeral (s : List UInt8) : Bool × List UInt8 × List UInt8 :=
  let (neg, t) := match s.dropWhile isspace with
    | [] => (false, [])
    | c :: t => if c = 45 then (true, t) else if c = 43 then (false, t) else (false, c :: t)
  (neg, t.takeWhile isdigit, t.dropWhile isdigit)

/-- The number that digits are. -/
def ofDigits (ds : List UInt8) : ℕ := ds.foldl (fun n d => 10 * n + (d.toNat - 48)) 0

/-- `strtoul`: a number that is too large is the largest there is, and without a digit nothing is
read. -/
def strtoul (s : List UInt8) : UInt64 × List UInt8 :=
  match numeral s with
  | (_, [], _) => (0, s)
  | (neg, d :: ds, rest) =>
    let n := ofDigits (d :: ds)
    (if 2 ^ 64 ≤ n then -1 else if neg then -UInt64.ofNat n else UInt64.ofNat n, rest)

/-- The number that a text is, if it is one. -/
def decimal (s : List UInt8) : Option ℤ :=
  match numeral s with
  | (neg, d :: ds, []) => some (if neg then -ofDigits (d :: ds) else ofDigits (d :: ds))
  | _ => none

variable {s : List UInt8} {x : ℤ}

/-- `strtoul` reads all of a number. -/
theorem strtoul_snd_of_decimal (h : decimal s = some x) : (strtoul s).2 = [] := by
  unfold decimal at h
  unfold strtoul
  split at h
  · next heq => rw [heq]
  · cases h

/-- `strtoul` reads a number of 64 bits right. -/
theorem strtoul_fst_of_decimal (h : decimal s = some x) (h₀ : 0 ≤ x) (hx : x < 2 ^ 64) :
    ((strtoul s).1.toNat : ℤ) = x := by
  unfold decimal at h
  unfold strtoul
  split at h
  · next neg d ds heq =>
    rw [heq]
    obtain rfl := Option.some.inj h
    dsimp only
    generalize ofDigits (d :: ds) = n at h₀ hx ⊢
    cases neg with
    | false =>
      simp only [Bool.false_eq_true, if_false] at hx ⊢
      rw [if_neg (by omega), UInt64.toNat_ofNat', Nat.mod_eq_of_lt (by omega)]
    | true =>
      simp only [if_true] at h₀ ⊢
      obtain rfl : n = 0 := by omega
      rfl
  · cases h

end Zus.Lib
