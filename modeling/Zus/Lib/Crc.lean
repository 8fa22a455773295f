import Mathlib.Data.BitVec
import Mathlib.Data.List.Basic

/-!
# Cyclic redundancy checks

A remainder of `w` bits is divided bit by bit, the lowest bit first. A step is linear in
exclusive or, and undone when the polynomial has its top bit. So two messages of one length have
the same remainder just when what they differ in has none, and what does not reach over more than
`w` bits has one; and a polynomial with an odd number of bits keeps the parity of all that was
read.
-/

namespace Zus.Lib.Crc

variable {w : ℕ} {poly c c' : BitVec w} {b : Bool} {bs bs' : List Bool} {k n : ℕ}

/-- The polynomial, or nothing. -/
def pick (poly : BitVec w) (b : Bool) : BitVec w := if b then poly else 0#w

/-- One bit of the remainder is divided. -/
def shift (poly c : BitVec w) : BitVec w := c >>> 1 ^^^ pick poly (c.getLsbD 0)

/-- A bit as a word. -/
def word (w : ℕ) (b : Bool) : BitVec w := (BitVec.ofBool b).setWidth w

/-- The remainder after some bits. -/
def crc (poly : BitVec w) (c : BitVec w) (bs : List Bool) : BitVec w :=
  bs.foldl (fun c b => shift poly (c ^^^ word w b)) c

/-- What two messages differ in. -/
def diff (bs bs' : List Bool) : List Bool := List.zipWith xor bs bs'

@[simp] theorem crc_nil : crc poly c [] = c := rfl

@[simp] theorem crc_cons : crc poly c (b :: bs) = crc poly (shift poly (c ^^^ word w b)) bs := rfl

theorem crc_append : crc poly c (bs ++ bs') = crc poly (crc poly c bs) bs' := List.foldl_append

/-! ## Linearity -/

theorem pick_xor (b b' : Bool) : pick poly (b ^^ b') = pick poly b ^^^ pick poly b' := by
  cases b <;> cases b' <;> simp [pick]

theorem word_xor (b b' : Bool) : word w (b ^^ b') = word w b ^^^ word w b' := by
  cases b <;> cases b' <;> simp [word]

@[simp] theorem word_false : word w false = 0#w := by
  simp [word]

@[simp] theorem shift_zero : shift poly 0#w = 0#w := by
  simp [shift, pick]

theorem xor_xor_xor_comm (a b c d : BitVec w) : a ^^^ b ^^^ (c ^^^ d) = a ^^^ c ^^^ (b ^^^ d) := by
  ac_rfl

theorem shift_xor (a b : BitVec w) : shift poly (a ^^^ b) = shift poly a ^^^ shift poly b := by
  rw [shift, BitVec.getLsbD_xor, BitVec.ushiftRight_xor_distrib, pick_xor, xor_xor_xor_comm]
  rfl

/-- **The remainder is linear.** -/
theorem crc_diff (h : bs.length = bs'.length) :
    crc poly (c ^^^ c') (diff bs bs') = crc poly c bs ^^^ crc poly c' bs' := by
  induction bs generalizing bs' c c' with
  | nil =>
    cases bs' with
    | nil => rfl
    | cons b' bs' => cases h
  | cons b bs ih =>
    cases bs' with
    | nil => cases h
    | cons b' bs' =>
      rw [diff, List.zipWith_cons_cons, crc_cons, crc_cons, crc_cons, word_xor, xor_xor_xor_comm,
        shift_xor]
      exact ih (Nat.succ.inj h)

/-- Without a difference in the messages, what is left is the difference before them. -/
theorem crc_zeros : crc poly c (List.replicate n false) = (shift poly)^[n] c := by
  induction n generalizing c with
  | zero => rfl
  | succ n ih => rw [List.replicate_succ, crc_cons, word_false, BitVec.xor_zero, ih,
      Function.iterate_succ_apply]

/-! ## Bursts -/

/-- A step is undone when the polynomial has its top bit. -/
theorem shift_eq_zero (hpoly : poly.msb = true) (h : shift poly c = 0#w) : c = 0#w := by
  have hbit : ∀ i, (c >>> 1).getLsbD i = (pick poly (c.getLsbD 0)).getLsbD i := fun i => by
    rw [BitVec.xor_eq_zero_iff.mp h]
  -- the top bit can only come from the polynomial
  have htop : c.getLsbD 0 = false := by
    have htop := hbit (w - 1)
    rw [BitVec.msb_eq_getLsbD_last] at hpoly
    rw [BitVec.getLsbD_ushiftRight, BitVec.getLsbD_of_ge c _ (by omega)] at htop
    cases hlow : c.getLsbD 0 with
    | false => rfl
    | true =>
      rw [hlow, pick, if_pos rfl, hpoly] at htop
      cases htop
  refine BitVec.eq_of_getLsbD_eq fun i hi => ?_
  cases i with
  | zero => rw [htop, BitVec.getLsbD_zero]
  | succ i =>
    have hnext := hbit i
    rw [htop, BitVec.getLsbD_ushiftRight, Nat.add_comm] at hnext
    simpa [pick] using hnext

theorem iterate_shift_xor (a b : BitVec w) :
    (shift poly)^[n] (a ^^^ b) = (shift poly)^[n] a ^^^ (shift poly)^[n] b := by
  induction n generalizing a b with
  | zero => rfl
  | succ n ih => rw [Function.iterate_succ_apply, shift_xor, ih]; rfl

theorem iterate_shift_eq_zero (hpoly : poly.msb = true) (h : (shift poly)^[n] c = 0#w) :
    c = 0#w := by
  induction n generalizing c with
  | zero => exact h
  | succ n ih => exact shift_eq_zero hpoly (ih h)

/-- **What is left of a remainder and what the bits add are apart.** -/
theorem crc_eq_iterate_xor : crc poly c bs = (shift poly)^[bs.length] c ^^^ crc poly 0#w bs := by
  have hdiff : diff (List.replicate bs.length false) bs = bs := by
    refine List.ext_getElem (by simp [diff]) fun i h₁ h₂ => ?_
    simp [diff]
  have hlinear : crc poly (c ^^^ 0#w) (diff (List.replicate bs.length false) bs) =
      crc poly c (List.replicate bs.length false) ^^^ crc poly 0#w bs := crc_diff (by simp)
  rwa [hdiff, BitVec.xor_zero, crc_zeros] at hlinear

/-- Bits, the first one the lowest. -/
def low (w : ℕ) : List Bool → BitVec w
  | [] => 0#w
  | b :: bs => word w b ^^^ low w bs <<< 1

theorem getLsbD_word (hw : 0 < w) (b : Bool) (i : ℕ) :
    (word w b).getLsbD i = (b && decide (i = 0)) := by
  cases i with
  | zero => cases b <;> simp [word, hw]
  | succ i => cases b <;> simp [word]

theorem getLsbD_low {i : ℕ} (hi : i < w) : (low w bs).getLsbD i = bs.getD i false := by
  induction bs generalizing i with
  | nil => simp [low]
  | cons b bs ih =>
    rw [low, BitVec.getLsbD_xor, getLsbD_word (Nat.zero_lt_of_lt hi), BitVec.getLsbD_shiftLeft]
    cases i with
    | zero => simp
    | succ i =>
      have hprev := @ih i (Nat.lt_of_succ_lt hi)
      simp [hi, hprev]

/-- What was shifted up is shifted down. -/
theorem shift_shiftLeft (h : c.getLsbD (w - 1) = false) : shift poly (c <<< 1) = c := by
  have hlow : (c <<< 1).getLsbD 0 = false := by simp
  refine BitVec.eq_of_getLsbD_eq fun i hi => ?_
  rw [shift, hlow, pick, if_neg Bool.false_ne_true, BitVec.xor_zero, BitVec.getLsbD_ushiftRight,
    BitVec.getLsbD_shiftLeft, Nat.add_sub_cancel_left]
  by_cases hlast : 1 + i < w
  · simp [hlast]
  · have heq : i = w - 1 := by omega
    rw [heq, h, Bool.and_false]

/-- And so are several places. -/
theorem iterate_shift_shiftLeft (h : ∀ i, w - k ≤ i → c.getLsbD i = false) :
    (shift poly)^[k] (c <<< k) = c := by
  induction k with
  | zero => rw [Function.iterate_zero_apply, BitVec.shiftLeft_zero]
  | succ k ih =>
    have htop : (c <<< k).getLsbD (w - 1) = false := by
      rw [BitVec.getLsbD_shiftLeft, h (w - 1 - k) (by omega), Bool.and_false]
    rw [Function.iterate_succ_apply, BitVec.shiftLeft_add, shift_shiftLeft htop]
    exact ih fun i hi => h i (by omega)

/-- Few bits are read as if they were there from the start. -/
theorem crc_low (h : bs.length ≤ w) : crc poly 0#w bs = (shift poly)^[bs.length] (low w bs) := by
  induction bs with
  | nil => rfl
  | cons b bs ih =>
    rw [List.length_cons] at h
    have htop : (low w bs).getLsbD (w - 1) = false := by
      rw [getLsbD_low (by omega)]
      simp only [List.getD_eq_getElem?_getD]
      rw [List.getElem?_eq_none (by omega), Option.getD_none]
    rw [crc_cons, crc_eq_iterate_xor, ih (Nat.le_of_succ_le h), BitVec.zero_xor,
      ← iterate_shift_xor,
      low, List.length_cons, Function.iterate_succ_apply, shift_xor, shift_shiftLeft htop]

/-- Bits that differ, not too many, make a difference. -/
theorem crc_diff_ne (hpoly : poly.msb = true) (hlen : bs.length = bs'.length)
    (hw : bs.length ≤ w) (hne : bs ≠ bs') : crc poly c bs ≠ crc poly c bs' := by
  intro heq
  have hlendiff : (diff bs bs').length = bs.length := by simp [diff, hlen]
  have hzero : crc poly (c ^^^ c) (diff bs bs') = crc poly c bs ^^^ crc poly c bs' := crc_diff hlen
  rw [heq, BitVec.xor_self, BitVec.xor_self, crc_low (by omega)] at hzero
  have hlow := iterate_shift_eq_zero hpoly hzero
  refine hne (List.ext_getElem hlen fun i h₁ h₂ => ?_)
  have hbit : (low w (diff bs bs')).getLsbD i = false := by
    rw [hlow, BitVec.getLsbD_zero]
  rw [getLsbD_low (by omega), List.getD_eq_getElem?_getD,
    List.getElem?_eq_getElem (by omega), Option.getD_some] at hbit
  simpa [diff] using hbit

/-- Two messages that differ, and only within `n` bits. -/
def Burst (n : ℕ) (bs bs' : List Bool) : Prop :=
  ∃ before mid mid' after, bs = before ++ mid ++ after ∧ bs' = before ++ mid' ++ after ∧
    mid.length = mid'.length ∧ mid.length ≤ n ∧ mid ≠ mid'

/-- **A burst is found**: two messages that differ within `w` bits have different remainders. -/
theorem crc_burst_ne (hpoly : poly.msb = true) (h : Burst w bs bs') :
    crc poly c bs ≠ crc poly c bs' := by
  obtain ⟨before, mid, mid', after, rfl, rfl, hlen, hw, hne⟩ := h
  rw [crc_append, crc_append, crc_append, crc_append]
  intro heq
  have hmid := crc_diff_ne (c := crc poly c before) hpoly hlen hw hne
  refine hmid (BitVec.xor_eq_zero_iff.mp (iterate_shift_eq_zero (n := after.length) hpoly ?_))
  have hafter : ∀ c, crc poly c after = (shift poly)^[after.length] c ^^^ crc poly 0#w after :=
    fun _ => crc_eq_iterate_xor
  rw [hafter (crc poly _ mid), hafter (crc poly _ mid')] at heq
  rw [iterate_shift_xor, BitVec.xor_eq_zero_iff]
  exact (BitVec.xor_left_inj _).mp heq

/-! ## Parity -/

/-- Whether an odd number of the first `n` bits is set. -/
def odd (f : ℕ → Bool) : ℕ → Bool
  | 0 => false
  | n + 1 => odd f n ^^ f n

theorem odd_succ (f : ℕ → Bool) (n : ℕ) : odd f (n + 1) = (f 0 ^^ odd (fun i => f (i + 1)) n) := by
  induction n with
  | zero => simp [odd]
  | succ n ih =>
    rw [odd, ih, odd, Bool.xor_assoc]

theorem bool_xor_xor_xor_comm (a b c d : Bool) :
    ((a ^^ b) ^^ (c ^^ d)) = ((a ^^ c) ^^ (b ^^ d)) := by
  revert a b c d
  decide

theorem odd_xor (f g : ℕ → Bool) (n : ℕ) :
    odd (fun i => f i ^^ g i) n = (odd f n ^^ odd g n) := by
  induction n with
  | zero => rfl
  | succ n ih => rw [odd, ih, odd, odd, bool_xor_xor_xor_comm]

theorem odd_congr {f g : ℕ → Bool} (h : ∀ i < n, f i = g i) : odd f n = odd g n := by
  induction n with
  | zero => rfl
  | succ n ih => rw [odd, odd, ih fun i hi => h i (Nat.lt_succ_of_lt hi), h n (Nat.lt_succ_self n)]

@[simp] theorem odd_false (n : ℕ) : odd (fun _ => false) n = false := by
  induction n with
  | zero => rfl
  | succ n ih => rw [odd, ih, Bool.xor_false]

/-- Whether an odd number of bits is set. -/
def parity (c : BitVec w) : Bool := odd c.getLsbD w

theorem parity_xor (a b : BitVec w) : parity (a ^^^ b) = (parity a ^^ parity b) := by
  rw [parity, parity, parity, ← odd_xor]
  exact odd_congr fun i _ => BitVec.getLsbD_xor

theorem parity_word (hw : 0 < w) (b : Bool) : parity (word w b) = b := by
  obtain ⟨n, rfl⟩ := Nat.exists_eq_add_of_lt hw
  have hrest : ∀ i < 0 + n, (word (0 + n + 1) b).getLsbD (i + 1) = false := fun i _ => by
    rw [getLsbD_word hw]
    simp
  rw [parity, odd_succ, odd_congr hrest, odd_false, getLsbD_word hw]
  simp

/-- **A step keeps the parity** when the polynomial has an odd number of bits. -/
theorem parity_shift (hpoly : parity poly = true) : parity (shift poly c) = parity c := by
  have hpick : parity (pick poly (c.getLsbD 0)) = c.getLsbD 0 := by
    cases c.getLsbD 0 with
    | false => exact (odd_congr fun i _ => BitVec.getLsbD_zero).trans (odd_false w)
    | true => exact hpoly
  have hdown : parity (c >>> 1) = odd (fun i => c.getLsbD (i + 1)) w :=
    odd_congr fun i _ => by rw [BitVec.getLsbD_ushiftRight, Nat.add_comm]
  have hall : odd c.getLsbD (w + 1) = parity c := by
    rw [odd, BitVec.getLsbD_of_ge c w (Nat.le_refl w), Bool.xor_false, parity]
  rw [shift, parity_xor, hpick, hdown, ← hall, odd_succ, Bool.xor_comm]

theorem parity_crc (hw : 0 < w) (hpoly : parity poly = true) :
    parity (crc poly c bs) = (parity c ^^ bs.foldr xor false) := by
  induction bs generalizing c with
  | nil => simp
  | cons b bs ih =>
    rw [crc_cons, ih, parity_shift hpoly, parity_xor, parity_word hw, List.foldr_cons,
      Bool.xor_assoc]

/-- The bits that are set, as a parity. -/
theorem foldr_xor_eq (bs : List Bool) : bs.foldr xor false = decide (bs.count true % 2 = 1) := by
  induction bs with
  | nil => rfl
  | cons b bs ih =>
    rw [List.foldr_cons, ih]
    cases b with
    | false => simp
    | true =>
      rw [List.count_cons_self, Bool.true_xor, ← decide_not]
      congr 1
      exact propext (by omega)

theorem foldr_xor_diff (h : bs.length = bs'.length) :
    (diff bs bs').foldr xor false = (bs.foldr xor false ^^ bs'.foldr xor false) := by
  induction bs generalizing bs' with
  | nil =>
    cases bs' with
    | nil => rfl
    | cons b' bs' => cases h
  | cons b bs ih =>
    cases bs' with
    | nil => cases h
    | cons b' bs' =>
      rw [diff, List.zipWith_cons_cons, List.foldr_cons, List.foldr_cons, List.foldr_cons, ← diff,
        ih (Nat.succ.inj h), bool_xor_xor_xor_comm]

/-- **An odd number of wrong bits is found**, wherever they are. -/
theorem crc_odd_ne (hw : 0 < w) (hpoly : parity poly = true) (hlen : bs.length = bs'.length)
    (hodd : (diff bs bs').count true % 2 = 1) : crc poly c bs ≠ crc poly c bs' := by
  intro heq
  have hparity := congrArg parity heq
  rw [parity_crc hw hpoly, parity_crc hw hpoly, Bool.xor_right_inj] at hparity
  have hdiff := foldr_xor_diff hlen
  rw [foldr_xor_eq, hparity, Bool.xor_self] at hdiff
  exact of_decide_eq_false hdiff hodd

end Zus.Lib.Crc
