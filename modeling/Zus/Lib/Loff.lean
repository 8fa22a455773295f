import Mathlib.Data.Int.Order.Basic
import Mathlib.Tactic.Ring

/-!
# File offsets and sizes

`loff_t` is signed, `size_t` is unsigned, both of 64 bits, and the code converts freely
between them. Unsigned values are `UInt64`, which wraps; signed ones are integers, since
signed overflow is undefined and never relied on. `toLoff` and `toSize` are the two
conversions, and division and remainder round towards zero as in C.
-/

namespace Zus.Lib

/-- `(loff_t)x`. -/
def toLoff (x : UInt64) : ℤ := if x.toNat < 2 ^ 63 then x.toNat else (x.toNat : ℤ) - 2 ^ 64

/-- `(size_t)x`. -/
def toSize (x : ℤ) : UInt64 := UInt64.ofNat (x % 2 ^ 64).toNat

theorem toLoff_of_lt {x : UInt64} (h : x.toNat < 2 ^ 63) : toLoff x = x.toNat := if_pos h

theorem toLoff_lt (x : UInt64) : toLoff x < 2 ^ 63 := by
  have := x.toNat_lt
  unfold toLoff
  split <;> omega

theorem le_toLoff (x : UInt64) : -2 ^ 63 ≤ toLoff x := by
  unfold toLoff
  split <;> omega

theorem toNat_toSize {x : ℤ} (h₀ : 0 ≤ x) (h : x < 2 ^ 64) : (toSize x).toNat = x.toNat := by
  rw [toSize, Int.emod_eq_of_lt h₀ h, UInt64.toNat_ofNat']
  exact Nat.mod_eq_of_lt (by omega)

theorem toLoff_toSize {x : ℤ} (h₀ : 0 ≤ x) (h : x < 2 ^ 63) : toLoff (toSize x) = x := by
  have hn := toNat_toSize h₀ (by omega)
  rw [toLoff_of_lt (by omega), hn]
  omega

theorem toSize_add (a b : ℤ) : toSize (a + b) = toSize a + toSize b := by
  refine UInt64.toNat_inj.mp ?_
  rw [UInt64.toNat_add]
  unfold toSize
  rw [UInt64.toNat_ofNat', UInt64.toNat_ofNat', UInt64.toNat_ofNat']
  omega

theorem cast_toNat_toSize (x : ℤ) : ((toSize x).toNat : ℤ) = x % 2 ^ 64 := by
  rw [toSize, UInt64.toNat_ofNat']
  omega

/-- Unsigned arithmetic gives a signed result that fits. -/
theorem toLoff_toSize_mul_add {s n r : ℤ} (h : -2 ^ 63 ≤ s * n + r) (h' : s * n + r < 2 ^ 63) :
    toLoff (toSize s * toSize n + toSize r) = s * n + r := by
  have hval : ((toSize s * toSize n + toSize r).toNat : ℤ) = (s * n + r) % 2 ^ 64 := by
    rw [UInt64.toNat_add, UInt64.toNat_mul]
    push_cast
    rw [cast_toNat_toSize, cast_toNat_toSize, cast_toNat_toSize]
    simp [Int.add_emod, Int.mul_emod]
  unfold toLoff
  split <;> omega

/-! ## Rounding towards zero -/

/-- Division undoes the multiplication when the two parts have the same sign. -/
theorem tdiv_mul_add {s n r : ℤ} (hr : 0 ≤ r) (hn : r < n) (h : 0 ≤ s ∨ r = 0) :
    (s * n + r).tdiv n = s := by
  rcases h with hs | rfl
  · rw [Int.tdiv_eq_ediv_of_nonneg (Int.add_nonneg (Int.mul_nonneg hs (by omega)) hr),
      Int.add_comm, Int.add_mul_ediv_right _ _ (by omega), Int.ediv_eq_zero_of_lt hr hn, Int.zero_add]
  · rw [Int.add_zero, Int.mul_tdiv_cancel _ (by omega)]

/-- Else it is one too many. -/
theorem tdiv_mul_add_of_neg {s n r : ℤ} (hr : 0 < r) (hn : r < n) (hs : s < 0) :
    (s * n + r).tdiv n = s + 1 := by
  have hneg : s * n + r = -((-(s + 1)) * n + (n - r)) := by ring
  rw [hneg, Int.neg_tdiv, tdiv_mul_add (by omega) (by omega) (.inl (by omega)), Int.neg_neg]

/-! ## Pages -/

/-- `PAGE_SIZE`. -/
def pageSize : ℕ := 4096

/-- `_off_to_boff`. -/
def offToBoff (off : ℤ) : ℤ := off.tdiv pageSize * pageSize

/-- `_off_in_page`. -/
def offInPage (off : ℤ) : ℤ := off.tmod pageSize

/-- `_next_page`. -/
def nextPage (off : ℤ) : ℤ := (off + pageSize).tdiv pageSize * pageSize

/-- `_ispagealigned`. -/
def ispagealigned (off : ℤ) (len : UInt64) : Bool := off % pageSize == 0 && len % 4096 == 0

/-- `_nbytes_in_range`. -/
def nbytesInRange (off next last : ℤ) : UInt64 :=
  toSize (if next < last then next - off else last - off)

theorem lt_nextPage (off : ℤ) : off < nextPage off := by
  have h := Int.mul_tdiv_add_tmod (off + pageSize) pageSize
  have hlt : (off + pageSize).tmod pageSize < (pageSize : ℤ) := Int.tmod_lt_of_pos _ (by decide)
  have hcomm : nextPage off = (pageSize : ℤ) * (off + pageSize).tdiv pageSize := Int.mul_comm _ _
  omega

theorem nextPage_le (off : ℤ) : nextPage off ≤ off + 2 * pageSize := by
  have h := Int.mul_tdiv_add_tmod (off + pageSize) pageSize
  have hlt : -(pageSize : ℤ) < (off + pageSize).tmod pageSize := by
    have := Int.lt_tmod_of_pos (off + pageSize) (by decide : (0 : ℤ) < pageSize)
    exact this
  have hcomm : nextPage off = (pageSize : ℤ) * (off + pageSize).tdiv pageSize := Int.mul_comm _ _
  omega

/-- Division rounds towards zero, so the page after a negative offset starts at most there. -/
theorem nextPage_nonpos {off : ℤ} (h : off < 0) : nextPage off ≤ 0 := by
  refine Int.mul_nonpos_of_nonpos_of_nonneg ?_ (by decide)
  rcases Int.lt_or_le (off + pageSize) 0 with hlt | hge
  · have hnn : 0 ≤ (-(off + pageSize)).tdiv pageSize :=
      Int.tdiv_nonneg (Int.neg_nonneg.mpr hlt.le) (by decide)
    rw [Int.neg_tdiv] at hnn
    omega
  · rw [Int.tdiv_eq_zero_of_lt hge (by omega)]

/-- A piece of a range that is not empty has a positive length. -/
theorem nbytesInRange_pos {off next last : ℤ} (hn : off < next) (hl : off < last)
    (hs : next ≤ off + 2 * pageSize) : 0 < toLoff (nbytesInRange off next last) := by
  have hp : (pageSize : ℤ) = 4096 := rfl
  unfold nbytesInRange
  split
  · rw [toLoff_toSize (by omega) (by omega)]
    omega
  · rw [toLoff_toSize (by omega) (by omega)]
    omega

theorem offToBoff_emod (off : ℤ) : offToBoff off % pageSize = 0 := Int.mul_emod_left _ _

/-- The first piece of a range ends with its page, or with the range. -/
theorem toNat_nbytesInRange {off last : ℤ} (hlt : off < last) :
    ((nbytesInRange off (nextPage off) last).toNat : ℤ) = min (nextPage off) last - off := by
  have hp : (pageSize : ℤ) = 4096 := rfl
  have hnext := lt_nextPage off
  have hle := nextPage_le off
  have hsize : (if nextPage off < last then nextPage off - off else last - off) =
      min (nextPage off) last - off := by
    split <;> omega
  unfold nbytesInRange
  rw [hsize, toNat_toSize (by omega) (by omega)]
  omega

/-- The first piece of a range and the rest of it make up the range. -/
theorem nbytesInRange_add {off last : ℤ} (next : ℤ) (hlt : off < last) :
    nbytesInRange off next last + toSize (max (last - next) 0) = toSize (max (last - off) 0) := by
  unfold nbytesInRange
  rw [← toSize_add]
  congr 1
  split <;> omega

/-- The length of a piece that may span pages. -/
theorem toLoff_nbytesInRange {off next last : ℤ} (hn : off < next) (hl : off < last)
    (hs : last < off + 2 ^ 63) : toLoff (nbytesInRange off next last) = min next last - off := by
  have hmin : (if next < last then next - off else last - off) = min next last - off := by
    split <;> omega
  rw [nbytesInRange, hmin, toLoff_toSize (by omega) (by omega)]

theorem toLoff_nbytesInRange_pos {off next last : ℤ} (hn : off < next) (hl : off < last)
    (hs : last < off + 2 ^ 63) : 0 < toLoff (nbytesInRange off next last) := by
  rw [toLoff_nbytesInRange hn hl hs]
  omega

section Aligned

variable {off : ℤ} (h : off % pageSize = 0)

include h

theorem offToBoff_of_aligned : offToBoff off = off :=
  Int.tdiv_mul_cancel (Int.dvd_of_emod_eq_zero h)

theorem offInPage_of_aligned : offInPage off = 0 :=
  Int.tmod_eq_zero_of_dvd (Int.dvd_of_emod_eq_zero h)

theorem nextPage_of_aligned : nextPage off = off + pageSize := by
  refine Int.tdiv_mul_cancel (Int.dvd_of_emod_eq_zero ?_)
  rw [Int.add_emod_right]
  exact h

/-- The first piece of an aligned range is a page. -/
theorem nbytesInRange_of_aligned {last : ℤ} (hlast : last % pageSize = 0) (hlt : off < last) :
    nbytesInRange off (nextPage off) last = 4096 := by
  rw [nextPage_of_aligned h]
  have hsize : (if off + pageSize < last then off + pageSize - off else last - off) = 4096 := by
    unfold pageSize at *
    split <;> omega
  unfold nbytesInRange
  rw [hsize]
  rfl

end Aligned

section NonNeg

variable {off : ℤ} (h : 0 ≤ off)

include h

theorem offToBoff_eq : offToBoff off = off - off % pageSize := by
  rw [offToBoff, Int.tdiv_eq_ediv_of_nonneg h]
  have := Int.mul_ediv_add_emod off pageSize
  rw [Int.mul_comm] at this
  omega

theorem offInPage_eq : offInPage off = off % pageSize := Int.tmod_eq_emod_of_nonneg h

theorem nextPage_eq : nextPage off = off - off % pageSize + pageSize := by
  have h' : 0 ≤ off + pageSize := by
    unfold pageSize
    omega
  rw [nextPage, Int.tdiv_eq_ediv_of_nonneg h']
  have := Int.mul_ediv_add_emod (off + pageSize) pageSize
  rw [Int.mul_comm, Int.add_emod_right] at this
  omega

theorem offInPage_nonneg : 0 ≤ offInPage off := by
  rw [offInPage_eq h]
  exact Int.emod_nonneg _ (by decide)

theorem offToBoff_nonneg : 0 ≤ offToBoff off :=
  Int.mul_nonneg (Int.tdiv_nonneg h (by decide)) (by decide)

theorem offInPage_lt : offInPage off < pageSize := by
  rw [offInPage_eq h]
  exact Int.emod_lt_of_pos _ (by decide)

/-- The page of a position, and the position in the page. -/
theorem offToBoff_add_offInPage : offToBoff off + offInPage off = off := by
  rw [offToBoff_eq h, offInPage_eq h]
  omega

/-- The page that holds a position. -/
theorem offToBoff_eq_iff {b : ℤ} (hb : b % pageSize = 0) :
    offToBoff off = b ↔ b ≤ off ∧ off < b + pageSize := by
  rw [offToBoff_eq h]
  unfold pageSize at *
  omega

/-- A piece stays in its page. -/
theorem piece_fits {last : ℤ} (hlt : off < last) :
    offInPage off + (nbytesInRange off (nextPage off) last).toNat ≤ pageSize := by
  rw [toNat_nbytesInRange hlt, offInPage_eq h, nextPage_eq h]
  omega

end NonNeg

end Zus.Lib
