import Zus.Lib.Bytes
import Zus.Lib.Loff

/-!
# Time stamps

A time is kept as a number of nanoseconds in eight little-endian bytes. `zus.h` converts between
it and a `struct timespec`. Seconds and nanoseconds are signed, and a time before 1970 is negative.
-/

namespace Zus

open Zus.Lib

/-- `struct timespec`. -/
@[ext] structure Timespec where
  tvSec : ℤ
  tvNsec : ℤ
  deriving DecidableEq

namespace Timespec

/-- `NSEC_PER_SEC`; it is unsigned. -/
def nsecPerSec : UInt64 := 1000000000

/-- `cpu_to_le64`. -/
def cpuToLe64 (x : UInt64) : List UInt8 := leBytes 8 x.toNat

/-- `le64_to_cpu`. -/
def le64ToCpu (bs : List UInt8) : UInt64 := UInt64.ofNat (leNat bs)

/-- `_z_div_s64_rem`, with `rem`. -/
def zDivS64Rem (x y : ℤ) : ℤ × UInt32 := (x.tdiv y, (toSize (x.tmod y)).toUInt32)

/-- `timespec_to_zt`: the sum is one of unsigned numbers. -/
def timespecToZt (t : Timespec) : List UInt8 :=
  cpuToLe64 (toSize t.tvSec * nsecPerSec + toSize t.tvNsec)

/-- `zt_to_timespec`. -/
def ztToTimespec (mt : List UInt8) : Timespec :=
  let (sec, nsec) := zDivS64Rem (toLoff (le64ToCpu mt)) (toLoff nsecPerSec)
  { tvSec := sec, tvNsec := nsec.toNat }

/-- The nanoseconds since 1970. -/
def nanos (t : Timespec) : ℤ := t.tvSec * 10 ^ 9 + t.tvNsec

/-- The nanoseconds are part of a second. -/
def Normal (t : Timespec) : Prop := 0 ≤ t.tvNsec ∧ t.tvNsec < 10 ^ 9

/-- The time has a place in 64 bits. -/
def Fits (t : Timespec) : Prop := -2 ^ 63 ≤ t.nanos ∧ t.nanos < 2 ^ 63

instance (t : Timespec) : Decidable t.Normal := inferInstanceAs (Decidable (_ ∧ _))

instance (t : Timespec) : Decidable t.Fits := inferInstanceAs (Decidable (_ ∧ _))

variable {t : Timespec}

theorem le64ToCpu_cpuToLe64 (x : UInt64) : le64ToCpu (cpuToLe64 x) = x := by
  rw [le64ToCpu, cpuToLe64, leNat_leBytes (x.toNat_lt.trans_eq (by norm_num)), UInt64.ofNat_toNat]

/-- **What a time stamp stands for.** -/
theorem toLoff_timespecToZt (h : t.Fits) : toLoff (le64ToCpu t.timespecToZt) = t.nanos := by
  have hn : nsecPerSec = toSize (10 ^ 9) := by decide
  rw [timespecToZt, le64ToCpu_cpuToLe64, hn]
  exact toLoff_toSize_mul_add h.1 h.2

/-- **A time that is converted and converted back**: both parts are rounded towards 1970, and the
remainder is then taken for an unsigned number of 32 bits. -/
theorem ztToTimespec_timespecToZt (h : t.Fits) : ztToTimespec t.timespecToZt =
    ⟨t.nanos.tdiv (10 ^ 9), (toSize (t.nanos.tmod (10 ^ 9))).toUInt32.toNat⟩ := by
  have hn : toLoff nsecPerSec = 10 ^ 9 := by decide
  simp only [ztToTimespec, zDivS64Rem, toLoff_timespecToZt h, hn]

/-- **The round trip** gives the time back just when it is not before 1970, or a whole number of
seconds. -/
theorem timespec_roundTrip_iff (t : Timespec) (hn : t.Normal) (hfits : t.Fits) :
    ztToTimespec t.timespecToZt = t ↔ 0 ≤ t.tvSec ∨ t.tvNsec = 0 := by
  obtain ⟨hlo, hhi⟩ := hn
  rw [ztToTimespec_timespecToZt hfits, Timespec.ext_iff]
  constructor
  · rintro ⟨hsec, -⟩
    by_contra hnot
    obtain ⟨hneg, hpos⟩ := not_or.mp hnot
    have hone : t.nanos.tdiv (10 ^ 9) = t.tvSec + 1 :=
      tdiv_mul_add_of_neg (by omega) hhi (by omega)
    simp only at hsec
    omega
  · intro hkept
    have hdiv : t.nanos.tdiv (10 ^ 9) = t.tvSec := tdiv_mul_add hlo hhi hkept
    have hmod : t.nanos.tmod (10 ^ 9) = t.tvNsec := by
      rw [Int.tmod_def, hdiv, nanos]
      ring
    have hnsec : (toSize t.tvNsec).toNat = t.tvNsec.toNat := toNat_toSize hlo (by omega)
    refine ⟨hdiv, ?_⟩
    simp only
    rw [hmod, UInt64.toNat_toUInt32, hnsec]
    omega

/-- A time in the year 2001. -/
theorem timespec_roundTrip_2001 :
    ztToTimespec (timespecToZt ⟨1000000000, 999999999⟩) = ⟨1000000000, 999999999⟩ :=
  (timespec_roundTrip_iff ⟨1000000000, 999999999⟩ (by decide) (by decide)).mpr (.inl (by decide))

/-- Half a second before 1970 comes back as more than three seconds after it. -/
theorem timespec_half_second_before : ¬ ∀ t : Timespec, t.Normal → t.Fits →
    ztToTimespec t.timespecToZt = t := by
  intro hall
  have hback := hall ⟨-1, 500000000⟩ (by decide) (by decide)
  rw [ztToTimespec_timespecToZt (by decide)] at hback
  revert hback
  decide

end Timespec

end Zus
