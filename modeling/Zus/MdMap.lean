import Mathlib.Algebra.BigOperators.Group.Finset.Basic
import Mathlib.Algebra.BigOperators.Ring.Finset
import Mathlib.Algebra.Order.BigOperators.Group.Finset
import Mathlib.Data.Nat.GCD.Basic
import Zus.MdT2

/-!
# The device maps

The devices of a tier lie one after the other in the space of its blocks. `_map_setup` cuts the
space into pieces as long as the greatest common divisor of the devices, and notes the device of
each piece.

The number of the piece is a `uint`: a map of `2 ^ 32` pieces or more is never done. Sizes and
offsets are in bytes, so that a device has fewer than `2 ^ 52` blocks.
-/

namespace Zus.Md

open Zus.Lib Finset

/-! ## The greatest common divisor -/

/-- The loop of `_gcd`. -/
def gcdLoop (x y : UInt64) (_hy : y ≠ 0) : UInt64 :=
  if h : x % y = 0 then y else gcdLoop y (x % y) h
termination_by y.toNat
decreasing_by
  rw [UInt64.toNat_mod]
  exact Nat.mod_lt _ (Nat.pos_of_ne_zero fun h => _hy (UInt64.toNat_inj.mp h))

/-- `_gcd`. -/
def gcd (x y : UInt64) : UInt64 :=
  let (x, y) := if x < y then (y, x) else (x, y)
  if h : y = 0 then x else gcdLoop x y h

theorem toNat_gcdLoop (x y : UInt64) (hy : y ≠ 0) :
    (gcdLoop x y hy).toNat = Nat.gcd x.toNat y.toNat := by
  induction x, y, hy using gcdLoop.induct with
  | case1 x y hy h =>
    rw [gcdLoop, dif_pos h]
    have hmod : x.toNat % y.toNat = 0 := by
      rw [← UInt64.toNat_mod, h]
      rfl
    exact (Nat.gcd_eq_right (Nat.dvd_of_mod_eq_zero hmod)).symm
  | case2 x y hy h ih =>
    rw [gcdLoop, dif_neg h, ih, UInt64.toNat_mod, Nat.gcd_comm, ← Nat.gcd_rec, Nat.gcd_comm]

theorem toNat_gcd (x y : UInt64) : (gcd x y).toNat = Nat.gcd x.toNat y.toNat := by
  have hsorted : ∀ x y : UInt64,
      (if h : y = 0 then x else gcdLoop x y h).toNat = Nat.gcd x.toNat y.toNat := by
    intro x y
    split
    · next h =>
      rw [h]
      exact (Nat.gcd_zero_right _).symm
    · next h => exact toNat_gcdLoop x y h
  unfold gcd
  split
  next a b hab =>
  rw [hsorted]
  split at hab
  · obtain ⟨rfl, rfl⟩ := Prod.mk.inj hab
    exact Nat.gcd_comm _ _
  · obtain ⟨rfl, rfl⟩ := Prod.mk.inj hab
    rfl

/-! ## The maps -/

/-- `struct md_dev_larray`. -/
structure MdDevLarray where
  bnGcd : UInt64 := 0
  /-- the number of entries of `map` -/
  entries : ℕ := 0
  /-- the entries of `map`, as indices into `devs` -/
  map : ℕ → ℕ := fun _ => 0

/-- `bn_gcd` of a tier, over its devices. -/
def bnGcd (mdis : List MdDevInfo) : UInt64 := mdis.foldl (fun g mdi => gcd g (o2p mdi.size)) 0

/-- The loop of `_map_setup`; `none` when it has not ended after so many turns. -/
def mapLoop (md : MultiDevices) (bnGcd mapSize : UInt64) :
    ℕ → UInt32 → UInt64 → ℕ → (ℕ → ℕ) → Option (ℕ → ℕ)
  | 0, _, _, _, _ => none
  | fuel + 1, i, bnEnd, devIndex, map =>
    if i.toUInt64 < mapSize then
      let (bnEnd, devIndex) :=
        if bnEnd ≤ i.toUInt64 * bnGcd then
          (bnEnd + o2p (md.devs.getD (devIndex + 1) {}).size, devIndex + 1)
        else (bnEnd, devIndex)
      mapLoop md bnGcd mapSize fuel (i + 1) bnEnd devIndex (Function.update map i.toNat devIndex)
    else some map

/-- `_map_setup`; `calloc` says that there is memory for the map. -/
def mapSetup (md : MultiDevices) (blocks : UInt64) (devStart : ℕ) (bnGcd : UInt64) (calloc : Bool)
    (fuel : ℕ) : Option (Except ℤ MdDevLarray) :=
  let mapSize := blocks / bnGcd
  if !calloc then some (.error (-12))
  else
    match mapLoop md bnGcd mapSize fuel 0 (o2p (md.devs.getD devStart {}).size) devStart
        fun _ => 0 with
    | none => none
    | some map => some (.ok ⟨bnGcd, mapSize.toNat, map⟩)

variable (api : Api)

/-- `md_init_from_pmem_info` with the maps of the two tiers; `none` when it has not returned
after so many turns of a loop. -/
def initMaps (devList : MdDevList) (t1Blocks t2Blocks : UInt64) (calloc₁ calloc₂ : Bool)
    (fuel : ℕ) : Option (Except ℤ (MdDevLarray × MdDevLarray)) :=
  let md := initFromPmemInfo api devList
  let gcd₁ := bnGcd (md.devs.take md.t1Count)
  let gcd₂ := bnGcd (md.devs.drop md.t1Count)
  match if md.t1Count = 0 then some (.ok {}) else mapSetup md t1Blocks 0 gcd₁ calloc₁ fuel with
  | none => none
  | some (.error err) => some (.error err)
  | some (.ok t1a) =>
    match if md.t2Count = 0 then some (.ok {})
      else mapSetup md t2Blocks md.t1Count gcd₂ calloc₂ fuel with
    | none => none
    | some (.error err) => some (.error err)
    | some (.ok t2a) => some (.ok (t1a, t2a))

/-! ## The devices of a tier -/

section

variable {api} {ids : ℕ → MdDevId} {B : ℕ → ℕ} {md : MultiDevices} {start count : ℕ}

theorem toNat_p2o {x : UInt64} (h : x.toNat < 2 ^ 52) : (p2o x).toNat = 4096 * x.toNat := by
  rw [p2o, UInt64.toNat_shiftLeft]
  change x.toNat <<< 12 % 2 ^ 64 = _
  rw [Nat.shiftLeft_eq, Nat.mod_eq_of_lt (by omega), Nat.mul_comm]

theorem toNat_o2p {x : UInt64} {n : ℕ} (h : x.toNat = 4096 * n) : (o2p x).toNat = n := by
  rw [o2p, UInt64.toNat_shiftRight]
  change x.toNat >>> 12 = _
  rw [Nat.shiftRight_eq_div_pow, h]
  exact Nat.mul_div_cancel_left _ (by decide)

/-- The devices of a tier whose numbers of blocks are `B`, one after the other. -/
structure IsTier (md : MultiDevices) (start count : ℕ) (B : ℕ → ℕ) : Prop where
  size : ∀ k < count, (md.devs.getD (start + k) {}).size.toNat = 4096 * B k
  offset : ∀ k < count, (md.devs.getD (start + k) {}).offset.toNat = 4096 * ∑ j ∈ range k, B j

/-- Sizes and offsets in bytes fit in 64 bits. -/
structure TierFits (count : ℕ) (B : ℕ → ℕ) : Prop where
  size : ∀ k < count, B k < 2 ^ 52
  offset : ∀ k < count, ∑ j ∈ range k, B j < 2 ^ 52

theorem length_initDevInfos (i : ℕ) (off : UInt64) (n : ℕ) :
    (initDevInfos api ids i off n).length = n := by
  induction n generalizing i off with
  | zero => rfl
  | succ n ih => exact congrArg (· + 1) (ih (i + 1) _)

/-- What the loop over the devices of a tier leaves. -/
theorem initDevInfos_spec {n k i : ℕ} {off : UInt64} (hk : k < n)
    (hB : ∀ j, B j = (api.devIdBlocks (ids (i + j))).toNat) (hsize : ∀ j < n, B j < 2 ^ 52)
    (hoff : off.toNat + 4096 * ∑ j ∈ range k, B j < 2 ^ 64) :
    ((initDevInfos api ids i off n).getD k {}).size.toNat = 4096 * B k ∧
      ((initDevInfos api ids i off n).getD k {}).offset.toNat =
        off.toNat + 4096 * ∑ j ∈ range k, B j := by
  induction n generalizing k i off B with
  | zero => exact absurd hk (Nat.not_lt_zero k)
  | succ n ih =>
    have hfirst : (p2o (api.devIdBlocks (ids i))).toNat = 4096 * B 0 := by
      rw [hB 0]
      exact toNat_p2o (by
        have h₀ := hsize 0 (Nat.succ_pos n)
        rwa [hB 0] at h₀)
    cases k with
    | zero => exact ⟨hfirst, rfl⟩
    | succ k =>
      rw [sum_range_succ'] at hoff ⊢
      have hadd : (off + (initDevInfo api (ids i) i off).size).toNat = off.toNat + 4096 * B 0 := by
        change (off + p2o (api.devIdBlocks (ids i))).toNat = _
        rw [UInt64.toNat_add, hfirst, Nat.mod_eq_of_lt (by omega)]
      have hrest := @ih (fun j => B (j + 1)) k (i + 1) (off + (initDevInfo api (ids i) i off).size)
        (Nat.lt_of_succ_lt_succ hk) (fun j => by rw [hB, Nat.add_right_comm, Nat.add_assoc])
        (fun j hj => hsize (j + 1) (Nat.succ_lt_succ hj)) (by rw [hadd]; omega)
      rw [hadd] at hrest
      refine ⟨hrest.1, hrest.2.trans ?_⟩
      omega

theorem getD_t1 (devList : MdDevList) {k : ℕ} (hk : k < devList.t1Count.toNat) :
    (initFromPmemInfo api devList).devs.getD (0 + k) {} =
      (initDevInfos api devList.devIds 0 0 devList.t1Count.toNat).getD k {} := by
  rw [Nat.zero_add]
  exact List.getD_append _ _ _ _ (by rwa [length_initDevInfos])

theorem getD_t2 (devList : MdDevList) (k : ℕ) :
    (initFromPmemInfo api devList).devs.getD (devList.t1Count.toNat + k) {} =
      (initDevInfos api devList.devIds devList.t1Count.toNat 0 devList.t2Count.toNat).getD k {} := by
  have happ := List.getD_append_right (initDevInfos api devList.devIds 0 0 devList.t1Count.toNat)
    (initDevInfos api devList.devIds devList.t1Count.toNat 0 devList.t2Count.toNat) {}
    (devList.t1Count.toNat + k) (by rw [length_initDevInfos]; exact Nat.le_add_right _ _)
  rw [length_initDevInfos, Nat.add_sub_cancel_left] at happ
  exact happ

/-- The two tiers of a table. -/
theorem isTier_initFromPmemInfo (devList : MdDevList) {B₁ B₂ : ℕ → ℕ}
    (hB₁ : ∀ j, B₁ j = (api.devIdBlocks (devList.devIds j)).toNat)
    (hB₂ : ∀ j, B₂ j = (api.devIdBlocks (devList.devIds (devList.t1Count.toNat + j))).toNat)
    (h₁ : TierFits devList.t1Count.toNat B₁) (h₂ : TierFits devList.t2Count.toNat B₂) :
    IsTier (initFromPmemInfo api devList) 0 devList.t1Count.toNat B₁ ∧
      IsTier (initFromPmemInfo api devList) devList.t1Count.toNat devList.t2Count.toNat B₂ := by
  have hspec₁ : ∀ k < devList.t1Count.toNat, _ := fun k hk =>
    @initDevInfos_spec api devList.devIds B₁ devList.t1Count.toNat k 0 0 hk
      (fun j => by rw [hB₁, Nat.zero_add]) h₁.size (by
        have := h₁.offset k hk
        change 0 + _ < _
        omega)
  have hspec₂ : ∀ k < devList.t2Count.toNat, _ := fun k hk =>
    @initDevInfos_spec api devList.devIds B₂ devList.t2Count.toNat k devList.t1Count.toNat 0 hk
      hB₂ h₂.size (by
        have := h₂.offset k hk
        change 0 + _ < _
        omega)
  refine ⟨⟨fun k hk => ?_, fun k hk => ?_⟩, ⟨fun k hk => ?_, fun k hk => ?_⟩⟩
  · rw [getD_t1 devList hk]
    exact (hspec₁ k hk).1
  · rw [getD_t1 devList hk]
    exact (hspec₁ k hk).2.trans (Nat.zero_add _)
  · rw [getD_t2]
    exact (hspec₂ k hk).1
  · rw [getD_t2]
    exact (hspec₂ k hk).2.trans (Nat.zero_add _)

/-! ## The loop of a map -/

/-- **`bn_gcd` divides every device.** -/
theorem bnGcd_dvd (mdis : List MdDevInfo) :
    ∀ mdi ∈ mdis, (bnGcd mdis).toNat ∣ (o2p mdi.size).toNat := by
  have hfold : ∀ (l : List MdDevInfo) (g : UInt64),
      (l.foldl (fun g mdi => gcd g (o2p mdi.size)) g).toNat ∣ g.toNat ∧
      ∀ mdi ∈ l, (l.foldl (fun g mdi => gcd g (o2p mdi.size)) g).toNat ∣ (o2p mdi.size).toNat := by
    intro l
    induction l with
    | nil => exact fun g => ⟨dvd_refl _, fun mdi hm => absurd hm List.not_mem_nil⟩
    | cons mdi l ih =>
      intro g
      obtain ⟨hg, hl⟩ := ih (gcd g (o2p mdi.size))
      rw [toNat_gcd] at hg
      refine ⟨hg.trans (Nat.gcd_dvd_left _ _), fun mdi' hm => ?_⟩
      rcases List.mem_cons.mp hm with rfl | hm
      · exact hg.trans (Nat.gcd_dvd_right _ _)
      · exact hl mdi' hm
  exact (hfold mdis 0).2

theorem IsTier.bnGcd_dvd {mdis : List MdDevInfo} (h : IsTier md start count B)
    (hlen : mdis.length = count)
    (hget : ∀ k < count, md.devs.getD (start + k) {} = mdis.getD k {}) :
    ∀ k < count, (bnGcd mdis).toNat ∣ B k := by
  intro k hk
  have hmem : mdis.getD k {} ∈ mdis := by
    rw [List.getD_eq_getElem _ _ (hlen.symm ▸ hk)]
    exact List.getElem_mem _
  have hdvd := Md.bnGcd_dvd mdis _ hmem
  rwa [← hget k hk, toNat_o2p (h.size k hk)] at hdvd

/-- A piece of the space lies in a device. -/
def PieceIn (B : ℕ → ℕ) (count G k d : ℕ) : Prop :=
  d < count ∧ ∑ j ∈ range d, B j ≤ k * G ∧ (k + 1) * G ≤ ∑ j ∈ range (d + 1), B j

/-- A multiple that is passed is passed by a whole piece. -/
theorem succ_mul_le_of_lt {G k m : ℕ} (hm : G ∣ m) (h : k * G < m) : (k + 1) * G ≤ m := by
  obtain ⟨q, rfl⟩ := hm
  rw [Nat.mul_comm G q] at h ⊢
  exact Nat.mul_le_mul_right G (Nat.lt_of_mul_lt_mul_right h)

theorem sum_range_mono {a b : ℕ} (h : a ≤ b) : ∑ j ∈ range a, B j ≤ ∑ j ∈ range b, B j :=
  sum_le_sum_of_subset (range_subset_range.mpr h)

/-- The device of the next piece, which starts at `bn`, and where it ends: the one at hand, or
the one after it where the piece starts at the end of the one at hand. -/
theorem nextDev_spec (hB : ∀ k < count, 0 < B k)
    (hsize : ∀ k < count, (o2p (md.devs.getD (start + k) {}).size).toNat = B k)
    (hlt : ∑ j ∈ range count, B j < 2 ^ 64) {bn bnEnd : UInt64} {d : ℕ} (hd : d < count)
    (hend : bnEnd.toNat = ∑ j ∈ range (d + 1), B j) (hlow : ∑ j ∈ range d, B j ≤ bn.toNat)
    (hhigh : bn.toNat ≤ ∑ j ∈ range (d + 1), B j) (hbefore : bn.toNat < ∑ j ∈ range count, B j) :
    ∃ bnEnd₁ e,
      (if bnEnd ≤ bn then
        (bnEnd + o2p (md.devs.getD (start + d + 1) {}).size, start + d + 1)
        else (bnEnd, start + d)) = (bnEnd₁, start + e) ∧ e < count ∧
      bnEnd₁.toNat = ∑ j ∈ range (e + 1), B j ∧
      ∑ j ∈ range e, B j ≤ bn.toNat ∧ bn.toNat < ∑ j ∈ range (e + 1), B j := by
  by_cases hpast : bnEnd ≤ bn
  · have heq : ∑ j ∈ range (d + 1), B j = bn.toNat := by
      rw [UInt64.le_iff_toNat_le, hend] at hpast
      exact Nat.le_antisymm hpast hhigh
    have hd₁ : d + 1 < count := by
      refine Nat.lt_of_le_of_ne hd fun hlast => ?_
      rw [hlast] at heq
      omega
    have hle : ∑ j ∈ range (d + 1 + 1), B j ≤ ∑ j ∈ range count, B j := sum_range_mono hd₁
    have hBd₁ := hB (d + 1) hd₁
    have hsize₁ := hsize (d + 1) hd₁
    rw [sum_range_succ] at hle
    rw [← Nat.add_assoc] at hsize₁
    refine ⟨_, d + 1, if_pos hpast, hd₁, ?_, heq.le, ?_⟩
    · rw [UInt64.toNat_add, hend, hsize₁, sum_range_succ _ (d + 1), Nat.mod_eq_of_lt (by omega)]
    · rw [sum_range_succ _ (d + 1)]
      omega
  · refine ⟨bnEnd, d, if_neg hpast, hd, hend, hlow, ?_⟩
    rw [UInt64.le_iff_toNat_le, hend] at hpast
    exact Nat.not_le.mp hpast

/-- **The loop finds the device of each piece.** The device at hand ends at `bn_end`, which the
pieces before the next one have not passed. -/
theorem mapLoop_spec {bnGcd mapSize : UInt64} (hB : ∀ k < count, 0 < B k)
    (hsize : ∀ k < count, (o2p (md.devs.getD (start + k) {}).size).toNat = B k)
    (hdvd : ∀ k < count, bnGcd.toNat ∣ B k)
    (hmap : mapSize.toNat * bnGcd.toNat = ∑ j ∈ range count, B j)
    (hlt : ∑ j ∈ range count, B j < 2 ^ 64) (hsmall : mapSize.toNat < 2 ^ 32) {fuel : ℕ} {i : UInt32}
    {bnEnd : UInt64} {d : ℕ} {map map' : ℕ → ℕ} (hd : d < count)
    (hend : bnEnd.toNat = ∑ j ∈ range (d + 1), B j)
    (hlow : ∑ j ∈ range d, B j ≤ i.toNat * bnGcd.toNat)
    (hhigh : i.toNat * bnGcd.toNat ≤ ∑ j ∈ range (d + 1), B j) (hi : i.toNat ≤ mapSize.toNat)
    (hdone : ∀ k < i.toNat, ∃ e, map k = start + e ∧ PieceIn B count bnGcd.toNat k e)
    (hr : mapLoop md bnGcd mapSize fuel i bnEnd (start + d) map = some map') :
    ∀ k < mapSize.toNat, ∃ e, map' k = start + e ∧ PieceIn B count bnGcd.toNat k e := by
  induction fuel generalizing i bnEnd d map with
  | zero => cases hr
  | succ fuel ih =>
    unfold mapLoop at hr
    split at hr
    · next hlt' =>
      have hik : i.toNat < mapSize.toNat := by
        rwa [UInt64.lt_iff_toNat_lt, UInt32.toNat_toUInt64] at hlt'
      have htotal : ∑ j ∈ range (d + 1), B j ≤ ∑ j ∈ range count, B j := sum_range_mono hd
      have hBd := hB d hd
      rw [sum_range_succ] at htotal
      have hG : 0 < bnGcd.toNat := by
        refine Nat.pos_of_ne_zero fun hzero => ?_
        rw [hzero, Nat.mul_zero] at hmap
        omega
      have hbefore : i.toNat * bnGcd.toNat < ∑ j ∈ range count, B j :=
        hmap ▸ (Nat.mul_lt_mul_right hG).mpr hik
      have hmul : (i.toUInt64 * bnGcd).toNat = i.toNat * bnGcd.toNat := by
        rw [UInt64.toNat_mul, UInt32.toNat_toUInt64, Nat.mod_eq_of_lt (by omega)]
      have hnext : (i + 1).toNat = i.toNat + 1 := by
        rw [UInt32.toNat_add]
        exact Nat.mod_eq_of_lt (by change i.toNat + 1 < _; omega)
      have hmult : ∀ e ≤ count, bnGcd.toNat ∣ ∑ j ∈ range e, B j := fun e he =>
        dvd_sum fun j hj => hdvd j (Nat.lt_of_lt_of_le (mem_range.mp hj) he)
      rw [← hmul] at hlow hhigh hbefore
      obtain ⟨bnEnd₁, e, hstate, he, hend₁, hlow₁, hhigh₁⟩ :=
        nextDev_spec hB hsize hlt hd hend hlow hhigh hbefore
      rw [hmul] at hlow₁ hhigh₁
      have hpiece := succ_mul_le_of_lt (hmult (e + 1) he) hhigh₁
      rw [hstate] at hr
      refine ih he hend₁ ?_ ?_ ?_ ?_ hr
      · rw [hnext, Nat.succ_mul]
        exact hlow₁.trans (Nat.le_add_right _ _)
      · rw [hnext]
        exact hpiece
      · rw [hnext]
        exact hik
      · intro k hk
        rw [hnext] at hk
        obtain rfl | hne := eq_or_ne k i.toNat
        · exact ⟨e, Function.update_self .., he, hlow₁, hpiece⟩
        · rw [Function.update_of_ne hne]
          exact hdone k (by omega)
    · next hge =>
      obtain rfl := Option.some.inj hr
      have hle : mapSize.toNat ≤ i.toNat := by
        rw [UInt64.lt_iff_toNat_lt, UInt32.toNat_toUInt64] at hge
        exact Nat.not_lt.mp hge
      exact fun k hk => hdone k (Nat.lt_of_lt_of_le hk hle)

/-- The `uint` never passes the number of a map of `2 ^ 32` pieces. -/
theorem mapLoop_none {bnGcd mapSize : UInt64} (hbig : 2 ^ 32 ≤ mapSize.toNat) (fuel : ℕ) (i : UInt32)
    (bnEnd : UInt64) (d : ℕ) (map : ℕ → ℕ) :
    mapLoop md bnGcd mapSize fuel i bnEnd d map = none := by
  induction fuel generalizing i bnEnd d map with
  | zero => rfl
  | succ fuel ih =>
    have hlt : i.toUInt64 < mapSize := by
      rw [UInt64.lt_iff_toNat_lt, UInt32.toNat_toUInt64]
      exact Nat.lt_of_lt_of_le i.toNat_lt hbig
    unfold mapLoop
    rw [if_pos hlt]
    exact ih ..

/-! ## Two tiers -/

/-- The block lies in the device. -/
def MdDevInfo.Contains (mdi : MdDevInfo) (bn : ℕ) : Prop :=
  mdi.offset.toNat ≤ bn * 4096 ∧ bn * 4096 < mdi.offset.toNat + mdi.size.toNat

/-- The devices of a tier are one after the other, and the map leads from each block to its
device. -/
structure TierRight (md : MultiDevices) (start count : ℕ) (B : ℕ → ℕ) (larray : MdDevLarray) :
    Prop where
  size : ∀ k < count, (md.devs.getD (start + k) {}).size.toNat = 4096 * B k
  offset : ∀ k < count, (md.devs.getD (start + k) {}).offset.toNat =
    ∑ j ∈ range k, (md.devs.getD (start + j) {}).size.toNat
  dvd : ∀ k < count, larray.bnGcd.toNat ∣ B k
  entries : larray.entries = (∑ j ∈ range count, B j) / larray.bnGcd.toNat
  map : ∀ bn < ∑ j ∈ range count, B j, ∃ k < count,
    larray.map (bn / larray.bnGcd.toNat) = start + k ∧
    (md.devs.getD (start + k) {}).Contains bn ∧
    ∀ k' < count, (md.devs.getD (start + k') {}).Contains bn → k' = k
  /-- no other device is used -/
  within : ∀ k < larray.entries, start ≤ larray.map k ∧ larray.map k < start + count

theorem tierRight_empty : TierRight md start 0 B {} where
  size _ hk := absurd hk (Nat.not_lt_zero _)
  offset _ hk := absurd hk (Nat.not_lt_zero _)
  dvd _ hk := absurd hk (Nat.not_lt_zero _)
  entries := (Nat.zero_div _).symm
  map _ hbn := absurd hbn (Nat.not_lt_zero _)
  within _ hk := absurd hk (Nat.not_lt_zero _)

/-- A block lies in the device whose range of blocks it is in. -/
theorem IsTier.contains_iff (h : IsTier md start count B) {k : ℕ} (hk : k < count) {bn : ℕ} :
    (md.devs.getD (start + k) {}).Contains bn ↔
      ∑ j ∈ range k, B j ≤ bn ∧ bn < ∑ j ∈ range (k + 1), B j := by
  rw [MdDevInfo.Contains, h.offset k hk, h.size k hk, sum_range_succ]
  omega

/-- **`_map_setup` is right** once it returns. -/
theorem mapSetup_right {blocks bnGcd : UInt64} {calloc : Bool} {fuel : ℕ} {larray : MdDevLarray}
    (h : IsTier md start count B) (hcount : 0 < count) (hB : ∀ k < count, 0 < B k)
    (hdvd : ∀ k < count, bnGcd.toNat ∣ B k) (hblocks : blocks.toNat = ∑ j ∈ range count, B j)
    (hr : mapSetup md blocks start bnGcd calloc fuel = some (.ok larray)) :
    TierRight md start count B larray := by
  unfold mapSetup at hr
  simp only at hr
  split at hr
  · cases hr
  split at hr
  · cases hr
  next map hloop =>
  obtain rfl := Except.ok.inj (Option.some.inj hr)
  have hsize : ∀ k < count, (o2p (md.devs.getD (start + k) {}).size).toNat = B k :=
    fun k hk => toNat_o2p (h.size k hk)
  have htotal : bnGcd.toNat ∣ ∑ j ∈ range count, B j :=
    dvd_sum fun j hj => hdvd j (mem_range.mp hj)
  have hmapSize : (blocks / bnGcd).toNat = (∑ j ∈ range count, B j) / bnGcd.toNat := by
    rw [UInt64.toNat_div, hblocks]
  have hmap : (blocks / bnGcd).toNat * bnGcd.toNat = ∑ j ∈ range count, B j := by
    rw [hmapSize, Nat.div_mul_cancel htotal]
  have hsmall : (blocks / bnGcd).toNat < 2 ^ 32 := by
    by_contra hbig
    rw [mapLoop_none (Nat.not_lt.mp hbig)] at hloop
    cases hloop
  have hpieces : ∀ k < (blocks / bnGcd).toNat, ∃ e, map k = start + e ∧
      PieceIn B count bnGcd.toNat k e := by
    refine mapLoop_spec hB hsize hdvd hmap (hblocks ▸ blocks.toNat_lt) hsmall hcount ?_ ?_ ?_ ?_ ?_
      hloop
    · rw [sum_range_one]
      exact hsize 0 hcount
    · exact Nat.zero_le _
    · exact (Nat.zero_mul _).trans_le (Nat.zero_le _)
    · exact Nat.zero_le _
    · exact fun k hk => absurd hk (Nat.not_lt_zero k)
  refine ⟨h.size, fun k hk => ?_, hdvd, hmapSize, fun bn hbn => ?_, fun k hk => ?_⟩
  · rw [h.offset k hk, mul_sum]
    exact sum_congr rfl fun j hj => (h.size j ((mem_range.mp hj).trans hk)).symm
  · have hG : 0 < bnGcd.toNat := by
      refine Nat.pos_of_ne_zero fun hzero => ?_
      rw [hzero, Nat.mul_zero] at hmap
      omega
    have hpiece : bn / bnGcd.toNat < (blocks / bnGcd).toNat := by
      rw [Nat.div_lt_iff_lt_mul hG, hmap]
      exact hbn
    obtain ⟨e, he, hlt, hlow, hhigh⟩ := hpieces _ hpiece
    have hbegin := Nat.div_mul_le_self bn bnGcd.toNat
    have hend := Nat.lt_mul_div_succ bn hG
    rw [Nat.mul_comm] at hend
    refine ⟨e, hlt, he, (h.contains_iff hlt).mpr ⟨hlow.trans hbegin, hend.trans_le hhigh⟩,
      fun k' hk' hin => ?_⟩
    -- the ranges of two devices are apart
    obtain ⟨hlow', hhigh'⟩ := (h.contains_iff hk').mp hin
    rcases Nat.lt_trichotomy k' e with hbelow | heq | habove
    · have hapart : ∑ j ∈ range (k' + 1), B j ≤ ∑ j ∈ range e, B j := sum_range_mono hbelow
      omega
    · exact heq
    · have hapart : ∑ j ∈ range (e + 1), B j ≤ ∑ j ∈ range k', B j := sum_range_mono habove
      omega
  · obtain ⟨e, he, hlt, -⟩ := hpieces k hk
    change start ≤ map k ∧ map k < start + count
    omega

end

/-- **The maps are right** when `md_init_from_pmem_info` returns, for devices whose sizes and
offsets fit in 64 bits. -/
theorem initMaps_right (devList : MdDevList) (t1Blocks t2Blocks : UInt64) (calloc₁ calloc₂ : Bool)
    (fuel : ℕ) (t1a t2a : MdDevLarray) (B₁ B₂ : ℕ → ℕ)
    (hB₁ : ∀ j, B₁ j = (api.devIdBlocks (devList.devIds j)).toNat)
    (hB₂ : ∀ j, B₂ j = (api.devIdBlocks (devList.devIds (devList.t1Count.toNat + j))).toNat)
    (hpos₁ : ∀ k < devList.t1Count.toNat, 0 < B₁ k) (hpos₂ : ∀ k < devList.t2Count.toNat, 0 < B₂ k)
    (hsum₁ : t1Blocks.toNat = ∑ j ∈ range devList.t1Count.toNat, B₁ j)
    (hsum₂ : t2Blocks.toNat = ∑ j ∈ range devList.t2Count.toNat, B₂ j)
    (hfits₁ : TierFits devList.t1Count.toNat B₁) (hfits₂ : TierFits devList.t2Count.toNat B₂)
    (hr : initMaps api devList t1Blocks t2Blocks calloc₁ calloc₂ fuel = some (.ok (t1a, t2a))) :
    TierRight (initFromPmemInfo api devList) 0 devList.t1Count.toNat B₁ t1a ∧
      TierRight (initFromPmemInfo api devList) devList.t1Count.toNat devList.t2Count.toNat B₂ t2a := by
  obtain ⟨htier₁, htier₂⟩ := isTier_initFromPmemInfo devList hB₁ hB₂ hfits₁ hfits₂
  set md := initFromPmemInfo api devList with hmd
  have hlen₁ := @length_initDevInfos api devList.devIds 0 0 devList.t1Count.toNat
  have hlen₂ := @length_initDevInfos api devList.devIds devList.t1Count.toNat 0 devList.t2Count.toNat
  have htake : md.devs.take devList.t1Count.toNat =
      initDevInfos api devList.devIds 0 0 devList.t1Count.toNat := List.take_left' hlen₁
  have hdrop : md.devs.drop devList.t1Count.toNat =
      initDevInfos api devList.devIds devList.t1Count.toNat 0 devList.t2Count.toNat :=
    List.drop_left' hlen₁
  have hdvd₁ := htier₁.bnGcd_dvd hlen₁ fun k hk => getD_t1 devList hk
  have hdvd₂ := htier₂.bnGcd_dvd hlen₂ fun k _ => getD_t2 devList k
  have hcount₁ : md.t1Count = devList.t1Count.toNat := rfl
  have hcount₂ : md.t2Count = devList.t2Count.toNat := rfl
  unfold initMaps at hr
  simp only [← hmd, hcount₁, hcount₂, htake, hdrop] at hr
  split at hr
  · cases hr
  · cases hr
  next t1a' ht₁ =>
  split at hr
  · cases hr
  · cases hr
  next t2a' ht₂ =>
  obtain ⟨rfl, rfl⟩ := Prod.mk.inj (Except.ok.inj (Option.some.inj hr))
  constructor
  · split at ht₁
    · next hzero =>
      obtain rfl := Except.ok.inj (Option.some.inj ht₁)
      rw [hzero]
      exact tierRight_empty
    · next hne => exact mapSetup_right htier₁ (Nat.pos_of_ne_zero hne) hpos₁ hdvd₁ hsum₁ ht₁
  · split at ht₂
    · next hzero =>
      obtain rfl := Except.ok.inj (Option.some.inj ht₂)
      rw [hzero]
      exact tierRight_empty
    · next hne => exact mapSetup_right htier₂ (Nat.pos_of_ne_zero hne) hpos₂ hdvd₂ hsum₂ ht₂

/-- Two T1 devices of 2 and 4 blocks, and a T2 device of 6. -/
theorem initMaps_right_three :
    let devList : MdDevList :=
      { t1Count := 2, t2Count := 1, devIds := fun i => { blocks := [2, 4, 6].getD i 0 } }
    let B : ℕ → ℕ := fun j => (Api.packed.devIdBlocks (devList.devIds j)).toNat
    ∃ t1a t2a, initMaps .packed devList 6 6 true true 4 = some (.ok (t1a, t2a)) ∧
      TierRight (initFromPmemInfo .packed devList) 0 2 B t1a ∧
      TierRight (initFromPmemInfo .packed devList) 2 1 (fun j => B (2 + j)) t2a := by
  intro devList B
  have hrun : ((initMaps .packed devList 6 6 true true 4).bind Except.toOption).isSome = true := by
    decide +kernel
  cases hr : initMaps .packed devList 6 6 true true 4 with
  | none =>
    rw [hr] at hrun
    cases hrun
  | some res =>
    cases res with
    | error errno =>
      rw [hr] at hrun
      cases hrun
    | ok maps =>
      exact ⟨maps.1, maps.2, rfl, initMaps_right .packed devList 6 6 true true 4 maps.1 maps.2 B
        (fun j => B (2 + j)) (fun _ => rfl) (fun _ => rfl) (by decide) (by decide) (by decide)
        (by decide) ⟨by decide, by decide⟩ ⟨by decide, by decide⟩ hr⟩

/-- A device of `3 * 2 ^ 51` blocks: its size is taken for a third of it, and the map goes on to a
device that is not there. -/
theorem initMaps_leaves_tier : ¬ ∀ (api : Api) (devList : MdDevList) (t1Blocks t2Blocks : UInt64)
    (calloc₁ calloc₂ : Bool) (fuel : ℕ) (t1a t2a : MdDevLarray) (B₁ B₂ : ℕ → ℕ),
    (∀ j, B₁ j = (api.devIdBlocks (devList.devIds j)).toNat) →
    (∀ j, B₂ j = (api.devIdBlocks (devList.devIds (devList.t1Count.toNat + j))).toNat) →
    (∀ k < devList.t1Count.toNat, 0 < B₁ k) → (∀ k < devList.t2Count.toNat, 0 < B₂ k) →
    t1Blocks.toNat = ∑ j ∈ range devList.t1Count.toNat, B₁ j →
    t2Blocks.toNat = ∑ j ∈ range devList.t2Count.toNat, B₂ j →
    initMaps api devList t1Blocks t2Blocks calloc₁ calloc₂ fuel = some (.ok (t1a, t2a)) →
    TierRight (initFromPmemInfo api devList) 0 devList.t1Count.toNat B₁ t1a ∧
      TierRight (initFromPmemInfo api devList) devList.t1Count.toNat devList.t2Count.toNat B₂ t2a := by
  intro hall
  let devList : MdDevList := { t1Count := 1, devIds := fun _ => { blocks := 3 * 2 ^ 51 } }
  have hrun : (((initMaps .packed devList (3 * 2 ^ 51) 0 true true 4).bind Except.toOption).any
      fun maps => maps.1.entries == 3 && maps.1.map 1 == 1) = true := by decide +kernel
  cases hr : initMaps .packed devList (3 * 2 ^ 51) 0 true true 4 with
  | none =>
    rw [hr] at hrun
    cases hrun
  | some res =>
    cases res with
    | error errno =>
      rw [hr] at hrun
      cases hrun
    | ok maps =>
      rw [hr] at hrun
      obtain ⟨hentries, hmap⟩ : maps.1.entries = 3 ∧ maps.1.map 1 = 1 := by
        simpa [Except.toOption] using hrun
      obtain ⟨hright, -⟩ := hall .packed devList (3 * 2 ^ 51) 0 true true 4 maps.1 maps.2
        (fun _ => 3 * 2 ^ 51) (fun _ => 3 * 2 ^ 51) (fun _ => rfl) (fun _ => rfl)
        (fun _ _ => by norm_num) (fun _ _ => by norm_num) (by decide) (by decide) hr
      have hwithin := (hright.within 1 (by rw [hentries]; decide)).2
      rw [hmap] at hwithin
      exact absurd hwithin (by decide)

end Zus.Md
