import Mathlib.Algebra.Order.Ring.Nat
import Mathlib.Algebra.Ring.Divisibility.Basic
import Zus.Lib.Lts
import Zus.Pa

/-!
# The free list and the reference counts

Whether a page is free is recorded twice, by the free list and by the reference count. A
multi-page allocation takes the first page of a run from the list and judges the others by their
counts; this is right as long as the two agree.

They agree after every call but one: when `mlock` fails the pages go back on the list, and their
counts stay one. A count is an `int`; the runs are those in which none passes its largest value.
-/

namespace Zus.Pa

open Zus.Lib

variable {pa pa' : Pa} {paSize order npages bn p : ℕ}

/-- The free list holds, once each, the pages of the pool without a reference. -/
structure FreeExact (pa : Pa) : Prop where
  nodup : pa.head.Nodup
  mem : ∀ p, p ∈ pa.head ↔ p < pa.size ∧ pa.refcount p = 0

/-- A pool as the calls leave it: it has grown by whole steps, and the descriptors after its end
are the zeros of the mapping. -/
structure PaOk (pa : Pa) : Prop extends FreeExact pa where
  size : paPagesAtATime ∣ pa.size
  fresh : ∀ p, pa.size ≤ p → pa.refcount p = 0

/-- An aligned run of free pages. -/
def FreeRun (pa : Pa) (npages bn : ℕ) : Prop :=
  npages ∣ bn ∧ ∀ i < npages, bn + i < pa.size ∧ pa.refcount (bn + i) = 0

theorem paOk_paInit : PaOk paInit where
  nodup := List.nodup_nil
  mem p := iff_of_false List.not_mem_nil fun h => Nat.not_lt_zero p h.1
  size := dvd_zero _
  fresh _ _ := rfl

/-! ## Growth -/

theorem mem_grow {k : ℕ} : p ∈ (grow pa k).head ↔
    p ∈ pa.head ∨ (pa.size ≤ p ∧ p < (grow pa k).size) := by
  simp [grow, List.mem_range'_1]

theorem size_le_grow (k : ℕ) : pa.size ≤ (grow pa k).size := by
  simp [grow]

theorem PaOk.grow (h : PaOk pa) (k : ℕ) : PaOk (grow pa k) := by
  refine ⟨⟨?_, fun p => ?_⟩, ?_, fun p hp => h.fresh p ((size_le_grow k).trans hp)⟩
  · refine List.Nodup.append h.nodup List.nodup_range' fun p hp hp' => ?_
    have hlt := ((h.mem p).mp hp).1
    rw [List.mem_range'_1] at hp'
    omega
  · have hle := @size_le_grow pa k
    rw [mem_grow, h.mem]
    constructor
    · rintro (⟨hlt, hr⟩ | ⟨hge, hlt⟩)
      · exact ⟨Nat.lt_of_lt_of_le hlt hle, hr⟩
      · exact ⟨hlt, h.fresh p hge⟩
    · rintro ⟨hlt, hr⟩
      rcases Nat.lt_or_ge p pa.size with hold | hnew
      · exact .inl ⟨hold, hr⟩
      · exact .inr ⟨hnew, hlt⟩
  · exact dvd_add h.size (dvd_mul_left _ _)

/-! ## The scan -/

theorem pow_dvd_paPagesAtATime (ho : order ≤ paMaxOrder) : 2 ^ order ∣ paPagesAtATime := by
  rw [paPagesAtATime_eq]
  exact pow_dvd_pow 2 (ho.trans (by decide : paMaxOrder ≤ 15))

/-- A multiple below another one is below it by a whole step. -/
theorem add_le_of_dvd {a b c : ℕ} (hb : a ∣ b) (hc : a ∣ c) (h : b < c) : b + a ≤ c := by
  have hle := Nat.le_of_dvd (Nat.sub_pos_of_lt h) (Nat.dvd_sub hc hb)
  omega

/-- **The scan finds just the free runs**: the test of the end of the pool suffices because the
pool grows by whole steps. -/
theorem PaOk.fits_iff (h : PaOk pa) (ho : order ≤ paMaxOrder) :
    (bn ∈ pa.head ∧ fits pa (2 ^ order) bn = true) ↔ FreeRun pa (2 ^ order) bn := by
  have hpos : 0 < 2 ^ order := Nat.two_pow_pos order
  constructor
  · rintro ⟨hmem, hfits⟩
    obtain ⟨hlt, hr⟩ := (h.mem bn).mp hmem
    have hdvd := Nat.dvd_of_mod_eq_zero (fits_bounds hfits).1
    have hend := add_le_of_dvd hdvd ((pow_dvd_paPagesAtATime ho).trans h.size) hlt
    refine ⟨hdvd, fun i hi => ⟨by omega, ?_⟩⟩
    rcases Nat.eq_zero_or_pos i with rfl | hipos
    · exact hr
    · exact fits_refcount hfits hipos hi
  · rintro ⟨hdvd, hall⟩
    refine ⟨(h.mem bn).mpr (hall 0 hpos), ?_⟩
    have hlast := (hall (2 ^ order - 1) (by omega)).1
    simp only [fits, Bool.and_eq_true, List.all_eq_true, beq_iff_eq, decide_eq_true_eq]
    refine ⟨⟨Nat.mod_eq_zero_of_dvd hdvd, by omega⟩, fun i hi => ?_⟩
    rw [List.mem_range'_1] at hi
    exact beq_iff_eq.mpr (hall i (by omega)).2

/-! ## The allocation -/

/-- A call comes back empty-handed only from a full pool whose list it has walked in vain. -/
theorem rescan_none {paSize npages : ℕ} {pa pa' : Pa} (h : rescan paSize npages pa = (none, pa')) :
    paFull paSize pa' ∧ pa'.head.find? (fits pa' npages) = none := by
  induction pa using rescan.induct paSize npages with
  | case1 pa bn hf =>
    rw [rescan, hf] at h
    cases h
  | case2 pa hf hfull =>
    rw [rescan, hf] at h
    simp only [if_pos hfull] at h
    cases h
    exact ⟨hfull, hf⟩
  | case3 pa hf hfull ih =>
    rw [rescan, hf] at h
    simp only [if_neg hfull] at h
    exact ih h

theorem PaOk.not_freeRun_of_find? (h : PaOk pa) (ho : order ≤ paMaxOrder)
    (hf : pa.head.find? (fits pa (2 ^ order)) = none) : ¬ FreeRun pa (2 ^ order) bn := by
  intro hrun
  obtain ⟨hmem, hfits⟩ := (h.fits_iff ho).mpr hrun
  exact List.find?_eq_none.mp hf bn hmem hfits

/-- A step of growth is itself a run for every order. -/
theorem PaOk.freeRun_grow (h : PaOk pa) (ho : order ≤ paMaxOrder) {k : ℕ} (hk : k ≠ 0) :
    FreeRun (Pa.grow pa k) (2 ^ order) pa.size := by
  have hdvd := pow_dvd_paPagesAtATime ho
  have hle : 2 ^ order ≤ k * paPagesAtATime :=
    Nat.le_of_dvd (Nat.mul_pos (Nat.pos_of_ne_zero hk) (by simp [paPagesAtATime_eq]))
      (hdvd.mul_left k)
  refine ⟨hdvd.trans h.size, fun i hi => ⟨?_, h.fresh _ (Nat.le_add_right _ _)⟩⟩
  simp only [Pa.grow]
  omega

/-- **A failing call leaves the pool as it is**: after a growth it would not have failed. -/
theorem PaOk.paAllocOrder_none (h : PaOk pa) (ho : order ≤ paMaxOrder)
    (hr : paAllocOrder paSize order false pa = (none, pa')) :
    pa' = pa ∧ paFull paSize pa ∧ ∀ bn, ¬ FreeRun pa (2 ^ order) bn := by
  have hlocked : paAllocOrderLocked paSize order pa = (none, pa') := by
    rw [paAllocOrder, if_neg (Nat.not_lt.mpr ho)] at hr
    rcases hl : paAllocOrderLocked paSize order pa with ⟨_ | bn, pa₁⟩
    · rw [hl] at hr
      exact hr
    · rw [hl] at hr
      cases hr
  rw [paAllocOrderLocked] at hlocked
  split_ifs at hlocked with hempty hfull
  · obtain rfl : pa = pa' := congrArg Prod.snd hlocked
    refine ⟨rfl, hfull, fun bn hrun => ?_⟩
    have hmem := ((h.fits_iff ho).mpr hrun).1
    rw [List.isEmpty_iff.mp hempty] at hmem
    cases hmem
  all_goals
    obtain ⟨hfull', hf⟩ := rescan_none hlocked
    obtain ⟨k, hk | ⟨bn, -, -, hk⟩⟩ := paAllocOrder_outcome paSize order pa
    · rw [hr] at hk
      obtain rfl : pa' = Pa.grow pa k := congrArg Prod.snd hk
      by_cases hk0 : k = 0
      · rw [hk0, grow_zero] at hfull' hf
        refine ⟨by rw [hk0, grow_zero], hfull', fun bn => h.not_freeRun_of_find? ho hf⟩
      · exact absurd (h.freeRun_grow ho hk0) ((h.grow k).not_freeRun_of_find? ho hf)
    · rw [hr] at hk
      cases hk

/-- **A call that returns takes a free run**, from the list or from what the pool grew by, and
touches nothing else. -/
theorem PaOk.paAllocOrder_some (h : PaOk pa) (ho : order ≤ paMaxOrder)
    (hr : paAllocOrder paSize order false pa = (some bn, pa')) :
    ∃ k, FreeRun (Pa.grow pa k) (2 ^ order) bn ∧ pa' = allocRun (Pa.grow pa k) bn (2 ^ order) := by
  obtain ⟨k, hk | ⟨bn', hmem, hfits, hk⟩⟩ := paAllocOrder_outcome paSize order pa
  · rw [hr] at hk
    cases hk
  · rw [hr] at hk
    cases hk
    exact ⟨k, ((h.grow k).fits_iff ho).mp ⟨hmem, hfits⟩, rfl⟩

/-- What an allocation of `npages` pages at `bn` does to the pool: it may grow; the pages of the
run were free, get a count of one and leave the list; every other page keeps its count and its
place on or off the list. -/
structure Takes (pa : Pa) (npages bn : ℕ) (pa' : Pa) : Prop where
  aligned : npages ∣ bn
  grown : pa.size ≤ pa'.size
  run : ∀ p, bn ≤ p → p < bn + npages →
    p < pa'.size ∧ pa.refcount p = 0 ∧ pa'.refcount p = 1
  others : ∀ p, ¬ (bn ≤ p ∧ p < bn + npages) → pa'.refcount p = pa.refcount p
  head : ∀ p, p ∈ pa'.head ↔
    (p ∈ pa.head ∨ (pa.size ≤ p ∧ p < pa'.size)) ∧ ¬ (bn ≤ p ∧ p < bn + npages)

theorem PaOk.takes (h : PaOk pa) {k : ℕ} (hrun : FreeRun (Pa.grow pa k) npages bn) :
    Takes pa npages bn (allocRun (Pa.grow pa k) bn npages) where
  aligned := hrun.1
  grown := by
    rw [allocRun_size]
    exact size_le_grow k
  run p hle hlt := by
    obtain ⟨hsize, hr⟩ := hrun.2 (p - bn) (by omega)
    rw [Nat.add_sub_cancel' hle] at hsize hr
    rw [allocRun_size, allocRun_refcount, if_pos ⟨hle, hlt⟩]
    exact ⟨hsize, hr, rfl⟩
  others p hp := by
    rw [allocRun_refcount, if_neg hp]
    rfl
  head p := by
    rw [mem_allocRun (h.grow k).nodup, mem_grow, allocRun_size]

/-- The pool after a run is taken is again in order. -/
theorem PaOk.allocRun (h : PaOk pa) (hrun : FreeRun pa npages bn) :
    PaOk (allocRun pa bn npages) where
  nodup := allocRun_nodup bn npages h.nodup
  mem p := by
    rw [mem_allocRun h.nodup, h.mem, allocRun_size, allocRun_refcount]
    by_cases hp : bn ≤ p ∧ p < bn + npages
    · simp [hp]
    · simp [hp]
  size := by
    rw [allocRun_size]
    exact h.size
  fresh p hp := by
    rw [allocRun_size] at hp
    rw [allocRun_refcount, if_neg, h.fresh p hp]
    rintro ⟨hle, hlt⟩
    have hin := (hrun.2 (p - bn) (by omega)).1
    omega

/-- **An allocation is sound and complete.** It fails only on a full pool without a free run of
the order, which it leaves as it is; else it takes a free aligned run and nothing more. -/
theorem paAllocOrder_correct (paSize : ℕ) (h : PaOk pa) (ho : order ≤ paMaxOrder) :
    (∃ bn pa', paAllocOrder paSize order false pa = (some bn, pa') ∧
        Takes pa (2 ^ order) bn pa' ∧ PaOk pa') ∨
      (paAllocOrder paSize order false pa = (none, pa) ∧ paFull paSize pa ∧
        ∀ bn, ¬ FreeRun pa (2 ^ order) bn) := by
  rcases hr : paAllocOrder paSize order false pa with ⟨_ | bn, pa'⟩
  · obtain ⟨rfl, hfull, hno⟩ := h.paAllocOrder_none ho hr
    exact .inr ⟨rfl, hfull, hno⟩
  · obtain ⟨k, hrun, rfl⟩ := h.paAllocOrder_some ho hr
    exact .inl ⟨bn, _, rfl, h.takes hrun, (h.grow k).allocRun hrun⟩

theorem paAllocOrder_correct_grown :
    (∃ bn pa', paAllocOrder (1 <<< 30) 3 false (grow paInit 1) = (some bn, pa') ∧
        Takes (grow paInit 1) (2 ^ 3) bn pa' ∧ PaOk pa') ∨
      (paAllocOrder (1 <<< 30) 3 false (grow paInit 1) = (none, grow paInit 1) ∧
        paFull (1 <<< 30) (grow paInit 1) ∧ ∀ bn, ¬ FreeRun (grow paInit 1) (2 ^ 3) bn) :=
  paAllocOrder_correct (1 <<< 30) (paOk_paInit.grow 1) (by decide)

/-! ## Runs of complete calls -/

/-- The pool, and the references its users hold. -/
structure Users where
  pa : Pa
  /-- how many references to a page are held -/
  held : ℕ → ℕ

/-- A complete call of a user. -/
inductive Call where
  /-- `pa_alloc_order`; the flag says that `mlock` returns an error if it is called -/
  | alloc (order : ℕ) (mlockFails : Bool)
  /-- `pa_get_page` on a held page -/
  | get (bn : ℕ)
  /-- `pa_put_page` of a held page -/
  | put (bn : ℕ)

/-- `pa_put_page`. -/
def paPutPage (pa : Pa) (bn : ℕ) : Pa :=
  let r := paPutPageDec pa bn
  if r.1 then paFree r.2 bn else r.2

/-- One reference to every page of a returned run. -/
def hold (held : ℕ → ℕ) (npages : ℕ) : Option ℕ → ℕ → ℕ
  | none => held
  | some bn => fun p => if bn ≤ p ∧ p < bn + npages then held p + 1 else held p

/-- One call after the other. -/
def next (paSize : ℕ) (s : Users) : Call → Option Users
  | .alloc order mlockFails =>
    let r := paAllocOrder paSize order mlockFails s.pa
    some ⟨r.2, hold s.held (2 ^ order) r.1⟩
  | .get bn =>
    if 0 < s.held bn then
      some ⟨paGetPage s.pa bn, Function.update s.held bn (s.held bn + 1)⟩
    else none
  | .put bn =>
    if 0 < s.held bn then
      some ⟨paPutPage s.pa bn, Function.update s.held bn (s.held bn - 1)⟩
    else none

/-- Calls in sequence on a pool that starts empty. -/
def paCalls (paSize : ℕ) : Lts Users Call :=
  .ofNext (fun s => s = ⟨paInit, fun _ => 0⟩) (next paSize)

/-- No call gets as far as an `mlock` that fails: where `mlock` would fail, the pool is full and
has no run of the order. -/
def MlockOk (paSize : ℕ) (s : Users) : Call → Prop
  | .alloc order true =>
    order ≤ paMaxOrder → paFull paSize s.pa ∧ ∀ bn, ¬ FreeRun s.pa (2 ^ order) bn
  | _ => True

/-- The count of a page stays in the range of an `int`. -/
def CountFits (s : Users) : Call → Prop
  | .get bn => s.held bn + 1 < 2 ^ 31
  | _ => True

/-- The calls after which the list and the counts agree. -/
def CallOk (paSize : ℕ) (s : Users) (c : Call) : Prop := MlockOk paSize s c ∧ CountFits s c

/-- The invariant: the pool is in order and every count is the number of references held. -/
structure Counted (s : Users) : Prop where
  pa : PaOk s.pa
  held : ∀ p, s.pa.refcount p = s.held p

/-! ### The steps -/

theorem next_alloc (paSize : ℕ) (s : Users) (order : ℕ) (mlockFails : Bool) :
    next paSize s (.alloc order mlockFails) =
      some ⟨(paAllocOrder paSize order mlockFails s.pa).2,
        hold s.held (2 ^ order) (paAllocOrder paSize order mlockFails s.pa).1⟩ := rfl

theorem next_get {s : Users} (h : 0 < s.held bn) : next paSize s (.get bn) =
    some ⟨paGetPage s.pa bn, Function.update s.held bn (s.held bn + 1)⟩ := if_pos h

theorem next_put {s : Users} (h : 0 < s.held bn) : next paSize s (.put bn) =
    some ⟨paPutPage s.pa bn, Function.update s.held bn (s.held bn - 1)⟩ := if_pos h

theorem PaOk.lt_size (h : PaOk pa) (hp : 0 < pa.refcount p) : p < pa.size := by
  by_contra hge
  rw [h.fresh p (Nat.not_lt.mp hge)] at hp
  exact Nat.lt_irrefl 0 hp

theorem paGetPage_refcount (hp : 0 < pa.refcount p) :
    (paGetPage pa p).refcount = Function.update pa.refcount p (pa.refcount p + 1) := by
  rw [paGetPage, if_neg (Nat.ne_of_gt hp)]

theorem PaOk.paGetPage (h : PaOk pa) (hp : 0 < pa.refcount p) : PaOk (paGetPage pa p) := by
  have hlt := h.lt_size hp
  rw [Pa.paGetPage, if_neg (Nat.ne_of_gt hp)]
  refine ⟨⟨h.nodup, fun q => ?_⟩, h.size, fun q hq => ?_⟩
  · rw [h.mem]
    rcases eq_or_ne q p with rfl | hne
    · simp [Nat.ne_of_gt hp]
    · simp [Function.update_of_ne hne]
  · have hne : q ≠ p := by
      rintro rfl
      exact Nat.not_lt.mpr hq hlt
    exact (Function.update_of_ne hne _ _).trans (h.fresh q hq)

theorem PaOk.paPutPage (h : PaOk pa) (hp : 0 < pa.refcount p) : PaOk (paPutPage pa p) := by
  have hlt := h.lt_size hp
  have hoff : p ∉ pa.head := fun hmem => Nat.ne_of_gt hp ((h.mem p).mp hmem).2
  have hfresh : ∀ q, pa.size ≤ q →
      Function.update pa.refcount p (pa.refcount p - 1) q = 0 := by
    intro q hq
    rw [Function.update_of_ne (by rintro rfl; omega)]
    exact h.fresh q hq
  by_cases hone : pa.refcount p = 1
  · -- the last reference: the page goes to the head of the list
    simp only [Pa.paPutPage, paPutPageDec, hone, beq_self_eq_true, if_true]
    refine ⟨⟨List.nodup_cons.mpr ⟨hoff, h.nodup⟩, fun q => ?_⟩, h.size, fun q hq => ?_⟩
    · simp only [paFree, List.mem_cons, h.mem]
      rcases eq_or_ne q p with rfl | hne
      · simp [hlt]
      · simp [hne]
    · have := hfresh q hq
      rwa [hone] at this
  · have hne1 : (pa.refcount p == 1) = false := beq_false_of_ne hone
    simp only [Pa.paPutPage, paPutPageDec, hne1, Bool.false_eq_true, if_false]
    refine ⟨⟨h.nodup, fun q => ?_⟩, h.size, hfresh⟩
    rw [h.mem]
    rcases eq_or_ne q p with rfl | hne
    · have h0 : pa.refcount q ≠ 0 := Nat.ne_of_gt hp
      have h1 : pa.refcount q - 1 ≠ 0 := by omega
      simp [h0, h1]
    · simp [Function.update_of_ne hne]

@[simp] theorem paGetPage_size : (paGetPage pa bn).size = pa.size := by
  rw [paGetPage]
  split <;> rfl

@[simp] theorem paPutPage_size : (paPutPage pa bn).size = pa.size := by
  simp only [paPutPage]
  split <;> rfl

@[simp] theorem paPutPage_refcount :
    (paPutPage pa bn).refcount = Function.update pa.refcount bn (pa.refcount bn - 1) := by
  simp only [paPutPage]
  split <;> rfl

/-- Where nothing can be had, the answer of `mlock` is never asked for. -/
theorem PaOk.paAllocOrder_of_full (h : PaOk pa) (hfull : paFull paSize pa)
    (hno : ∀ bn, ¬ FreeRun pa (2 ^ order) bn) (ho : order ≤ paMaxOrder) (mlockFails : Bool) :
    paAllocOrder paSize order mlockFails pa = (none, pa) := by
  have hf : pa.head.find? (fits pa (2 ^ order)) = none := by
    apply List.find?_eq_none.mpr
    intro bn hmem hfits
    exact hno bn ((h.fits_iff ho).mp ⟨hmem, hfits⟩)
  have hrescan : rescan paSize (2 ^ order) pa = (none, pa) := by
    rw [rescan, hf]
    simp only [if_pos hfull]
  have hlocked : paAllocOrderLocked paSize order pa = (none, pa) := by
    rw [paAllocOrderLocked, if_pos hfull, hrescan, ite_self]
  rw [paAllocOrder, if_neg (Nat.not_lt.mpr ho), hlocked]

/-- **The roll-back of a failed `mlock` puts referenced pages on the list.** -/
theorem PaOk.not_freeExact_of_mlockFails (h : PaOk pa) (ho : order ≤ paMaxOrder)
    (hsome : ¬ (paFull paSize pa ∧ ∀ bn, ¬ FreeRun pa (2 ^ order) bn)) :
    ¬ FreeExact (paAllocOrder paSize order true pa).2 := by
  have hlocked : ∃ bn pa', paAllocOrderLocked paSize order pa = (some bn, pa') ∧
      pa'.refcount bn = 1 := by
    rcases hr : paAllocOrder paSize order false pa with ⟨_ | bn, pa'⟩
    · exact absurd (h.paAllocOrder_none ho hr).2 hsome
    · obtain ⟨k, hrun, rfl⟩ := h.paAllocOrder_some ho hr
      rw [paAllocOrder, if_neg (Nat.not_lt.mpr ho)] at hr
      refine ⟨bn, _, ?_, ((h.takes hrun).run bn le_rfl (by simp)).2.2⟩
      rcases hl : paAllocOrderLocked paSize order pa with ⟨_ | bn₁, pa₁⟩
      · rw [hl] at hr
        cases hr
      · rw [hl] at hr
        exact hr
  obtain ⟨bn, pa', hl, hone⟩ := hlocked
  rw [paAllocOrder, if_neg (Nat.not_lt.mpr ho), hl]
  intro hexact
  have hmem : bn ∈ (List.range' bn (2 ^ order)).reverse ++ pa'.head := by
    apply List.mem_append_left
    rw [List.mem_reverse, List.mem_range'_1]
    exact ⟨le_rfl, Nat.lt_add_of_pos_right (Nat.two_pow_pos order)⟩
  have hzero : pa'.refcount bn = 0 := ((hexact.mem bn).mp hmem).2
  rw [hone] at hzero
  cases hzero

theorem counted_start : Counted ⟨paInit, fun _ => 0⟩ := ⟨paOk_paInit, fun _ => rfl⟩

theorem Counted.alloc {s : Users} (h : Counted s) (order : ℕ) :
    Counted ⟨(paAllocOrder paSize order false s.pa).2,
      hold s.held (2 ^ order) (paAllocOrder paSize order false s.pa).1⟩ := by
  by_cases ho : order ≤ paMaxOrder
  · rcases hr : paAllocOrder paSize order false s.pa with ⟨_ | bn, pa'⟩
    · obtain ⟨rfl, -, -⟩ := h.pa.paAllocOrder_none ho hr
      exact h
    · obtain ⟨k, hrun, rfl⟩ := h.pa.paAllocOrder_some ho hr
      refine ⟨(h.pa.grow k).allocRun hrun, fun p => ?_⟩
      have htakes := h.pa.takes hrun
      simp only [hold]
      split_ifs with hp
      · obtain ⟨-, hzero, hone⟩ := htakes.run p hp.1 hp.2
        rw [hone, ← h.held, hzero]
      · rw [htakes.others p hp, h.held]
  · rw [paAllocOrder, if_pos (Nat.not_le.mp ho)]
    exact h

/-- **Every call that meets the guard keeps the invariant.** -/
theorem Counted.next {s s' : Users} {c : Call} (h : Counted s) (hok : MlockOk paSize s c)
    (hn : next paSize s c = some s') : Counted s' := by
  cases c with
  | alloc order mlockFails =>
    obtain rfl := Option.some.inj hn
    cases mlockFails with
    | false => exact h.alloc order
    | true =>
      by_cases ho : order ≤ paMaxOrder
      · obtain ⟨hfull, hno⟩ := hok ho
        rw [h.pa.paAllocOrder_of_full hfull hno ho]
        exact h
      · rw [paAllocOrder, if_pos (Nat.not_le.mp ho)]
        exact h
  | get bn =>
    simp only [Pa.next] at hn
    split_ifs at hn with hheld
    obtain rfl := Option.some.inj hn
    have hpos : 0 < s.pa.refcount bn := by rwa [h.held]
    refine ⟨h.pa.paGetPage hpos, fun p => ?_⟩
    simp only [paGetPage_refcount hpos, Function.update_apply, h.held]
  | put bn =>
    simp only [Pa.next] at hn
    split_ifs at hn with hheld
    obtain rfl := Option.some.inj hn
    have hpos : 0 < s.pa.refcount bn := by rwa [h.held]
    refine ⟨h.pa.paPutPage hpos, fun p => ?_⟩
    simp only [paPutPage_refcount, Function.update_apply, h.held]

theorem counted_of_reachable {s : Users}
    (h : ((paCalls paSize).restrict (CallOk paSize)).Reachable s) : Counted s := by
  refine Lts.Reachable.invariant (I := Counted) ?_ ?_ h
  · rintro _ rfl
    exact counted_start
  · rintro s c s' hs ⟨hok, hn⟩
    exact hs.next hok.1 hn

/-- **The free list and the counts agree just as long as no `mlock` fails.** In a run whose calls
meet the guard they agree in every state, and a call with a failing `mlock` that meets it leaves
the pool, and so the runs that can be had, as it was; the first call that does not meet it ends in
a state where they disagree. -/
theorem freeExact_of_mlockOk {s : Users}
    (h : ((paCalls paSize).restrict (CallOk paSize)).Reachable s) :
    FreeExact s.pa ∧ ∀ order,
      (MlockOk paSize s (.alloc order true) →
        paAllocOrder paSize order true s.pa = (none, s.pa)) ∧
      (¬ MlockOk paSize s (.alloc order true) →
        ¬ FreeExact (paAllocOrder paSize order true s.pa).2) := by
  have hc := counted_of_reachable h
  refine ⟨hc.pa.toFreeExact, fun order => ⟨fun hok => ?_, fun hbad => ?_⟩⟩
  · by_cases ho : order ≤ paMaxOrder
    · exact hc.pa.paAllocOrder_of_full (hok ho).1 (hok ho).2 ho true
    · rw [paAllocOrder, if_pos (Nat.not_le.mp ho)]
  · obtain ⟨ho, hsome⟩ := Classical.not_imp.mp hbad
    exact hc.pa.not_freeExact_of_mlockFails ho hsome

theorem not_paFull_paInit : ¬ paFull (1 <<< 30) paInit := by
  simp [paFull, paInit, paPagesAtATime_eq, pageSize]

/-- From a pool that cannot grow the pages can be taken one by one until none is left. -/
theorem exists_drained {s : Users} (h : ((paCalls paSize).restrict (CallOk paSize)).Reachable s)
    (hfull : paFull paSize s.pa) : ∃ s', ((paCalls paSize).restrict (CallOk paSize)).Reachable s' ∧
      paFull paSize s'.pa ∧ s'.pa.head = [] ∧ ∀ p, s.held p ≤ s'.held p := by
  induction hlen : s.pa.head.length generalizing s with
  | zero => exact ⟨s, h, hfull, List.length_eq_zero_iff.mp hlen, fun _ => le_rfl⟩
  | succ n ih =>
    have hc := counted_of_reachable h
    obtain ⟨p, hp⟩ := List.exists_mem_of_length_pos (by omega : 0 < s.pa.head.length)
    have hrun : FreeRun s.pa (2 ^ 0) p := by
      refine ⟨one_dvd p, fun i hi => ?_⟩
      obtain rfl : i = 0 := Nat.lt_one_iff.mp hi
      exact (hc.pa.mem p).mp hp
    obtain ⟨hmem, hfits⟩ := (hc.pa.fits_iff (Nat.zero_le _)).mpr hrun
    rcases hfind : s.pa.head.find? (fits s.pa (2 ^ 0)) with _ | bn
    · exact absurd hfits (List.find?_eq_none.mp hfind p hmem)
    have halloc : next paSize s (.alloc 0 false) =
        some ⟨allocRun s.pa bn (2 ^ 0), hold s.held (2 ^ 0) (some bn)⟩ := by
      rw [next_alloc, paAllocOrder_of_find (Nat.zero_le _) hfind]
    have hleft : (allocRun s.pa bn (2 ^ 0)).head.length = n := by
      have herase : (allocRun s.pa bn (2 ^ 0)).head = s.pa.head.erase bn := rfl
      rw [herase, List.length_erase_of_mem (List.mem_of_find?_eq_some hfind)]
      omega
    have hfull' : paFull paSize (allocRun s.pa bn (2 ^ 0)) := by
      rw [paFull, allocRun_size]
      exact hfull
    obtain ⟨s', hs', hfull', hempty, hheld⟩ := ih
      (h.step (a := Call.alloc 0 false) ⟨⟨trivial, trivial⟩, halloc⟩) hfull' hleft
    refine ⟨s', hs', hfull', hempty, fun q => le_trans ?_ (hheld q)⟩
    simp only [hold]
    split_ifs <;> omega

/-- A pool of one step of growth, after an allocation, a `pa_get_page` and a `pa_put_page` of its
first page, and with all other pages taken: a call whose `mlock` would fail leaves it as it is. -/
theorem freeExact_of_mlockOk_drained : ∃ s,
    ((paCalls (1 <<< 27)).restrict (CallOk (1 <<< 27))).Reachable s ∧ 1 ≤ s.held 0 ∧
      FreeExact s.pa ∧ paAllocOrder (1 <<< 27) 0 true s.pa = (none, s.pa) := by
  have h₀ : ((paCalls (1 <<< 27)).restrict (CallOk (1 <<< 27))).Reachable ⟨paInit, fun _ => 0⟩ :=
    .init rfl
  obtain ⟨s₁, hn₁, hp⟩ := (Option.any_eq_true (fun s : Users => s.held 0 == 1 &&
    decide (paFull (1 <<< 27) s.pa)) (next (1 <<< 27) ⟨paInit, fun _ => 0⟩ (.alloc 0 false))).mp
    (by decide +kernel)
  simp only [Bool.and_eq_true, beq_iff_eq, decide_eq_true_eq] at hp
  obtain ⟨hone, hfull⟩ := hp
  have h₁ := h₀.step (a := Call.alloc 0 false) ⟨⟨trivial, trivial⟩, hn₁⟩
  have h₂ := h₁.step (a := Call.get 0)
    ⟨⟨trivial, by simp [CountFits, hone]⟩, next_get (by omega)⟩
  have h₃ := h₂.step (a := Call.put 0) ⟨⟨trivial, trivial⟩, next_put (by simp)⟩
  have hfull₃ : paFull (1 <<< 27) (paPutPage (paGetPage s₁.pa 0) 0) := by
    rw [paFull, paPutPage_size, paGetPage_size]
    exact hfull
  obtain ⟨s, hs, hfull', hempty, hheld⟩ := exists_drained h₃ hfull₃
  obtain ⟨hexact, hfails⟩ := freeExact_of_mlockOk hs
  refine ⟨s, hs, ?_, hexact, (hfails 0).1 fun _ => ⟨hfull', fun bn hrun => ?_⟩⟩
  · have hle := hheld 0
    simp [hone] at hle
    exact hle
  · have hmem := (((counted_of_reachable hs).pa.fits_iff (Nat.zero_le _)).mpr hrun).1
    rw [hempty] at hmem
    cases hmem

/-- With room to grow, the allocation of a page whose `mlock` fails ends outside the property. -/
theorem Counted.exists_not_freeExact {s : Users} (h : Counted s)
    (hr : (paCalls paSize).Reachable s) (hroom : ¬ paFull paSize s.pa) :
    ∃ s', (paCalls paSize).Reachable s' ∧ ¬ FreeExact s'.pa :=
  ⟨_, hr.step (next_alloc paSize s 0 true),
    h.pa.not_freeExact_of_mlockFails (Nat.zero_le paMaxOrder) (not_and_of_not_left _ hroom)⟩

theorem freeExact_fails_after_mlock :
    ¬ ∀ s, (paCalls (1 <<< 30)).Reachable s → FreeExact s.pa := by
  intro hall
  obtain ⟨s, hs, hbad⟩ := counted_start.exists_not_freeExact (.init rfl) not_paFull_paInit
  exact hbad (hall s hs)

end Zus.Pa
