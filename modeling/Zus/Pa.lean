import Mathlib.Data.List.Nodup
import Mathlib.Data.List.Range
import Mathlib.Logic.Function.Basic
import Mathlib.Tactic.Ring

/-!
# The page allocator

`pa.c` hands out runs of `2^order` pages from a pool that grows by
`PA_PAGES_AT_A_TIME` pages up to `PA_SIZE` bytes. The free pages are on a list; a
page is free for the purposes of a run when its reference count is zero. Pages
are named by their block number, the index into `pa->pages`, and the list
`pa->head` is a list of block numbers, first entry first.

The page descriptors live in a fresh zero-filled mapping, so a page that the pool
has not grown over yet has a reference count of zero.
-/

namespace Zus

/-- `struct pa`, with the reference counts of the page descriptors. -/
structure Pa where
  /-- the free list `pa->head` -/
  head : List ℕ
  /-- `page->refcount` of every page -/
  refcount : ℕ → ℕ
  /-- `pa->size`: the number of pages the pool has grown to -/
  size : ℕ

namespace Pa

/-- `PAGE_SIZE`. -/
def pageSize : ℕ := 4096

/-- `PA_MAX_ORDER`. -/
def paMaxOrder : ℕ := 5

/-- `PA_PAGES_AT_A_TIME`: two megabytes worth of page descriptors of 64 bytes. -/
@[irreducible] def paPagesAtATime : ℕ := (1 <<< 21) / 64

theorem paPagesAtATime_eq : paPagesAtATime = 32768 := by
  simp [paPagesAtATime]

/-- `pa_init`: an empty pool. -/
def paInit : Pa := ⟨[], fun _ => 0, 0⟩

/-- The check of `_init_page_of_pages`: growing would pass `PA_SIZE`, the call fails. -/
def paFull (paSize : ℕ) (pa : Pa) : Prop :=
  paSize < (pa.size + paPagesAtATime) * pageSize

instance (paSize : ℕ) (pa : Pa) : Decidable (paFull paSize pa) :=
  inferInstanceAs (Decidable (_ < _))

/-- The loop of `_init_page_of_pages`: every new page goes to the tail of the list. -/
def initPageOfPages (pa : Pa) : Pa :=
  { pa with
    head := pa.head ++ List.range' pa.size paPagesAtATime
    size := pa.size + paPagesAtATime }

/-- `_alloc_one_page`: off the list, reference count one. -/
def allocOnePage (pa : Pa) (bn : ℕ) : Pa :=
  { pa with head := pa.head.erase bn, refcount := Function.update pa.refcount bn 1 }

/-- `_pa_is_free`. -/
def paIsFree (pa : Pa) (bn : ℕ) : Bool := pa.refcount bn == 0

/-- The test of the scan on a page of the free list: its block number is a multiple
of the run length, the run does not pass the end of the pool, and the pages after
the first are free by their reference counts. -/
def fits (pa : Pa) (npages bn : ℕ) : Bool :=
  bn % npages == 0 && decide (¬ bn + npages - 1 > pa.size) &&
    (List.range' 1 (npages - 1)).all fun i => paIsFree pa (bn + i)

/-- `_alloc_one_page` on the first `n` pages of the run at `bn`. -/
def allocRun (pa : Pa) (bn : ℕ) : ℕ → Pa
  | 0 => pa
  | n + 1 => allocOnePage (allocRun pa bn n) (bn + n)

/-- The `rescan` loop of `pa_alloc_order`: take the first run that fits, else grow
and scan again. Returns the first page of the run. -/
def rescan (paSize npages : ℕ) (pa : Pa) : Option ℕ × Pa :=
  match pa.head.find? (fits pa npages) with
  | some bn => (some bn, allocRun pa bn npages)
  | none =>
    if paFull paSize pa then (none, pa)
    else rescan paSize npages (initPageOfPages pa)
termination_by paSize - pa.size
decreasing_by
  next h =>
  simp only [paFull, initPageOfPages, pageSize, paPagesAtATime_eq] at h ⊢
  omega

/-- The part of `pa_alloc_order` under `pa->lock`. -/
def paAllocOrderLocked (paSize order : ℕ) (pa : Pa) : Option ℕ × Pa :=
  if pa.head.isEmpty then
    if paFull paSize pa then (none, pa)
    else rescan paSize (2 ^ order) (initPageOfPages pa)
  else rescan paSize (2 ^ order) pa

/-- `pa_alloc_order`. `mlockFails` says that `mlock` was needed and returned an
error: the pages then go back on the list, last page first, and nothing is
returned. -/
def paAllocOrder (paSize order : ℕ) (mlockFails : Bool) (pa : Pa) : Option ℕ × Pa :=
  if paMaxOrder < order then (none, pa)
  else
    match paAllocOrderLocked paSize order pa with
    | (none, pa') => (none, pa')
    | (some bn, pa') =>
      if mlockFails then
        (none, { pa' with head := (List.range' bn (2 ^ order)).reverse ++ pa'.head })
      else (some bn, pa')

/-- `pa_get_page`: one more reference, unless the count is zero. -/
def paGetPage (pa : Pa) (bn : ℕ) : Pa :=
  if pa.refcount bn = 0 then pa
  else { pa with refcount := Function.update pa.refcount bn (pa.refcount bn + 1) }

/-- The first half of `pa_put_page`: the atomic decrement, and whether it took the
last reference. -/
def paPutPageDec (pa : Pa) (bn : ℕ) : Bool × Pa :=
  (pa.refcount bn == 1, { pa with refcount := Function.update pa.refcount bn (pa.refcount bn - 1) })

/-- `__pa_free`, the second half of `pa_put_page`: the page goes to the head of the
free list. -/
def paFree (pa : Pa) (bn : ℕ) : Pa := { pa with head := bn :: pa.head }

/-! ## What an allocation does

An allocation grows the pool some number of times and then either fails or takes a
run that fits off the list. -/

/-- The pool after `k` growths. -/
def grow (pa : Pa) (k : ℕ) : Pa :=
  { pa with
    head := pa.head ++ List.range' pa.size (k * paPagesAtATime)
    size := pa.size + k * paPagesAtATime }

@[simp] theorem grow_zero (pa : Pa) : grow pa 0 = pa := by
  simp [grow]

theorem grow_initPageOfPages (pa : Pa) (k : ℕ) :
    grow (initPageOfPages pa) k = grow pa (k + 1) := by
  have hlen : (k + 1) * paPagesAtATime = paPagesAtATime + k * paPagesAtATime := by ring
  simp only [grow, initPageOfPages, hlen, List.append_assoc, List.range'_append_1, Nat.add_assoc]

/-- The outcome of an allocation: a failure, or the run at `bn`. -/
def AllocOutcome (npages : ℕ) (pa : Pa) (r : Option ℕ × Pa) : Prop :=
  ∃ k, r = (none, grow pa k) ∨
    ∃ bn ∈ (grow pa k).head, fits (grow pa k) npages bn = true ∧
      r = (some bn, allocRun (grow pa k) bn npages)

theorem AllocOutcome.of_initPageOfPages {npages : ℕ} {pa : Pa} {r : Option ℕ × Pa}
    (h : AllocOutcome npages (initPageOfPages pa) r) : AllocOutcome npages pa r := by
  obtain ⟨k, h⟩ := h
  rw [grow_initPageOfPages] at h
  exact ⟨k + 1, h⟩

theorem rescan_outcome (paSize npages : ℕ) (pa : Pa) :
    AllocOutcome npages pa (rescan paSize npages pa) := by
  induction pa using rescan.induct paSize npages with
  | case1 pa bn hf =>
    rw [rescan, hf]
    refine ⟨0, .inr ⟨bn, ?_, ?_, ?_⟩⟩ <;> rw [grow_zero]
    · exact List.mem_of_find?_eq_some hf
    · exact List.find?_some hf
  | case2 pa hf hfull =>
    rw [rescan, hf]
    refine ⟨0, .inl ?_⟩
    rw [grow_zero]
    exact if_pos hfull
  | case3 pa hf hfull ih =>
    have hr : rescan paSize npages pa = rescan paSize npages (initPageOfPages pa) := by
      rw [rescan, hf]
      exact if_neg hfull
    rw [hr]
    exact ih.of_initPageOfPages

/-- **The outcome of `pa_alloc_order`** when `mlock` is not needed. -/
theorem paAllocOrder_outcome (paSize order : ℕ) (pa : Pa) :
    AllocOutcome (2 ^ order) pa (paAllocOrder paSize order false pa) := by
  have hnone : AllocOutcome (2 ^ order) pa (none, pa) := ⟨0, .inl (by rw [grow_zero])⟩
  have hlocked : AllocOutcome (2 ^ order) pa (paAllocOrderLocked paSize order pa) := by
    unfold paAllocOrderLocked
    split_ifs
    · exact hnone
    · exact (rescan_outcome paSize (2 ^ order) _).of_initPageOfPages
    · exact rescan_outcome paSize (2 ^ order) pa
  unfold paAllocOrder
  split
  · exact hnone
  · rcases hr : paAllocOrderLocked paSize order pa with ⟨_ | bn, pa'⟩ <;> rw [hr] at hlocked <;>
      exact hlocked

/-- A run that fits is taken without growing the pool, the first one on the list. -/
theorem paAllocOrder_of_find {paSize order bn : ℕ} {pa : Pa} (ho : order ≤ paMaxOrder)
    (hf : pa.head.find? (fits pa (2 ^ order)) = some bn) :
    paAllocOrder paSize order false pa = (some bn, allocRun pa bn (2 ^ order)) := by
  have hhead : pa.head.isEmpty = false := by
    rcases hl : pa.head with _ | ⟨b, l⟩
    · rw [hl] at hf
      cases hf
    · rfl
  have hlocked : paAllocOrderLocked paSize order pa = (some bn, allocRun pa bn (2 ^ order)) := by
    rw [paAllocOrderLocked, hhead, if_neg Bool.false_ne_true, rescan, hf]
  rw [paAllocOrder, if_neg (by omega), hlocked]
  rfl

/-! ## Taking a run off the list -/

@[simp] theorem allocRun_size (pa : Pa) (bn n : ℕ) : (allocRun pa bn n).size = pa.size := by
  induction n with
  | zero => rfl
  | succ n ih => exact ih

theorem allocRun_refcount (pa : Pa) (bn n p : ℕ) :
    (allocRun pa bn n).refcount p = if bn ≤ p ∧ p < bn + n then 1 else pa.refcount p := by
  induction n with
  | zero =>
    have : ¬ (bn ≤ p ∧ p < bn + 0) := by omega
    rw [if_neg this]
    rfl
  | succ n ih =>
    simp only [allocRun, allocOnePage, Function.update_apply, ih]
    split_ifs <;> first | rfl | omega

theorem allocRun_nodup {pa : Pa} (bn n : ℕ) (h : pa.head.Nodup) :
    (allocRun pa bn n).head.Nodup := by
  induction n with
  | zero => exact h
  | succ n ih => exact ih.erase _

theorem mem_allocRun {pa : Pa} {bn n p : ℕ} (h : pa.head.Nodup) :
    p ∈ (allocRun pa bn n).head ↔ p ∈ pa.head ∧ ¬ (bn ≤ p ∧ p < bn + n) := by
  induction n with
  | zero =>
    simp [allocRun]
  | succ n ih =>
    simp only [allocRun, allocOnePage, (allocRun_nodup bn n h).mem_erase_iff, ih]
    constructor
    · rintro ⟨hne, hp, hn⟩
      exact ⟨hp, by omega⟩
    · rintro ⟨hp, hn⟩
      exact ⟨by omega, hp, by omega⟩

/-- The pages of a run that fits, past the first, have a reference count of zero. -/
theorem fits_refcount {pa : Pa} {npages bn i : ℕ} (h : fits pa npages bn = true) (hi : 0 < i)
    (hn : i < npages) : pa.refcount (bn + i) = 0 := by
  simp only [fits, Bool.and_eq_true, List.all_eq_true] at h
  have := h.2 i (by rw [List.mem_range'_1]; omega)
  simpa [paIsFree] using this

/-- A run that fits starts at a multiple of its length and does not pass the end. -/
theorem fits_bounds {pa : Pa} {npages bn : ℕ} (h : fits pa npages bn = true) :
    bn % npages = 0 ∧ bn + npages - 1 ≤ pa.size := by
  simp only [fits, Bool.and_eq_true, beq_iff_eq, decide_eq_true_eq] at h
  omega

end Pa

end Zus
