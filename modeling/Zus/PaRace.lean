import Zus.Lib.Lts
import Zus.Pa

/-!
# Page hand-out under interleaving

`pa_alloc_order` is one atomic step under `pa->lock`. `pa_put_page` is two: the
decrement of the reference count, and, when it took the last reference, the locked
insertion by `__pa_free`. Between the two the page has a reference count of zero
and is on no list.

A multi-page allocation judges the pages after the first by their reference counts
alone. If it runs inside that window it can take the page as a follower of a run;
the pending insertion then puts a page with a reference count of one on the free
list, and the next allocation hands it out again. The guard `NoPendingFollower` names
the window: the run that the scan stops at contains no page whose free is in flight. In
every run whose allocations meet it, the free list holds only pages with no reference,
and an allocation returns a page that is not completely freed exactly when it does not
meet it.
-/

namespace Zus.PaRace

open Zus.Lib Zus.Pa

/-- The page allocator with the threads that use it. -/
structure Threads where
  /-- the allocator -/
  pa : Pa
  /-- the page a thread is putting: decremented to zero, not yet on the list -/
  putting : ℕ → Option ℕ
  /-- pages returned by an allocation and not completely freed since -/
  out : ℕ → Bool

/-- The steps of the threads. -/
inductive Act
  /-- thread `t` runs `pa_alloc_order` -/
  | alloc (t order : ℕ)
  /-- thread `t` runs `pa_get_page` on a page -/
  | get (t bn : ℕ)
  /-- thread `t` decrements in `pa_put_page` -/
  | dec (t bn : ℕ)
  /-- thread `t` inserts in `__pa_free` -/
  | link (t : ℕ)

/-- Mark the pages of a returned run as handed out. -/
def handOut (out : ℕ → Bool) (npages : ℕ) : Option ℕ → ℕ → Bool
  | none => out
  | some bn => fun p => if bn ≤ p ∧ p < bn + npages then true else out p

/-- One atomic step of one thread. A thread in the middle of `pa_put_page` does
nothing else; a reference is put only while one is held, and a page has fewer references
than an `int` counts. -/
def next (paSize : ℕ) (s : Threads) : Act → Option Threads
  | .alloc t order =>
    if s.putting t = none ∧ order ≤ paMaxOrder then
      let r := paAllocOrder paSize order false s.pa
      some { s with pa := r.2, out := handOut s.out (2 ^ order) r.1 }
    else none
  | .get t bn =>
    if s.putting t = none ∧ s.pa.refcount bn + 1 < 2 ^ 31 then
      some { s with pa := paGetPage s.pa bn }
    else none
  | .dec t bn =>
    if s.putting t = none ∧ s.pa.refcount bn ≠ 0 then
      let r := paPutPageDec s.pa bn
      some { s with
        pa := r.2
        putting := Function.update s.putting t (if r.1 then some bn else none) }
    else none
  | .link t =>
    match s.putting t with
    | none => none
    | some bn => some
        { pa := paFree s.pa bn
          putting := Function.update s.putting t none
          out := Function.update s.out bn false }

/-- No thread in the middle of anything, over an empty pool. -/
def start : Threads := ⟨paInit, fun _ => none, fun _ => false⟩

/-- Any number of threads over an empty pool. -/
def paThreads (paSize : ℕ) : Lts Threads Act :=
  .ofNext (fun s => s = start) (next paSize)

/-- The guard on the state before an allocation: the first run on the list that fits
contains no page whose free is in flight. The other steps are not guarded. -/
def NoPendingFollower (s : Threads) : Act → Prop
  | .alloc _ order => ∀ bn, s.pa.head.find? (fits s.pa (2 ^ order)) = some bn →
      ∀ t p, s.putting t = some p → ¬ (bn ≤ p ∧ p < bn + 2 ^ order)
  | _ => True

/-- No page on the free list is referenced, and an allocation returns pages that were
completely freed, all of them, exactly when it meets the guard. -/
def SafeHandOut (paSize : ℕ) (s : Threads) : Prop :=
  (∀ p ∈ s.pa.head, s.pa.refcount p = 0) ∧
    ∀ t order bn, (paAllocOrder paSize order false s.pa).1 = some bn →
      ((∀ p, bn ≤ p → p < bn + 2 ^ order → s.out p = false) ↔
        NoPendingFollower s (.alloc t order))

/-! ## The invariant -/

/-- A page is neither referenced, nor on its way to the list, nor handed out. -/
structure Idle (s : Threads) (p : ℕ) : Prop where
  refcount : s.pa.refcount p = 0
  putting : ∀ t, s.putting t ≠ some p
  out : s.out p = false

/-- The invariant: the free list holds, once each, exactly the pages of the pool
with no reference whose free is not in flight. -/
structure Inv (s : Threads) : Prop where
  /-- the pool grows by whole chunks -/
  size : s.pa.size % 32 = 0
  nodup : s.pa.head.Nodup
  lt : ∀ p ∈ s.pa.head, p < s.pa.size
  idle : ∀ p ∈ s.pa.head, Idle s p
  fresh : ∀ p, s.pa.size ≤ p → Idle s p
  linked : ∀ p < s.pa.size, s.pa.refcount p = 0 → (∀ t, s.putting t ≠ some p) → p ∈ s.pa.head
  pending : ∀ t p, s.putting t = some p → s.pa.refcount p = 0
  /-- what is referenced or on its way to the list was handed out -/
  held : ∀ p, s.pa.refcount p ≠ 0 → s.out p = true
  inFlight : ∀ t p, s.putting t = some p → s.out p = true
  single : ∀ t t' p, s.putting t = some p → s.putting t' = some p → t = t'

theorem inv_start : Inv start where
  size := rfl
  nodup := List.nodup_nil
  lt _ hp := by cases hp
  idle _ hp := by cases hp
  fresh _ _ := ⟨rfl, nofun, rfl⟩
  linked p hp := absurd hp (Nat.not_lt_zero p)
  pending _ _ h := by cases h
  held _ h := absurd rfl h
  inFlight _ _ h := by cases h
  single _ _ _ h := by cases h

/-- Growing the pool keeps the invariant: the new pages are idle. -/
theorem Inv.grow {s : Threads} (h : Inv s) (k : ℕ) : Inv { s with pa := grow s.pa k } := by
  have hmem : ∀ p, p ∈ (Pa.grow s.pa k).head ↔
      p ∈ s.pa.head ∨ (s.pa.size ≤ p ∧ p < (Pa.grow s.pa k).size) := by
    intro p
    simp [Pa.grow, List.mem_range'_1]
  have hidle : ∀ p, Idle s p → Idle { s with pa := Pa.grow s.pa k } p :=
    fun p hp => ⟨hp.refcount, hp.putting, hp.out⟩
  have hle : s.pa.size ≤ (Pa.grow s.pa k).size := by
    simp [Pa.grow]
  refine ⟨?_, ?_, ?_, ?_, ?_, ?_, h.pending, h.held, h.inFlight, h.single⟩
  · have := h.size
    simp only [Pa.grow, paPagesAtATime_eq]
    omega
  · -- the old entries are below the old size, the new ones are not
    simp only [Pa.grow]
    refine List.Nodup.append h.nodup List.nodup_range' ?_
    intro p hp hp'
    have := h.lt p hp
    rw [List.mem_range'_1] at hp'
    omega
  · intro p hp
    rcases (hmem p).mp hp with hp | hp
    · exact Nat.lt_of_lt_of_le (h.lt p hp) hle
    · exact hp.2
  · intro p hp
    rcases (hmem p).mp hp with hp | hp
    · exact hidle p (h.idle p hp)
    · exact hidle p (h.fresh p hp.1)
  · intro p hp
    exact hidle p (h.fresh p (le_trans hle hp))
  · intro p hp hr hput
    rw [hmem]
    rcases Nat.lt_or_ge p s.pa.size with hlt | hge
    · exact .inl (h.linked p hlt hr hput)
    · exact .inr ⟨hge, hp⟩

/-- A run that fits in an invariant state lies below the end of the pool: its start
and the pool's size are multiples of its length. -/
theorem Inv.fits_lt {s : Threads} (h : Inv s) {order bn p : ℕ} (ho : order ≤ paMaxOrder)
    (hbn : bn ∈ s.pa.head) (hf : fits s.pa (2 ^ order) bn = true) (hp : p < bn + 2 ^ order) :
    p < s.pa.size := by
  obtain ⟨halign, hend⟩ := fits_bounds hf
  have hlt := h.lt bn hbn
  have hsize := h.size
  have hcases : order = 0 ∨ order = 1 ∨ order = 2 ∨ order = 3 ∨ order = 4 ∨ order = 5 := by
    unfold paMaxOrder at ho
    omega
  rcases hcases with rfl | rfl | rfl | rfl | rfl | rfl <;> simp only [Nat.reducePow] at * <;> omega

/-- A run of the old pool that fits after a growth fitted before: it is aligned and starts
below the old size, so it ends below it too. -/
theorem Inv.fits_of_grow {s : Threads} (h : Inv s) {order bn k : ℕ} (ho : order ≤ paMaxOrder)
    (hbn : bn ∈ s.pa.head) (hf : fits (Pa.grow s.pa k) (2 ^ order) bn = true) :
    fits s.pa (2 ^ order) bn = true := by
  have hlt := h.lt bn hbn
  have hsize := h.size
  obtain ⟨halign, -⟩ := fits_bounds hf
  have hend : bn + 2 ^ order - 1 ≤ s.pa.size := by
    have hcases : order = 0 ∨ order = 1 ∨ order = 2 ∨ order = 3 ∨ order = 4 ∨ order = 5 := by
      unfold paMaxOrder at ho
      omega
    rcases hcases with rfl | rfl | rfl | rfl | rfl | rfl <;> simp only [Nat.reducePow] at * <;>
      omega
  simp only [fits, Pa.grow, paIsFree, Bool.and_eq_true, beq_iff_eq, decide_eq_true_eq] at hf ⊢
  exact ⟨⟨hf.1.1, by omega⟩, hf.2⟩

/-- **What the guard is about**: a page in flight lies in the run an allocation takes only if that
run is the first one that fits before the pool grows. -/
theorem Inv.find_of_pending {s : Threads} (h : Inv s) {paSize order bn k t p : ℕ}
    (ho : order ≤ paMaxOrder) (hbn : bn ∈ (Pa.grow s.pa k).head)
    (hf : fits (Pa.grow s.pa k) (2 ^ order) bn = true)
    (hr : (paAllocOrder paSize order false s.pa).1 = some bn) (hput : s.putting t = some p)
    (hin : bn ≤ p) : s.pa.head.find? (fits s.pa (2 ^ order)) = some bn := by
  have hpsize : p < s.pa.size := by
    by_contra hge
    exact (h.fresh p (by omega)).putting t hput
  have hmem : bn ∈ s.pa.head := by
    simp only [Pa.grow, List.mem_append, List.mem_range'_1] at hbn
    rcases hbn with hbn | hbn
    · exact hbn
    · omega
  have hfits := h.fits_of_grow ho hmem hf
  rcases hfind : s.pa.head.find? (fits s.pa (2 ^ order)) with _ | bn'
  · exact absurd hfits (List.find?_eq_none.mp hfind bn hmem)
  · rw [paAllocOrder_of_find ho hfind] at hr
    exact hr

/-- Outside the window every page of a run that fits is on the free list. -/
theorem Inv.run_mem {s : Threads} (h : Inv s) {order bn p : ℕ} (ho : order ≤ paMaxOrder)
    (hok : ∀ t p, s.putting t = some p → ¬ (bn ≤ p ∧ p < bn + 2 ^ order)) (hbn : bn ∈ s.pa.head)
    (hf : fits s.pa (2 ^ order) bn = true) (hle : bn ≤ p) (hp : p < bn + 2 ^ order) :
    p ∈ s.pa.head := by
  rcases Nat.eq_or_lt_of_le hle with rfl | hlt
  · exact hbn
  · obtain ⟨i, rfl⟩ := Nat.exists_eq_add_of_le hle
    refine h.linked _ (h.fits_lt ho hbn hf hp) (fits_refcount hf (by omega) (by omega)) ?_
    intro t' hput
    exact hok t' _ hput ⟨hle, hp⟩

/-- Taking a run of idle pages off the list keeps the invariant. -/
theorem Inv.allocRun {s : Threads} (h : Inv s) {bn n : ℕ}
    (hrun : ∀ p, bn ≤ p → p < bn + n → p ∈ s.pa.head) :
    Inv { s with pa := Pa.allocRun s.pa bn n, out := handOut s.out n (some bn) } := by
  have hidle : ∀ p, ¬ (bn ≤ p ∧ p < bn + n) → Idle s p →
      Idle { s with pa := Pa.allocRun s.pa bn n, out := handOut s.out n (some bn) } p := by
    intro p hn hp
    refine ⟨?_, hp.putting, ?_⟩
    · simp only [allocRun_refcount, if_neg hn, hp.refcount]
    · simp only [handOut, if_neg hn, hp.out]
  refine ⟨?_, allocRun_nodup bn n h.nodup, ?_, ?_, ?_, ?_, ?_, ?_, ?_, h.single⟩
  · simpa using h.size
  · intro p hp
    rw [mem_allocRun h.nodup] at hp
    simpa using h.lt p hp.1
  · intro p hp
    rw [mem_allocRun h.nodup] at hp
    exact hidle p hp.2 (h.idle p hp.1)
  · intro p hp
    simp only [allocRun_size] at hp
    refine hidle p (fun hin => ?_) (h.fresh p hp)
    have := h.lt p (hrun p hin.1 hin.2)
    omega
  · intro p hp hr hput
    simp only [allocRun_size, allocRun_refcount] at hp hr
    rw [mem_allocRun h.nodup]
    by_cases hin : bn ≤ p ∧ p < bn + n
    · rw [if_pos hin] at hr
      cases hr
    · rw [if_neg hin] at hr
      exact ⟨h.linked p hp hr hput, hin⟩
  · intro t p hput
    have hin : ¬ (bn ≤ p ∧ p < bn + n) :=
      fun hin => (h.idle p (hrun p hin.1 hin.2)).putting t hput
    simp only [allocRun_refcount, if_neg hin]
    exact h.pending t p hput
  · intro p hr
    simp only [allocRun_refcount] at hr
    simp only [handOut]
    split_ifs at hr ⊢ with hin
    · rfl
    · exact h.held p hr
  · intro t p hput
    simp only [handOut, h.inFlight t p hput, ite_self]

/-- An allocation that meets the guard: what it returns was idle, and the invariant
is kept. -/
theorem Inv.alloc {paSize : ℕ} {s : Threads} (h : Inv s) {t order : ℕ} (ho : order ≤ paMaxOrder)
    (hok : NoPendingFollower s (.alloc t order)) :
    Inv { s with
      pa := (paAllocOrder paSize order false s.pa).2
      out := handOut s.out (2 ^ order) (paAllocOrder paSize order false s.pa).1 } ∧
    ∀ bn, (paAllocOrder paSize order false s.pa).1 = some bn →
      ∀ p, bn ≤ p → p < bn + 2 ^ order → s.out p = false := by
  obtain ⟨k, hr | ⟨bn, hbn, hf, hr⟩⟩ := paAllocOrder_outcome paSize order s.pa
  · rw [hr]
    exact ⟨h.grow k, fun bn hbn => by cases hbn⟩
  · have hclear : ∀ t' p, s.putting t' = some p → ¬ (bn ≤ p ∧ p < bn + 2 ^ order) :=
      fun t' p hput hin => hok bn (h.find_of_pending ho hbn hf (by rw [hr]) hput hin.1) t' p hput hin
    rw [hr]
    have hrun : ∀ p, bn ≤ p → p < bn + 2 ^ order → p ∈ (Pa.grow s.pa k).head := fun p hle hp =>
      (h.grow k).run_mem ho hclear hbn hf hle hp
    refine ⟨(h.grow k).allocRun hrun, fun bn' hbn' p hle hp => ?_⟩
    obtain rfl := Option.some.inj hbn'
    exact ((h.grow k).idle p (hrun p hle hp)).out

/-- Taking one more reference of a page that has one keeps the invariant. -/
theorem Inv.get {s : Threads} (h : Inv s) (bn : ℕ) : Inv { s with pa := paGetPage s.pa bn } := by
  by_cases hbn : s.pa.refcount bn = 0
  · simpa [paGetPage, hbn] using h
  · have hne : ∀ p, s.pa.refcount p = 0 → (paGetPage s.pa bn).refcount p = 0 := by
      intro p hp
      have : p ≠ bn := fun he => hbn (he ▸ hp)
      simp [paGetPage, hbn, this, hp]
    have hidle : ∀ p, Idle s p → Idle { s with pa := paGetPage s.pa bn } p :=
      fun p hp => ⟨hne p hp.refcount, hp.putting, hp.out⟩
    have hhead : (paGetPage s.pa bn).head = s.pa.head := by
      simp [paGetPage, hbn]
    have hsize : (paGetPage s.pa bn).size = s.pa.size := by
      simp [paGetPage, hbn]
    refine ⟨hsize ▸ h.size, hhead ▸ h.nodup, ?_, ?_, ?_, ?_, ?_, ?_, h.inFlight, h.single⟩
    · intro p hp
      rw [hhead] at hp
      rw [hsize]
      exact h.lt p hp
    · intro p hp
      rw [hhead] at hp
      exact hidle p (h.idle p hp)
    · intro p hp
      rw [hsize] at hp
      exact hidle p (h.fresh p hp)
    · intro p hp hr hput
      rw [hsize] at hp
      rw [hhead]
      refine h.linked p hp ?_ hput
      by_cases hpb : p = bn
      · subst hpb
        simp [paGetPage, hbn] at hr
      · simpa [paGetPage, hbn, hpb] using hr
    · intro t p hput
      exact hne p (h.pending t p hput)
    · intro p hr
      by_cases hp : s.pa.refcount p = 0
      · exact absurd (hne p hp) hr
      · exact h.held p hp

/-- The decrement keeps the invariant: a page whose last reference goes is in
flight, not on the list. -/
theorem Inv.dec {s : Threads} (h : Inv s) {t bn : ℕ} (ht : s.putting t = none)
    (hbn : s.pa.refcount bn ≠ 0) :
    Inv { s with
      pa := (paPutPageDec s.pa bn).2
      putting := Function.update s.putting t
        (if (paPutPageDec s.pa bn).1 then some bn else none) } := by
  set put := Function.update s.putting t (if (paPutPageDec s.pa bn).1 then some bn else none)
    with hput
  have hput_cases : ∀ t' p, put t' = some p →
      s.putting t' = some p ∨ (t' = t ∧ p = bn ∧ s.pa.refcount bn = 1) := by
    intro t' p h'
    by_cases htt : t' = t
    · subst htt
      by_cases h1 : s.pa.refcount bn = 1
      · simp only [hput, Function.update_self, paPutPageDec, h1, beq_self_eq_true, if_true] at h'
        exact .inr ⟨rfl, (Option.some.inj h').symm, h1⟩
      · simp [hput, paPutPageDec, h1] at h'
    · simp only [hput, Function.update_of_ne htt] at h'
      exact .inl h'
  have hne : ∀ p, s.pa.refcount p = 0 → p ≠ bn := fun p hp he => hbn (he ▸ hp)
  have hidle : ∀ p, Idle s p → Idle { s with pa := (paPutPageDec s.pa bn).2, putting := put } p := by
    intro p hp
    refine ⟨?_, fun t' h' => ?_, hp.out⟩
    · simp [paPutPageDec, hne p hp.refcount, hp.refcount]
    · rcases hput_cases t' p h' with h' | ⟨-, he, -⟩
      · exact hp.putting t' h'
      · exact hne p hp.refcount he
  refine ⟨h.size, h.nodup, h.lt, fun p hp => hidle p (h.idle p hp),
    fun p hp => hidle p (h.fresh p hp), ?_, ?_, ?_, ?_, ?_⟩
  · intro p hp hr hno
    by_cases hpb : p = bn
    · -- the count of `bn` is zero only if the decrement took the last reference
      subst hpb
      have h1 : s.pa.refcount p = 1 := by
        simp only [paPutPageDec, Function.update_self] at hr
        omega
      exact absurd (by simp [hput, paPutPageDec, h1]) (hno t)
    · refine h.linked p hp (by simpa [paPutPageDec, hpb] using hr) fun t' h' => ?_
      have htt : t' ≠ t := by
        rintro rfl
        rw [ht] at h'
        cases h'
      exact hno t' (by simpa [hput, htt] using h')
  · intro t' p h'
    rcases hput_cases t' p h' with h' | ⟨-, rfl, h1⟩
    · have := hne p (h.pending t' p h')
      simpa [paPutPageDec, this] using h.pending t' p h'
    · simp [paPutPageDec, h1]
  · intro p hr
    by_cases hpb : p = bn
    · exact h.held p (hpb ▸ hbn)
    · exact h.held p (by simpa [paPutPageDec, hpb] using hr)
  · intro t' p h'
    rcases hput_cases t' p h' with h' | ⟨-, rfl, -⟩
    · exact h.inFlight t' p h'
    · exact h.held p hbn
  · intro t₁ t₂ p h₁ h₂
    rcases hput_cases t₁ p h₁ with g₁ | ⟨e₁, hp₁, -⟩ <;>
      rcases hput_cases t₂ p h₂ with g₂ | ⟨e₂, hp₂, -⟩
    · exact h.single t₁ t₂ p g₁ g₂
    · exact absurd hp₂ (hne p (h.pending t₁ p g₁))
    · exact absurd hp₁ (hne p (h.pending t₂ p g₂))
    · rw [e₁, e₂]

/-- The insertion completes a free and keeps the invariant. -/
theorem Inv.link {s : Threads} (h : Inv s) {t bn : ℕ} (ht : s.putting t = some bn) :
    Inv { pa := paFree s.pa bn
          putting := Function.update s.putting t none
          out := Function.update s.out bn false } := by
  have hput : ∀ t' p, Function.update s.putting t none t' = some p → s.putting t' = some p := by
    intro t' p h'
    by_cases htt : t' = t
    · subst htt
      simp at h'
    · simpa [htt] using h'
  have hgone : ∀ t', Function.update s.putting t none t' ≠ some bn := by
    intro t' h'
    have htt := h.single t' t bn (hput t' bn h') ht
    subst htt
    simp at h'
  have hidle : ∀ p, p = bn ∨ Idle s p → Idle
      { pa := paFree s.pa bn
        putting := Function.update s.putting t none
        out := Function.update s.out bn false } p := by
    rintro p (rfl | hp)
    · exact ⟨h.pending t p ht, hgone, by simp⟩
    · refine ⟨hp.refcount, fun t' h' => hp.putting t' (hput t' p h'), ?_⟩
      by_cases hpb : p = bn
      · simp [hpb]
      · simpa [hpb] using hp.out
  refine ⟨h.size, ?_, ?_, ?_, fun p hp => hidle p (.inr (h.fresh p hp)), ?_,
    fun t' p h' => h.pending t' p (hput t' p h'), ?_, ?_,
    fun t₁ t₂ p h₁ h₂ => h.single t₁ t₂ p (hput t₁ p h₁) (hput t₂ p h₂)⟩
  · refine List.nodup_cons.mpr ⟨fun hmem => ?_, h.nodup⟩
    exact (h.idle bn hmem).putting t ht
  · intro p hp
    rcases List.mem_cons.mp hp with rfl | hp
    · by_contra hge
      exact (h.fresh p (Nat.not_lt.mp hge)).putting t ht
    · exact h.lt p hp
  · intro p hp
    rcases List.mem_cons.mp hp with rfl | hp
    · exact hidle p (.inl rfl)
    · exact hidle p (.inr (h.idle p hp))
  · intro p hp hr hno
    by_cases hpb : p = bn
    · exact List.mem_cons.mpr (.inl hpb)
    · refine List.mem_cons_of_mem _ (h.linked p hp hr fun t' h' => ?_)
      have htt : t' ≠ t := by
        rintro rfl
        rw [ht] at h'
        exact hpb (Option.some.inj h').symm
      exact hno t' (by simpa [htt] using h')
  · intro p hr
    have hpb : p ≠ bn := fun hpb => hr (hpb ▸ h.pending t bn ht)
    simpa [hpb] using h.held p hr
  · intro t' p h'
    have hpb : p ≠ bn := fun hpb => hgone t' (hpb ▸ h')
    simpa [hpb] using h.inFlight t' p (hput t' p h')

/-- The invariant is kept by every step that meets the guard. -/
theorem inv_next {paSize : ℕ} {s s' : Threads} {a : Act} (h : Inv s)
    (hok : NoPendingFollower s a) (hn : next paSize s a = some s') : Inv s' := by
  cases a with
  | alloc t order =>
    obtain ⟨⟨-, ho⟩, ⟨⟩⟩ := Option.ite_none_right_eq_some.mp hn
    exact (h.alloc ho hok).1
  | get t bn =>
    obtain ⟨-, ⟨⟩⟩ := Option.ite_none_right_eq_some.mp hn
    exact h.get bn
  | dec t bn =>
    obtain ⟨⟨ht, hbn⟩, ⟨⟩⟩ := Option.ite_none_right_eq_some.mp hn
    exact h.dec ht hbn
  | link t =>
    rcases ht : s.putting t with _ | bn
    · simp [next, ht] at hn
    · obtain rfl := Option.some.inj (by simpa [next, ht] using hn)
      exact h.link ht

/-! ## The theorem and the window -/

/-- An allocation that does not meet the guard returns a page in flight. -/
theorem Inv.alloc_window {paSize : ℕ} {s : Threads} (h : Inv s) {t order bn : ℕ}
    (ho : order ≤ paMaxOrder) (hr : (paAllocOrder paSize order false s.pa).1 = some bn)
    (hout : ∀ p, bn ≤ p → p < bn + 2 ^ order → s.out p = false) :
    NoPendingFollower s (.alloc t order) := by
  intro bn' hfind t' p hput hin
  rw [paAllocOrder_of_find ho hfind] at hr
  obtain rfl := Option.some.inj hr
  have hp := h.inFlight t' p hput
  rw [hout p hin.1 hin.2] at hp
  cases hp

/-- **No double hand-out outside the window**: in every run of any number of threads
whose allocations meet the guard, no page on the free list is referenced, and no
page is returned by two allocations without a complete free in between; a further
allocation returns such a page exactly when it does not meet the guard. -/
theorem no_double_hand_out (paSize : ℕ) (s : Threads)
    (h : ((paThreads paSize).restrict NoPendingFollower).Reachable s) : SafeHandOut paSize s := by
  have hinv : Inv s := by
    refine h.invariant (I := Inv) ?_ ?_
    · rintro _ rfl
      exact inv_start
    · intro s a s' hI hstep
      exact inv_next hI hstep.1 hstep.2
  refine ⟨fun p hp => (hinv.idle p hp).refcount, fun t order bn hr => ?_⟩
  have ho : order ≤ paMaxOrder := by
    by_contra hlt
    rw [paAllocOrder, if_pos (by omega)] at hr
    cases hr
  exact ⟨hinv.alloc_window ho hr, fun hok => (hinv.alloc (t := t) ho hok).2 bn hr⟩

/-- A run that meets the guard is extended by a computed step. -/
theorem exists_next {paSize : ℕ} {s : Threads}
    (h : ((paThreads paSize).restrict NoPendingFollower).Reachable s) (a : Act)
    (hok : NoPendingFollower s a) {p : Threads → Bool} (hn : (next paSize s a).any p = true) :
    ∃ s', next paSize s a = some s' ∧
      ((paThreads paSize).restrict NoPendingFollower).Reachable s' ∧ p s' = true := by
  obtain ⟨s', hs', hp⟩ := (Option.any_eq_true p _).mp hn
  exact ⟨s', hs', h.step ⟨hok, hs'⟩, hp⟩

/-- A decrement leaves the other threads where they are. -/
theorem putting_of_dec {paSize t t' bn : ℕ} {s s' : Threads}
    (hn : next paSize s (.dec t bn) = some s') (hne : t' ≠ t) : s'.putting t' = s.putting t' := by
  obtain ⟨-, ⟨⟩⟩ := Option.ite_none_right_eq_some.mp hn
  exact Function.update_of_ne hne ..

/-- Thread `0` is stopped between the decrement of page `1` and its insertion, and thread
`1` allocates two pages: the first run that fits is that of pages `2` and `3`. -/
theorem no_double_hand_out_beside :
    ∃ s, ((paThreads (1 <<< 32)).restrict NoPendingFollower).Reachable s ∧
      (s.putting 0 = some 1 ∧ s.out 2 = true) ∧ SafeHandOut (1 <<< 32) s := by
  have h₀ : ((paThreads (1 <<< 32)).restrict NoPendingFollower).Reachable start := .init rfl
  have hnone : ∀ s order, s.putting = (fun _ => none) → NoPendingFollower s (.alloc 0 order) := by
    intro s order hs bn _ t p hput
    rw [hs] at hput
    cases hput
  have h₁ := h₀.step ⟨hnone start 0 rfl, (rfl : next (1 <<< 32) start (.alloc 0 0) = some _)⟩
  have h₂ := h₁.step ⟨hnone _ 0 rfl, (rfl : next (1 <<< 32) _ (.alloc 0 0) = some _)⟩
  obtain ⟨s₃, hn₃, h₃, hp⟩ := exists_next h₂ (.dec 0 1) trivial
    (p := fun s => s.pa.head.find? (fits s.pa (2 ^ 1)) == some 2 && s.putting 0 == some 1)
    (by decide +kernel)
  simp only [Bool.and_eq_true, beq_iff_eq] at hp
  obtain ⟨hfind, hput⟩ := hp
  have hothers : ∀ t, t ≠ 0 → s₃.putting t = none := fun t ht => putting_of_dec hn₃ ht
  have hok : NoPendingFollower s₃ (.alloc 1 1) := by
    intro bn hbn t p hputt hin
    rw [hfind] at hbn
    by_cases ht : t = 0
    · subst ht
      rw [hput] at hputt
      cases hbn
      cases hputt
      omega
    · rw [hothers t ht] at hputt
      cases hputt
  have hrun := @paAllocOrder_of_find (1 <<< 32) 1 2 s₃.pa (by decide) hfind
  have h₄ := h₃.step ⟨hok, (if_pos ⟨hothers 1 Nat.one_ne_zero, by decide⟩ :
    next (1 <<< 32) s₃ (.alloc 1 1) = some _)⟩
  refine ⟨_, h₄, ⟨hput, ?_⟩, no_double_hand_out _ _ h₄⟩
  simp only [hrun, handOut]
  rfl

/-- **The window**: thread `0` puts page `1` and is stopped between the decrement and
the insertion. An allocation of order one then returns pages `0` and `1`, although
page `1` is not completely freed; after thread `1` took that run and thread `0` has
inserted page `1`, the page is on the free list with a reference count of one. -/
theorem handed_out_twice :
    ¬ ∀ s, (paThreads (1 <<< 32)).Reachable s →
      (∀ p ∈ s.pa.head, s.pa.refcount p = 0) ∧
        ∀ order bn, (paAllocOrder (1 <<< 32) order false s.pa).1 = some bn →
          ∀ p, bn ≤ p → p < bn + 2 ^ order → s.out p = false := by
  intro hall
  have h₀ : (paThreads (1 <<< 32)).Reachable start := .init rfl
  obtain ⟨s, hs, hp⟩ := h₀.exists_of_runAll
    [.alloc 0 0, .alloc 0 0, .dec 0 0, .link 0, .dec 0 1, .alloc 1 1, .link 0]
    (p := fun s => s.pa.head.head? == some 1 && s.pa.refcount 1 == 1) (by decide +kernel)
  simp only [Bool.and_eq_true, beq_iff_eq] at hp
  have hfree := (hall s hs).1 1 (List.mem_of_mem_head? hp.1)
  rw [hp.2] at hfree
  cases hfree

end Zus.PaRace
