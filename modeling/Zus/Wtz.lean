import Mathlib.Data.Finset.Card
import Zus.Lib.Lts

/-!
# Wait-til-zero and the start-up of the ZT threads

`wtz.h` is a counter with a semaphore: `wtz_arm` adds to the counter,
`wtz_release` takes one off and posts the semaphore when it took the last one,
`wtz_wait` waits on the semaphore. `zus_start_all_threads` uses one such object as
a barrier: it arms it with the number of online cpus *once per channel*, creates
the channel's workers, and waits *once* after the last channel.

The system below interleaves the main thread with the workers at the granularity
of the atomic operations: an arm, a thread creation, the decrement of a release,
the post of a release, the return of the wait. The counter may fall to zero
between two arms, and each time it does the semaphore is posted; a single wait is
then satisfied by the *first* post. The last section says exactly when the barrier is
one: with a single channel, and only then.
-/

namespace Zus.Wtz

open Zus.Lib

/-- `struct wait_til_zero`. -/
structure WaitTilZero where
  /-- the armed count -/
  acnt : ℤ
  /-- the value of the counting semaphore -/
  sem : ℕ
  deriving DecidableEq

/-- `wtz_init`. -/
def wtzInit : WaitTilZero := ⟨0, 0⟩

/-- `wtz_arm`: one atomic add (the previous value is not used by the caller). -/
def wtzArm (wtz : WaitTilZero) (c : ℕ) : WaitTilZero :=
  { wtz with acnt := wtz.acnt + c }

/-- The first half of `wtz_release`: the atomic decrement. The flag says that the
previous value was one, so that this release has to post. -/
def wtzReleaseSub (wtz : WaitTilZero) : Bool × WaitTilZero :=
  (wtz.acnt == 1, { wtz with acnt := wtz.acnt - 1 })

/-- The second half of `wtz_release`: `sem_post`. -/
def wtzReleasePost (wtz : WaitTilZero) : WaitTilZero :=
  { wtz with sem := wtz.sem + 1 }

/-- `wtz_wait`: `sem_wait`, which returns only while the semaphore is positive. -/
def wtzWait (wtz : WaitTilZero) : Option WaitTilZero :=
  if wtz.sem = 0 then none else some { wtz with sem := wtz.sem - 1 }

/-- Where a worker `_zu_thread` is with respect to its single `wtz_release`. -/
inductive WorkerPc
  /-- created, `wtz_release` not called yet -/
  | starting
  /-- the decrement took the last count, the post is still to come -/
  | posting
  /-- `wtz_release` returned -/
  | released
  deriving DecidableEq

/-- Where the main thread is in `zus_start_all_threads`. -/
inductive MainPc
  /-- at the test of the channel loop; past the last channel it is in `wtz_wait` -/
  | chan (c : ℕ)
  /-- in `_zus_start_chan_threads`, `i` workers of channel `c` created -/
  | create (c i : ℕ)
  /-- `wtz_wait` returned: the error check reads the workers' results -/
  | verify
  deriving DecidableEq

/-- The state of the start-up: the wait object, the main thread and the workers
`zts[chan][cpu]`, `none` while a worker is not created. -/
structure Startup where
  /-- `g_ztp.wtz` -/
  wtz : WaitTilZero
  /-- the main thread -/
  main : MainPc
  /-- the workers -/
  zts : ℕ → ℕ → Option WorkerPc

/-- Set the state of one worker. -/
def Startup.setZt (s : Startup) (c i : ℕ) (pc : WorkerPc) : ℕ → ℕ → Option WorkerPc :=
  fun c' i' => if c' = c ∧ i' = i then some pc else s.zts c' i'

/-- Who moves. -/
inductive Act
  /-- the main thread -/
  | main
  /-- the worker of channel `c` on cpu `i` -/
  | worker (c i : ℕ)

/-- One atomic step of the main thread or of a worker, with `chans` channels and
`cpus` online cpus. -/
inductive Step (chans cpus : ℕ) : Startup → Act → Startup → Prop
  /-- enter `_zus_start_chan_threads`: arm with the number of online cpus -/
  | arm {s : Startup} {c : ℕ} : s.main = .chan c → c < chans →
      Step chans cpus s .main { s with wtz := wtzArm s.wtz cpus, main := .create c 0 }
  /-- create the next worker of the channel -/
  | create {s : Startup} {c i : ℕ} : s.main = .create c i → i < cpus →
      Step chans cpus s .main { s with main := .create c (i + 1), zts := s.setZt c i .starting }
  /-- all workers of the channel created: on to the next channel -/
  | next {s : Startup} {c i : ℕ} : s.main = .create c i → ¬ i < cpus →
      Step chans cpus s .main { s with main := .chan (c + 1) }
  /-- `wtz_wait` returns -/
  | wait {s : Startup} {c : ℕ} {wtz : WaitTilZero} : s.main = .chan c → ¬ c < chans →
      wtzWait s.wtz = some wtz →
      Step chans cpus s .main { s with wtz := wtz, main := .verify }
  /-- the decrement of a worker's `wtz_release` -/
  | sub {s : Startup} {c i : ℕ} : s.zts c i = some .starting →
      Step chans cpus s (.worker c i)
        { s with
          wtz := (wtzReleaseSub s.wtz).2
          zts := s.setZt c i (if (wtzReleaseSub s.wtz).1 then .posting else .released) }
  /-- the post of a worker's `wtz_release` -/
  | post {s : Startup} {c i : ℕ} : s.zts c i = some .posting →
      Step chans cpus s (.worker c i)
        { s with wtz := wtzReleasePost s.wtz, zts := s.setZt c i .released }

/-- `zus_start_all_threads` with `chans` channels on `cpus` online cpus. -/
def startAllThreads (chans cpus : ℕ) : Lts Startup Act where
  init s := s = ⟨wtzInit, .chan 0, fun _ _ => none⟩
  step := Step chans cpus

/-- Every created worker has called `wtz_release`. -/
def AllReleased (s : Startup) : Prop :=
  ∀ c i, s.zts c i ≠ some .starting

/-! ## One channel: the barrier holds -/

/-- The workers of the only channel whose decrement is done. -/
def done (cpus : ℕ) (s : Startup) : Finset ℕ :=
  (Finset.range cpus).filter fun i => s.zts 0 i = some .posting ∨ s.zts 0 i = some .released

/-- The invariant of the one-channel start-up once it is armed: the counter is what
is left of the arm, and nothing is posted before the counter is used up. -/
structure Armed (cpus : ℕ) (s : Startup) : Prop where
  /-- workers exist in channel `0` only, one per cpu -/
  range : ∀ c i, c ≠ 0 ∨ cpus ≤ i → s.zts c i = none
  /-- main is creating channel `0`, or waiting, or past the wait -/
  pc : (∃ i ≤ cpus, s.main = .create 0 i ∧ ∀ j, i ≤ j → s.zts 0 j = none) ∨
    s.main = .chan 1 ∨ (s.main = .verify ∧ (done cpus s).card = cpus)
  /-- the counter holds what is left of the arm -/
  acnt : s.wtz.acnt = cpus - (done cpus s).card
  /-- nothing is posted while a worker is missing -/
  unposted : (done cpus s).card < cpus → s.wtz.sem = 0 ∧ ∀ i, s.zts 0 i ≠ some .posting

/-- The invariant of the one-channel start-up. -/
def OneChan (cpus : ℕ) (s : Startup) : Prop :=
  s = ⟨wtzInit, .chan 0, fun _ _ => none⟩ ∨ Armed cpus s

theorem done_card_le (cpus : ℕ) (s : Startup) : (done cpus s).card ≤ cpus := by
  have h := Finset.card_filter_le (Finset.range cpus)
    (fun i => s.zts 0 i = some .posting ∨ s.zts 0 i = some .released)
  rwa [Finset.card_range] at h

/-- When all decrements are done every worker has called `wtz_release`. -/
theorem Armed.allReleased {cpus : ℕ} {s : Startup} (h : Armed cpus s)
    (hd : (done cpus s).card = cpus) : AllReleased s := by
  have hall : done cpus s = Finset.range cpus :=
    Finset.eq_of_subset_of_card_le (Finset.filter_subset _ _) (by simp [hd])
  intro c i hstart
  by_cases hci : c ≠ 0 ∨ cpus ≤ i
  · rw [h.range c i hci] at hstart
    cases hstart
  · have hmem : i ∈ done cpus s := by
      rw [hall, Finset.mem_range]
      omega
    obtain rfl : c = 0 := by omega
    obtain ⟨-, hpc | hpc⟩ := Finset.mem_filter.mp hmem <;> rw [hpc] at hstart <;> cases hstart

/-- A step that moves no decrement leaves the set of finished workers alone. -/
theorem done_congr {cpus : ℕ} {s s' : Startup}
    (h : ∀ i < cpus, (s'.zts 0 i = some .posting ∨ s'.zts 0 i = some .released) ↔
      (s.zts 0 i = some .posting ∨ s.zts 0 i = some .released)) :
    done cpus s' = done cpus s :=
  Finset.filter_congr fun i hi => h i (Finset.mem_range.mp hi)

/-- A decrement adds its worker to the finished ones. -/
theorem done_sub {cpus i : ℕ} {s s' : Startup} {pc : WorkerPc} (hi : i < cpus)
    (hs : s.zts 0 i = some .starting) (hpc : pc ≠ .starting) (hs' : s'.zts = s.setZt 0 i pc) :
    (done cpus s').card = (done cpus s).card + 1 := by
  have hnot : i ∉ done cpus s := by
    simp [done, hs]
  have hins : done cpus s' = insert i (done cpus s) := by
    ext j
    by_cases hj : j = i
    · subst hj
      cases pc <;> simp_all [done, Startup.setZt]
    · simp [done, hs', Startup.setZt, hj]
  rw [hins, Finset.card_insert_of_notMem hnot]

/-- A worker that exists is in the only channel, on one of the cpus. -/
theorem Armed.zt_range {cpus c i : ℕ} {s : Startup} {pc : WorkerPc} (h : Armed cpus s)
    (hz : s.zts c i = some pc) : c = 0 ∧ i < cpus := by
  by_contra hci
  rw [h.range c i (by omega)] at hz
  cases hz

/-- Moving a worker that exists on keeps the clause on the main thread. -/
theorem Armed.pc_setZt {cpus i : ℕ} {s : Startup} {pc pc' : WorkerPc} (h : Armed cpus s)
    (hz : s.zts 0 i = some pc) :
    (∃ i' ≤ cpus, s.main = .create 0 i' ∧ ∀ j, i' ≤ j → s.setZt 0 i pc' 0 j = none) ∨
      s.main = .chan 1 ∨ (s.main = .verify ∧ (done cpus s).card = cpus) := by
  rcases h.pc with ⟨i', hi', hpc, hnone⟩ | hpc
  · -- the worker exists, so main is past its creation
    have hlt : i < i' := by
      by_contra hge
      rw [hnone i (by omega)] at hz
      cases hz
    refine .inl ⟨i', hi', hpc, fun j hj => ?_⟩
    have hne : j ≠ i := by omega
    simpa [Startup.setZt, hne] using hnone j hj
  · exact .inr hpc

/-- Setting a worker of the channel keeps the other cells of the table empty. -/
theorem Armed.range_setZt {cpus i : ℕ} {s : Startup} {pc : WorkerPc} (h : Armed cpus s)
    (hi : i < cpus) : ∀ c j, c ≠ 0 ∨ cpus ≤ j → s.setZt 0 i pc c j = none := by
  intro c j hcj
  have hne : ¬ (c = 0 ∧ j = i) := by omega
  simpa [Startup.setZt, hne] using h.range c j hcj

/-- Creating a worker. -/
theorem Armed.create {cpus i : ℕ} {s : Startup} (h : Armed cpus s) (hi : i < cpus)
    (hnone : ∀ j, i ≤ j → s.zts 0 j = none) :
    Armed cpus { s with main := .create 0 (i + 1), zts := s.setZt 0 i .starting } := by
  have hdone : done cpus { s with main := .create 0 (i + 1), zts := s.setZt 0 i .starting } =
      done cpus s := by
    refine done_congr fun j _ => ?_
    by_cases hj : j = i
    · subst hj
      simp [Startup.setZt, hnone j (le_refl j)]
    · simp [Startup.setZt, hj]
  refine ⟨h.range_setZt hi, .inl ⟨i + 1, hi, rfl, ?_⟩, ?_, ?_⟩
  · intro j hj
    have hne : j ≠ i := by omega
    simpa [Startup.setZt, hne] using hnone j (by omega)
  · rw [hdone]
    exact h.acnt
  · rw [hdone]
    intro hlt
    obtain ⟨hsem, hpost⟩ := h.unposted hlt
    refine ⟨hsem, fun j => ?_⟩
    by_cases hj : j = i
    · subst hj
      simp [Startup.setZt]
    · simpa [Startup.setZt, hj] using hpost j

/-- The return of the wait: the semaphore is positive, so no worker is missing. -/
theorem Armed.wait {cpus : ℕ} {s : Startup} {wtz : WaitTilZero} (h : Armed cpus s)
    (hw : wtzWait s.wtz = some wtz) : Armed cpus { s with wtz := wtz, main := .verify } := by
  have hsem : s.wtz.sem ≠ 0 := by
    intro h0
    simp [wtzWait, h0] at hw
  have hd : (done cpus s).card = cpus := by
    by_contra hne
    have := done_card_le cpus s
    exact hsem (h.unposted (by omega)).1
  obtain rfl : { s.wtz with sem := s.wtz.sem - 1 } = wtz := by
    simpa [wtzWait, hsem] using hw
  refine ⟨h.range, .inr (.inr ⟨rfl, hd⟩), h.acnt, ?_⟩
  intro hlt
  exact absurd hd (Nat.ne_of_lt hlt)

/-- The decrement of a release: it posts only when it takes the last count. -/
theorem Armed.sub {cpus i : ℕ} {s : Startup} (h : Armed cpus s) (hi : i < cpus)
    (hz : s.zts 0 i = some .starting) :
    Armed cpus { s with
      wtz := (wtzReleaseSub s.wtz).2
      zts := s.setZt 0 i (if (wtzReleaseSub s.wtz).1 then .posting else .released) } := by
  set s' : Startup := { s with
    wtz := (wtzReleaseSub s.wtz).2
    zts := s.setZt 0 i (if (wtzReleaseSub s.wtz).1 then .posting else .released) } with hs'
  have hcard : (done cpus s').card = (done cpus s).card + 1 :=
    done_sub hi hz (by split <;> simp) rfl
  have hle := done_card_le cpus s'
  refine ⟨h.range_setZt hi, ?_, ?_, ?_⟩
  · rcases h.pc_setZt hz with hpc | hpc | ⟨-, hd⟩
    · exact .inl hpc
    · exact .inr (.inl hpc)
    · omega
  · have hacnt := h.acnt
    change s.wtz.acnt - 1 = cpus - ((done cpus s').card : ℤ)
    omega
  · intro hlt
    obtain ⟨hsem, hpost⟩ := h.unposted (by omega)
    have hacnt := h.acnt
    have hne1 : (s.wtz.acnt == 1) = false := by
      simp only [beq_eq_false_iff_ne, ne_eq]
      omega
    refine ⟨hsem, fun j => ?_⟩
    by_cases hj : j = i
    · subst hj
      simp [hs', Startup.setZt, wtzReleaseSub, hne1]
    · simpa [hs', Startup.setZt, hj] using hpost j

/-- The post of a release: a worker that posts took the last count. -/
theorem Armed.post {cpus i : ℕ} {s : Startup} (h : Armed cpus s) (hi : i < cpus)
    (hz : s.zts 0 i = some .posting) :
    Armed cpus { s with wtz := wtzReleasePost s.wtz, zts := s.setZt 0 i .released } := by
  have hdone : done cpus { s with
      wtz := wtzReleasePost s.wtz, zts := s.setZt 0 i .released } = done cpus s := by
    refine done_congr fun j _ => ?_
    by_cases hj : j = i
    · subst hj
      simp [Startup.setZt, hz]
    · simp [Startup.setZt, hj]
  have hd : ¬ (done cpus s).card < cpus := fun hlt => (h.unposted hlt).2 i hz
  refine ⟨h.range_setZt hi, ?_, ?_, ?_⟩
  · rw [hdone]
    exact h.pc_setZt hz
  · rw [hdone]
    exact h.acnt
  · rw [hdone]
    intro hlt
    exact absurd hlt hd

/-- The invariant of the one-channel start-up is kept by every step. -/
theorem oneChan_step {cpus : ℕ} {s s' : Startup} {a : Act} (h : OneChan cpus s)
    (hstep : Step 1 cpus s a s') : OneChan cpus s' := by
  right
  rcases h with rfl | h
  · -- nothing but the arm is possible in the initial state
    cases hstep with
    | arm hm _ =>
      obtain rfl : _ = 0 := (MainPc.chan.inj hm).symm
      refine ⟨fun _ _ _ => rfl, .inl ⟨0, by omega, rfl, fun _ _ => rfl⟩, ?_, ?_⟩
      · simp [wtzArm, wtzInit, done]
      · intro _
        exact ⟨rfl, by simp⟩
    | create hm => cases hm
    | next hm => cases hm
    | wait hm hc => exact absurd (MainPc.chan.inj hm ▸ Nat.zero_lt_one) hc
    | sub hz => cases hz
    | post hz => cases hz
  · cases hstep with
    | arm hm hc =>
      rcases h.pc with ⟨i, -, hpc, -⟩ | hpc | ⟨hpc, -⟩ <;> rw [hpc] at hm <;> cases hm
      omega
    | create hm hi =>
      rcases h.pc with ⟨i', -, hpc, hnone⟩ | hpc | ⟨hpc, -⟩ <;> rw [hpc] at hm <;> cases hm
      exact h.create hi hnone
    | next hm hi =>
      rcases h.pc with ⟨i', -, hpc, -⟩ | hpc | ⟨hpc, -⟩ <;> rw [hpc] at hm <;> cases hm
      exact ⟨h.range, .inr (.inl rfl), h.acnt, h.unposted⟩
    | wait hm hc hw =>
      rcases h.pc with ⟨i', -, hpc, -⟩ | hpc | ⟨hpc, -⟩ <;> rw [hpc] at hm <;> cases hm
      exact h.wait hw
    | sub hz =>
      obtain ⟨rfl, hi⟩ := h.zt_range hz
      exact h.sub hi hz
    | post hz =>
      obtain ⟨rfl, hi⟩ := h.zt_range hz
      exact h.post hi hz

/-- With one channel every worker has called `wtz_release` when the wait returns. -/
theorem oneChan_verify {cpus : ℕ} {s : Startup}
    (h : (startAllThreads 1 cpus).Reachable s) (hm : s.main = .verify) : AllReleased s := by
  have hinv : OneChan cpus s :=
    h.invariant (I := OneChan cpus) (fun _ h₀ => .inl h₀)
      fun _ _ _ hI hstep => oneChan_step hI hstep
  rcases hinv with rfl | hA
  · cases hm
  · rcases hA.pc with ⟨i, -, hpc, -⟩ | hpc | ⟨-, hd⟩
    · rw [hpc] at hm
      cases hm
    · rw [hpc] at hm
      cases hm
    · exact hA.allReleased hd

/-! ## Two channels or more: the first post is enough for the wait

The run: all workers of channel `0` release before channel `1` is armed, so the
counter falls to zero and the semaphore is posted; the remaining channels are then
armed and their workers created, none of which releases. The wait returns at once. -/

section Early

variable {chans cpus : ℕ}

/-- Main creates the workers of a channel, with no worker moving meanwhile. -/
theorem reach_created {c : ℕ} {s : Startup} (h : (startAllThreads chans cpus).Reachable s)
    (hm : s.main = .create c 0) (k : ℕ) (hk : k ≤ cpus) :
    ∃ s', (startAllThreads chans cpus).Reachable s' ∧ s'.main = .create c k ∧ s'.wtz = s.wtz ∧
      ∀ i < k, s'.zts c i = some .starting := by
  induction k with
  | zero => exact ⟨s, h, hm, rfl, fun _ hi => absurd hi (Nat.not_lt_zero _)⟩
  | succ k ih =>
    obtain ⟨s', hr, hm', hw, hz⟩ := ih (by omega)
    refine ⟨_, hr.step (.create hm' hk), rfl, hw, fun i hi => ?_⟩
    by_cases hik : i = k
    · simp [Startup.setZt, hik]
    · simpa [Startup.setZt, hik] using hz i (by omega)

/-- The workers `0 .. k-1` of a channel decrement, one after the other, while the
counter stays positive. -/
theorem reach_decremented {s : Startup} (h : (startAllThreads chans cpus).Reachable s)
    (hw : s.wtz = ⟨cpus, 0⟩) (hz : ∀ i < cpus, s.zts 0 i = some .starting) (k : ℕ)
    (hk : k < cpus) :
    ∃ s', (startAllThreads chans cpus).Reachable s' ∧ s'.main = s.main ∧
      s'.wtz = ⟨cpus - k, 0⟩ ∧ ∀ i, k ≤ i → i < cpus → s'.zts 0 i = some .starting := by
  induction k with
  | zero => exact ⟨s, h, rfl, by simpa using hw, fun i _ hi => hz i hi⟩
  | succ k ih =>
    obtain ⟨s', hr, hm', hw', hz'⟩ := ih (by omega)
    refine ⟨_, hr.step (.sub (hz' k (le_refl k) (by omega))), hm', ?_, fun i hki hi => ?_⟩
    · simp only [wtzReleaseSub, hw']
      congr 1
      omega
    · have hne : i ≠ k := by omega
      simpa [Startup.setZt, hne] using hz' i (by omega) hi

/-- All workers of channel `0` release before channel `1` is armed: the semaphore
is posted once while main is at channel `1`. -/
theorem reach_posted (hchans : 1 ≤ chans) (hcpus : 1 ≤ cpus) :
    ∃ s, (startAllThreads chans cpus).Reachable s ∧ s.main = .chan 1 ∧ s.wtz.sem = 1 := by
  have h₀ : (startAllThreads chans cpus).Reachable ⟨wtzInit, .chan 0, fun _ _ => none⟩ := .init rfl
  have h₁ := h₀.step (Step.arm rfl hchans)
  obtain ⟨s₂, h₂, hm₂, hw₂, hz₂⟩ := reach_created h₁ rfl cpus (le_refl cpus)
  have h₃ := h₂.step (.next hm₂ (Nat.lt_irrefl cpus))
  obtain ⟨s₄, h₄, hm₄, hw₄, hz₄⟩ := reach_decremented h₃
    (by simpa [wtzArm, wtzInit] using hw₂) hz₂ (cpus - 1) (by omega)
  -- the last decrement takes the counter from one to zero and posts
  have hlast : s₄.wtz.acnt = 1 := by
    rw [hw₄]
    change (cpus : ℤ) - ((cpus - 1 : ℕ) : ℤ) = 1
    omega
  have h₅ := h₄.step (.sub (hz₄ (cpus - 1) (le_refl _) (by omega)))
  refine ⟨_, h₅.step (.post (c := 0) (i := cpus - 1) ?_), hm₄, ?_⟩
  · simp [Startup.setZt, wtzReleaseSub, hlast]
  · simp [wtzReleasePost, wtzReleaseSub, hw₄]

/-- A posted semaphore stays posted while main arms and creates the channels up to
any later one. -/
theorem reach_chan (chans : ℕ) (hcpus : 1 ≤ cpus) (k : ℕ) (hk : k + 2 ≤ chans) :
    ∃ s, (startAllThreads chans cpus).Reachable s ∧ s.main = .chan (k + 1) ∧ s.wtz.sem = 1 := by
  induction k with
  | zero => exact reach_posted (by omega) hcpus
  | succ k ih =>
    obtain ⟨s, h, hm, hs⟩ := ih (by omega)
    have h₁ := h.step (Step.arm hm (by omega))
    obtain ⟨s₂, h₂, hm₂, hw₂, -⟩ := reach_created h₁ rfl cpus (le_refl cpus)
    refine ⟨_, h₂.step (.next hm₂ (Nat.lt_irrefl cpus)), rfl, ?_⟩
    rw [hw₂]
    exact hs

/-- With two channels or more the wait can return while a worker of the last
channel has not called `wtz_release`. -/
theorem early_verify (hchans : 2 ≤ chans) (hcpus : 1 ≤ cpus) :
    ∃ s, (startAllThreads chans cpus).Reachable s ∧ s.main = .verify ∧ ¬ AllReleased s := by
  obtain ⟨s, h, hm, hs⟩ := reach_chan chans hcpus (chans - 2) (by omega)
  have h₁ := h.step (Step.arm hm (by omega))
  obtain ⟨s₂, h₂, hm₂, hw₂, hz₂⟩ := reach_created h₁ rfl cpus (le_refl cpus)
  have h₃ := h₂.step (.next hm₂ (Nat.lt_irrefl cpus))
  have hsem : s₂.wtz.sem = 1 := by
    rw [hw₂]
    exact hs
  have hw : wtzWait s₂.wtz = some { s₂.wtz with sem := s₂.wtz.sem - 1 } := by
    simp [wtzWait, hsem]
  refine ⟨_, h₃.step (.wait rfl (by omega) hw), rfl, fun hall => ?_⟩
  exact hall _ 0 (hz₂ 0 hcpus)

end Early

/-! ## The barrier -/

/-- **The start-up barrier holds exactly with one channel**: for every number of
channels and online cpus, `wtz_wait` returns only after every created worker has
called `wtz_release`, in every interleaving, if and only if there is one channel. -/
theorem wait_til_zero_iff_one_channel (chans cpus : ℕ) (hchans : 1 ≤ chans) (hcpus : 1 ≤ cpus) :
    (∀ s, (startAllThreads chans cpus).Reachable s → s.main = .verify → AllReleased s) ↔
      chans = 1 := by
  constructor
  · intro h
    by_contra hne
    obtain ⟨s, hr, hm, hnot⟩ := early_verify (by omega : 2 ≤ chans) hcpus
    exact hnot (h s hr hm)
  · rintro rfl s hr hm
    exact oneChan_verify hr hm

/-- The barrier of one channel on four cpus holds. -/
theorem wait_til_zero_one_channel_four :
    1 ≤ 4 ∧ ∀ s, (startAllThreads 1 4).Reachable s → s.main = .verify → AllReleased s :=
  ⟨by decide, (wait_til_zero_iff_one_channel 1 4 (by decide) (by decide)).mpr rfl⟩

/-- Two channels on one cpu: the worker of channel `0` releases before channel `1`
is armed, and the wait returns while the worker of channel `1` is still starting. -/
theorem wait_til_zero_early :
    ¬ ∀ s, (startAllThreads 2 1).Reachable s → s.main = .verify → AllReleased s := by
  intro hall
  have h₀ : (startAllThreads 2 1).Reachable ⟨wtzInit, .chan 0, fun _ _ => none⟩ := .init rfl
  have h₁ := h₀.step (Step.arm rfl (by decide))
  have h₂ := h₁.step (Step.create rfl (by decide))
  have h₃ := h₂.step (Step.sub (c := 0) (i := 0) rfl)
  have h₄ := h₃.step (Step.post (c := 0) (i := 0) rfl)
  have h₅ := h₄.step (Step.next rfl (by decide))
  have h₆ := h₅.step (Step.arm rfl (by decide))
  have h₇ := h₆.step (Step.create rfl (by decide))
  have h₈ := h₇.step (Step.next rfl (by decide))
  have h₉ := h₈.step (Step.wait rfl (by decide) rfl)
  exact hall _ h₉ rfl 1 0 rfl

end Zus.Wtz
