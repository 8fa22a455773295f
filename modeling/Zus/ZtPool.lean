import Zus.Lib.Threads

/-!
# The end of the ZT threads

`zus_stop_all_threads` goes through the channels. In each it sets `stop` of all workers, has the
kernel break their waits, through the file of the worker of cpu zero, and joins them. It is called
when the start of a worker fails, while the others are anywhere in their code, and when the daemon
ends.

Whom `ZU_IOC_BREAK_ALL` reaches is the kernel's: a parameter says it for every place of the worker
whose file is used and every place of another one. A worker that has read `stop` as false and is not
in its wait yet has a place of its own, so that a kernel that wakes only those that wait is a value
of the parameter too. The wait for all workers to start is a module of its own; here the main thread
may go on at any time.
-/

namespace Zus.ZtPool

open Zus.Lib Function

/-! ## The code -/

/-- Where a worker is in `_zu_thread`. -/
inductive Pc
  /-- not created -/
  | absent
  /-- at `zuf_root_open_tmp` -/
  | opening
  /-- at `zuf_zt_init` -/
  | initing
  /-- at `_zu_mmap` -/
  | mapping
  /-- at `_zu_ioc_buff_mmap` -/
  | buffing
  /-- at the test of `zt->stop` -/
  | testing
  /-- behind the test, on the way into the kernel -/
  | entering
  /-- in `zuf_wait_opt` -/
  | waiting
  /-- in `_do_op` -/
  | serving
  /-- behind the loop: its mappings and its file are given back -/
  | leaving
  | exited
  /-- at the end of the label `fail`, with a file or without -/
  | failed (file : Bool)
  deriving DecidableEq

/-- `zt->fd` is a file that `zuf_root_open_tmp` opened. Before that it is 0, by `calloc`: an open
file as a rule, but none of the root. -/
def Pc.hasFile : Pc → Bool
  | .initing | .mapping | .buffing | .testing | .entering | .waiting | .serving | .leaving => true
  | .failed file => file
  | .absent | .opening | .exited => false

/-- Past the test of `stop` and not at work. -/
def Pc.waits : Pc → Bool
  | .entering | .waiting => true
  | .absent | .opening | .initing | .mapping | .buffing | .testing | .serving | .leaving | .exited
  | .failed _ => false

/-- A join returns, or there is nothing to join. -/
def Pc.ended : Pc → Bool
  | .absent | .exited | .failed _ => true
  | .opening | .initing | .mapping | .buffing | .testing | .entering | .waiting | .serving
  | .leaving => false

/-- `struct _zu_thread`. -/
structure Worker where
  pc : Pc := .absent
  stop : Bool := false
  /-- the kernel has a break for the worker -/
  broken : Bool := false

/-- A turn of a worker, and whether the call it is at succeeds. -/
def Worker.turn (w : Worker) (ok : Bool) : Option Worker :=
  match w.pc with
  | .opening => some { w with pc := if ok then .initing else .failed false }
  | .initing => some { w with pc := if ok then .mapping else .failed true }
  | .mapping => some { w with pc := if ok then .buffing else .failed true }
  | .buffing => some { w with pc := if ok then .testing else .failed true }
  | .testing => some { w with pc := if w.stop then .leaving else .entering }
  | .entering => some { w with pc := .waiting }
  | .waiting => if w.broken then some { w with pc := .serving, broken := false } else none
  -- a wait that was broken is served like a request
  | .serving => some { w with pc := .testing }
  | .leaving => some { w with pc := .exited }
  | .absent | .exited | .failed _ => none

/-- Where the main thread is. -/
inductive Main
  /-- at the `calloc` of `_zus_start_chan_threads` -/
  | chan (c : ℕ)
  /-- at `__zus_thread_create` -/
  | create (c i : ℕ)
  /-- all workers are created -/
  | running
  /-- in `_zus_stop_chan_threads`, setting `stop` -/
  | setting (c i : ℕ)
  /-- at `zuf_break_all` -/
  | breaking (c : ℕ)
  /-- at `pthread_join` -/
  | joining (c i : ℕ)
  /-- behind `zus_stop_all_threads` -/
  | stopped
  deriving DecidableEq

/-- `g_ztp`. -/
structure Pool where
  main : Main := .chan 0
  /-- the channels that have their `zts` -/
  allocd : ℕ := 0
  /-- the workers, channel after channel -/
  zts : ℕ → Worker := fun _ => {}
  /-- the break of the channel was asked for through an open file of the root -/
  hit : ℕ → Bool := fun _ => false

/-- The kernel's part in a break: whether one through the file of a worker at the first place
reaches a worker at the second. It ends the wait the worker is in, or else the next one. -/
abbrev Wakes := Pc → Pc → Bool

section

variable (wakes : Wakes) (chans cpus : ℕ) (online : ℕ → Bool) (s : Pool)

/-- The place of `zts[c][i]`. -/
def slot (c i : ℕ) : ℕ := c * cpus + i

/-- The worker `zts[c][i]`. -/
def Pool.zt (c i : ℕ) : Worker := s.zts (slot cpus c i)

/-- `zuf_break_all`, through the file of a worker at `z`. -/
def Pool.breakAll (z : Pc) : ℕ → Worker := fun w =>
  { s.zts w with broken := (s.zts w).broken || wakes z (s.zts w).pc }

/-- A turn of the main thread, and whether the call it is at succeeds. -/
def mainTurn (ok : Bool) : Option Pool :=
  match s.main with
  | .chan c =>
    if c < chans then
      if ok then some { s with main := .create c 0, allocd := c + 1 }
      else some { s with main := .setting 0 0 }
    else some { s with main := .running }
  | .create c i =>
    if i < cpus then
      if online i then
        if ok then
          some { s with
            main := .create c (i + 1)
            zts := update s.zts (slot cpus c i) { s.zt cpus c i with pc := .opening } }
        else some { s with main := .setting 0 0 }
      else some { s with main := .create c (i + 1) }
    else some { s with main := .chan (c + 1) }
  | .running => some { s with main := .setting 0 0 }
  | .setting c i =>
    if c < chans then
      if c < s.allocd then
        if i < cpus then
          some { s with
            main := .setting c (i + 1)
            zts := update s.zts (slot cpus c i) { s.zt cpus c i with stop := true } }
        else some { s with main := .breaking c }
      else some { s with main := .setting (c + 1) 0 }
    else some { s with main := .stopped }
  | .breaking c =>
    let z := (s.zt cpus c 0).pc
    some { s with
      main := .joining c 0
      zts := s.breakAll wakes z
      hit := update s.hit c z.hasFile }
  | .joining c i =>
    if i < cpus then
      if (s.zt cpus c i).pc.ended then some { s with main := .joining c (i + 1) } else none
    else some { s with main := .setting (c + 1) 0 }
  | .stopped => none

/-- Whose turn it is, and whether the call it is at succeeds. -/
inductive Turn
  | main (ok : Bool)
  | worker (w : ℕ) (ok : Bool)

/-- The state after a turn. -/
def turn : Turn → Option Pool
  | .main ok => mainTurn wakes chans cpus online s ok
  | .worker w ok => ((s.zts w).turn ok).map fun w' => { s with zts := update s.zts w w' }

/-- What happens: a turn, or the kernel has something for a worker that waits. -/
inductive Act
  | turn (t : Turn)
  | request (w : ℕ)

def next : Act → Option Pool
  | .turn t => turn wakes chans cpus online s t
  | .request w =>
    if (s.zts w).pc = .waiting then
      some { s with zts := update s.zts w { s.zts w with pc := .serving } }
    else none

end

/-- The start and the end of the workers of `chans` channels on the cpus that are online. -/
def ztPool (wakes : Wakes) (chans cpus : ℕ) (online : ℕ → Bool) : Lts Pool Act :=
  .ofNext (fun s => s = {}) fun s => next wakes chans cpus online s

/-- A break through an open file of the root reaches every worker that is in its wait or on the way
there. -/
def Wakes.ReachesWaits (wakes : Wakes) : Prop :=
  ∀ z p, z.hasFile = true → p.waits = true → wakes z p = true

/-- The worker is in a wait that nothing but a request ends. -/
def Worker.Sleeps (w : Worker) : Prop := w.pc = .waiting ∧ w.broken = false

/-! ## Turns come to an end -/

variable {wakes : Wakes} {chans cpus : ℕ} {online : ℕ → Bool} {s s' : Pool} {w w' : Worker}
  {ok : Bool} {c i j : ℕ}

/-- The turns a worker has left, a break counted. -/
def Worker.rank (w : Worker) : ℕ :=
  let b := if w.broken then 4 else 0
  match w.pc with
  | .absent | .exited | .failed _ => 0
  | .leaving => 1
  | .waiting => 1 + b
  | .entering => 2 + b
  | .testing => 3 + b
  | .serving | .buffing => 4 + b
  | .mapping => 5 + b
  | .initing => 6 + b
  | .opening => 7 + b

theorem Worker.rank_le (w : Worker) : w.rank ≤ 11 := by
  obtain ⟨pc, stop, broken⟩ := w
  cases pc <;> cases broken <;> exact Nat.le_of_ble_eq_true rfl

theorem Worker.turn_lowers (h : w.turn ok = some w') : w'.rank < w.rank := by
  obtain ⟨pc, stop, broken⟩ := w
  cases pc <;> simp only [Worker.turn, reduceCtorEq] at h
  case waiting =>
    split at h
    · next hb =>
      obtain rfl := Option.some.inj h
      simp only [Worker.rank] at hb ⊢
      simp [hb]
    · cases h
  all_goals
    obtain rfl := Option.some.inj h
    cases ok <;> cases stop <;> cases broken <;> decide

/-- The turns the main thread has left. -/
def Main.rank (chans cpus : ℕ) : Main → ℕ
  | .chan c => (chans - c) * (cpus + 2) + (chans * (2 * cpus + 3) + cpus + 3)
  | .create c i => (chans - (c + 1)) * (cpus + 2) + (cpus - i) + (chans * (2 * cpus + 3) + cpus + 4)
  | .running => chans * (2 * cpus + 3) + cpus + 2
  | .setting c i => (chans - c) * (2 * cpus + 3) + (cpus - i) + 1
  | .breaking c => (chans - (c + 1)) * (2 * cpus + 3) + 2 * cpus + 3
  | .joining c i => (chans - (c + 1)) * (2 * cpus + 3) + (cpus - i) + cpus + 2
  | .stopped => 0

theorem sub_mul_succ (h : c < chans) (k : ℕ) : (chans - c) * k = (chans - (c + 1)) * k + k := by
  rw [← Nat.succ_mul]
  congr 1
  omega

theorem mainTurn_lowers (h : mainTurn wakes chans cpus online s ok = some s') :
    s'.main.rank chans cpus < s.main.rank chans cpus := by
  unfold mainTurn at h
  cases hm : s.main with
  | chan c =>
    simp only [hm] at h
    split_ifs at h <;> obtain rfl := Option.some.inj h <;> simp only [Main.rank]
    · rw [sub_mul_succ ‹c < chans›]
      omega
    · simp only [Nat.sub_zero]
      omega
    · omega
  | create c i =>
    simp only [hm] at h
    split_ifs at h <;> obtain rfl := Option.some.inj h <;> simp only [Main.rank, Nat.sub_zero]
      <;> omega
  | running =>
    simp only [hm] at h
    obtain rfl := Option.some.inj h
    simp only [Main.rank, Nat.sub_zero]
    omega
  | setting c i =>
    simp only [hm] at h
    split_ifs at h <;> obtain rfl := Option.some.inj h <;> simp only [Main.rank]
    · omega
    · rw [sub_mul_succ ‹c < chans›]
      omega
    · rw [sub_mul_succ ‹c < chans›]
      omega
    · omega
  | breaking c =>
    simp only [hm] at h
    obtain rfl := Option.some.inj h
    simp only [Main.rank]
    omega
  | joining c i =>
    simp only [hm] at h
    split_ifs at h <;> obtain rfl := Option.some.inj h <;> simp only [Main.rank] <;> omega
  | stopped =>
    simp only [hm] at h
    cases h

/-! ## What the main thread has done -/

/-- `stop` of a worker is set. -/
def Main.pastSet : Main → ℕ → ℕ → Prop
  | .setting c' i', c, i => c < c' ∨ c = c' ∧ i < i'
  | .breaking c', c, _ => c ≤ c'
  | .joining c' _, c, _ => c ≤ c'
  | .stopped, _, _ => True
  | .chan _, _, _ | .create _ _, _, _ | .running, _, _ => False

/-- A worker is joined. -/
def Main.pastJoin : Main → ℕ → ℕ → Prop
  | .setting c' _, c, _ => c < c'
  | .breaking c', c, _ => c < c'
  | .joining c' i', c, i => c < c' ∨ c = c' ∧ i < i'
  | .stopped, _, _ => True
  | .chan _, _, _ | .create _ _, _, _ | .running, _, _ => False

/-- The channel the main thread is at has its workers. -/
def Main.Bounded (allocd : ℕ) : Main → Prop
  | .chan c => allocd ≤ c
  | .create c _ => allocd = c + 1
  | .breaking c | .joining c _ => c < allocd
  | .setting _ _ | .running | .stopped => True

/-- The pool at any time. -/
structure Inv (wakes : Wakes) (chans cpus : ℕ) (s : Pool) : Prop where
  allocd_le : s.allocd ≤ chans
  bounded : s.main.Bounded s.allocd
  /-- there are no workers without a channel -/
  absent : ∀ w, s.allocd * cpus ≤ w → (s.zts w).pc = .absent
  stop : ∀ c < s.allocd, ∀ i < cpus, s.main.pastSet c i → (s.zt cpus c i).stop = true
  ended : ∀ c < chans, ∀ i < cpus, s.main.pastJoin c i → (s.zt cpus c i).pc.ended = true
  hit : ∀ c, s.hit c = true → s.main.pastSet c cpus
  /-- a break that hit leaves no worker asleep, if it reaches those that wait -/
  awake : ∀ c, s.hit c = true → ∀ i < cpus,
    (s.zt cpus c i).stop = true ∧
      (wakes.ReachesWaits → (s.zt cpus c i).pc.waits = true → (s.zt cpus c i).broken = true)

theorem slot_lt (hc : c < j) (hi : i < cpus) : slot cpus c i < j * cpus := by
  have hle : (c + 1) * cpus ≤ j * cpus := Nat.mul_le_mul_right _ hc
  rw [Nat.succ_mul] at hle
  unfold slot
  omega

/-- A channel without workers. -/
theorem Inv.absent_zt (h : Inv wakes chans cpus s) (hc : s.allocd ≤ c) :
    (s.zt cpus c i).pc = .absent :=
  h.absent _ ((Nat.mul_le_mul_right _ hc).trans (Nat.le_add_right _ _))

/-- A worker moves: no `stop` is taken back, none comes to life, and one that is to stop does not go
to sleep. -/
theorem Inv.move (h : Inv wakes chans cpus s) {n : ℕ}
    (hstop : (s.zts n).stop = true → w.stop = true)
    (hended : (s.zts n).pc.ended = true → w.pc.ended = true)
    (habsent : (s.zts n).pc = .absent → w.pc = .absent)
    (hawake : (s.zts n).stop = true → ((s.zts n).pc.waits = true → (s.zts n).broken = true) →
      w.pc.waits = true → w.broken = true) :
    Inv wakes chans cpus { s with zts := update s.zts n w } := by
  have hcases : ∀ m, m = n ∧ update s.zts n w m = w ∨ update s.zts n w m = s.zts m := by
    intro m
    by_cases hm : m = n
    · subst hm
      exact .inl ⟨rfl, update_self ..⟩
    · exact .inr (update_of_ne hm ..)
  refine ⟨h.allocd_le, h.bounded, fun m hm => ?_, fun c hc i hi hpast => ?_,
    fun c hc i hi hpast => ?_, h.hit, fun c hhit i hi => ?_⟩
  · obtain ⟨rfl, heq⟩ | heq := hcases m <;> simp only [heq]
    · exact habsent (h.absent m hm)
    · exact h.absent m hm
  · have hold := h.stop c hc i hi hpast
    obtain ⟨hn, heq⟩ | heq := hcases (slot cpus c i) <;> simp only [Pool.zt, heq]
    · exact hstop (hn ▸ hold)
    · exact hold
  · have hold := h.ended c hc i hi hpast
    obtain ⟨hn, heq⟩ | heq := hcases (slot cpus c i) <;> simp only [Pool.zt, heq]
    · exact hended (hn ▸ hold)
    · exact hold
  · obtain ⟨hold, hwake⟩ := h.awake c hhit i hi
    obtain ⟨hn, heq⟩ | heq := hcases (slot cpus c i) <;> simp only [Pool.zt, heq]
    · subst hn
      exact ⟨hstop hold, fun hreach => hawake hold (hwake hreach)⟩
    · exact ⟨hold, hwake⟩

/-- What a turn of a worker does. -/
theorem Worker.turn_spec (h : w.turn ok = some w') :
    w'.stop = w.stop ∧ w.pc.ended = false ∧
      (w'.pc.waits = true → w.stop = false ∨ w.pc.waits = true ∧ w'.broken = w.broken) := by
  obtain ⟨pc, stop, broken⟩ := w
  cases pc <;> simp only [Worker.turn, reduceCtorEq] at h
  case waiting =>
    split at h
    · obtain rfl := Option.some.inj h
      exact ⟨rfl, rfl, Bool.noConfusion⟩
    · cases h
  case entering =>
    obtain rfl := Option.some.inj h
    exact ⟨rfl, rfl, fun _ => .inr ⟨rfl, rfl⟩⟩
  all_goals
    obtain rfl := Option.some.inj h
    exact ⟨rfl, rfl, by cases ok <;> cases stop <;> simp [Pc.waits]⟩

theorem Inv.worker (h : Inv wakes chans cpus s) {n : ℕ} (hw : (s.zts n).turn ok = some w) :
    Inv wakes chans cpus { s with zts := update s.zts n w } := by
  obtain ⟨hstop, hended, hwait⟩ := Worker.turn_spec hw
  refine h.move (fun hs => hstop.trans hs) (fun he => ?_) (fun ha => ?_) fun hs hwake hpc => ?_
  · cases hended.symm.trans he
  · rw [ha] at hended
    cases hended
  · rcases hwait hpc with hgo | ⟨hold, hbroken⟩
    · cases hgo.symm.trans hs
    · exact hbroken.trans (hwake hold)

theorem Inv.request (h : Inv wakes chans cpus s) {n : ℕ} (hw : (s.zts n).pc = .waiting) :
    Inv wakes chans cpus { s with zts := update s.zts n { s.zts n with pc := .serving } } := by
  refine h.move id (fun he => ?_) (fun ha => ?_) fun _ _ hpc => ?_
  · rw [hw] at he
    cases he
  · cases hw.symm.trans ha
  · cases hpc

/-- The main thread goes on. -/
theorem Inv.goto (h : Inv wakes chans cpus s) {m : Main} (hb : m.Bounded s.allocd)
    (hset : ∀ c < s.allocd, ∀ i < cpus, m.pastSet c i →
      s.main.pastSet c i ∨ (s.zt cpus c i).stop = true)
    (hjoin : ∀ c < chans, ∀ i < cpus, m.pastJoin c i →
      s.main.pastJoin c i ∨ (s.zt cpus c i).pc.ended = true)
    (hhit : ∀ c, s.main.pastSet c cpus → m.pastSet c cpus) :
    Inv wakes chans cpus { s with main := m } where
  allocd_le := h.allocd_le
  bounded := hb
  absent := h.absent
  stop c hc i hi hpast := (hset c hc i hi hpast).elim (h.stop c hc i hi) id
  ended c hc i hi hpast := (hjoin c hc i hi hpast).elim (h.ended c hc i hi) id
  hit c hc := hhit c (h.hit c hc)
  awake := h.awake

/-- The stop begins. -/
theorem Inv.stop_begins (h : Inv wakes chans cpus s) (hm : ∀ c i, ¬ s.main.pastSet c i) :
    Inv wakes chans cpus { s with main := .setting 0 0 } :=
  h.goto trivial (by simp [Main.pastSet]) (by simp [Main.pastJoin])
    fun c hc => absurd hc (hm c cpus)

/-- Before the stop the main thread goes on. -/
theorem Inv.start_goes (h : Inv wakes chans cpus s) {m : Main} (hm : ∀ c i, ¬ s.main.pastSet c i)
    (hb : m.Bounded s.allocd) (hset : ∀ c i, ¬ m.pastSet c i) (hjoin : ∀ c i, ¬ m.pastJoin c i) :
    Inv wakes chans cpus { s with main := m } :=
  h.goto hb (fun c _ i _ hp => absurd hp (hset c i)) (fun c _ i _ hp => absurd hp (hjoin c i))
    fun c hc => absurd hc (hm c cpus)

/-- A channel gets its workers. -/
theorem Inv.alloc (h : Inv wakes chans cpus s) (hm : s.main = .chan c) (hc : c < chans) :
    Inv wakes chans cpus { s with main := .create c 0, allocd := c + 1 } where
  allocd_le := hc
  bounded := rfl
  absent w hw := by
    have hle : s.allocd ≤ c := by simpa [hm, Main.Bounded] using h.bounded
    exact h.absent w ((Nat.mul_le_mul_right cpus (hle.trans (Nat.le_succ c))).trans hw)
  stop _ _ _ _ hpast := hpast.elim
  ended _ _ _ _ hpast := hpast.elim
  hit c' hhit := by
    have := h.hit c' hhit
    rw [hm] at this
    exact this
  awake := h.awake

/-- A worker is created. -/
theorem Inv.create (h : Inv wakes chans cpus s) (hm : s.main = .create c i) (hi : i < cpus) :
    Inv wakes chans cpus { s with
      main := .create c (i + 1)
      zts := update s.zts (slot cpus c i) { s.zt cpus c i with pc := .opening } } where
  allocd_le := h.allocd_le
  bounded := by simpa [hm, Main.Bounded] using h.bounded
  absent w hw := by
    have hb : s.allocd = c + 1 := by simpa [hm, Main.Bounded] using h.bounded
    have hlt : slot cpus c i < s.allocd * cpus := slot_lt (by omega) hi
    have hne : w ≠ slot cpus c i := (hlt.trans_le hw).ne'
    change (update s.zts _ _ w).pc = _
    rw [update_of_ne hne]
    exact h.absent w hw
  stop _ _ _ _ hpast := hpast.elim
  ended _ _ _ _ hpast := hpast.elim
  hit c' hhit := by
    have := h.hit c' hhit
    rw [hm] at this
    exact this
  awake c' hhit := by
    have := h.hit c' hhit
    rw [hm] at this
    exact this.elim

/-- A break that reaches the kernel. -/
theorem Inv.break (h : Inv wakes chans cpus s) (hm : s.main = .breaking c) :
    Inv wakes chans cpus { s with
      main := .joining c 0
      zts := s.breakAll wakes (s.zt cpus c 0).pc
      hit := update s.hit c (s.zt cpus c 0).pc.hasFile } where
  allocd_le := h.allocd_le
  bounded := by simpa [hm, Main.Bounded] using h.bounded
  absent := h.absent
  stop c' hc' i hi hpast := h.stop c' hc' i hi (by rw [hm]; exact hpast)
  ended c' hc' i hi hpast := h.ended c' hc' i hi (by
    rw [hm]
    simpa [Main.pastJoin] using hpast)
  hit c' hhit := by
    by_cases hc : c' = c
    · exact hc.le
    · have := h.hit c' (by simpa [hc] using hhit)
      rw [hm] at this
      exact this
  awake c' hhit i hi := by
    refine ⟨?_, fun hreach hpc => ?_⟩
    · by_cases hc : c' = c
      · subst hc
        exact h.stop c' (by simpa [hm, Main.Bounded] using h.bounded) i hi (by
          rw [hm]
          exact le_rfl)
      · exact (h.awake c' (by simpa [hc] using hhit) i hi).1
    · change (_ || wakes _ (s.zts (slot cpus c' i)).pc) = true
      by_cases hc : c' = c
      · subst hc
        have hfile : (s.zt cpus c' 0).pc.hasFile = true := by simpa using hhit
        exact Bool.or_eq_true_iff.mpr (.inr (hreach _ _ hfile hpc))
      · have hhit : s.hit c' = true := by simpa [hc] using hhit
        exact Bool.or_eq_true_iff.mpr (.inl ((h.awake c' hhit i hi).2 hreach hpc))

theorem Inv.mainTurn (h : Inv wakes chans cpus s)
    (ht : mainTurn wakes chans cpus online s ok = some s') :
    Inv wakes chans cpus s' := by
  unfold ZtPool.mainTurn at ht
  have hb := h.bounded
  have hle := h.allocd_le
  cases hm : s.main with
  | chan c =>
    have hnone : ∀ c i, ¬ s.main.pastSet c i := by simp [hm, Main.pastSet]
    simp only [hm] at ht
    split_ifs at ht <;> obtain rfl := Option.some.inj ht
    · exact h.alloc hm ‹_›
    · exact h.stop_begins hnone
    · exact h.start_goes hnone trivial (by simp [Main.pastSet]) (by simp [Main.pastJoin])
  | create c i =>
    have hnone : ∀ c i, ¬ s.main.pastSet c i := by simp [hm, Main.pastSet]
    rw [hm] at hb
    simp only [hm] at ht
    split_ifs at ht <;> obtain rfl := Option.some.inj ht
    · exact h.create hm ‹_›
    · exact h.stop_begins hnone
    · exact h.start_goes hnone hb (by simp [Main.pastSet]) (by simp [Main.pastJoin])
    · exact h.start_goes hnone hb.le (by simp [Main.pastSet]) (by simp [Main.pastJoin])
  | running =>
    simp only [hm] at ht
    obtain rfl := Option.some.inj ht
    exact h.stop_begins (by simp [hm, Main.pastSet])
  | setting c i =>
    simp only [hm] at ht
    split_ifs at ht <;> obtain rfl := Option.some.inj ht
    · have hset : Inv wakes chans cpus { s with
          zts := update s.zts (slot cpus c i) { s.zt cpus c i with stop := true } } :=
        h.move (fun _ => rfl) id id fun _ hw => hw
      refine hset.goto trivial (fun c' _ i' _ hpast => ?_) (fun c' _ i' _ hpast => .inl ?_)
        fun c' hpast => ?_
      · rw [hm]
        rcases hpast with hlt | ⟨rfl, hlt⟩
        · exact .inl (.inl hlt)
        · rcases Nat.lt_succ_iff_lt_or_eq.mp hlt with hlt | rfl
          · exact .inl (.inr ⟨rfl, hlt⟩)
          · refine .inr ?_
            simp [Pool.zt]
      · rw [hm]
        exact hpast
      · rw [hm] at hpast
        exact hpast.imp_right fun hp => ⟨hp.1, hp.2.trans (Nat.lt_succ_self _)⟩
    · refine h.goto ‹_› (fun c' _ i' hi' hpast => .inl ?_) (fun c' _ i' _ hpast => .inl ?_)
        fun c' hpast => ?_ <;> rw [hm] at *
      · rcases Nat.lt_or_eq_of_le hpast with hlt | rfl
        · exact .inl hlt
        · exact .inr ⟨rfl, by omega⟩
      · exact hpast
      · exact hpast.elim le_of_lt fun hp => hp.1.le
    · refine h.goto trivial (fun c' hc' i' _ hpast => .inl ?_) (fun c' _ i' _ hpast => ?_)
        fun c' hpast => ?_ <;> rw [hm] at *
      · refine .inl ?_
        have : c' < c + 1 := hpast.elim id fun hp => by omega
        omega
      · rcases Nat.lt_succ_iff_lt_or_eq.mp hpast with hlt | rfl
        · exact .inl hlt
        · refine .inr ?_
          rw [h.absent_zt (Nat.le_of_not_lt ‹_›)]
          rfl
      · exact .inl (hpast.elim (fun hp => hp.trans (Nat.lt_succ_self c))
          fun hp => hp.1 ▸ Nat.lt_succ_self _)
    · refine h.goto trivial (fun c' hc' i' _ hpast => .inl ?_) (fun c' hc' i' _ hpast => .inl ?_)
        fun c' hpast => trivial <;> rw [hm]
      · exact .inl (by omega)
      · exact lt_of_lt_of_le hc' (Nat.le_of_not_lt ‹_›)
  | breaking c =>
    rw [hm] at hb
    simp only [hm] at ht
    obtain rfl := Option.some.inj ht
    exact h.break hm
  | joining c i =>
    rw [hm] at hb
    simp only [hm] at ht
    split_ifs at ht <;> obtain rfl := Option.some.inj ht
    · refine h.goto hb (fun c' _ i' _ hpast => .inl ?_) (fun c' _ i' _ hpast => ?_)
        fun c' hpast => ?_ <;> rw [hm] at *
      · exact hpast
      · rcases hpast with hlt | ⟨rfl, hlt⟩
        · exact .inl (.inl hlt)
        · rcases Nat.lt_succ_iff_lt_or_eq.mp hlt with hlt | rfl
          · exact .inl (.inr ⟨rfl, hlt⟩)
          · exact .inr ‹_›
      · exact hpast
    · refine h.goto trivial (fun c' _ i' _ hpast => .inl ?_) (fun c' _ i' hi' hpast => .inl ?_)
        fun c' hpast => ?_ <;> rw [hm] at *
      · exact hpast.elim Nat.le_of_lt_succ fun hp => absurd hp.2 (Nat.not_lt_zero _)
      · rcases Nat.lt_succ_iff_lt_or_eq.mp hpast with hlt | rfl
        · exact .inl hlt
        · exact .inr ⟨rfl, by omega⟩
      · exact .inl (Nat.lt_succ_of_le hpast)
  | stopped =>
    simp only [hm] at ht
    cases ht

theorem Inv.turn (h : Inv wakes chans cpus s) {t : Turn}
    (ht : turn wakes chans cpus online s t = some s') :
    Inv wakes chans cpus s' := by
  cases t with
  | main ok => exact h.mainTurn ht
  | worker n ok =>
    obtain ⟨w, hw, rfl⟩ := Option.map_eq_some_iff.mp ht
    exact h.worker hw

/-- The invariant, of every start and stop. -/
theorem Inv.of_reachable (hs : (ztPool wakes chans cpus online).Reachable s) :
    Inv wakes chans cpus s := by
  refine hs.invariant (fun s₀ hinit => ?_) fun s a s' h hnext => ?_
  · subst hinit
    exact ⟨Nat.zero_le _, le_rfl, fun _ _ => rfl, fun _ hc => absurd hc (Nat.not_lt_zero _),
      fun _ _ _ _ hp => hp.elim, fun _ hc => Bool.noConfusion hc, fun _ hc => Bool.noConfusion hc⟩
  · cases a with
    | turn t => exact h.turn hnext
    | request n =>
      change (if _ then _ else _) = _ at hnext
      split at hnext
      · next hw =>
        obtain rfl := Option.some.inj hnext
        exact h.request hw
      · cases hnext

/-! ## Where it ends -/

/-- The turns of main and of the workers that are left. -/
def Pool.rank (chans cpus : ℕ) (s : Pool) : ℕ :=
  s.main.rank chans cpus * (11 * (chans * cpus) + 1) + work Worker.rank (chans * cpus) s.zts

theorem Inv.turn_lowers (h : Inv wakes chans cpus s) {t : Turn}
    (ht : ZtPool.turn wakes chans cpus online s t = some s') :
    s'.rank chans cpus < s.rank chans cpus := by
  cases t with
  | main ok =>
    have hmain := mainTurn_lowers ht
    have hwork := work_le Worker.rank_le (chans * cpus) s'.zts
    have hmul := Nat.mul_le_mul_right (11 * (chans * cpus) + 1) hmain
    rw [Nat.succ_mul] at hmul
    unfold Pool.rank
    omega
  | worker n ok =>
    obtain ⟨w, hw, rfl⟩ := Option.map_eq_some_iff.mp ht
    refine Nat.add_lt_add_left (work_update_lt ?_ (Worker.turn_lowers hw)) _
    refine Nat.lt_of_not_le fun hle => ?_
    have habsent := h.absent n ((Nat.mul_le_mul_right cpus h.allocd_le).trans hle)
    have hended := (Worker.turn_spec hw).2.1
    rw [habsent] at hended
    cases hended

/-- A worker that has no turn has ended, or sleeps. -/
theorem Worker.ended_or_sleeps (h : w.turn true = none) : w.pc.ended = true ∨ w.Sleeps := by
  obtain ⟨pc, stop, broken⟩ := w
  cases pc <;> simp only [Worker.turn, reduceCtorEq] at h
  case waiting =>
    refine .inr ⟨rfl, ?_⟩
    split at h
    · cases h
    · next hb => simpa using hb
  all_goals exact .inl rfl

/-- Where nothing has a turn, the stop has ended, or the main thread joins a worker that sleeps. -/
theorem Inv.stopped_or_joins (h : Inv wakes chans cpus s)
    (hstuck : ∀ t, ZtPool.turn wakes chans cpus online s t = none) :
    s.main = .stopped ∨ ∃ c i, c < chans ∧ i < cpus ∧ s.main = .joining c i ∧
      (s.zt cpus c i).Sleeps ∧ (wakes.ReachesWaits → s.hit c = false) := by
  have hmain : ZtPool.mainTurn wakes chans cpus online s true = none := hstuck (.main true)
  unfold ZtPool.mainTurn at hmain
  cases hm : s.main with
  | stopped => exact .inl rfl
  | joining c i =>
    have hb := h.bounded
    rw [hm] at hb
    simp only [hm] at hmain
    split_ifs at hmain
    next hi hended =>
    have hturn : (s.zt cpus c i).turn true = none := by
      have := hstuck (.worker (slot cpus c i) true)
      exact Option.map_eq_none_iff.mp this
    have hsleeps := (Worker.ended_or_sleeps hturn).resolve_left hended
    refine .inr ⟨c, i, lt_of_lt_of_le hb h.allocd_le, hi, rfl, hsleeps, ?_⟩
    intro hreach
    rw [Bool.eq_false_iff]
    intro hhit
    have hbroken := (h.awake c hhit i hi).2 hreach (congrArg Pc.waits hsleeps.1)
    cases hbroken.symm.trans hsleeps.2
  | running | breaking =>
    simp only [hm] at hmain
    cases hmain
  | _ =>
    simp only [hm] at hmain
    split_ifs at hmain

/-- A worker that sleeps is joined before it wakes. -/
def Pool.Hangs (cpus : ℕ) (s : Pool) (c i : ℕ) : Prop :=
  (∃ j ≤ i, s.main = .joining c j) ∧ (s.zt cpus c i).Sleeps

theorem Inv.hangs (h : Inv wakes chans cpus s) (hi : i < cpus) (hm : s.main = .joining c j)
    (hw : (s.zt cpus c i).Sleeps) : s.Hangs cpus c i := by
  refine ⟨⟨j, Nat.le_of_not_lt fun hij => ?_, hm⟩, hw⟩
  have hb := h.bounded
  rw [hm] at hb
  have hended := h.ended c (hb.trans_le h.allocd_le) i hi (by
    rw [hm]
    exact .inr ⟨rfl, hij⟩)
  rw [hw.1] at hended
  cases hended

/-- Only a request could end it. -/
theorem Pool.Hangs.turn (h : s.Hangs cpus c i) (hi : i < cpus) {t : Turn}
    (ht : turn wakes chans cpus online s t = some s') : s'.Hangs cpus c i := by
  obtain ⟨⟨j, hj, hm⟩, hw⟩ := h
  cases t with
  | main ok =>
    change ZtPool.mainTurn wakes chans cpus online s ok = _ at ht
    simp only [ZtPool.mainTurn, hm] at ht
    rw [if_pos (hj.trans_lt hi)] at ht
    split_ifs at ht with hended
    obtain rfl := Option.some.inj ht
    have hne : j ≠ i := by
      rintro rfl
      rw [hw.1] at hended
      cases hended
    exact ⟨⟨j + 1, Nat.lt_of_le_of_ne hj hne, rfl⟩, hw⟩
  | worker n ok =>
    obtain ⟨w, hn, rfl⟩ := Option.map_eq_some_iff.mp ht
    refine ⟨⟨j, hj, hm⟩, ?_⟩
    have hne : slot cpus c i ≠ n := by
      rintro rfl
      have hpc : (s.zts (slot cpus c i)).pc = .waiting := hw.1
      have hb : (s.zts (slot cpus c i)).broken = false := hw.2
      simp [Worker.turn, hpc, hb] at hn
    change (update s.zts n w _).Sleeps
    rw [update_of_ne hne]
    exact hw

theorem Pool.Hangs.run (h : s.Hangs cpus c i) (hi : i < cpus) {ts : List Turn}
    (hrun : Lts.runAll (ZtPool.turn wakes chans cpus online) ts s = some s') :
    s'.Hangs cpus c i := by
  induction ts generalizing s with
  | nil =>
    obtain rfl := Option.some.inj hrun
    exact h
  | cons t ts ih =>
    obtain ⟨s₁, ht, hrun⟩ := Option.bind_eq_some_iff.mp hrun
    exact ih (h.turn hi ht) hrun

/-- Without requests the threads run out of turns, however they take them. Then the stop is over
and every worker has ended, or main joins a worker that sleeps; there, if a break reaches those that
wait, the break of the channel went through no open file of the root. Once main joins a channel with
a worker that sleeps, the stop does not end. -/
theorem pool_stops (hs : (ztPool wakes chans cpus online).Reachable s) {ts : List Turn}
    (hrun : Lts.runAll (turn wakes chans cpus online) ts s = some s') :
    ts.length ≤ s.rank chans cpus ∧
    ((∀ t, turn wakes chans cpus online s' t = none) →
      (s'.main = .stopped ∧ ∀ c < chans, ∀ i < cpus, (s'.zt cpus c i).pc.ended = true) ∨
      ∃ c i, c < chans ∧ i < cpus ∧ s'.main = .joining c i ∧ (s'.zt cpus c i).Sleeps ∧
        (wakes.ReachesWaits → s'.hit c = false)) ∧
    ∀ c j i, i < cpus → s.main = .joining c j → (s.zt cpus c i).Sleeps → s'.main ≠ .stopped := by
  have hinv := Inv.of_reachable hs
  obtain ⟨hinv', hlen⟩ := runAll_lowers (I := Inv wakes chans cpus) (m := Pool.rank chans cpus)
    (fun s t s' h ht => ⟨h.turn ht, h.turn_lowers ht⟩) hinv hrun
  refine ⟨by omega, fun hstuck => ?_, fun c j i hi hm hw hstopped => ?_⟩
  · refine (hinv'.stopped_or_joins hstuck).imp_left fun hm => ⟨hm, fun c hc i hi => ?_⟩
    exact hinv'.ended c hc i hi (by
      rw [hm]
      trivial)
  · obtain ⟨⟨j', -, hm'⟩, -⟩ := (hinv.hangs hi hm hw).run hi hrun
    cases hm'.symm.trans hstopped

/-- The worker of cpu zero has seen `stop` and closed its file before the break, which reaches every
worker as long as it is open: the other one sleeps on, and is joined. -/
theorem pool_stops_missedBreak :
    ∃ s, (ztPool (fun z _ => z.hasFile) 1 2 fun _ => true).Reachable s ∧ s.main = .joining 0 1 ∧
      (s.zt 2 0 1).Sleeps ∧ s.hit 0 = false ∧
      ∀ ts s', Lts.runAll (turn (fun z _ => z.hasFile) 1 2 fun _ => true) ts s = some s' →
        ts.length ≤ s.rank 1 2 ∧ s'.main ≠ .stopped := by
  let main : Act := .turn (.main true)
  let zt (w : ℕ) : Act := .turn (.worker w true)
  obtain ⟨s, hs, hp⟩ := (Lts.Reachable.init rfl :
    (ztPool (fun z _ => z.hasFile) 1 2 fun _ => true).Reachable {}).exists_of_runAll
    ([main, main, main, main, main] ++ [zt 0, zt 0, zt 0, zt 0] ++
      [zt 1, zt 1, zt 1, zt 1, zt 1, zt 1] ++ [main, main] ++ [zt 0, zt 0] ++
      [main, main, main, main])
    (p := fun s => s.main = .joining 0 1 ∧ (s.zt 2 0 1).pc = .waiting ∧
      (s.zt 2 0 1).broken = false ∧ (s.zt 2 0 0).pc = .exited) (by decide)
  obtain ⟨hm, hpc, hbroken, hpc₀⟩ := of_decide_eq_true hp
  have hstuck (t : Turn) : turn (fun z _ => z.hasFile) 1 2 (fun _ => true) s t = none := by
    cases t with
    | main ok => simp [turn, mainTurn, hm, hpc, Pc.ended]
    | worker w ok =>
      change Option.map _ ((s.zts w).turn ok) = none
      rw [Option.map_eq_none_iff]
      match w with
      | 0 => simp only [Worker.turn, show (s.zts 0).pc = .exited from hpc₀]
      | 1 =>
        simp only [Worker.turn, show (s.zts 1).pc = .waiting from hpc,
          show (s.zts 1).broken = false from hbroken, Bool.false_eq_true, if_false]
      | w + 2 =>
        have hinv := Inv.of_reachable hs
        have habsent := hinv.absent (w + 2)
          ((Nat.mul_le_mul_right 2 hinv.allocd_le).trans (Nat.le_add_left 2 w))
        simp only [Worker.turn, habsent]
  have hrun : Lts.runAll (turn (fun z _ => z.hasFile) 1 2 fun _ => true) [] s = some s := rfl
  have hrest := ((pool_stops hs hrun).2.1 hstuck).resolve_left fun hend => by
    cases hm.symm.trans hend.1
  obtain ⟨c, i, hc, -, -, -, hhit⟩ := hrest
  obtain rfl : c = 0 := Nat.lt_one_iff.mp hc
  exact ⟨s, hs, hm, ⟨hpc, hbroken⟩, hhit fun _ _ hfile _ => hfile, fun ts s' hrun =>
    ⟨(pool_stops hs hrun).1, (pool_stops hs hrun).2.2 0 1 1 (by decide) hm ⟨hpc, hbroken⟩⟩⟩

end Zus.ZtPool
