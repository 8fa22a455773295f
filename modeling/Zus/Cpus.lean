import Mathlib.Data.List.Range
import Mathlib.Order.Bounds.Defs
import Mathlib.Logic.Function.Basic
import Mathlib.Tactic.Linarith

/-!
# The cpus of the ZT threads

The kernel tells which cpus each node has. `_set_cpumasks` makes the masks of the daemon of it,
`zus_for_each_cpu` goes through a mask with `zus_cpumask_next`, and `_zus_start_chan_threads` starts
a worker on each cpu it comes by.

A mask has 1024 bits. `CPU_ISSET` finds every bit beyond clear, also that of a negative cpu, and
`CPU_SET` does nothing there.
-/

namespace Zus.Cpus

open Function

/-! ## The code -/

/-- `cpu_set_t`. -/
abbrev CpuSet := BitVec 1024

/-- `CPU_ISSET`. -/
def cpuIsset (cpu : ℕ) (cpusetp : CpuSet) : Bool := cpusetp.getLsbD cpu

/-- `CPU_SET`. -/
def cpuSet (cpu : ℕ) (cpusetp : CpuSet) : CpuSet := cpusetp ||| BitVec.twoPow 1024 cpu

/-- The `int` of an `unsigned int`. -/
def toInt (x : UInt32) : ℤ := if x.toNat < 2 ^ 31 then x.toNat else x.toNat - 2 ^ 32

/-- `struct zufs_ioc_numa_map`. -/
structure NumaMap where
  possibleNodes : UInt32
  possibleCpus : UInt32
  cpuSetPerNode : ℕ → CpuSet

/-- The globals of `zus_numa_map_init`. -/
structure Topology where
  zusNumaMap : NumaMap
  zusNrCpuIds : UInt32
  zusCpuPossibleMask : CpuSet
  zusCpuOnlineMask : CpuSet

/-- `_set_cpumasks`, from masks that are clear. -/
def setCpumasks (numaMap : NumaMap) : Topology :=
  let nodes := List.range numaMap.possibleNodes.toNat
  let masks := (List.range numaMap.possibleCpus.toNat).foldl
    (fun masks cpu => (cpuSet cpu masks.1, nodes.foldl
      (fun online node =>
        if cpuIsset cpu (numaMap.cpuSetPerNode node) then cpuSet cpu online else online)
      masks.2)) ((0, 0) : CpuSet × CpuSet)
  { zusNumaMap := numaMap
    zusNrCpuIds := numaMap.possibleCpus
    zusCpuPossibleMask := masks.1
    zusCpuOnlineMask := masks.2 }

theorem toInt_add_one {x y : UInt32} (h : toInt x < toInt y) : toInt (x + 1) = toInt x + 1 := by
  have hx := x.toNat_lt
  have hy := y.toNat_lt
  have hadd : (x + 1).toNat = (x.toNat + 1) % 2 ^ 32 := UInt32.toNat_add x 1
  unfold toInt at *
  rw [hadd]
  split_ifs at * <;> omega

section

variable (nr : UInt32) (srcp : CpuSet)

/-- `zus_cpumask_next`. -/
def zusCpumaskNext (cpu : UInt32) : UInt32 :=
  if toInt cpu < toInt nr then
    if cpuIsset (cpu + 1).toNat srcp then cpu + 1 else zusCpumaskNext (cpu + 1)
  else 0 - 1
termination_by (toInt nr - toInt cpu).toNat
decreasing_by
  rw [toInt_add_one ‹_›]
  omega

variable {nr srcp} in
/-- A cpu that is found is behind the last one. -/
theorem lt_zusCpumaskNext {cpu : UInt32} (h : zusCpumaskNext nr srcp cpu < nr) :
    toInt cpu < toInt (zusCpumaskNext nr srcp cpu) ∧
      toInt (zusCpumaskNext nr srcp cpu) ≤ toInt nr := by
  induction cpu using zusCpumaskNext.induct nr srcp with
  | case1 cpu hlt hset =>
    have hadd := toInt_add_one hlt
    rw [zusCpumaskNext, if_pos hlt, if_pos hset]
    omega
  | case2 cpu hlt hset ih =>
    have hadd := toInt_add_one hlt
    rw [zusCpumaskNext, if_pos hlt, if_neg hset] at h ⊢
    have := ih h
    omega
  | case3 cpu hlt =>
    rw [zusCpumaskNext, if_neg hlt, UInt32.lt_iff_toNat_lt] at h
    have := nr.toNat_lt
    change 2 ^ 32 - 1 < _ at h
    omega

/-- The cpus the body of `zus_for_each_cpu` runs for, after `cpu`. -/
def zusForEachCpu (cpu : UInt32) : List UInt32 :=
  if zusCpumaskNext nr srcp cpu < nr then
    zusCpumaskNext nr srcp cpu :: zusForEachCpu (zusCpumaskNext nr srcp cpu)
  else []
termination_by (toInt nr - toInt cpu).toNat
decreasing_by
  have := lt_zusCpumaskNext ‹_›
  omega

end

section

variable (t : Topology)

/-- `zus_cpu_online`. -/
def zusCpuOnline (cpu : UInt32) : Bool :=
  cpu < t.zusNrCpuIds && cpuIsset cpu.toNat t.zusCpuOnlineMask

/-- `___BAD_CPU`, which warns of a bad one. -/
def badCpu (cpu : UInt32) : Bool :=
  t.zusNumaMap.possibleCpus ≤ cpu || !zusCpuOnline t cpu

/-- The loop of `zus_cpu_to_node`. -/
def NumaMap.findNode (m : NumaMap) (cpu : ℕ) : Option ℕ :=
  (List.range (toInt m.possibleNodes).toNat).find? fun node => cpuIsset cpu (m.cpuSetPerNode node)

/-- `zus_cpu_to_node`: the node, and whether there was a warning. -/
def zusCpuToNode (cpu : UInt32) : ℕ × Bool :=
  if badCpu t cpu then (0, true)
  else
    match t.zusNumaMap.findNode cpu.toNat with
    | some node => (node, false)
    -- `ZUS_WARN_ON_ONCE(node)`
    | none => (0, (toInt t.zusNumaMap.possibleNodes).toNat ≠ 0)

/-- `zus_set_onecpu_affinity`. -/
def zusSetOnecpuAffinity (cpu : UInt32) : CpuSet := cpuSet cpu.toNat 0

/-- `zus_set_numa_affinity`. -/
def zusSetNumaAffinity (nid : UInt32) : Option CpuSet :=
  if t.zusNumaMap.possibleNodes ≤ nid then none
  else some (t.zusNumaMap.cpuSetPerNode nid.toNat)

end

/-- `ZUS_CPU_ALL` and `ZUS_NUMA_NO_NID`. -/
def all : UInt32 := 0 - 1

/-- `struct zus_thread_params`, as far as `__zus_thread_create` branches on it. -/
structure ThreadParams where
  /-- the policy is `SCHED_OTHER` -/
  schedOther : Bool
  oneCpu : UInt32
  nid : UInt32

/-- `struct zus_base_thread`. -/
structure BaseThread where
  oneCpu : UInt32 := 0
  nid : ℕ := 0
  /-- the cpus of the thread there is, `none` of them when it was not bound -/
  thread : Option (Option CpuSet) := none
  err : ℤ := 0

/-- What the calls of `__zus_thread_create` return. -/
structure Pthread where
  attrInit : ℤ
  attrSetinheritsched : ℤ
  attrSetschedpolicy : ℤ
  attrSetschedparam : ℤ
  attrSetaffinity : ℤ
  create : ℤ

/-- `_errno_UtoK`. -/
def errnoUtoK (err : ℤ) : ℤ := if err < 0 then err else -err

/-- The label `error`. -/
def BaseThread.error (zbt : BaseThread) (err : ℤ) : ℤ × BaseThread :=
  (errnoUtoK err, { zbt with thread := none, err := errnoUtoK err })

/-- The scheduling of the thread. -/
def setSched (tp : ThreadParams) (pt : Pthread) : ℤ :=
  if pt.attrSetinheritsched ≠ 0 then pt.attrSetinheritsched
  else if tp.schedOther then 0
  else if pt.attrSetschedpolicy ≠ 0 then pt.attrSetschedpolicy
  else pt.attrSetschedparam

/-- `pthread_attr_setaffinity_np`, where there is an affinity, and `pthread_create`. -/
def BaseThread.create (zbt : BaseThread) (affinity : Option CpuSet) (pt : Pthread) :
    ℤ × BaseThread :=
  if affinity.isSome ∧ pt.attrSetaffinity ≠ 0 then zbt.error pt.attrSetaffinity
  else if pt.create ≠ 0 then zbt.error pt.create
  else (0, { zbt with thread := some affinity })

section

variable (t : Topology) (tp : ThreadParams) (pt : ℕ → Pthread)

/-- `__zus_thread_create`: what it returns, the thread, and whether there was a warning. -/
def zusThreadCreate (zbt : BaseThread) (pt : Pthread) : (ℤ × BaseThread) × Bool :=
  let zbt := { zbt with oneCpu := all, nid := all.toNat }
  if pt.attrInit ≠ 0 then ((pt.attrInit, { zbt with err := pt.attrInit }), false)
  else if setSched tp pt ≠ 0 then (zbt.error (setSched tp pt), false)
  else if tp.oneCpu ≠ all then
    let node := zusCpuToNode t tp.oneCpu
    ({ zbt with oneCpu := tp.oneCpu, nid := node.1 }.create
      (some (zusSetOnecpuAffinity tp.oneCpu)) pt, node.2)
  else if tp.nid ≠ all then
    match zusSetNumaAffinity t tp.nid with
    -- `-EINVAL`
    | none => (zbt.error (-22), false)
    | some affinity => ({ zbt with nid := tp.nid.toNat }.create (some affinity) pt, false)
  else (zbt.create none pt, false)

/-- `struct _zu_thread`, as far as it is set before the thread runs. -/
structure ZuThread where
  no : ℕ := 0
  zbt : BaseThread := {}

/-- What `_zus_start_chan_threads` returns, its `zts[chan]`, and whether there was a warning. -/
structure Chan where
  err : ℤ
  zts : ℕ → ZuThread
  warned : Bool

/-- The loop of `_zus_start_chan_threads`. -/
def startFrom : List UInt32 → Chan → Chan
  | [], chan => chan
  | i :: is, chan =>
    let made := zusThreadCreate t { tp with oneCpu := i } (chan.zts i.toNat).zbt (pt i.toNat)
    let chan : Chan :=
      { err := made.1.1
        zts := update chan.zts i.toNat { no := i.toNat, zbt := made.1.2 }
        warned := chan.warned || made.2 }
    if made.1.1 ≠ 0 then chan else startFrom is chan

/-- `_zus_start_chan_threads`. -/
def zusStartChanThreads (calloc : Bool) : Chan :=
  let zts : ℕ → ZuThread := fun _ => {}
  if calloc then
    startFrom t tp pt (zusForEachCpu t.zusNrCpuIds t.zusCpuOnlineMask (0 - 1)) ⟨0, zts, false⟩
  -- `-ENOMEM`
  else ⟨-12, zts, false⟩

end

/-! ## The masks -/

/-- The cpus that some node has. -/
def NumaMap.onlineCpus (m : NumaMap) : List ℕ :=
  (List.range m.possibleCpus.toNat).filter fun cpu =>
    (List.range m.possibleNodes.toNat).any fun node => cpuIsset cpu (m.cpuSetPerNode node)

theorem cpuIsset_cpuSet (c cpu : ℕ) (s : CpuSet) :
    cpuIsset c (cpuSet cpu s) = (cpuIsset c s || decide (c < 1024 ∧ c = cpu)) := by
  unfold cpuIsset cpuSet
  rw [BitVec.getLsbD_or, BitVec.getLsbD_twoPow]
  congr 1
  by_cases h : c = cpu
  · subst h
    simp
  · simp [h, Ne.symm h]

/-- The cpu of the loop over the nodes is set when one of them has it. -/
theorem cpuIsset_foldl (f : ℕ → CpuSet) (cpu c : ℕ) (nodes : List ℕ) (online : CpuSet) :
    cpuIsset c (nodes.foldl
      (fun online node => if cpuIsset cpu (f node) then cpuSet cpu online else online) online) =
      (cpuIsset c online || (decide (c = cpu) && nodes.any fun node => cpuIsset c (f node))) := by
  induction nodes generalizing online with
  | nil => simp
  | cons node nodes ih =>
    rw [List.foldl_cons, ih, List.any_cons]
    by_cases hc : c = cpu
    · subst hc
      by_cases hset : cpuIsset c (f node) = true
      · have hlt : c < 1024 := by
          by_contra hge
          have : (f node).getLsbD c = false := BitVec.getLsbD_of_ge _ _ (by omega)
          rw [cpuIsset, this] at hset
          cases hset
        rw [if_pos hset, cpuIsset_cpuSet, hset]
        simp [hlt]
      · rw [if_neg hset, Bool.eq_false_iff.mpr hset]
        simp
    · split
      · rw [cpuIsset_cpuSet]
        simp [hc]
      · simp [hc]

theorem cpuIsset_online (m : NumaMap) (c : ℕ) :
    cpuIsset c (setCpumasks m).zusCpuOnlineMask = decide (c ∈ m.onlineCpus) := by
  have hloop : ∀ (cpus : List ℕ) (masks : CpuSet × CpuSet),
      cpuIsset c (cpus.foldl (fun masks cpu => (cpuSet cpu masks.1,
        (List.range m.possibleNodes.toNat).foldl (fun online node =>
          if cpuIsset cpu (m.cpuSetPerNode node) then cpuSet cpu online else online)
          masks.2)) masks).2 =
        (cpuIsset c masks.2 || decide (c ∈ cpus ∧ (List.range m.possibleNodes.toNat).any
          (fun node => cpuIsset c (m.cpuSetPerNode node)) = true)) := by
    intro cpus
    induction cpus with
    | nil => simp
    | cons cpu cpus ih =>
      intro masks
      rw [List.foldl_cons, ih, cpuIsset_foldl]
      generalize ((List.range _).any _ : Bool) = has
      cases has <;> simp [Bool.or_assoc]
  have hzero : cpuIsset c (0 : CpuSet) = false := BitVec.getLsbD_zero
  unfold setCpumasks NumaMap.onlineCpus
  rw [hloop, hzero, Bool.false_or, decide_eq_decide, List.mem_filter]

/-! ## The walk -/

/-- The cpu looked at after `s - 1`. -/
theorem next_of_toInt {nr cpu : UInt32} {s : ℕ} (hnr : nr.toNat < 2 ^ 31) (hs : s ≤ nr.toNat)
    (hcpu : toInt cpu = s - 1) : toInt cpu < toInt nr ∧ (cpu + 1).toNat = s := by
  have hint : toInt nr = nr.toNat := if_pos hnr
  have hlt : toInt cpu < toInt nr := by omega
  refine ⟨hlt, ?_⟩
  have hadd := toInt_add_one hlt
  have := (cpu + 1).toNat_lt
  unfold toInt at hadd hcpu
  split_ifs at * <;> omega

/-- From `s - 1` on, `zus_for_each_cpu` comes by the cpus of the mask that are possible, in order.
The bit behind the last possible cpu is looked at, but its cpu not visited. -/
theorem zusForEachCpu_toNat {nr : UInt32} (srcp : CpuSet) (hnr : nr.toNat < 2 ^ 31) {s k : ℕ}
    (hk : nr.toNat = s + k) {cpu : UInt32} (hcpu : toInt cpu = s - 1) :
    (zusForEachCpu nr srcp cpu).map UInt32.toNat =
      (List.range' s k).filter fun c => cpuIsset c srcp := by
  induction k generalizing s cpu with
  | zero =>
    obtain ⟨hlt, hnext⟩ := next_of_toInt hnr hk.ge hcpu
    have hback : ¬ zusCpumaskNext nr srcp cpu < nr := by
      rw [zusCpumaskNext, if_pos hlt, UInt32.lt_iff_toNat_lt]
      split
      · omega
      · have hint : toInt nr = nr.toNat := if_pos hnr
        have hadd := toInt_add_one hlt
        rw [zusCpumaskNext, if_neg (by omega)]
        change ¬ 2 ^ 32 - 1 < nr.toNat
        omega
    rw [zusForEachCpu, if_neg hback]
    rfl
  | succ k ih =>
    obtain ⟨hlt, hnext⟩ := next_of_toInt hnr (by omega) hcpu
    have hadd := toInt_add_one hlt
    have hrest : (zusForEachCpu nr srcp (cpu + 1)).map UInt32.toNat =
        (List.range' (s + 1) k).filter fun c => cpuIsset c srcp :=
      ih (by omega) (by push_cast; omega)
    rw [List.range'_succ, List.filter_cons, ← hrest]
    by_cases hset : cpuIsset s srcp = true
    · have heq : zusCpumaskNext nr srcp cpu = cpu + 1 := by
        rw [zusCpumaskNext, if_pos hlt, hnext, if_pos hset]
      have hback : zusCpumaskNext nr srcp cpu < nr := by
        rw [heq, UInt32.lt_iff_toNat_lt]
        omega
      rw [zusForEachCpu, if_pos hback, heq, if_pos hset, List.map_cons, hnext]
    · have heq : zusCpumaskNext nr srcp cpu = zusCpumaskNext nr srcp (cpu + 1) := by
        rw [zusCpumaskNext, if_pos hlt, hnext, if_neg hset]
      rw [if_neg hset, zusForEachCpu, heq, zusForEachCpu.eq_def nr srcp (cpu + 1)]

/-- The walk over the online mask comes by the cpus that some node has. -/
theorem zusForEachCpu_online (m : NumaMap) (hcpus : m.possibleCpus.toNat < 2 ^ 31) :
    (zusForEachCpu m.possibleCpus (setCpumasks m).zusCpuOnlineMask (0 - 1)).map UInt32.toNat =
      m.onlineCpus := by
  rw [zusForEachCpu_toNat (s := 0) _ hcpus (Nat.zero_add _).symm rfl, ← List.range_eq_range']
  refine List.filter_congr fun c hc => ?_
  rw [cpuIsset_online, Bool.eq_iff_iff, decide_eq_true_iff, NumaMap.onlineCpus, List.mem_filter]
  exact and_iff_right hc

/-! ## The nodes -/

/-- The first node that has the cpu. -/
theorem findNode_online {m : NumaMap} (hnodes : m.possibleNodes.toNat < 2 ^ 31) {cpu : ℕ}
    (h : cpu ∈ m.onlineCpus) : ∃ node, m.findNode cpu = some node ∧
      IsLeast {node | node < m.possibleNodes.toNat ∧ cpuIsset cpu (m.cpuSetPerNode node) = true}
        node := by
  have hint : (toInt m.possibleNodes).toNat = m.possibleNodes.toNat := by
    rw [toInt, if_pos hnodes]
    rfl
  obtain ⟨node, hnode, hset⟩ := List.any_eq_true.mp (List.mem_filter.mp h).2
  rcases hfind : m.findNode cpu with _ | first
  · have := List.find?_eq_none.mp hfind node (hint.symm ▸ hnode)
    exact absurd hset this
  · obtain ⟨hfirst, hmem, hless⟩ := List.find?_range_eq_some.mp hfind
    rw [hint, List.mem_range] at hmem
    refine ⟨first, rfl, ⟨hmem, hfirst⟩, fun node' hnode' => Nat.le_of_not_lt fun hlt => ?_⟩
    have := hless node' hlt
    rw [hnode'.2] at this
    cases this

/-- A cpu that some node has is not a bad one. -/
theorem badCpu_online {m : NumaMap} {cpu : UInt32} (h : cpu.toNat ∈ m.onlineCpus) :
    badCpu (setCpumasks m) cpu = false := by
  have hlt : cpu < m.possibleCpus :=
    UInt32.lt_iff_toNat_lt.mpr (List.mem_range.mp (List.mem_filter.mp h).1)
  have hset : cpuIsset cpu.toNat (setCpumasks m).zusCpuOnlineMask = true := by
    rw [cpuIsset_online]
    exact decide_eq_true h
  unfold badCpu zusCpuOnline
  rw [hset, Bool.and_true, Bool.or_eq_false_iff]
  exact ⟨decide_eq_false (UInt32.not_le.mpr hlt), congrArg (!·) (decide_eq_true hlt)⟩

/-- Its node is the first one that has it, and there is no warning. -/
theorem zusCpuToNode_online {m : NumaMap} (hnodes : m.possibleNodes.toNat < 2 ^ 31) {cpu : UInt32}
    (h : cpu.toNat ∈ m.onlineCpus) : ∃ node, zusCpuToNode (setCpumasks m) cpu = (node, false) ∧
      IsLeast {node | node < m.possibleNodes.toNat ∧
        cpuIsset cpu.toNat (m.cpuSetPerNode node) = true} node := by
  obtain ⟨node, hfind, hleast⟩ := findNode_online hnodes h
  refine ⟨node, ?_, hleast⟩
  have hmap : (setCpumasks m).zusNumaMap = m := rfl
  rw [zusCpuToNode, badCpu_online h, hmap, hfind]
  rfl

/-! ## The threads -/

theorem errnoUtoK_ne_zero {err : ℤ} (h : err ≠ 0) : errnoUtoK err ≠ 0 := by
  unfold errnoUtoK
  split <;> omega

/-- A thread is made, or there is an error and none. -/
theorem BaseThread.create_spec {zbt : BaseThread} {affinity : Option CpuSet} {pt : Pthread} :
    zbt.create affinity pt = (0, { zbt with thread := some affinity }) ∨
      (zbt.create affinity pt).1 ≠ 0 ∧ (zbt.create affinity pt).2.thread = none := by
  unfold BaseThread.create
  split_ifs with haff hcreate
  · exact .inr ⟨errnoUtoK_ne_zero haff.2, rfl⟩
  · exact .inr ⟨errnoUtoK_ne_zero hcreate, rfl⟩
  · exact .inl rfl

/-- The worker of a cpu: bound to it, and of the first node that has it. -/
def worker (cpu node : ℕ) : ZuThread :=
  { no := cpu
    zbt :=
      { oneCpu := .ofNat cpu, nid := node, thread := some (some (cpuSet cpu 0)), err := 0 } }

/-- A thread for one cpu. -/
theorem zusThreadCreate_oneCpu {t : Topology} (tp : ThreadParams) (pt : Pthread) {node : ℕ}
    (hcpu : tp.oneCpu ≠ all) (hnode : zusCpuToNode t tp.oneCpu = (node, false)) :
    let made := zusThreadCreate t tp {} pt
    made.2 = false ∧ (made.1 = (0, (worker tp.oneCpu.toNat node).zbt) ∨
      made.1.1 ≠ 0 ∧ made.1.2.thread = none) := by
  unfold zusThreadCreate
  split_ifs with hinit hsched
  · exact ⟨rfl, .inr ⟨hinit, rfl⟩⟩
  · exact ⟨rfl, .inr ⟨errnoUtoK_ne_zero hsched, rfl⟩⟩
  · refine ⟨congrArg Prod.snd hnode, BaseThread.create_spec.imp_left fun h => ?_⟩
    change BaseThread.create _ _ _ = _
    rw [h, hnode, worker, UInt32.ofNat_toNat]
    rfl

/-- The loop makes the workers of the first cpus, up to the first error. -/
theorem startFrom_spec {t : Topology} (tp : ThreadParams) (pt : ℕ → Pthread) {is : List UInt32}
    (hnodup : (is.map UInt32.toNat).Nodup)
    (hgood : ∀ i ∈ is, i ≠ all ∧ ∃ node, zusCpuToNode t i = (node, false)) (chan : Chan)
    (herr : chan.err = 0) (hnew : ∀ i ∈ is, chan.zts i.toNat = {}) :
    ∃ k ≤ is.length,
      ((startFrom t tp pt is chan).err = 0 ↔ k = is.length) ∧
      (startFrom t tp pt is chan).warned = chan.warned ∧
      (∀ i ∈ is.take k, (startFrom t tp pt is chan).zts i.toNat =
        worker i.toNat (zusCpuToNode t i).1) ∧
      (∀ i ∈ is.drop k, ((startFrom t tp pt is chan).zts i.toNat).zbt.thread = none) ∧
      ∀ cpu ∉ is.map UInt32.toNat, (startFrom t tp pt is chan).zts cpu = chan.zts cpu := by
  induction is generalizing chan with
  | nil => exact ⟨0, le_rfl, iff_of_true herr rfl, rfl, by simp, by simp, fun _ _ => rfl⟩
  | cons i is ih =>
    obtain ⟨hi, hnodup⟩ := List.nodup_cons.mp hnodup
    obtain ⟨hall, node, hnode⟩ := hgood i List.mem_cons_self
    have hmade := zusThreadCreate_oneCpu { tp with oneCpu := i } (pt i.toNat) hall hnode
    have hzts := hnew i List.mem_cons_self
    rw [startFrom, hzts]
    generalize zusThreadCreate t { tp with oneCpu := i } {} (pt i.toNat) = made at hmade ⊢
    obtain ⟨⟨err, zbt⟩, warned⟩ := made
    obtain ⟨rfl, hmade⟩ := hmade
    have hne : ∀ i' ∈ is, i'.toNat ≠ i.toNat := fun i' hi' heq =>
      hi (heq ▸ List.mem_map_of_mem hi')
    rcases hmade with hmade | ⟨hne0, hnone⟩
    · obtain ⟨rfl, rfl⟩ := Prod.mk.inj hmade
      rw [if_neg (by simp)]
      obtain ⟨k, hk, herr', hwarn, htake, hdrop, hout⟩ := ih hnodup
        (fun i' hi' => hgood i' (List.mem_cons_of_mem i hi'))
        ⟨0, update chan.zts i.toNat (worker i.toNat node), chan.warned || false⟩ rfl
        fun i' hi' => (update_of_ne (hne i' hi') ..).trans (hnew i' (List.mem_cons_of_mem i hi'))
      refine ⟨k + 1, Nat.succ_le_succ hk, herr'.trans (by simp), hwarn.trans (Bool.or_false _),
        fun i' hi' => ?_, hdrop, fun cpu hcpu => ?_⟩
      · rcases List.mem_cons.mp hi' with rfl | hi'
        · rw [hnode]
          exact (hout _ hi).trans (update_self ..)
        · exact htake i' hi'
      · rw [List.map_cons, List.mem_cons, not_or] at hcpu
        exact (hout cpu hcpu.2).trans (update_of_ne hcpu.1 ..)
    · rw [if_pos hne0]
      refine ⟨0, Nat.zero_le _, iff_of_false hne0 (by simp), Bool.or_false _, by simp,
        fun i' hi' => ?_, fun cpu hcpu => ?_⟩
      · change (update chan.zts i.toNat _ i'.toNat).zbt.thread = none
        rcases List.mem_cons.mp hi' with rfl | hi'
        · rw [update_self]
          exact hnone
        · rw [update_of_ne (hne i' hi'), hnew i' (List.mem_cons_of_mem i hi')]
      · rw [List.map_cons, List.mem_cons, not_or] at hcpu
        exact update_of_ne hcpu.1 ..

/-- A channel is started in the order of the cpus that some node has, up to the first error: there
is a worker on each of the first `k` of them and on no other cpu, bound to that cpu and of the first
node that has it, and `k` is all of them exactly when the start succeeds. Nothing else of the array
is touched, and there is no warning. -/
theorem zusStartChanThreads_workers (m : NumaMap) (hcpus : m.possibleCpus.toNat < 2 ^ 31)
    (hnodes : m.possibleNodes.toNat < 2 ^ 31) (tp : ThreadParams) (pt : ℕ → Pthread)
    (calloc : Bool) :
    let chan := zusStartChanThreads (setCpumasks m) tp pt calloc
    ∃ k ≤ m.onlineCpus.length,
      (chan.err = 0 ↔ calloc = true ∧ k = m.onlineCpus.length) ∧ chan.warned = false ∧
      (∀ cpu ∈ m.onlineCpus.take k, ∃ node, chan.zts cpu = worker cpu node ∧
        IsLeast {node | node < m.possibleNodes.toNat ∧ cpuIsset cpu (m.cpuSetPerNode node) = true}
          node) ∧
      (∀ cpu ∈ m.onlineCpus.drop k, (chan.zts cpu).zbt.thread = none) ∧
      ∀ cpu ∉ m.onlineCpus, chan.zts cpu = {} := by
  intro chan
  rcases hcalloc : calloc with _ | _
  · have hchan : chan = ⟨-12, fun _ => {}, false⟩ := by
      change zusStartChanThreads _ _ _ calloc = _
      rw [hcalloc]
      rfl
    rw [hchan]
    exact ⟨0, Nat.zero_le _, by simp, rfl, by simp, fun _ _ => rfl, fun _ _ => rfl⟩
  have hwalk := zusForEachCpu_online m hcpus
  generalize hlist :
    zusForEachCpu m.possibleCpus (setCpumasks m).zusCpuOnlineMask (0 - 1) = is at hwalk
  have hchan : chan = startFrom (setCpumasks m) tp pt is ⟨0, fun _ => {}, false⟩ := by
    change zusStartChanThreads _ _ _ calloc = _
    rw [hcalloc, ← hlist]
    rfl
  have honline : ∀ i ∈ is, i.toNat ∈ m.onlineCpus := fun i hi =>
    hwalk ▸ List.mem_map_of_mem hi
  have hgood : ∀ i ∈ is, i ≠ all ∧ ∃ node, zusCpuToNode (setCpumasks m) i = (node, false) := by
    intro i hi
    refine ⟨?_, (zusCpuToNode_online hnodes (honline i hi)).imp fun _ h => h.1⟩
    rintro rfl
    have hlt := List.mem_range.mp (List.mem_filter.mp (honline all hi)).1
    change 2 ^ 32 - 1 < _ at hlt
    omega
  have hnodup : (is.map UInt32.toNat).Nodup := hwalk ▸ List.nodup_range.filter _
  obtain ⟨k, hk, herr, hwarn, htake, hdrop, hout⟩ :=
    startFrom_spec tp pt hnodup hgood ⟨0, fun _ => {}, false⟩ rfl fun _ _ => rfl
  rw [hchan, ← hwalk, List.length_map]
  refine ⟨k, hk, herr.trans (by simp), hwarn, fun cpu hcpu => ?_, fun cpu hcpu => ?_, hout⟩
  · rw [← List.map_take] at hcpu
    obtain ⟨i, hi, rfl⟩ := List.mem_map.mp hcpu
    obtain ⟨node, hnode, hleast⟩ :=
      zusCpuToNode_online hnodes (honline i (List.mem_of_mem_take hi))
    exact ⟨node, by rw [htake i hi, hnode], hleast⟩
  · rw [← List.map_drop] at hcpu
    obtain ⟨i, hi, rfl⟩ := List.mem_map.mp hcpu
    exact hdrop i hi

/-- Two nodes that share cpu 2, cpu 1 offline, and no thread to be had for cpu 3. -/
theorem zusStartChanThreads_workers_two :
    let m : NumaMap := ⟨2, 4, fun node => if node = 0 then 0b0101#1024 else 0b1100#1024⟩
    let chan := zusStartChanThreads (setCpumasks m) ⟨true, all, all⟩
      (fun cpu => ⟨0, 0, 0, 0, 0, if cpu = 3 then 11 else 0⟩) true
    ∃ k ≤ 3, (chan.err = 0 ↔ k = 3) ∧ chan.warned = false ∧
      (∀ cpu ∈ [0, 2, 3].drop k, (chan.zts cpu).zbt.thread = none) ∧
      (chan.zts 1).zbt.thread = none := by
  intro m chan
  have honline : m.onlineCpus = [0, 2, 3] := by decide +kernel
  obtain ⟨k, hk, herr, hwarn, -, hdrop, hout⟩ := zusStartChanThreads_workers m (by decide)
    (by decide) ⟨true, all, all⟩ (fun cpu => ⟨0, 0, 0, 0, 0, if cpu = 3 then 11 else 0⟩) true
  rw [honline] at hk herr hdrop hout
  refine ⟨k, hk, herr.trans (and_iff_right rfl), hwarn, hdrop, ?_⟩
  change ((zusStartChanThreads _ _ _ _).zts 1).zbt.thread = none
  rw [hout 1 (by decide)]

end Zus.Cpus
