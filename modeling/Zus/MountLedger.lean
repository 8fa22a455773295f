import Mathlib.Tactic.Abel
import Zus.Mount

/-!
# The ledger of the mounts

What a mount holds is read off its superblock (`MultiDevices.owns`), and it is what `_pmem_ungrab`
gives back, wherever `_pmem_grab` stopped. So `zus_mount` and `zus_umount` are balanced; of the two
that fail after the device was grabbed, `zus_mount` does not evict a root inode, and
`zus_private_mount` does not ungrab.
-/

namespace Zus.Mount

open Zus.Lib Zus.Lib.Ledger

variable {h : Headers} {A : Multiset Resource}

/-! ## What is owned -/

/-- An open file. -/
def fdOf (fd : ℤ) : Multiset Resource := if 0 ≤ fd then {.fd fd.toNat} else 0

/-- A mapping, unless the address is `MAP_FAILED` or there is nothing to map. -/
def mapOf (addr len : UInt64) : Multiset Resource :=
  if addr.toNat % pageSize ≠ 0 ∨ len = 0 then 0 else {.map addr len}

/-- The map of a tier with so many devices. -/
def heapOf (count : ℤ) (addr : Option ℕ) : Multiset Resource :=
  if count = 0 then 0 else (addr.map Resource.heap).elim 0 fun r => {r}

/-- A root inode. -/
def rootOf (zRoot : Option ℕ) : Multiset Resource := (zRoot.map Resource.root).elim 0 fun r => {r}

/-- The pages of the device. -/
def MultiDevices.pagesOf (h : Headers) (md : MultiDevices) : Multiset Resource :=
  if md.pages = 0 then 0 else mapOf md.pages (zpagesMmapSize h md)

/-- What `_pmem_grab` has taken. -/
def MultiDevices.owns (h : Headers) (md : MultiDevices) : Multiset Resource :=
  md.pagesOf h + (heapOf md.t2Count md.t2Map + (heapOf md.t1Count md.t1Map +
    (mapOf md.pPmemAddr (pmemMapSize h md) + fdOf md.fd)))

/-- What a superblock holds. -/
def SbInfo.owns (h : Headers) (sbi : SbInfo) : Multiset Resource :=
  rootOf sbi.zRoot + (sbi.md.owns h + {.sbi sbi.addr})

/-- What a private mount holds beside the device and the root inode. -/
def failMountOwns (zip mountFd tid addr : ℕ) : Multiset Resource :=
  {.sbi addr} + ({.thread tid} + ({.fd mountFd} + {.heap zip}))

/-- What a private mount holds. -/
def PrivateMount.owns (h : Headers) (pm : PrivateMount) : Multiset Resource :=
  rootOf pm.sbi.zRoot + (pm.sbi.md.owns h + ({.kernelMount pm.mountFd} +
    failMountOwns pm.zip pm.mountFd pm.tid pm.sbi.addr))

@[simp] theorem heapOf_none (count : ℤ) : heapOf count none = 0 := by simp [heapOf]

@[simp] theorem heapOf_zero (addr : Option ℕ) : heapOf 0 addr = 0 := rfl

@[simp] theorem rootOf_none : rootOf none = 0 := rfl

@[simp] theorem mapOf_mapFailed (len : UInt64) : mapOf mapFailed len = 0 :=
  if_pos (.inl (by decide))

/-- The table that no `ioctl` has filled yet says that there is nothing to map. -/
theorem mapOf_zero (md : MultiDevices) (addr : UInt64) (hmdt : md.mdt = {}) :
    mapOf addr (pmemMapSize h md) = 0 := by
  have hsize : pmemMapSize h md = 0 := by
    unfold pmemMapSize
    rw [hmdt]
    split <;> rfl
  exact if_pos (.inr hsize)

/-! ## Taking -/

theorem mmap_triple (addr len : UInt64) :
    Triple A (mmap addr len) fun _ B => B = mapOf addr len + A ∧ addr ≠ 0 := by
  unfold mmap
  split
  · exact .impossible
  · next hok =>
    obtain ⟨hne, halign⟩ := not_or.mp hok
    refine Triple.acquire.mono fun _ B hB => ⟨?_, hne⟩
    rw [hB, mapOf, if_neg halign]

theorem zufRootOpenTmp_triple (ans : Except ℕ ℕ) :
    Triple A (zufRootOpenTmp ans) fun r B => B = fdOf r.2 + A ∧
      ∀ fd, ans = .ok fd → r.2 = fd := by
  rcases ans with errno | fd
  · exact .pure ⟨by simp [fdOf], by simp⟩
  · refine Triple.acquire.bind fun _ B hB => .pure ⟨?_, by simp⟩
    rw [hB, fdOf, if_pos (Int.natCast_nonneg fd), Int.toNat_natCast]

theorem pmemMmap_triple (md : MultiDevices) (ans : Except ℕ UInt64) :
    Triple A (pmemMmap h md ans) fun r B => ∃ addr, r.2 = { md with pPmemAddr := addr } ∧
      B = mapOf addr (pmemMapSize h md) + A := by
  rcases ans with errno | addr
  · exact .pure ⟨mapFailed, rfl, by simp⟩
  · exact (mmap_triple _ _).bind fun _ B hB => .pure ⟨addr, rfl, hB.1⟩

theorem zpagesMmap_triple (md : MultiDevices) (ans : Except ℕ UInt64) :
    Triple A (zpagesMmap h md ans) fun r B => ∃ addr, r.2 = { md with pages := addr } ∧
      B = { md with pages := addr }.pagesOf h + A := by
  rcases ans with errno | addr
  · exact .pure ⟨0, rfl, by simp [MultiDevices.pagesOf]⟩
  · refine (mmap_triple _ _).bind fun _ B hB => .pure ⟨addr, rfl, ?_⟩
    rw [hB.1, MultiDevices.pagesOf, if_neg hB.2]
    rfl

theorem mapSetup_triple (count : ℤ) (calloc : Option ℕ) :
    Triple A (mapSetup count calloc) fun r B => B = heapOf count r.2 + A := by
  unfold mapSetup
  split
  · exact .pure (by simp)
  · next hcount =>
    rcases calloc with _ | addr
    · exact .pure (by simp)
    · exact Triple.acquire.bind fun _ B hB => .pure (by simp [hB, heapOf, hcount])

theorem mdInitFromPmemInfo_triple (env : GrabEnv) (md : MultiDevices)
    (h₂ : md.t2Map = none) :
    Triple A (mdInitFromPmemInfo env md) fun r B => ∃ c₁ c₂ m₁ m₂,
      r.2 = { md with t1Count := c₁, t2Count := c₂, t1Map := m₁, t2Map := m₂ } ∧
      B = heapOf c₂ m₂ + (heapOf c₁ m₁ + A) := by
  refine (mapSetup_triple _ _).bind fun r₁ B hB => ?_
  obtain ⟨err, m₁⟩ := r₁
  rcases err with _ | err
  · refine (mapSetup_triple _ _).bind fun r₂ C hC => .pure ⟨_, _, m₁, r₂.2, rfl, ?_⟩
    rw [hC, hB]
  · refine .pure ⟨md.mdt.sDevList.t1Count, md.mdt.sDevList.t2Count, m₁, none, ?_, ?_⟩
    · rw [h₂]
    · rw [hB, heapOf_none, zero_add]

/-- **`_pmem_grab`**, wherever it stopped: what it has taken is what its device says. -/
theorem pmemGrab_triple (userPageSize : UInt64) (env : GrabEnv) :
    Triple 0 (pmemGrab h userPageSize env {}) fun r B => B = r.2.owns h ∧
      ∀ fd, env.openTmp = .ok fd → r.2.fd = fd := by
  refine (zufRootOpenTmp_triple _).bind fun r₀ A₀ hA₀ => ?_
  obtain ⟨err, fd⟩ := r₀
  obtain ⟨rfl, hfd⟩ := hA₀
  have hopened : fdOf fd + 0 = MultiDevices.owns h { fd := fd } := by
    simp [MultiDevices.owns, MultiDevices.pagesOf, mapOf_zero]
  rcases err with _ | err
  · rcases hg : env.grabPmem with err | mdt
    · exact .pure ⟨hopened, hfd⟩
    · refine (pmemMmap_triple _ _).bind fun r₁ A₁ hA₁ => ?_
      obtain ⟨err, md⟩ := r₁
      obtain ⟨addr, rfl, rfl⟩ := hA₁
      rcases err with _ | err
      · refine (mdInitFromPmemInfo_triple _ _ rfl).bind fun r₂ A₂ hA₂ => ?_
        obtain ⟨err, md⟩ := r₂
        obtain ⟨c₁, c₂, m₁, m₂, rfl, rfl⟩ := hA₂
        have hready : heapOf c₂ m₂ + (heapOf c₁ m₁ + (mapOf addr (pmemMapSize h
            { fd := fd, mdt := mdt }) + (fdOf fd + 0))) = MultiDevices.owns h
              { fd := fd, mdt := mdt, pPmemAddr := addr, t1Count := c₁, t2Count := c₂,
                t1Map := m₁, t2Map := m₂ } := by
          simp [MultiDevices.owns, MultiDevices.pagesOf, pmemMapSize]
        rcases err with _ | err
        · dsimp only
          split
          · exact .pure ⟨hready, hfd⟩
          · split
            · exact .pure ⟨hready, hfd⟩
            · rw [hready]
              refine (zpagesMmap_triple _ _).mono fun r A₃ hA₃ => ?_
              obtain ⟨addr', hr, rfl⟩ := hA₃
              rw [hr]
              exact ⟨by simp [MultiDevices.owns, MultiDevices.pagesOf, pmemMapSize], hfd⟩
        · exact .pure ⟨hready, hfd⟩
      · exact .pure ⟨by simp [MultiDevices.owns, MultiDevices.pagesOf, pmemMapSize], hfd⟩
  · exact .pure ⟨hopened, hfd⟩

theorem SbiInit.run_triple (ans : SbiInit) :
    Triple A ans.run fun r B => B = rootOf r.2 + A ∧
      ∀ err, r.1 = some err → ans = .fail err r.2 := by
  rcases ans with zRoot | ⟨err, _ | zRoot⟩
  · exact Triple.acquire.bind fun _ B hB => .pure ⟨hB, by simp⟩
  · exact .pure ⟨by simp, by simp⟩
  · exact Triple.acquire.bind fun _ B hB => .pure ⟨hB, by simp⟩

/-! ## Giving back -/

theorem munmap_triple (addr len : UInt64) :
    Triple (mapOf addr len + A) (munmap addr len) fun _ B => B = A := by
  unfold munmap
  split
  · next hnone => exact .pure (by rw [mapOf, if_pos hnone, zero_add])
  · next hmap => exact .release (by rw [mapOf, if_neg hmap])

theorem tierFini_triple (count : ℤ) (addr : Option ℕ) :
    Triple (heapOf count addr + A) (tierFini count addr) fun _ B => B = A := by
  unfold tierFini
  split
  · next hcount =>
    rcases addr with _ | addr
    · exact .pure (by simp)
    · exact .release (by simp [heapOf, hcount])
  · next hcount => exact .pure (by simp [heapOf, not_not.mp hcount])

theorem mdFini_triple (md : MultiDevices) :
    Triple (heapOf md.t2Count md.t2Map + (heapOf md.t1Count md.t1Map + A)) (mdFini md)
      fun _ B => B = A := by
  refine (tierFini_triple _ _).bind fun _ B hB => ?_
  subst hB
  exact tierFini_triple _ _

theorem zufRootClose_triple (fd : ℤ) :
    Triple (fdOf fd + A) (zufRootClose fd) fun _ B => B = A := by
  unfold zufRootClose
  split
  · next hfd => exact .release (by rw [fdOf, if_pos hfd])
  · next hfd => exact .pure (by rw [fdOf, if_neg hfd, zero_add])

theorem zpagesUnmap_triple (md : MultiDevices) :
    Triple (md.pagesOf h + A) (zpagesUnmap h md) fun _ B => B = A := by
  unfold zpagesUnmap MultiDevices.pagesOf
  split
  · exact .pure (zero_add A)
  · exact munmap_triple _ _

/-- **`_pmem_ungrab`** gives back what the device says. -/
theorem pmemUngrab_triple (md : MultiDevices) :
    Triple (md.owns h + A) (pmemUngrab h md) fun _ B => B = A := by
  simp only [MultiDevices.owns, add_assoc]
  refine (zpagesUnmap_triple md).bind fun _ B hB => ?_
  subst hB
  refine (mdFini_triple md).bind fun _ B hB => ?_
  subst hB
  refine (munmap_triple _ _).bind fun _ B hB => ?_
  subst hB
  exact zufRootClose_triple _

theorem evictRoot_triple (zRoot : Option ℕ) :
    Triple (rootOf zRoot + A) (evictRoot zRoot) fun _ B => B = A := by
  rcases zRoot with _ | zRoot
  · exact .pure (zero_add A)
  · exact .release rfl

theorem zusSbiFini_triple (sbi : SbInfo) :
    Triple (sbi.md.owns h + ({.sbi sbi.addr} + A)) (zusSbiFini h sbi) fun _ B => B = A := by
  refine (pmemUngrab_triple _).bind fun _ B hB => ?_
  subst hB
  exact .release rfl

theorem zusThreadCurrentFini_triple (tid : ℕ) :
    Triple ({.thread tid} + A) (zusThreadCurrentFini tid) fun _ B => B = A :=
  .ifHeld_of_mem (Multiset.mem_add.mpr (.inl (Multiset.mem_singleton_self _))) (.release rfl)

theorem failMount_triple (zip mountFd tid addr : ℕ) :
    Triple (failMountOwns zip mountFd tid addr + A) (failMount zip mountFd tid addr)
      fun _ B => B = A := by
  simp only [failMountOwns, add_assoc]
  refine (Triple.release rfl).bind fun _ B hB => ?_
  subst hB
  refine (zusThreadCurrentFini_triple tid).bind fun _ B hB => ?_
  subst hB
  refine (Triple.release rfl).bind fun _ B hB => ?_
  subst hB
  exact .release rfl

/-! ## Mounts -/

/-- **`zus_umount`** gives back what the superblock holds. -/
theorem zusUmount_triple (sbi : SbInfo) :
    Triple (sbi.owns h) (zusUmount h sbi) fun _ B => B = 0 := by
  refine (evictRoot_triple sbi.zRoot).bind fun _ B hB => ?_
  subst hB
  have := zusSbiFini_triple (h := h) (A := 0) sbi
  rwa [add_zero] at this

/-- **`zus_private_umount`** gives back what the private mount holds. -/
theorem zusPrivateUmount_triple (pm : PrivateMount) :
    Triple (pm.owns h) (zusPrivateUmount h pm) fun _ B => B = 0 := by
  refine (evictRoot_triple _).bind fun _ B hB => ?_
  subst hB
  refine (pmemUngrab_triple _).bind fun _ B hB => ?_
  subst hB
  refine (Triple.release rfl).bind fun _ B hB => ?_
  subst hB
  have := failMount_triple (A := 0) pm.zip pm.mountFd pm.tid pm.sbi.addr
  rwa [add_zero] at this

/-! ## What a grab takes does not depend on what is held -/

theorem mmap_grows (addr len : UInt64) : Grows (mmap addr len) := by
  unfold mmap
  split
  · exact .impossible
  · exact .acquire

theorem zufRootOpenTmp_grows (ans : Except ℕ ℕ) : Grows (zufRootOpenTmp ans) := by
  rcases ans with errno | fd
  · exact .pure
  · exact Grows.acquire.bind fun _ => .pure

theorem pmemMmap_grows (md : MultiDevices) (ans : Except ℕ UInt64) :
    Grows (pmemMmap h md ans) := by
  rcases ans with errno | addr
  · exact .pure
  · exact (mmap_grows _ _).bind fun _ => .pure

theorem zpagesMmap_grows (md : MultiDevices) (ans : Except ℕ UInt64) :
    Grows (zpagesMmap h md ans) := by
  rcases ans with errno | addr
  · exact .pure
  · exact (mmap_grows _ _).bind fun _ => .pure

theorem mapSetup_grows (count : ℤ) (calloc : Option ℕ) : Grows (mapSetup count calloc) := by
  unfold mapSetup
  split
  · exact .pure
  · rcases calloc with _ | addr
    · exact .pure
    · exact Grows.acquire.bind fun _ => .pure

theorem mdInitFromPmemInfo_grows (env : GrabEnv) (md : MultiDevices) :
    Grows (mdInitFromPmemInfo env md) := by
  refine (mapSetup_grows _ _).bind fun r => ?_
  obtain ⟨_ | err, m⟩ := r
  · exact (mapSetup_grows _ _).bind fun _ => .pure
  · exact .pure

theorem pmemGrab_grows (userPageSize : UInt64) (env : GrabEnv) (md : MultiDevices) :
    Grows (pmemGrab h userPageSize env md) := by
  refine (zufRootOpenTmp_grows _).bind fun r => ?_
  obtain ⟨_ | err, fd⟩ := r
  · rcases env.grabPmem with err | mdt
    · exact .pure
    · refine (pmemMmap_grows _ _).bind fun r => ?_
      obtain ⟨_ | err, md⟩ := r
      · refine (mdInitFromPmemInfo_grows _ _).bind fun r => ?_
        obtain ⟨_ | err, md⟩ := r
        · dsimp only
          split
          · exact .pure
          · split
            · exact .pure
            · exact zpagesMmap_grows _ _
        · exact .pure
      · exact .pure
  · exact .pure

/-! ## Mounts -/

/-- A grab on its own. -/
def GrabEnv.alone (env : GrabEnv) (h : Headers) (userPageSize : UInt64) :
    Option ((Option ℤ × MultiDevices) × Ledger Resource) :=
  pmemGrab h userPageSize env {} {}

/-- A grab in a mount ends as it does on its own. -/
theorem pmemGrab_alone (userPageSize : UInt64) (env : GrabEnv) :
    Triple A (pmemGrab h userPageSize env {}) fun r B => B = r.2.owns h + A ∧
      env.alone h userPageSize = some (r, { held := r.2.owns h }) := by
  have hgrab := ((pmemGrab_triple (h := h) userPageSize env).frame A).grows
    (pmemGrab_grows userPageSize env {})
  rw [add_zero] at hgrab
  refine hgrab.mono fun r B hB => ?_
  obtain ⟨⟨C, rfl, rfl, -⟩, D, hD, halone⟩ := hB
  rw [add_left_cancel hD]
  exact ⟨add_comm _ _, halone⟩

/-- What a grab that failed has taken. -/
def GrabEnv.left (env : GrabEnv) (h : Headers) (userPageSize : UInt64) : Multiset Resource :=
  match env.alone h userPageSize with
  | some ((some _, _), l) => l.held
  | _ => 0

/-- What a `zus_mount` that failed leaves: the root inode that a failing `sbi_init` made. -/
def MountEnv.left (env : MountEnv) (h : Headers) : Multiset Resource :=
  match env.sbiAlloc, env.grab.alone h env.userPageSize, env.sbiInit with
  | some _, some ((none, _), _), .fail _ zRoot => rootOf zRoot
  | _, _, _ => 0

/-- What a `zus_private_mount` that failed leaves: what a failing `_pmem_grab` had taken. -/
def PrivateEnv.left (env : PrivateEnv) (h : Headers) : Multiset Resource :=
  if env.callocZip.isSome && env.openMount.isOk && env.numaMap.isNone && !env.isZusThread &&
      env.callocThread && env.sbiAlloc.isSome && env.privateMount.isNone then
    env.grab.left h env.userPageSize
  else 0

/-- **`zus_mount`** holds its superblock, or leaves what `MountEnv.left` says. -/
theorem zusMount_triple (env : MountEnv) :
    Triple 0 (zusMount h env) fun r B => match r with
      | .ok sbi => B = sbi.owns h
      | .error _ => B = env.left h := by
  unfold zusMount
  rcases hs : env.sbiAlloc with _ | addr
  · exact .pure (by simp [MountEnv.left, hs])
  · refine Triple.acquire.bind fun _ B hB => ?_
    subst hB
    refine (pmemGrab_alone _ _).bind fun r B hB => ?_
    obtain ⟨err, md⟩ := r
    obtain ⟨rfl, halone⟩ := hB
    rcases err with _ | err
    · refine (SbiInit.run_triple _).bind fun r B hB => ?_
      obtain ⟨err, zRoot⟩ := r
      obtain ⟨rfl, hfail⟩ := hB
      rcases err with _ | err
      · exact .pure (by rw [add_zero]; rfl)
      · have hinit := hfail err rfl
        dsimp only
        rw [add_zero, add_comm, add_assoc]
        refine (zusSbiFini_triple ⟨addr, md, zRoot⟩).bind fun _ B hB => .pure ?_
        rw [hB]
        simp [MountEnv.left, hs, halone, hinit]
    · refine (zusSbiFini_triple ⟨addr, md, none⟩).bind fun _ B hB => .pure ?_
      rw [hB]
      simp [MountEnv.left, hs, halone]

theorem zusThreadCurrentInit_triple (tid : ℕ) (isZusThread callocThread : Bool) :
    Triple A (zusThreadCurrentInit tid isZusThread callocThread) fun r B =>
      B = (if r = none then {.thread tid} else 0) + A ∧
        (r = none ↔ isZusThread = false ∧ callocThread = true) := by
  rcases isZusThread with _ | _
  · rcases callocThread with _ | _
    · exact .pure ⟨by simp, by simp⟩
    · exact Triple.acquire.bind fun _ B hB => .pure ⟨by simp [hB], by simp⟩
  · exact .pure ⟨by simp, by simp⟩

theorem privateGrab_triple (env : MountEnv) (zip mountFd tid addr : ℕ) :
    Triple ({.kernelMount mountFd} + failMountOwns zip mountFd tid addr)
      (privateGrab h env zip mountFd tid addr) fun r B => match r with
      | .ok pm => B = pm.owns h
      | .error _ => B = env.grab.left h env.userPageSize := by
  refine (pmemGrab_alone _ _).bind fun r B hB => ?_
  obtain ⟨err, md⟩ := r
  obtain ⟨rfl, halone⟩ := hB
  rcases err with _ | err
  · refine (SbiInit.run_triple _).bind fun r B hB => ?_
    obtain ⟨err, zRoot⟩ := r
    obtain ⟨rfl, -⟩ := hB
    rcases err with _ | err
    · exact .pure rfl
    · refine (evictRoot_triple _).bind fun _ B hB => ?_
      subst hB
      refine (pmemUngrab_triple _).bind fun _ B hB => ?_
      subst hB
      refine (Triple.release rfl).bind fun _ B hB => ?_
      subst hB
      have := failMount_triple (A := 0) zip mountFd tid addr
      rw [add_zero] at this
      refine this.bind fun _ B hB => .pure ?_
      simp [GrabEnv.left, halone, hB]
  -- what was grabbed stays by the side
  · dsimp only
    rw [add_left_comm]
    refine (Triple.release rfl).bind fun _ B hB => ?_
    subst hB
    rw [add_comm]
    refine (failMount_triple _ _ _ _).bind fun _ B hB => .pure ?_
    simp [GrabEnv.left, halone, hB]

/-- `zus_private_mount` after `zus_thread_current_init`. -/
theorem privateAlloc_triple (env : PrivateEnv) (zip mountFd tid : ℕ)
    (hleft : env.left h = match env.sbiAlloc, env.privateMount with
      | some _, none => env.grab.left h env.userPageSize
      | _, _ => 0) :
    Triple ({.thread tid} + ({.fd mountFd} + {.heap zip})) (privateAlloc h env zip mountFd tid)
      fun r B => match r with
      | .ok pm => B = pm.owns h
      | .error _ => B = env.left h := by
  unfold privateAlloc
  rw [hleft]
  rcases env.sbiAlloc with _ | addr
  · refine (zusThreadCurrentFini_triple tid).bind fun _ B hB => ?_
    subst hB
    refine (Triple.release rfl).bind fun _ B hB => ?_
    subst hB
    exact (Triple.release (add_zero _).symm).bind fun _ B hB => .pure hB
  · refine Triple.acquire.bind fun _ B hB => ?_
    subst hB
    rcases env.privateMount with _ | err
    · refine Triple.acquire.bind fun _ B hB => ?_
      subst hB
      exact privateGrab_triple _ _ _ _ _
    · have := failMount_triple (A := 0) zip mountFd tid addr
      rw [add_zero] at this
      exact this.bind fun _ B hB => .pure hB

/-- **`zus_private_mount`** holds its mount, or leaves what `PrivateEnv.left` says. -/
theorem zusPrivateMount_triple (tid : ℕ) (env : PrivateEnv) :
    Triple 0 (zusPrivateMount h tid env) fun r B => match r with
      | .ok pm => B = pm.owns h
      | .error _ => B = env.left h := by
  unfold zusPrivateMount
  rcases hz : env.callocZip with _ | zip
  · exact .pure (by simp [PrivateEnv.left, hz])
  refine Triple.acquire.bind fun _ B hB => ?_
  subst hB
  rcases ho : env.openMount with errno | mountFd
  · refine (Triple.release rfl).bind fun _ B hB => .pure ?_
    simp [PrivateEnv.left, hz, ho, hB, Except.isOk, Except.toBool]
  refine Triple.acquire.bind fun _ B hB => ?_
  subst hB
  -- what goes wrong before there is a thread
  have hfd : ∀ err : ℤ, env.left h = 0 → Triple ({.fd mountFd} + ({.heap zip} + 0))
      (do release (.fd mountFd); release (.heap zip); pure (.error err))
      fun (r : Except ℤ PrivateMount) B => match r with
      | .ok pm => B = pm.owns h
      | .error _ => B = env.left h := fun err hnone => by
    refine (Triple.release rfl).bind fun _ B hB => ?_
    subst hB
    exact (Triple.release rfl).bind fun _ B hB => .pure (hB.trans hnone.symm)
  rcases hn : env.numaMap with _ | err
  · refine (zusThreadCurrentInit_triple _ _ _).bind fun err B hB => ?_
    obtain ⟨rfl, hthread⟩ := hB
    rcases err with _ | err
    · obtain ⟨hkey, hcalloc⟩ := hthread.mp rfl
      rw [if_pos rfl, add_zero]
      refine privateAlloc_triple env zip mountFd tid ?_
      simp only [PrivateEnv.left, hz, ho, hn, hkey, hcalloc]
      rcases env.sbiAlloc <;> rcases env.privateMount <;> rfl
    · rw [if_neg (by simp), zero_add]
      refine hfd err (if_neg fun hall => ?_)
      simp only [Bool.and_eq_true, Bool.not_eq_true'] at hall
      obtain ⟨⟨⟨⟨-, hkey⟩, hcalloc⟩, -⟩, -⟩ := hall
      cases hthread.mpr ⟨hkey, hcalloc⟩
  · exact hfd err (by simp [PrivateEnv.left, hz, ho, hn])

/-! ## Runs -/

/-- The mounts of a process. -/
structure Sys where
  ledger : Ledger Resource
  mounts : List SbInfo := []
  privates : List PrivateMount := []
  /-- what mounts that failed have left -/
  lost : Multiset Resource := 0

/-- The calls. A mount that ends is named by its place in the list; a private mount ends in the
thread that made it. -/
inductive Call
  | mount (env : MountEnv)
  | umount (i : ℕ)
  | privateMount (tid : ℕ) (env : PrivateEnv)
  | privateUmount (i : ℕ)

/-- The state after a call; the key of a thread is what the ledger says. -/
def next (h : Headers) (s : Sys) : Call → Option Sys
  | .mount env => (zusMount h env s.ledger).map fun
    | (.ok sbi, l) => { s with ledger := l, mounts := sbi :: s.mounts }
    | (.error _, l) => { s with ledger := l, lost := env.left h + s.lost }
  | .umount i => s.mounts[i]?.bind fun sbi => (zusUmount h sbi s.ledger).map fun r =>
    { s with ledger := r.2, mounts := s.mounts.eraseIdx i }
  | .privateMount tid env =>
    if env.isZusThread = decide (.thread tid ∈ s.ledger.held) then
      (zusPrivateMount h tid env s.ledger).map fun
      | (.ok pm, l) => { s with ledger := l, privates := pm :: s.privates }
      | (.error _, l) => { s with ledger := l, lost := env.left h + s.lost }
    else none
  | .privateUmount i => s.privates[i]?.bind fun pm => (zusPrivateUmount h pm s.ledger).map fun r =>
    { s with ledger := r.2, privates := s.privates.eraseIdx i }

/-- Mounts and umounts in a process that holds `base`. -/
def mounts (h : Headers) (base : Multiset Resource) : Lts Sys Call :=
  .ofNext (fun s => base.Nodup ∧ s = { ledger := { held := base } }) (next h)

/-- What the mounts hold. -/
def Sys.live (h : Headers) (s : Sys) : Multiset Resource :=
  (s.mounts.map (SbInfo.owns h)).sum + (s.privates.map (PrivateMount.owns h)).sum

/-- The ledger is right. -/
structure Balanced (h : Headers) (base : Multiset Resource) (s : Sys) : Prop where
  sound : s.ledger.Sound
  held : s.ledger.held = base + (s.live h + s.lost)

variable {base : Multiset Resource} {s s' : Sys}

/-- What a list of mounts holds, with one of them apart. -/
theorem sum_eraseIdx {α : Type} (f : α → Multiset Resource) {l : List α} {i : ℕ} {x : α}
    (hx : l[i]? = some x) : (l.map f).sum = f x + ((l.eraseIdx i).map f).sum := by
  obtain ⟨hi, rfl⟩ := List.getElem?_eq_some_iff.mp hx
  have hperm := (List.getElem_cons_eraseIdx_perm hi).map f
  rw [← hperm.sum_eq, List.map_cons, List.sum_cons]

/-- One call. -/
theorem Balanced.next (hs : Balanced h base s) {c : Call} (hc : next h s c = some s') :
    Balanced h base s' := by
  rcases c with env | i | ⟨tid, env⟩ | i
  · obtain ⟨⟨r, l⟩, hr, rfl⟩ := Option.map_eq_some_iff.mp hc
    obtain ⟨B, hB, hheld, hsound⟩ := (zusMount_triple env).run hs.sound hr
    rw [hs.held] at hheld
    rcases r with err | sbi
    · refine ⟨hsound, hheld.trans ?_⟩
      rw [hB]
      simp only [Sys.live]
      abel
    · refine ⟨hsound, hheld.trans ?_⟩
      rw [hB]
      simp only [Sys.live, List.map_cons, List.sum_cons]
      abel
  · obtain ⟨sbi, hi, hc⟩ := Option.bind_eq_some_iff.mp hc
    obtain ⟨⟨r, l⟩, hr, rfl⟩ := Option.map_eq_some_iff.mp hc
    have hF : s.ledger.held = base + (((s.mounts.eraseIdx i).map (SbInfo.owns h)).sum +
        (s.privates.map (PrivateMount.owns h)).sum + s.lost) + sbi.owns h := by
      rw [hs.held, Sys.live, sum_eraseIdx _ hi]
      abel
    obtain ⟨B, rfl, hheld, hsound⟩ := (zusUmount_triple sbi).run_of hs.sound hF hr
    exact ⟨hsound, hheld.trans (add_zero _)⟩
  · dsimp only [Mount.next] at hc
    split at hc
    · obtain ⟨⟨r, l⟩, hr, rfl⟩ := Option.map_eq_some_iff.mp hc
      obtain ⟨B, hB, hheld, hsound⟩ := (zusPrivateMount_triple tid env).run hs.sound hr
      rw [hs.held] at hheld
      rcases r with err | pm
      · refine ⟨hsound, hheld.trans ?_⟩
        rw [hB]
        simp only [Sys.live]
        abel
      · refine ⟨hsound, hheld.trans ?_⟩
        rw [hB]
        simp only [Sys.live, List.map_cons, List.sum_cons]
        abel
    · cases hc
  · obtain ⟨pm, hi, hc⟩ := Option.bind_eq_some_iff.mp hc
    obtain ⟨⟨r, l⟩, hr, rfl⟩ := Option.map_eq_some_iff.mp hc
    have hF : s.ledger.held = base + ((s.mounts.map (SbInfo.owns h)).sum +
        ((s.privates.eraseIdx i).map (PrivateMount.owns h)).sum + s.lost) + pm.owns h := by
      rw [hs.held, Sys.live, sum_eraseIdx _ hi]
      abel
    obtain ⟨B, rfl, hheld, hsound⟩ := (zusPrivateUmount_triple pm).run_of hs.sound hF hr
    exact ⟨hsound, hheld.trans (add_zero _)⟩

/-- A run. -/
theorem Balanced.of_reachable (hs : (mounts h base).Reachable s) : Balanced h base s := by
  refine hs.invariant (fun s₀ hinit => ?_) fun s c s' hs hc => hs.next hc
  obtain ⟨hnodup, rfl⟩ := hinit
  exact ⟨⟨rfl, hnodup⟩, by simp [Sys.live]⟩

/-- A grab that failed has taken nothing only when it could not open its file. -/
theorem GrabEnv.left_eq_zero_iff {env : GrabEnv} {userPageSize : UInt64} {err : ℤ}
    {md : MultiDevices} {l : Ledger Resource}
    (halone : env.alone h userPageSize = some ((some err, md), l)) :
    env.left h userPageSize = 0 ↔ ∃ errno, env.openTmp = .error errno := by
  have hleft : env.left h userPageSize = l.held := by rw [GrabEnv.left, halone]
  obtain ⟨B, ⟨rfl, hfd⟩, hheld, -⟩ :=
    (pmemGrab_triple userPageSize env).run ⟨rfl, Multiset.nodup_zero⟩ halone
  rw [hleft, hheld]
  rcases ho : env.openTmp with errno | fd
  · have hrun : env.alone h userPageSize = some ((some (-(errno : ℤ)), { fd := -1 }), {}) := by
      unfold GrabEnv.alone pmemGrab
      rw [ho]
      rfl
    obtain ⟨⟨-, rfl⟩, -⟩ : (_ ∧ { fd := -1 } = md) ∧ _ := by
      simpa using hrun.symm.trans halone
    simp [MultiDevices.owns, MultiDevices.pagesOf, mapOf_zero, fdOf]
  · have hmem : .fd fd ∈ md.owns h := by
      have hone : fdOf md.fd = {.fd fd} := by
        rw [hfd fd ho, fdOf, if_pos (Int.natCast_nonneg fd), Int.toNat_natCast]
      simp [MultiDevices.owns, hone]
    simp only [reduceCtorEq, exists_false, iff_false]
    intro hzero
    rw [zero_add] at hzero
    simp [hzero] at hmem

/-- Private mounts hold the threads that made them. -/
theorem threads_le (l : List PrivateMount) :
    ((l.map fun pm => Resource.thread pm.tid : List Resource) : Multiset Resource) ≤
      (l.map (PrivateMount.owns h)).sum := by
  induction l with
  | nil => exact le_rfl
  | cons pm l ih =>
    have hone : {Resource.thread pm.tid} ≤ pm.owns h := by
      refine Multiset.singleton_le.mpr ?_
      simp [PrivateMount.owns, failMountOwns]
    rw [List.map_cons, List.map_cons, List.sum_cons, ← Multiset.cons_coe, ← Multiset.singleton_add]
    exact add_le_add hone ih

/-- No thread has two private mounts. -/
theorem Balanced.nodup_tid (hs : Balanced h base s) : (s.privates.map PrivateMount.tid).Nodup := by
  have hle : (s.privates.map (PrivateMount.owns h)).sum ≤ s.ledger.held := by
    rw [hs.held, Sys.live, add_assoc, ← add_assoc, add_left_comm]
    exact Multiset.le_add_right _ _
  have hnodup := Multiset.nodup_of_le ((threads_le s.privates).trans hle) hs.sound.nodup
  refine List.Nodup.of_map Resource.thread ?_
  rw [List.map_map]
  exact Multiset.coe_nodup.mp hnodup

/-- **The ledger of the mounts.** After any calls, with any answers of the system: nothing was given
back that was not held, and what is held is what the process began with, what its mounts hold and
what mounts that failed have left. No thread has two private mounts. A private mount that fails in
its grab leaves nothing only when the grab could not open its file. -/
theorem mounts_balanced (hs : (mounts h base).Reachable s) :
    (s.ledger.bad = false ∧ s.ledger.held.Nodup) ∧
    s.ledger.held = base + (s.live h + s.lost) ∧
    (s.privates.map PrivateMount.tid).Nodup ∧
    ∀ (env : GrabEnv) userPageSize err md l,
      env.alone h userPageSize = some ((some err, md), l) →
        (env.left h userPageSize = 0 ↔ ∃ errno, env.openTmp = .error errno) := by
  have hb := Balanced.of_reachable hs
  exact ⟨⟨hb.sound.ok, hb.sound.nodup⟩, hb.held, hb.nodup_tid,
    fun _ _ _ _ _ => GrabEnv.left_eq_zero_iff⟩

/-- A device of one tier that is grabbed, with files and addresses as given. -/
def oneTier (fd : ℕ) (addr pages : UInt64) (map : ℕ) : GrabEnv where
  openTmp := .ok fd
  grabPmem := .ok { sT1Blocks := 1024, sDevList := { t1Count := 1 } }
  mmapPmem := .ok addr
  callocT1 := some map
  callocT2 := none
  mmapPages := .ok pages

/-- A private mount whose grab the kernel refuses, between a mount and its end. -/
def refusedGrab : List Call :=
  [.mount ⟨64, some 20, oneTier 5 0x1000000 0x8000000 30, .ok 40⟩,
   .privateMount 1 ⟨⟨64, some 21, { oneTier 7 0 0 0 with grabPmem := .error (-19) }, .ok 41⟩,
     some 31, .ok 6, none, false, true, none⟩,
   .umount 0]

/-- The file of the refused grab stays open. -/
theorem mounts_balanced_refusedGrab :
    ∃ s, (mounts ⟨1, 64⟩ {.thread 0}).Reachable s ∧ s.mounts = [] ∧ s.privates = [] ∧
      s.ledger.held = {.thread 0} + {.fd 7} := by
  have hstart : (mounts ⟨1, 64⟩ {.thread 0}).Reachable { ledger := { held := {.thread 0} } } :=
    .init ⟨by simp, rfl⟩
  obtain ⟨s, hs, hp⟩ := hstart.exists_of_runAll refusedGrab
    (p := fun s => decide (s.mounts.length = 0 ∧ s.privates.length = 0 ∧ s.lost = {.fd 7}))
    (by decide)
  obtain ⟨hm, hpm, hlost⟩ := of_decide_eq_true hp
  obtain ⟨-, hheld, -⟩ := mounts_balanced hs
  rw [List.length_eq_zero_iff] at hm hpm
  refine ⟨s, hs, hm, hpm, ?_⟩
  rw [hheld, hlost, Sys.live, hm, hpm]
  rfl

end Zus.Mount
