import Mathlib.Algebra.BigOperators.Group.List.Basic
import Mathlib.Data.List.Perm.Basic
import Zus.Fba
import Zus.Lib.Ledger
import Zus.Lib.Lts

/-!
# Mounts

`zus_mount` and `zus_private_mount` open a file, map the device and the pages of it, fill the maps
of the tiers and let the filesystem make its superblock. Every one of these calls may fail. What was
taken before is given back: by `_zus_sbi_fini` in the one, by a chain of labels in the other.

The answers of the system are given, in the order the code asks; a resource is named by what the
system answered. The superblock of a filesystem, the root inode that its `sbi_init` makes and the
`zus_base_thread` that a thread keeps under its key are resources too.
-/

namespace Zus.Mount

open Zus.Lib Zus.Lib.Ledger

/-! ## The system -/

/-- What a process holds. -/
inductive Resource
  /-- an open file -/
  | fd (n : ℕ)
  /-- a mapping of so many bytes -/
  | map (addr len : UInt64)
  /-- memory of the library -/
  | heap (addr : ℕ)
  /-- what `sbi_alloc` returned -/
  | sbi (addr : ℕ)
  /-- the root inode of a superblock -/
  | root (addr : ℕ)
  /-- the `zus_base_thread` of a thread, under its key -/
  | thread (tid : ℕ)
  /-- a mount the kernel made for a file -/
  | kernelMount (fd : ℕ)
  deriving DecidableEq

abbrev Prog := Ledger.Prog Resource

/-- What the headers of the kernel module say. -/
structure Headers where
  /-- `MDT_F_SHADOW` -/
  mdtFShadow : UInt64
  /-- `sizeof(struct zus_page)` -/
  zusPageSize : UInt64

/-- The part of `struct multi_devices` that a mount fills; it comes zeroed. -/
structure MultiDevices where
  fd : ℤ := 0
  /-- the table in `pmem_info` -/
  mdt : Md.MdDevTable := {}
  pPmemAddr : UInt64 := 0
  pages : UInt64 := 0
  t1Count : ℤ := 0
  t2Count : ℤ := 0
  /-- `t1a.map` -/
  t1Map : Option ℕ := none
  /-- `t2a.map` -/
  t2Map : Option ℕ := none

/-- `MAP_FAILED`. -/
def mapFailed : UInt64 := -1

/-- `mmap`: a mapping has pages, and starts at one. -/
def mmap (addr len : UInt64) : Prog PUnit :=
  if addr = 0 ∨ addr.toNat % pageSize ≠ 0 ∨ len = 0 then impossible else acquire (.map addr len)

/-- `munmap`: an address that is no multiple of the page size and a length of zero are errors. -/
def munmap (addr len : UInt64) : Prog PUnit :=
  if addr.toNat % pageSize ≠ 0 ∨ len = 0 then pure ⟨⟩ else release (.map addr len)

/-- `free`. -/
def free : Option ℕ → Prog PUnit
  | none => pure ⟨⟩
  | some addr => release (.heap addr)

/-- `-(errno ?: ENOMEM)`. -/
def mmapErr (errno : ℕ) : ℤ := if errno = 0 then -12 else -errno

/-! ## The device -/

/-- `zuf_root_open_tmp`: the error and `*fd`. -/
def zufRootOpenTmp : Except ℕ ℕ → Prog (Option ℤ × ℤ)
  | .error errno => pure (some (-errno), -1)
  | .ok fd => do
    acquire (.fd fd)
    pure (none, fd)

/-- `zuf_root_close`. -/
def zufRootClose (fd : ℤ) : Prog PUnit := if 0 ≤ fd then release (.fd fd.toNat) else pure ⟨⟩

/-- The answers to the calls of `_pmem_grab`. -/
structure GrabEnv where
  openTmp : Except ℕ ℕ
  /-- `ZU_IOC_GRAB_PMEM`; one that fails leaves `pmem_info` as it was -/
  grabPmem : Except ℤ Md.MdDevTable
  mmapPmem : Except ℕ UInt64
  callocT1 : Option ℕ
  callocT2 : Option ℕ
  mmapPages : Except ℕ UInt64

section

variable (h : Headers)

/-- `_pmem_map_size`. -/
def pmemMapSize (md : MultiDevices) : UInt64 :=
  let size := Md.p2o md.mdt.sT1Blocks
  if md.mdt.sFlags &&& h.mdtFShadow ≠ 0 then size + size else size

/-- `_pmem_mmap`; `madvise` is only warned of. -/
def pmemMmap (md : MultiDevices) : Except ℕ UInt64 → Prog (Option ℤ × MultiDevices)
  | .error errno => pure (some (mmapErr errno), { md with pPmemAddr := mapFailed })
  | .ok addr => do
    mmap addr (pmemMapSize h md)
    pure (none, { md with pPmemAddr := addr })

/-- `_pmem_unmap`. -/
def pmemUnmap (md : MultiDevices) : Prog PUnit := munmap md.pPmemAddr (pmemMapSize h md)

/-- `_zpages_mmap_size`. -/
def zpagesMmapSize (md : MultiDevices) : UInt64 :=
  Fba.align (md.mdt.sT1Blocks * h.zusPageSize) Fba.fbaAlignsize

/-- `_zpages_mmap`. -/
def zpagesMmap (md : MultiDevices) : Except ℕ UInt64 → Prog (Option ℤ × MultiDevices)
  | .error errno => pure (some (mmapErr errno), { md with pages := 0 })
  | .ok addr => do
    mmap addr (zpagesMmapSize h md)
    pure (none, { md with pages := addr })

/-- `_zpages_unmap`. -/
def zpagesUnmap (md : MultiDevices) : Prog PUnit :=
  if md.pages = 0 then pure ⟨⟩ else munmap md.pages (zpagesMmapSize h md)

/-- `_map_setup`, of a tier with so many devices: the error and the map. -/
def mapSetup (count : ℤ) (calloc : Option ℕ) : Prog (Option ℤ × Option ℕ) :=
  if count = 0 then pure (none, none)
  else match calloc with
    | none => pure (some (-12), none)
    | some addr => do
      acquire (.heap addr)
      pure (none, some addr)

/-- `md_init_from_pmem_info`. -/
def mdInitFromPmemInfo (env : GrabEnv) (md : MultiDevices) : Prog (Option ℤ × MultiDevices) := do
  let md :=
    { md with t1Count := md.mdt.sDevList.t1Count, t2Count := md.mdt.sDevList.t2Count }
  let (err, t1Map) ← mapSetup md.t1Count env.callocT1
  let md := { md with t1Map := t1Map }
  match err with
  | some err => pure (some err, md)
  | none => do
    let (err, t2Map) ← mapSetup md.t2Count env.callocT2
    pure (err, { md with t2Map := t2Map })

/-- A tier of `md_fini`. -/
def tierFini (count : ℤ) (addr : Option ℕ) : Prog PUnit :=
  if count ≠ 0 then free addr else pure ⟨⟩

/-- `md_fini`. -/
def mdFini (md : MultiDevices) : Prog PUnit := do
  tierFini md.t2Count md.t2Map
  tierFini md.t1Count md.t1Map

/-- `_pmem_grab`, for a filesystem with pages of `userPageSize` bytes. -/
def pmemGrab (userPageSize : UInt64) (env : GrabEnv) (md : MultiDevices) :
    Prog (Option ℤ × MultiDevices) := do
  let (err, fd) ← zufRootOpenTmp env.openTmp
  let md := { md with fd := fd }
  match err, env.grabPmem with
  | some err, _ => pure (some err, md)
  | none, .error err => pure (some err, md)
  | none, .ok mdt => do
    let (err, md) ← pmemMmap h { md with mdt := mdt } env.mmapPmem
    match err with
    | some err => pure (some err, md)
    | none => do
      let (err, md) ← mdInitFromPmemInfo env md
      match err with
      | some err => pure (some err, md)
      | none =>
        if userPageSize = 0 then pure (none, md)
        -- EINVAL, with its sign
        else if userPageSize ≠ h.zusPageSize then pure (some 22, md)
        else zpagesMmap h md env.mmapPages

/-- `_pmem_ungrab`. -/
def pmemUngrab (md : MultiDevices) : Prog PUnit := do
  zpagesUnmap h md
  mdFini md
  pmemUnmap h md
  zufRootClose md.fd

/-! ## Superblocks -/

/-- `struct zus_sb_info`. -/
structure SbInfo where
  addr : ℕ
  md : MultiDevices
  zRoot : Option ℕ

/-- The answer of `sbi_init`: it makes a root inode, and may have made one when it fails. -/
inductive SbiInit
  | ok (zRoot : ℕ)
  | fail (err : ℤ) (zRoot : Option ℕ)

/-- A call of `sbi_init`: the error and `sbi->z_root`. -/
def SbiInit.run : SbiInit → Prog (Option ℤ × Option ℕ)
  | .ok zRoot => do
    acquire (.root zRoot)
    pure (none, some zRoot)
  | .fail err none => pure (some err, none)
  | .fail err (some zRoot) => do
    acquire (.root zRoot)
    pure (some err, some zRoot)

/-- `evict` of the root inode, if there is one. -/
def evictRoot : Option ℕ → Prog PUnit
  | none => pure ⟨⟩
  | some zRoot => release (.root zRoot)

/-- `_zus_sbi_fini`. The `sbi_fini` of a filesystem gives nothing back. -/
def zusSbiFini (sbi : SbInfo) : Prog PUnit := do
  pmemUngrab h sbi.md
  release (.sbi sbi.addr)

/-- The answers to the calls of `zus_mount`. -/
structure MountEnv where
  userPageSize : UInt64
  sbiAlloc : Option ℕ
  grab : GrabEnv
  sbiInit : SbiInit

/-- `zus_mount`. -/
def zusMount (env : MountEnv) : Prog (Except ℤ SbInfo) :=
  match env.sbiAlloc with
  | none => pure (.error (-12))
  | some addr => do
    acquire (.sbi addr)
    let (err, md) ← pmemGrab h env.userPageSize env.grab {}
    match err with
    | some err => do
      zusSbiFini h ⟨addr, md, none⟩
      pure (.error err)
    | none => do
      let (err, zRoot) ← env.sbiInit.run
      match err with
      | some err => do
        zusSbiFini h ⟨addr, md, zRoot⟩
        pure (.error err)
      | none => pure (.ok ⟨addr, md, zRoot⟩)

/-- `zus_umount`, after the kernel has evicted the root inode. -/
def zusUmount (sbi : SbInfo) : Prog PUnit := do
  evictRoot sbi.zRoot
  zusSbiFini h sbi

/-! ## Private mounts -/

/-- A private mount: `struct zufs_ioc_mount_private`, with the thread that made it. -/
structure PrivateMount where
  zip : ℕ
  mountFd : ℕ
  tid : ℕ
  sbi : SbInfo

/-- The answers to the calls of `zus_private_mount`. -/
structure PrivateEnv extends MountEnv where
  callocZip : Option ℕ
  openMount : Except ℕ ℕ
  /-- `ZU_IOC_NUMA_MAP` -/
  numaMap : Option ℤ
  /-- `pthread_getspecific` returns a thread -/
  isZusThread : Bool
  /-- there is memory for a `zus_base_thread` -/
  callocThread : Bool
  /-- `ZU_IOC_PRIVATE_MOUNT` -/
  privateMount : Option ℤ

/-- `zus_thread_current_init`. -/
def zusThreadCurrentInit (tid : ℕ) (isZusThread callocThread : Bool) : Prog (Option ℤ) :=
  if isZusThread then pure (some (-17))
  else if !callocThread then pure (some (-12))
  else do
    acquire (.thread tid)
    pure none

/-- `zus_thread_current_fini`. -/
def zusThreadCurrentFini (tid : ℕ) : Prog PUnit :=
  ifHeld (.thread tid) (release (.thread tid)) (pure ⟨⟩)

/-- The labels of `zus_private_mount`, from `fail_mount` on. -/
def failMount (zip mountFd tid addr : ℕ) : Prog PUnit := do
  release (.sbi addr)
  zusThreadCurrentFini tid
  release (.fd mountFd)
  release (.heap zip)

/-- `zus_private_mount` after the kernel has made the mount. -/
def privateGrab (env : MountEnv) (zip mountFd tid addr : ℕ) : Prog (Except ℤ PrivateMount) := do
  let (err, md) ← pmemGrab h env.userPageSize env.grab {}
  match err with
  | some err => do
    -- fail_grab does not ungrab
    release (.kernelMount mountFd)
    failMount zip mountFd tid addr
    pure (.error err)
  | none => do
    let (err, zRoot) ← env.sbiInit.run
    match err with
    | some err => do
      evictRoot zRoot
      pmemUngrab h md
      release (.kernelMount mountFd)
      failMount zip mountFd tid addr
      pure (.error err)
    | none => pure (.ok ⟨zip, mountFd, tid, addr, md, zRoot⟩)

/-- `zus_private_mount` after `zus_thread_current_init`. -/
def privateAlloc (env : PrivateEnv) (zip mountFd tid : ℕ) : Prog (Except ℤ PrivateMount) :=
  match env.sbiAlloc with
  | none => do
    zusThreadCurrentFini tid
    release (.fd mountFd)
    release (.heap zip)
    pure (.error (-12))
  | some addr => do
    acquire (.sbi addr)
    match env.privateMount with
    | some err => do
      failMount zip mountFd tid addr
      pure (.error err)
    | none => do
      acquire (.kernelMount mountFd)
      privateGrab h env.toMountEnv zip mountFd tid addr

/-- `zus_private_mount` in a thread. -/
def zusPrivateMount (tid : ℕ) (env : PrivateEnv) : Prog (Except ℤ PrivateMount) :=
  match env.callocZip with
  | none => pure (.error (-12))
  | some zip => do
    acquire (.heap zip)
    match env.openMount with
    | .error errno => do
      release (.heap zip)
      pure (.error (-errno))
    | .ok mountFd => do
      acquire (.fd mountFd)
      let err ← match env.numaMap with
        | some err => pure (some err)
        | none => zusThreadCurrentInit tid env.isZusThread env.callocThread
      match err with
      | some err => do
        release (.fd mountFd)
        release (.heap zip)
        pure (.error err)
      | none => privateAlloc h env zip mountFd tid

/-- `zus_private_umount` in the thread that made the mount. -/
def zusPrivateUmount (pm : PrivateMount) : Prog PUnit := do
  evictRoot pm.sbi.zRoot
  pmemUngrab h pm.sbi.md
  release (.kernelMount pm.mountFd)
  failMount pm.zip pm.mountFd pm.tid pm.sbi.addr

end

end Zus.Mount
