import Zus.Toyfs.File
import Zus.Toyfs.Xattr

/-!
# Inodes and the inode table

`inode.c`, `symlink.c`, the inode table of `super.c` and the page of the extended
attributes. An inode has a record in persistent memory and, while it is referenced, an
in-memory info (`tii`). The table maps inode numbers to both; an info that is dropped
while its inode has links leaves an entry without one.

The addresses `zus_malloc` returns are inputs: `none` is a failed allocation.
-/

namespace Zus.Toyfs

open Zus.Lib

/-- `TOYFS_ROOT_INO`. -/
def rootIno : UInt64 := 1

/-- `ARRAY_SIZE(itable->imap)`. -/
def imapSlots : ℕ := 33377

/-- `_itable_slot_of`. -/
def slotOf (ino : UInt64) : ℕ := ino.toNat % imapSlots

/-- Set the `tii` field of the first entry of a chain with number `ino`. -/
def setFirstTii (ino : UInt64) (tii : Option ℕ) : List InodeRef → List InodeRef
  | [] => []
  | e :: rest => if e.ino = ino then { e with tii := tii } :: rest else e :: setFirstTii ino tii rest

/-- `sizeof(ti->i_symlink)`. -/
def symlinkSize : UInt64 := 32

namespace Sbi

variable (s : Sbi)

/-! ## In-memory infos -/

/-- `toyfs_alloc_ii`. -/
def allocIi (addr : Option ℕ) : Option (ℕ × Sbi) :=
  if s.fFfree = 0 ∨ s.fFavail = 0 then none
  else
    match addr with
    | none => none
    | some a => some (a, { s with
        tiis := Function.update s.tiis a (some {})
        fFfree := s.fFfree - 1
        fFavail := s.fFavail - 1 })

/-- `toyfs_tii_free`. -/
def tiiFree (a : ℕ) : Sbi :=
  { s with
    tiis := Function.update s.tiis a none
    fFfree := s.fFfree + 1
    fFavail := s.fFavail + 1 }

/-- Replace an info. -/
def setTii (a : ℕ) (info : InodeInfo) : Sbi :=
  { s with tiis := Function.update s.tiis a (some info) }

/-! ## The table -/

/-- `_itable_find`. -/
def itableFind (ino : UInt64) : Option InodeRef := (s.imap (slotOf ino)).find? (·.ino == ino)

/-- Replace a chain of the table. -/
def setSlot (slot : ℕ) (l : List InodeRef) : Sbi :=
  { s with imap := Function.update s.imap slot l }

/-- `_itable_insert`. -/
def itableInsert (a : ℕ) (info : InodeInfo) : Sbi :=
  { s.setSlot (slotOf info.ino) (⟨some a, info.ti, info.ino⟩ :: s.imap (slotOf info.ino)) with
    icount := s.icount + 1 }

/-- `_itable_remove`. -/
def itableRemove (a : ℕ) (info : InodeInfo) : Sbi :=
  let l := s.imap (slotOf info.ino)
  let s₁ := s.assert (0 < s.icount && l.any (·.tii == some a))
  { s₁.setSlot (slotOf info.ino) (l.eraseP (·.tii == some a)) with icount := s.icount - 1 }

/-- Set the `tii` field of the entry `_itable_find` returns. -/
def setEntryTii (ino : UInt64) (tii : Option ℕ) : Sbi :=
  s.setSlot (slotOf ino) (setFirstTii ino tii (s.imap (slotOf ino)))

/-- `toyfs_i_track`. -/
def iTrack (a : ℕ) (info : InodeInfo) : Sbi :=
  (s.itableInsert a info).setTii a { info with mapped := true }

/-- `toyfs_i_untrack`. -/
def iUntrack (a : ℕ) (info : InodeInfo) (remove : Bool) : Sbi :=
  let s₁ := (s.assert (s.itableFind info.ino).isSome).setTii a { info with mapped := false }
  if remove then s₁.itableRemove a info else s₁.setEntryTii info.ino none

/-! ## Extended attributes and symlinks -/

/-- `_require_xattr`. -/
def requireXattr (n : RecPtr) : Option Sbi :=
  if (s.inodes n).iXattr ≠ 0 then some s
  else
    match s.acquirePmemb with
    | none => none
    | some (bn, s₁) => some (s₁.setInode n { s₁.inodes n with iXattr := bn })

/-- `toyfs_setxattr`; `none` is an access outside the page. -/
def setxattr (n : RecPtr) (ioc : IocXattr) : Option (Except Errno Unit × Sbi) :=
  match s.requireXattr n with
  | none => some (.error .enospc, s)
  | some s₁ =>
    match setxattrPage (s₁.mem (s₁.inodes n).iXattr) xeEnd ioc with
    | none => none
    | some (res, pg) => some (res, s₁.setPage (s₁.inodes n).iXattr pg)

/-- `toyfs_drop_xattr`. -/
def dropXattr (n : RecPtr) : Sbi :=
  if (s.inodes n).iXattr ≠ 0 then
    let s₁ := s.releasePmemb (s.inodes n).iXattr
    s₁.setInode n { s₁.inodes n with iXattr := 0 }
  else s

/-- The page of a `zu_dpp_t`. -/
def dppToBn (dpp : ℕ) : ℕ := dpp / pageSize

/-- `toyfs_release_symlink`. -/
def releaseSymlink (n : RecPtr) : Sbi :=
  let s₁ := if symlinkSize < (s.inodes n).iSize then
    s.releasePmemb (dppToBn (s.inodes n).iSymDpp) else s
  s₁.setInode n { s₁.inodes n with iSize := 0, iSymDpp := 0 }

/-- One step of the loop of `toyfs_release_dir`. -/
def releaseDirPage (n : RecPtr) (bn : ℕ) : Sbi :=
  let s₁ := s.assert (0 < (s.inodes n).iBlocks)
  let i := s₁.inodes n
  (s₁.setInode n { i with childs := i.childs.erase bn, iBlocks := i.iBlocks - 1 }).releasePmemb bn

/-- `toyfs_release_dir`. -/
def releaseDir (n : RecPtr) : Sbi :=
  let s₁ := (s.inodes n).childs.foldl (fun s bn => s.releaseDirPage n bn) s
  s₁.assert ((s₁.inodes n).iBlocks == 0)

/-! ## Inodes -/

end Sbi

/-- What `toyfs_new_inode` reads of `struct zufs_ioc_new_inode`; the other fields of the
inode the kernel sends are zero. -/
structure IocNewInode where
  iMode : FileType
  iNlink : UInt32
  iSize : UInt64
  iSymlink : List UInt8
  /-- the text at `app_ptr`, for a long symlink -/
  symname : Bytes
  /-- `ZI_TMPFILE` in `flags` -/
  tmpfile : Bool

namespace Sbi

variable (s : Sbi)

/-- `_next_ino`. -/
def nextIno : UInt64 × Sbi := (s.sTopIno, { s with sTopIno := s.sTopIno + 1 })

/-- The record of a new inode, before the work its type needs. -/
def initInode (ioc : IocNewInode) (ino : UInt64) : Inode :=
  { iMode := ioc.iMode, iNlink := ioc.iNlink, iSize := ioc.iSize, iSymlink := ioc.iSymlink,
    iIno := ino }

/-- The part of `toyfs_new_inode` that depends on the type of the inode; `none` when
there is no page for a long symlink. -/
def setupInode (dir n : RecPtr) (ioc : IocNewInode) (ino : UInt64) : Option Sbi :=
  let ti := initInode ioc ino
  match ioc.iMode with
  | .dir => some (s.setInode n
      { ti with iSize := 0, iDirParent := (s.inodes dir).iIno, iNlink := 1 })
  | .reg => some (s.setInode n (if ioc.tmpfile then { ti with iNlink := 1 } else ti))
  | .lnk =>
    if symlinkSize ≤ ioc.iSize then
      match s.acquirePmemb with
      | none => none
      | some (bn, s₁) =>
        some ((s₁.setPage bn ((s₁.mem bn).store 0 ioc.iSize.toNat ioc.symname)).setInode n
          { ti with iSymDpp := bn * pageSize })
    else some (s.setInode n ti)
  | _ => some (s.setInode n ti)

/-- `toyfs_new_inode` in directory `dir`: the address of the new info. -/
def newInode (dir : RecPtr) (ioc : IocNewInode) (addr : Option ℕ) : Option ℕ × Sbi :=
  match s.allocIi addr with
  | none => (none, s)
  | some (a, s₁) =>
    if ioc.iMode = .unset then (none, s₁.tiiFree a)
    else if 4096 ≤ ioc.iSize then (none, s₁.tiiFree a)
    else
      match s₁.acquireInode with
      | none => (none, s₁.tiiFree a)
      | some (n, s₂) =>
        let ino := s₂.nextIno.1
        match s₂.nextIno.2.setupInode dir n ioc ino with
        | none => (none, ((s₂.nextIno.2).releaseInode n).tiiFree a)
        | some s₃ =>
          (some a, s₃.iTrack a { ti := some n, zi := some n, ino := ino, ref := 1 })

/-- `toyfs_free_inode`. -/
def freeInode (n : RecPtr) : Sbi :=
  let zero (s : Sbi) : Sbi := (s.dropXattr n).releaseInode n
  match (s.inodes n).iMode with
  | .dir => if (s.inodes n).iSize ≠ 0 then s else zero (s.releaseDir n)
  | .lnk => zero (s.releaseSymlink n)
  | .reg => zero (s.truncate n 0).2
  | _ => zero s

/-- `toyfs_iget`. -/
def iget (ino : UInt64) (addr : Option ℕ) : Except Errno ℕ × Sbi :=
  match s.itableFind ino with
  | none => (.error .enoent, s)
  | some tir =>
    match tir.tii with
    | some a =>
      match s.tiis a with
      | some info => (.ok a, s.setTii a { info with ref := info.ref + 1 })
      | none => (.ok a, s)
    | none =>
      match s.allocIi addr with
      | none => (.error .enomem, s)
      | some (a, s₁) =>
        (.ok a, (s₁.setEntryTii ino (some a)).setTii a { ref := 1, mapped := true })

/-- `toyfs_evict`; `none` when the info is not allocated, or has no inode to look at. -/
def evict (a : ℕ) : Option Sbi :=
  match s.tiis a with
  | none => none
  | some info =>
    let info' := { info with ref := info.ref - 1 }
    if info'.ref ≠ 0 then some (s.setTii a info')
    else
      match info.ti with
      | none => none
      | some n =>
        let s₁ := s.setTii a info'
        let s₂ := if (s₁.inodes n).iNlink = 0 then s₁.freeInode n else s₁
        let s₃ := if info.mapped then
          s₂.iUntrack a info' ((s₁.inodes n).iNlink == 0) else s₂
        some (s₃.tiiFree a)

/-! ## Mount -/

/-- `_sbi_init` over `nblocks` blocks, up to the root inode. -/
def setup (nblocks : ℕ) : Sbi where
  mem _ _ := 0
  dblkrefs _ := {}
  inodes _ := {}
  pool := .setup nblocks
  fBlocks := nblocks - 2
  fBfree := nblocks - 2
  fBavail := nblocks - 2
  fFiles := nblocks - 2
  fFfree := nblocks - 2
  fFavail := nblocks - 2
  imap _ := []
  icount := 0
  tiis _ := none
  sTopIno := rootIno + 1
  panicked := false

/-- `_new_root_inode`. -/
def newRootInode (addr : Option ℕ) : Option (RecPtr × Sbi) :=
  match s.allocIi addr with
  | none => none
  | some (a, s₁) =>
    match s₁.acquireInode with
    | none => none
    | some (n, s₂) =>
      let info : InodeInfo := { ti := some n, zi := some n, ino := rootIno }
      let s₃ := (s₂.setTii a info).setInode n { iMode := .dir, iNlink := 2, iIno := rootIno }
      some (n, s₃.itableInsert a info)

end Sbi

/-! ## What the calls do -/

/-- The request is for a symlink that does not fit its record. -/
def IocNewInode.LongSymlink (ioc : IocNewInode) : Prop :=
  ioc.iMode = .lnk ∧ symlinkSize ≤ ioc.iSize

/-- The record of an inode that was just made on the request `ioc`. -/
structure Inode.NewFor (ioc : IocNewInode) (ino : UInt64) (i : Inode) : Prop where
  mode : i.iMode = ioc.iMode
  ino : i.iIno = ino
  iblkrefs : i.iblkrefs = []
  childs : i.childs = []
  blocks : i.iBlocks = 0
  xattr : i.iXattr = 0
  symlink : i.iSymlink = ioc.iSymlink
  size : i.iSize = if ioc.iMode = .dir then 0 else ioc.iSize
  nlink : i.iNlink = if ioc.iMode = .dir ∨ (ioc.iMode = .reg ∧ ioc.tmpfile) then 1 else ioc.iNlink

namespace Sbi

variable {s s' : Sbi} {n dir : RecPtr} {ioc : IocNewInode} {ino : UInt64} {addr : Option ℕ} {a : ℕ}

theorem allocIi_some (ha : s.allocIi addr = some (a, s')) :
    addr = some a ∧ s' = { s with
      tiis := Function.update s.tiis a (some {})
      fFfree := s.fFfree - 1
      fFavail := s.fFavail - 1 } := by
  unfold allocIi at ha
  split at ha
  · cases ha
  · split at ha
    · cases ha
    · obtain ⟨rfl, rfl⟩ := Prod.mk.inj (Option.some.inj ha)
      exact ⟨rfl, rfl⟩

/-- The inode has its page of attributes, or gets one. -/
theorem requireXattr_some (hr : s.requireXattr n = some s') :
    ((s.inodes n).iXattr ≠ 0 ∧ s' = s) ∨
      ((s.inodes n).iXattr = 0 ∧ ∃ bn s₁, s.acquirePmemb = some (bn, s₁) ∧
        s' = s₁.setInode n { s₁.inodes n with iXattr := bn }) := by
  unfold requireXattr at hr
  split at hr
  · next hne => exact .inl ⟨hne, (Option.some.inj hr).symm⟩
  · next hzero =>
    split at hr
    · cases hr
    next bn s₁ ha =>
    exact .inr ⟨not_not.mp hzero, bn, s₁, ha, (Option.some.inj hr).symm⟩

/-- Nothing changes, or the page of attributes is there and is written. -/
theorem setxattr_some {xioc : IocXattr} {res : Except Errno Unit}
    (hr : s.setxattr n xioc = some (res, s')) :
    s' = s ∨ ∃ s₁ pg, s.requireXattr n = some s₁ ∧ s' = s₁.setPage (s₁.inodes n).iXattr pg := by
  unfold setxattr at hr
  split at hr
  · exact .inl (Prod.mk.inj (Option.some.inj hr)).2.symm
  · next s₁ hx =>
    split at hr
    · cases hr
    next pg hp =>
    exact .inr ⟨s₁, pg, hx, (Prod.mk.inj (Option.some.inj hr)).2.symm⟩

/-- The record of a new inode, and the page of a long symlink. -/
theorem setupInode_some (hr : s.setupInode dir n ioc ino = some s') :
    ∃ i, Inode.NewFor ioc ino i ∧
      ((¬ ioc.LongSymlink ∧ i.iSymDpp = 0 ∧ s' = s.setInode n i) ∨
        (ioc.LongSymlink ∧ ∃ bn s₁, s.acquirePmemb = some (bn, s₁) ∧ i.iSymDpp = bn * pageSize ∧
          s' = (s₁.setPage bn ((s₁.mem bn).store 0 ioc.iSize.toNat ioc.symname)).setInode n i)) := by
  unfold setupInode at hr
  simp only at hr
  split at hr
  · next hmode =>
    have hnot : ¬ ioc.LongSymlink := fun h => by
      rw [IocNewInode.LongSymlink, hmode] at h
      cases h.1
    refine ⟨_, ⟨rfl, rfl, rfl, rfl, rfl, rfl, rfl, (if_pos hmode).symm, (if_pos (.inl hmode)).symm⟩,
      .inl ⟨hnot, rfl, (Option.some.inj hr).symm⟩⟩
  · next hmode =>
    have hnot : ¬ ioc.LongSymlink := fun h => by
      rw [IocNewInode.LongSymlink, hmode] at h
      cases h.1
    have hdir : ioc.iMode ≠ .dir := by
      rw [hmode]
      exact fun h => by cases h
    refine ⟨_, ?_, .inl ⟨hnot, ?_, (Option.some.inj hr).symm⟩⟩
    · split
      · next htmp =>
        exact ⟨rfl, rfl, rfl, rfl, rfl, rfl, rfl, (if_neg hdir).symm,
          (if_pos (.inr ⟨hmode, htmp⟩)).symm⟩
      · next htmp =>
        exact ⟨rfl, rfl, rfl, rfl, rfl, rfl, rfl, (if_neg hdir).symm,
          (if_neg (not_or.mpr ⟨hdir, fun h => htmp h.2⟩)).symm⟩
    · split
      · rfl
      · rfl
  · next hmode =>
    have hnew : ∀ dpp, Inode.NewFor ioc ino { initInode ioc ino with iSymDpp := dpp } := fun dpp =>
      ⟨rfl, rfl, rfl, rfl, rfl, rfl, rfl, by simp [initInode, hmode], by simp [initInode, hmode]⟩
    split at hr
    · next hlong =>
      split at hr
      · cases hr
      next bn s₁ ha =>
      exact ⟨_, hnew _, .inr ⟨⟨hmode, hlong⟩, bn, s₁, ha, rfl, (Option.some.inj hr).symm⟩⟩
    · next hshort =>
      exact ⟨_, hnew 0, .inl ⟨fun h => hshort h.2, rfl, (Option.some.inj hr).symm⟩⟩
  · next hdir hreg hlnk =>
    exact ⟨_, ⟨rfl, rfl, rfl, rfl, rfl, rfl, rfl, (if_neg hdir).symm,
      (if_neg (not_or.mpr ⟨hdir, fun h => hreg h.1⟩)).symm⟩,
      .inl ⟨fun h => hlnk h.1, rfl, (Option.some.inj hr).symm⟩⟩

/-- The ways in which `toyfs_new_inode` ends. -/
inductive NewInodeEnds (s : Sbi) (dir : RecPtr) (ioc : IocNewInode) (addr : Option ℕ) :
    Option ℕ → Sbi → Prop
  | noInfo : NewInodeEnds s dir ioc addr none s
  | noRecord {a : ℕ} {s₁ : Sbi} (ha : s.allocIi addr = some (a, s₁)) :
      NewInodeEnds s dir ioc addr none (s₁.tiiFree a)
  | noPage {a : ℕ} {n : RecPtr} {s₁ s₂ : Sbi} (ha : s.allocIi addr = some (a, s₁))
      (hn : s₁.acquireInode = some (n, s₂)) :
      NewInodeEnds s dir ioc addr none ((s₂.nextIno.2.releaseInode n).tiiFree a)
  | made {a : ℕ} {n : RecPtr} {s₁ s₂ s₃ : Sbi} (ha : s.allocIi addr = some (a, s₁))
      (hmode : ioc.iMode ≠ .unset) (hsize : ioc.iSize < 4096)
      (hn : s₁.acquireInode = some (n, s₂))
      (hs : s₂.nextIno.2.setupInode dir n ioc s₂.nextIno.1 = some s₃) :
      NewInodeEnds s dir ioc addr (some a)
        (s₃.iTrack a { ti := some n, zi := some n, ino := s₂.nextIno.1, ref := 1 })

theorem newInode_ends {res : Option ℕ} (hr : s.newInode dir ioc addr = (res, s')) :
    NewInodeEnds s dir ioc addr res s' := by
  unfold newInode at hr
  split at hr
  · obtain ⟨rfl, rfl⟩ := Prod.mk.inj hr
    exact .noInfo
  next a s₁ ha =>
  split at hr
  · obtain ⟨rfl, rfl⟩ := Prod.mk.inj hr
    exact .noRecord ha
  next hmode =>
  split at hr
  · obtain ⟨rfl, rfl⟩ := Prod.mk.inj hr
    exact .noRecord ha
  next hsize =>
  split at hr
  · obtain ⟨rfl, rfl⟩ := Prod.mk.inj hr
    exact .noRecord ha
  next n s₂ hn =>
  simp only at hr
  split at hr
  · obtain ⟨rfl, rfl⟩ := Prod.mk.inj hr
    exact .noPage ha hn
  next s₃ hs =>
  obtain ⟨rfl, rfl⟩ := Prod.mk.inj hr
  exact .made ha hmode (UInt64.not_le.mp hsize) hn hs

theorem newRootInode_some (hr : s.newRootInode addr = some (n, s')) :
    ∃ a s₁ s₂, s.allocIi addr = some (a, s₁) ∧ s₁.acquireInode = some (n, s₂) ∧
      s' = ((s₂.setTii a { ti := some n, zi := some n, ino := rootIno }).setInode n
        { iMode := .dir, iNlink := 2, iIno := rootIno }).itableInsert a
          { ti := some n, zi := some n, ino := rootIno } := by
  unfold newRootInode at hr
  split at hr
  · cases hr
  next a s₁ ha =>
  split at hr
  · cases hr
  next r s₂ hn =>
  obtain ⟨rfl, rfl⟩ := Prod.mk.inj (Option.some.inj hr)
  exact ⟨a, s₁, s₂, ha, hn, rfl⟩

end Sbi

/-! ## Statistics -/

/-- The counters in `struct zufs_ioc_statfs`. -/
structure Statfs where
  fBlocks : ℕ
  fBfree : ℕ
  fBavail : ℕ
  fFiles : ℕ
  fFfree : ℕ

/-- `toyfs_statfs`. -/
def Sbi.statfs (s : Sbi) : Statfs where
  fBlocks := s.fBlocks
  fBfree := s.fBfree
  fBavail := s.fBavail
  fFiles := s.fFiles
  fFfree := s.fFfree

end Zus.Toyfs
