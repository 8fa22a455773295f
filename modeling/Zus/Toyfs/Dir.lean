import Zus.Toyfs.Pool

/-!
# Directories

`dir.c` and `namei.c`. A directory is a list of pages, each of `127` slots of `32` bytes
after a header of `32` bytes. An entry starts in a slot with its offset, inode number,
type, name length and the first bytes of its name, and takes as many further slots as
the name needs. A slot with name length zero is free; a walk over a page steps from the
start of an entry to the slot after it.
-/

namespace Zus.Toyfs

open Zus.Lib

/-- `ARRAY_SIZE(dentries->de)`. -/
def dentriesPerPage : ℕ := 127

namespace Dirent

/-- The offset of a slot in its page. -/
def slot (i : ℕ) : ℕ := 32 + 32 * i

/-- `_namelen_to_nde`: the slots an entry takes. -/
def namelenToNde (nlen : ℕ) : ℕ := if 14 < nlen then 1 + (nlen - 14 + 32 - 1) / 32 else 1

theorem namelenToNde_pos (nlen : ℕ) : 0 < namelenToNde nlen := by
  unfold namelenToNde
  split <;> omega

/-- `strncmp` of two texts of one length is zero. -/
def strncmpEq : List UInt8 → List UInt8 → Bool
  | x :: xs, y :: ys => x == y && (x == 0 || strncmpEq xs ys)
  | _, _ => true

section Page

variable (pg : Bytes) (i : ℕ)

/-- `d_nlen`. -/
def dNlen : ℕ := (pg (slot i + 17)).toNat

/-- `d_ino`. -/
def dIno : ℕ := leNat (pg.slice (slot i + 8) 8)

/-- `d_type`. -/
def dType : UInt8 := pg (slot i + 16)

/-- `d_off`. -/
def dOff : ℤ := toLoff (.ofNat (leNat (pg.slice (slot i) 8)))

/-- `d_name`, which goes on over the slots that follow. -/
def dName (len : ℕ) : List UInt8 := pg.slice (slot i + 18) len

/-- `_is_active`. -/
def isActive : Bool := 0 < dNlen pg i && dIno pg i != 0

/-- `_hasname`. -/
def hasname (name : List UInt8) : Bool :=
  dNlen pg i == name.length && strncmpEq (dName pg i (dNlen pg i)) name

/-- `_next_dirent`. -/
def nextDirent : ℕ := i + if isActive pg i then namelenToNde (dNlen pg i) else 1

theorem lt_nextDirent : i < nextDirent pg i := by
  have := namelenToNde_pos (dNlen pg i)
  unfold nextDirent
  split <;> omega

/-- `_count_free_de`, the free slots from `i` on. -/
def countFreeDe (pg : Bytes) (i : ℕ) : ℕ :=
  if i < dentriesPerPage then
    if dNlen pg i ≠ 0 then 0 else 1 + countFreeDe pg (i + 1)
  else 0
termination_by dentriesPerPage - i

/-- The loop of `_search_free`. -/
def searchFreeFrom (pg : Bytes) (required i : ℕ) : Option ℕ :=
  if i < dentriesPerPage then
    let count := countFreeDe pg i
    if required ≤ count then some i
    else searchFreeFrom pg required
      (i + if count ≠ 0 then count else namelenToNde (dNlen pg i))
  else none
termination_by dentriesPerPage - i
decreasing_by
  have := namelenToNde_pos (dNlen pg i)
  split <;> omega

/-- The loop of `_find_dirent`. -/
def findDirentFrom (pg : Bytes) (name : List UInt8) (i : ℕ) : Option ℕ :=
  if i < dentriesPerPage then
    if hasname pg i name then some i else findDirentFrom pg name (nextDirent pg i)
  else none
termination_by dentriesPerPage - i
decreasing_by
  have := lt_nextDirent pg i
  omega

/-- `_set_dirent`. -/
def setDirent (name : List UInt8) (ino : UInt64) (type : UInt8) (off : ℕ) : Bytes :=
  let pg₁ := pg.store (slot i) (namelenToNde name.length * 32) fun _ => 0
  let pg₂ := pg₁.store (slot i + 18) name.length (.ofList name)
  let pg₃ := pg₂.store (slot i + 17) 1 fun _ => UInt8.ofNat name.length
  let pg₄ := pg₃.store (slot i + 8) 8 (.ofList (leBytes 8 ino.toNat))
  let pg₅ := pg₄.store (slot i + 16) 1 fun _ => type
  pg₅.store (slot i) 8 (.ofList (leBytes 8 off))

/-- `_reset_dirent`. -/
def resetDirent : Bytes := pg.store (slot i) (namelenToNde (dNlen pg i) * 32) fun _ => 0

end Page

end Dirent

open Dirent

namespace Sbi

variable (s : Sbi)

/-- `toyfs_lookup_dirent`: the page and the slot of an entry. -/
def lookupDirent (dir : RecPtr) (name : List UInt8) : Option (ℕ × ℕ) :=
  (s.inodes dir).childs.findSome? fun bn =>
    (findDirentFrom (s.mem bn) name 0).map fun i => (bn, i)

/-- `toyfs_lookup`; `TOYFS_NULL_INO` is zero. -/
def lookup (dir : RecPtr) (name : List UInt8) : ℕ :=
  match s.lookupDirent dir name with
  | some (bn, i) => dIno (s.mem bn) i
  | none => 0

/-- The search of `_acquire_dirent` over the pages of a directory: page, slot and
`d_off` of the first place that is large enough. -/
def searchChilds (required : ℕ) (dOff : ℕ) : List ℕ → Option (ℕ × ℕ × ℕ)
  | [] => none
  | bn :: rest =>
    match searchFreeFrom (s.mem bn) required 0 with
    | some i => some (bn, i, dOff + i)
    | none => searchChilds required (dOff + dentriesPerPage) rest

/-- `_acquire_dirent`. -/
def acquireDirent (dir : RecPtr) (nlen : ℕ) : Option ((ℕ × ℕ × ℕ) × Sbi) :=
  match s.searchChilds (namelenToNde nlen) 2 (s.inodes dir).childs with
  | some place => some (place, s)
  | none =>
    match s.acquirePmemb with
    | none => none
    | some (bn, s₁) =>
      let i := s₁.inodes dir
      some ((bn, 0, 2 + dentriesPerPage * i.childs.length),
        s₁.setInode dir { i with iBlocks := i.iBlocks + 1, childs := i.childs ++ [bn] })

/-- Add to `i_nlink`. -/
def addNlink (n : RecPtr) (add : UInt32) : Sbi :=
  s.setInode n { s.inodes n with iNlink := (s.inodes n).iNlink + add }

/-- `zus_std_add_dentry`. -/
def stdAddDentry (dir n : RecPtr) : Sbi :=
  let s₁ := s.addNlink n 1
  if (s₁.inodes n).iMode = .dir then s₁.addNlink dir 1 else s₁

/-- `zus_std_remove_dentry`. -/
def stdRemoveDentry (dir n : RecPtr) : Sbi :=
  let s₁ := if (s.inodes n).iMode = .dir then (s.addNlink n (-1)).addNlink dir (-1) else s
  s₁.addNlink n (-1)

/-- Set `i_size` of a directory. -/
def setDirSize (dir : RecPtr) (size : UInt64) : Sbi :=
  s.setInode dir { s.inodes dir with iSize := size }

/-- `toyfs_add_dirent`; the number stored is `tii->ino`, that of the inode. -/
def addDirent (dir n : RecPtr) (name : List UInt8) : Option Errno × Sbi :=
  match s.acquireDirent dir name.length with
  | none => (some .enospc, s)
  | some ((bn, i, dOff), s₁) =>
    let s₂ := s₁.setPage bn (setDirent (s₁.mem bn) i name (s₁.inodes n).iIno
      (s₁.inodes n).iMode.iftodt dOff)
    let s₃ := s₂.setDirSize dir ((s₂.inodes dir).iSize + 4096)
    (none, s₃.stdAddDentry dir n)

/-- `toyfs_remove_dirent`. -/
def removeDirent (dir n : RecPtr) (bn i : ℕ) : Sbi :=
  let s₁ := (s.assert (0 < dNlen (s.mem bn) i)).setPage bn (resetDirent (s.mem bn) i)
  let s₂ := s₁.setDirSize dir ((s₁.inodes dir).iSize - 4096)
  s₂.stdRemoveDentry dir n

/-- `toyfs_remove_dentry`. -/
def removeDentry (dir n : RecPtr) (name : List UInt8) : Option Errno × Sbi :=
  match s.lookupDirent dir name with
  | none => (some .enoent, s)
  | some (bn, i) =>
    if (s.inodes n).iMode = .dir ∧ (s.inodes n).iSize ≠ 0 then (some .enotempty, s)
    else
      let s₁ := s.removeDirent dir n bn i
      let x := s₁.inodes n
      if x.iMode = .dir ∧ x.iNlink = 1 ∧ x.iSize = 0 then
        (none, s₁.setInode n { x with iNlink := 0 })
      else (none, s₁)

/-- Set `i_mtime` and `i_ctime`. -/
def touch (n : RecPtr) (time : UInt64) : Sbi :=
  s.setInode n { s.inodes n with iMtime := time, iCtime := time }

/-- `_do_rename` for an existing source inode. -/
def rename (oldDir newDir old : RecPtr) (oldName newName : List UInt8) (time : UInt64)
    (flags : UInt32) : Option Errno × Sbi :=
  if flags ≠ 0 then (some .enotsup, s)
  else
    match s.lookupDirent oldDir oldName with
    | none => (some .enoent, s)
    | some (bn, i) =>
      match
        (match s.lookupDirent newDir newName with
        | some _ => (none, s)
        | none => s.addDirent newDir old newName) with
      | (some err, s₁) => (some err, s₁)
      | (none, s₁) =>
        let s₂ := s₁.removeDirent oldDir old bn i
        let s₃ := if (s₂.inodes old).iMode = .dir then s₂.addNlink old 1 else s₂
        let s₄ := (s₃.touch oldDir time).touch newDir time
        (none, s₄.setInode old { s₄.inodes old with iCtime := time })

/-! ### What a rename does -/

/-- `_do_rename` from the removal of the old entry on. -/
def renameRest (oldDir newDir old : RecPtr) (time : UInt64) (bn i : ℕ) : Sbi :=
  let s₂ := s.removeDirent oldDir old bn i
  let s₃ := if (s₂.inodes old).iMode = .dir then s₂.addNlink old 1 else s₂
  let s₄ := (s₃.touch oldDir time).touch newDir time
  s₄.setInode old { s₄.inodes old with iCtime := time }

/-- The ways in which `_do_rename` ends. -/
inductive RenameEnds (s : Sbi) (oldDir newDir old : RecPtr) (oldName newName : List UInt8)
    (time : UInt64) (flags : UInt32) : Option Errno → Sbi → Prop
  | refused (err : Errno) : RenameEnds s oldDir newDir old oldName newName time flags (some err) s
  | noRoom {err : Errno} {s₁ : Sbi} (hnew : s.lookupDirent newDir newName = none)
      (hadd : s.addDirent newDir old newName = (some err, s₁)) :
      RenameEnds s oldDir newDir old oldName newName time flags (some err) s₁
  | onto {bn i : ℕ} {place : ℕ × ℕ} (hflags : flags = 0)
      (hold : s.lookupDirent oldDir oldName = some (bn, i))
      (hnew : s.lookupDirent newDir newName = some place) :
      RenameEnds s oldDir newDir old oldName newName time flags none
        (s.renameRest oldDir newDir old time bn i)
  | moved {bn i : ℕ} {s₁ : Sbi} (hflags : flags = 0)
      (hold : s.lookupDirent oldDir oldName = some (bn, i))
      (hnew : s.lookupDirent newDir newName = none)
      (hadd : s.addDirent newDir old newName = (none, s₁)) :
      RenameEnds s oldDir newDir old oldName newName time flags none
        (s₁.renameRest oldDir newDir old time bn i)

variable {s} {s' : Sbi} {oldDir newDir old : RecPtr} {oldName newName : List UInt8}
  {time : UInt64} {flags : UInt32} {res : Option Errno}

theorem rename_ends (hr : s.rename oldDir newDir old oldName newName time flags = (res, s')) :
    RenameEnds s oldDir newDir old oldName newName time flags res s' := by
  unfold rename at hr
  split at hr
  · obtain ⟨rfl, rfl⟩ := Prod.mk.inj hr
    exact .refused _
  next hflags =>
  split at hr
  · obtain ⟨rfl, rfl⟩ := Prod.mk.inj hr
    exact .refused _
  next bn i hold =>
  rcases hnew : s.lookupDirent newDir newName with _ | place
  · rw [hnew] at hr
    rcases hadd : s.addDirent newDir old newName with ⟨_ | err, s₁⟩
    · rw [hadd] at hr
      obtain ⟨rfl, rfl⟩ := Prod.mk.inj hr
      exact .moved (not_not.mp hflags) hold hnew hadd
    · rw [hadd] at hr
      obtain ⟨rfl, rfl⟩ := Prod.mk.inj hr
      exact .noRoom hnew hadd
  · rw [hnew] at hr
    obtain ⟨rfl, rfl⟩ := Prod.mk.inj hr
    exact .onto (not_not.mp hflags) hold hnew

/-- What the new entry and what follows it keep, a rename keeps. -/
theorem rename_rule {P : Sbi → Prop} (flags : UInt32) (h : P s)
    (hadd : P (s.addDirent newDir old newName).2)
    (hrest : ∀ {s₁ : Sbi} {bn i : ℕ}, s.lookupDirent oldDir oldName = some (bn, i) → P s₁ →
      P (s₁.renameRest oldDir newDir old time bn i)) :
    P (s.rename oldDir newDir old oldName newName time flags).2 := by
  rcases hr : s.rename oldDir newDir old oldName newName time flags with ⟨res, s'⟩
  cases rename_ends hr with
  | refused err => exact h
  | noRoom _ heq =>
    rw [heq] at hadd
    exact hadd
  | onto _ hold _ => exact hrest hold h
  | moved _ hold _ heq =>
    rw [heq] at hadd
    exact hrest hold hadd

end Sbi

/-! ## Reading a directory -/

/-- An entry in the buffer of a caller of readdir. -/
structure Zde where
  ino : ℕ
  type : UInt8
  pos : ℤ
  name : List UInt8
  deriving DecidableEq

/-- `struct toyfs_getdents_ctx`: the position, and the buffer with the room left in it. -/
structure GetdentsCtx where
  pos : ℤ
  room : ℕ
  out : List Zde

/-- `DT_DIR`. -/
def dtDir : UInt8 := 4

section Readdir

variable (zdeSize : ℕ → ℕ)

/-- `_emit`. `zufs_zde_emit` changes nothing when the entry does not fit; `zdeSize` is the
room an entry with a name of a length takes. -/
def GetdentsCtx.emit (ctx : GetdentsCtx) (name : List UInt8) (ino : ℕ) (type : UInt8) :
    Bool × GetdentsCtx :=
  if zdeSize name.length ≤ ctx.room then
    (true, { ctx with
      room := ctx.room - zdeSize name.length, out := ctx.out ++ [⟨ino, type, ctx.pos, name⟩] })
  else (false, ctx)

/-- `_emit_dirent`. -/
def emitDirent (pg : Bytes) (i : ℕ) (ctx : GetdentsCtx) : Bool × GetdentsCtx :=
  match ctx.emit zdeSize (dName pg i (dNlen pg i)) (dIno pg i) (dType pg i) with
  | (true, ctx') => (true, { ctx' with pos := dOff pg i + 1 })
  | (false, ctx') => (false, ctx')

/-- The loop of `_iterate_dentries`. -/
def iterateDentries (pg : Bytes) (i : ℕ) (ctx : GetdentsCtx) : Bool × GetdentsCtx :=
  if i < dentriesPerPage then
    match if dNlen pg i ≠ 0 ∧ ctx.pos ≤ dOff pg i then emitDirent zdeSize pg i ctx
      else (true, ctx) with
    | (true, ctx') => iterateDentries pg (nextDirent pg i) ctx'
    | (false, ctx') => (false, ctx')
  else (true, ctx)
termination_by dentriesPerPage - i
decreasing_by
  have := lt_nextDirent pg i
  omega

/-- The loop of `_iterate_dir` over the pages: whether there is more to read. -/
def iterateChilds (mem : ℕ → Bytes) : List ℕ → Bool → GetdentsCtx → Bool × GetdentsCtx
  | [], _, ctx => (false, ctx)
  | _ :: _, false, ctx => (true, ctx)
  | bn :: rest, true, ctx =>
    match iterateDentries zdeSize (mem bn) 0 ctx with
    | (true, ctx') => iterateChilds mem rest true ctx'
    | (false, ctx') => (true, ctx')

/-- `_iterate_dir`. -/
def Sbi.iterateDir (s : Sbi) (dir : RecPtr) (ctx : GetdentsCtx) : Bool × GetdentsCtx :=
  let (ok₁, ctx₁) :=
    if ctx.pos = 0 then
      let (ok, c) := ctx.emit zdeSize [46] (s.inodes dir).iIno.toNat dtDir
      (ok, { c with pos := 1 })
    else (true, ctx)
  let (ok₂, ctx₂) :=
    if ctx₁.pos = 1 ∧ ok₁ then
      let (ok, c) := ctx₁.emit zdeSize [46, 46] (s.inodes dir).iDirParent.toNat dtDir
      (ok, { c with pos := 2 })
    else (ok₁, ctx₁)
  iterateChilds zdeSize s.mem (s.inodes dir).childs ok₂ ctx₂

end Readdir

end Zus.Toyfs
