import Zus.Lib.Lts
import Zus.Toyfs.Dir
import Zus.Toyfs.Inode

/-!
# toyfs as a system of requests

A mounted toyfs serves one request after the other; each is atomic under its locks. The
system starts after `toyfs_sbi_init` and takes any sequence of requests the kernel can
send: requests on a file name a regular inode, requests on a directory name a directory,
an entry is added under a name that is not taken and removed with the inode it leads to,
and an info is evicted while a reference to it is held. The number of inodes ever created
stays below `2 ^ 64`.

A request names the record of an inode, not an info: it is served also where the kernel holds no
info that is bound to the record. A run ends where the process does, at an assertion that fails,
and at a `toyfs_setxattr` that leaves its page: what such a call does to the pages behind is in
`Zus.Toyfs.XattrMemory`.

`live` is the history the requests have made: the inodes created and not yet freed, with
their numbers. It is not part of the code's state and nothing reads it.
-/

namespace Zus.Toyfs

open Zus.Lib

/-- toyfs with the inodes that are live. -/
structure Sys where
  sbi : Sbi
  live : List (UInt64 × RecPtr)

/-- The requests. -/
inductive Act
  /-- `toyfs_new_inode`; `addr` is what `zus_malloc` returns -/
  | newInode (dir : RecPtr) (ioc : IocNewInode) (addr : Option ℕ)
  /-- `toyfs_iget` -/
  | iget (ino : UInt64) (addr : Option ℕ)
  /-- `toyfs_evict` -/
  | evict (a : ℕ)
  /-- `toyfs_add_dentry` -/
  | addDentry (dir n : RecPtr) (name : List UInt8)
  /-- `toyfs_remove_dentry` -/
  | removeDentry (dir n : RecPtr) (name : List UInt8)
  /-- `toyfs_rename` -/
  | rename (oldDir newDir old : RecPtr) (oldName newName : List UInt8) (time : UInt64)
      (flags : UInt32)
  /-- `toyfs_write` -/
  | write (n : RecPtr) (buf : Bytes) (filepos len : UInt64)
  /-- `toyfs_fallocate` -/
  | fallocate (n : RecPtr) (mode : UInt32) (filepos lastPos : UInt64)
  /-- `toyfs_fallocate` with `ZUFS_FL_TRUNCATE` -/
  | truncate (n : RecPtr) (size : UInt64)
  /-- `toyfs_clone` -/
  | clone (src dst : RecPtr) (posIn posOut len : UInt64)
  /-- `_get_block_wr` and a store of `len` bytes (none, if zero) to the block it returned -/
  | mmapStore (n : RecPtr) (filepos : UInt64) (poff len : ℕ) (data : Bytes)
  /-- `toyfs_setxattr` -/
  | setxattr (n : RecPtr) (ioc : IocXattr)

/-- A name of a directory entry: not empty, at most `255` bytes, no NUL. -/
def ValidName (name : List UInt8) : Prop :=
  name ≠ [] ∧ name.length ≤ 255 ∧ (0 : UInt8) ∉ name

instance (name : List UInt8) : Decidable (ValidName name) :=
  inferInstanceAs (Decidable (_ ∧ _ ∧ _))

namespace Sys

variable (x : Sys)

/-- `zus_malloc` returns memory that is not in use. -/
def FreshAddr (addr : Option ℕ) : Prop := ∀ a ∈ addr, x.sbi.tiis a = none

instance (addr : Option ℕ) : Decidable (x.FreshAddr addr) :=
  inferInstanceAs (Decidable (∀ a ∈ addr, x.sbi.tiis a = none))

/-- A reference to the info is held. -/
def RefHeld (a : ℕ) : Prop := ∃ info ∈ x.sbi.tiis a, 0 < info.ref

instance (a : ℕ) : Decidable (x.RefHeld a) :=
  inferInstanceAs (Decidable (∃ info ∈ x.sbi.tiis a, 0 < info.ref))

/-- The name leads to the inode. -/
def LeadsTo (dir : RecPtr) (name : List UInt8) (n : RecPtr) : Prop :=
  (x.sbi.lookupDirent dir name).isSome ∧ x.sbi.lookup dir name = (x.sbi.inodes n).iIno.toNat

instance (dir : RecPtr) (name : List UInt8) (n : RecPtr) : Decidable (x.LeadsTo dir name n) :=
  inferInstanceAs (Decidable (_ ∧ _))

/-- The requests the kernel sends in a state. -/
def Sends : Act → Prop
  | .newInode dir _ addr => (x.sbi.inodes dir).iMode = .dir ∧ x.FreshAddr addr ∧ x.sbi.sTopIno ≠ 0
  | .iget _ addr => x.FreshAddr addr
  | .evict a => x.RefHeld a
  | .addDentry dir n name => (x.sbi.inodes dir).iMode = .dir ∧ (x.sbi.inodes n).iMode ≠ .unset ∧
      ValidName name ∧ x.sbi.lookupDirent dir name = none
  | .removeDentry dir n name => (x.sbi.inodes dir).iMode = .dir ∧
      (x.sbi.inodes n).iMode ≠ .unset ∧ ValidName name ∧ x.LeadsTo dir name n
  | .rename oldDir newDir old oldName newName _ _ => (x.sbi.inodes oldDir).iMode = .dir ∧
      (x.sbi.inodes newDir).iMode = .dir ∧ (x.sbi.inodes old).iMode ≠ .unset ∧
      ValidName oldName ∧ ValidName newName ∧ x.LeadsTo oldDir oldName old ∧
      ¬ (oldDir = newDir ∧ oldName = newName)
  | .write n _ _ _ => (x.sbi.inodes n).iMode = .reg
  | .fallocate n _ _ _ => (x.sbi.inodes n).iMode = .reg
  | .truncate n _ => (x.sbi.inodes n).iMode = .reg
  | .clone src dst _ _ _ => (x.sbi.inodes src).iMode = .reg ∧ (x.sbi.inodes dst).iMode = .reg
  | .mmapStore n _ poff len _ => (x.sbi.inodes n).iMode = .reg ∧ poff + len ≤ pageSize
  | .setxattr n ioc => (x.sbi.inodes n).iMode ≠ .unset ∧ IocXattr.ValidName ioc.name

instance : (a : Act) → Decidable (x.Sends a)
  | .newInode .. => inferInstanceAs (Decidable (_ ∧ _))
  | .iget .. => inferInstanceAs (Decidable (x.FreshAddr _))
  | .evict .. => inferInstanceAs (Decidable (x.RefHeld _))
  | .addDentry .. => inferInstanceAs (Decidable (_ ∧ _))
  | .removeDentry .. => inferInstanceAs (Decidable (_ ∧ _))
  | .rename .. => inferInstanceAs (Decidable (_ ∧ _))
  | .write .. => inferInstanceAs (Decidable (_ = _))
  | .fallocate .. => inferInstanceAs (Decidable (_ = _))
  | .truncate .. => inferInstanceAs (Decidable (_ = _))
  | .clone .. => inferInstanceAs (Decidable (_ ∧ _))
  | .mmapStore .. => inferInstanceAs (Decidable (_ ∧ _))
  | .setxattr .. => inferInstanceAs (Decidable (_ ∧ _))

/-- The inode an eviction frees: the last reference to an inode without links. -/
def evicted (a : ℕ) : Option RecPtr :=
  match x.sbi.tiis a with
  | some { ti := some n, ref := 1, .. } => if (x.sbi.inodes n).iNlink = 0 then some n else none
  | _ => none

/-- The state of the file system after a request; `none` if the code crashes. -/
def serve (apiMapMaxSize : ℕ) : Act → Option Sbi
  | .newInode dir ioc addr => some (x.sbi.newInode dir ioc addr).2
  | .iget ino addr => some (x.sbi.iget ino addr).2
  | .evict a => x.sbi.evict a
  | .addDentry dir n name => some (x.sbi.addDirent dir n name).2
  | .removeDentry dir n name => some (x.sbi.removeDentry dir n name).2
  | .rename oldDir newDir old oldName newName time flags =>
      some (x.sbi.rename oldDir newDir old oldName newName time flags).2
  | .write n buf filepos len => some (x.sbi.write apiMapMaxSize n buf (toLoff filepos) len).2
  | .fallocate n mode filepos lastPos => some (x.sbi.fallocate n mode (toLoff filepos)
      (toSize (toLoff lastPos - toLoff filepos))).2
  | .truncate n size => some (x.sbi.truncate n size).2
  | .clone src dst posIn posOut len =>
      some (x.sbi.clone src dst (toLoff posIn) (toLoff posOut) len).2
  | .mmapStore n filepos poff len data => some (x.sbi.mmapStore n (toLoff filepos) poff len data)
  | .setxattr n ioc => (x.sbi.setxattr n ioc).map Prod.snd

/-- The live inodes after a request that left `s`. -/
def liveAfter (s : Sbi) : Act → List (UInt64 × RecPtr)
  | .newInode dir ioc addr =>
    match (x.sbi.newInode dir ioc addr).1.bind s.tiis with
    | some { ti := some n, ino := ino, .. } => (ino, n) :: x.live
    | _ => x.live
  | .evict a =>
    match x.evicted a with
    | some n => x.live.filter (·.2 ≠ n)
    | none => x.live
  | _ => x.live

/-- One request. A failed assertion ends the process, and with it the run. -/
def next (apiMapMaxSize : ℕ) (a : Act) : Option Sys :=
  if x.Sends a then
    match x.serve apiMapMaxSize a with
    | none => none
    | some s => if s.panicked then none else some ⟨s, x.liveAfter s a⟩
  else none

end Sys

/-- The state after the mount of a device of `nblocks` blocks. -/
def mounted (nblocks addr : ℕ) : Option Sys :=
  ((Sbi.setup nblocks).newRootInode (some addr)).map fun (n, s) => ⟨s, [(rootIno, n)]⟩

/-- toyfs under any sequence of requests. -/
def toyfs (apiMapMaxSize : ℕ) : Lts Sys Act :=
  .ofNext (fun x => ∃ nblocks addr, 1024 ≤ nblocks ∧ mounted nblocks addr = some x)
    fun x a => x.next apiMapMaxSize a

end Zus.Toyfs
