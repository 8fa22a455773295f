import Zus.Toyfs.Gap
import Zus.Toyfs.InodeTable
import Zus.Toyfs.Isolation
import Zus.Toyfs.Rename
import Zus.Toyfs.Symlink
import Zus.Toyfs.XattrMap

/-!
# A volume

What toyfs is for, without pages, records and tables: inodes with what they hold, names that lead
from directories to inode numbers, and infos by which the kernel holds inodes. A request that
succeeds changes what it is about, in one step, and nothing else; one that fails changes nothing.
`Volume.Does` is what each request is to do. Where toyfs does something else it is not followed
here: a rename replaces what has the new name and moves a directory with its parent, an allocation
keeps the size when the mode says so, and an inode that is got again is the one it was.

The volume a state of toyfs stands for is `Sbi.volume`.
-/

namespace Zus.Toyfs

open Zus.Lib Function Xattr

/-- Inodes, by their handles, and names. A handle that is not in use has the kind `unset`. -/
@[ext] structure Volume where
  kind : RecPtr → FileType
  number : RecPtr → UInt64
  links : RecPtr → UInt32
  /-- of a directory, the number of the one it is in -/
  parent : RecPtr → UInt64
  /-- what a directory and a name lead to; zero is nothing -/
  names : RecPtr × List UInt8 → UInt64
  /-- the contents of regular files -/
  files : RecPtr → ByteMap
  /-- the targets of symlinks -/
  texts : RecPtr → List UInt8
  /-- the extended attributes -/
  attrs : RecPtr → List UInt8 → Option (List UInt8)
  /-- what an info is of, and how many references to it are held -/
  infos : ℕ → Option (RecPtr × ℤ)

/-- The target the kernel sends with a request for a symlink. -/
def IocNewInode.text (ioc : IocNewInode) : List UInt8 :=
  if ioc.iMode ≠ .lnk then []
  else if ioc.iSize < symlinkSize then (Bytes.ofList ioc.iSymlink).slice 0 ioc.iSize.toNat
  else ioc.symname.slice 0 ioc.iSize.toNat

/-- The inodes that a request names. -/
def Act.records : Act → List RecPtr
  | .newInode dir _ _ => [dir]
  | .iget .. | .evict _ => []
  | .addDentry dir n _ | .removeDentry dir n _ => [dir, n]
  | .rename oldDir newDir old _ _ _ _ => [oldDir, newDir, old]
  | .write n _ _ _ | .fallocate n _ _ _ | .truncate n _ | .mmapStore n _ _ _ _ | .setxattr n _ => [n]
  | .clone src dst _ _ _ => [src, dst]

namespace Volume

/-- A volume with a root directory, whose info is there without a reference to it. -/
def fresh (root : RecPtr) (addr : ℕ) : Volume where
  kind := update (fun _ => .unset) root .dir
  number := update (fun _ => 0) root rootIno
  links := update (fun _ => 0) root 2
  parent _ := 0
  names _ := 0
  files _ := .zeros 0
  texts _ := []
  attrs _ _ := none
  infos := update (fun _ => none) addr (some (root, 0))

variable (v : Volume) (n dir : RecPtr) (name : List UInt8)

/-- An inode comes, without a name. -/
def make (ioc : IocNewInode) (ino : UInt64) : Volume where
  kind := update v.kind n ioc.iMode
  number := update v.number n ino
  links := update v.links n
    (if ioc.iMode = .dir ∨ (ioc.iMode = .reg ∧ ioc.tmpfile) then 1 else ioc.iNlink)
  parent := update v.parent n (if ioc.iMode = .dir then v.number dir else 0)
  names := v.names
  files := update v.files n (.zeros (if ioc.iMode = .reg then ioc.iSize.toNat else 0))
  texts := update v.texts n ioc.text
  attrs := update v.attrs n fun _ => none
  infos := v.infos

/-- An inode goes, and with a directory the names in it. -/
def drop : Volume where
  kind := update v.kind n .unset
  number := update v.number n 0
  links := update v.links n 0
  parent := update v.parent n 0
  names p := if p.1 = n then 0 else v.names p
  files := update v.files n (.zeros 0)
  texts := update v.texts n []
  attrs := update v.attrs n fun _ => none
  infos := v.infos

/-- An info comes, goes, or has another number of references. -/
def setInfo (a : ℕ) (info : Option (RecPtr × ℤ)) : Volume :=
  { v with infos := update v.infos a info }

/-- An info of the inode is there. -/
def Open : Prop := ∃ a r, v.infos a = some (n, r)

/-- A name for an inode. A directory is a link to the one it is in. -/
def link : Volume :=
  { v with
    names := update v.names (dir, name) (v.number n)
    links m := v.links m + (if m = n then 1 else 0) +
      if v.kind n = .dir ∧ m = dir then 1 else 0 }

/-- The links without a name, as they are counted down. -/
def linksWithout (m : RecPtr) : UInt32 :=
  v.links m - (if m = n then 1 else 0) - if v.kind n = .dir then
    (if m = n then 1 else 0) + (if m = dir then 1 else 0) else 0

/-- A name goes. A directory that has one link left then has none. -/
def unlink : Volume :=
  { v with
    names := update v.names (dir, name) 0
    links := if v.kind n = .dir ∧ n ≠ dir ∧ v.linksWithout n dir n = 1
      then update (v.linksWithout n dir) n 0 else v.linksWithout n dir }

/-- A name is there to be taken: it leads nowhere, or what it led to has lost it. -/
def Frees (v' : Volume) : Prop :=
  (v.names (dir, name) = 0 ∧ v' = v) ∨
    ∃ n, v.kind n ≠ .unset ∧ v.number n = v.names (dir, name) ∧ v' = v.unlink n dir name

/-- An inode goes from one name to another, which leads nowhere. A directory is then in another
one. -/
def move (oldDir newDir old : RecPtr) (oldName newName : List UInt8) : Volume :=
  { v with
    names := update (update v.names (newDir, newName) (v.number old)) (oldDir, oldName) 0
    parent := if v.kind old = .dir then update v.parent old (v.number newDir) else v.parent
    links m := v.links m + (if v.kind old = .dir ∧ m = newDir then 1 else 0) -
      if v.kind old = .dir ∧ m = oldDir then 1 else 0 }

/-- Another content of a file. -/
def setFile (f : ByteMap) : Volume := { v with files := update v.files n f }

/-- Other attributes. -/
def setAttrs (a : List UInt8 → Option (List UInt8)) : Volume := { v with attrs := update v.attrs n a }

/-- What a fallocate of the range from `off` to `last` makes of a content. -/
def fallocated (mode : UInt32) (off last : ℕ) (f : ByteMap) : ByteMap :=
  let grown := if mode &&& fallocKeepSize ≠ 0 then f else f.resize (max f.size last)
  if mode &&& fallocPunchHole ≠ 0 then f.clear off (last - off)
  else if mode &&& fallocZeroRange ≠ 0 then grown.clear off (last - off)
  else if mode &&& fallocCollapseRange ≠ 0 then f.collapse off (last - off)
  else grown

/-- What a clone from the content `g` makes of the content `f`. -/
def cloned (start off len : ℕ) (g f : ByteMap) : ByteMap :=
  if start = 0 ∧ len = 0 ∧ off = 0 then g else f.write off len fun i => g.byte (start + i)

/-- **What a request does to a volume** when it succeeds. -/
def Does (v v' : Volume) : Act → Prop
  | .newInode dir ioc addr => ∃ n ino, ∃ a ∈ addr, v.infos a = none ∧ v.kind n = .unset ∧
      ioc.iMode ≠ .unset ∧ ino ≠ 0 ∧ (∀ m, v.kind m ≠ .unset → v.number m ≠ ino) ∧
      v' = (v.make n dir ioc ino).setInfo a (some (n, 1))
  | .iget ino addr => ino ≠ 0 ∧ ∃ n, v.number n = ino ∧
      ((∃ a r, v.infos a = some (n, r) ∧ v' = v.setInfo a (some (n, r + 1))) ∨
        ¬ v.Open n ∧ ∃ a ∈ addr, v.infos a = none ∧ v' = v.setInfo a (some (n, 1)))
  | .evict a => ∃ n r, v.infos a = some (n, r) ∧ v' =
      if r ≠ 1 then v.setInfo a (some (n, r - 1))
      else if v.links n = 0 then (v.drop n).setInfo a none
      else v.setInfo a none
  | .addDentry dir n name => v.names (dir, name) = 0 ∧ v' = v.link n dir name
  | .removeDentry dir n name => v.names (dir, name) = v.number n ∧ v' = v.unlink n dir name
  | .rename oldDir newDir old oldName newName _ _ => v.names (oldDir, oldName) = v.number old ∧
      ∃ v₁, v.Frees newDir newName v₁ ∧ v' = v₁.move oldDir newDir old oldName newName
  | .write n buf filepos len =>
    v' = v.setFile n ((v.files n).write (toLoff filepos).toNat len.toNat buf)
  | .truncate n size => v' = v.setFile n ((v.files n).resize size.toNat)
  | .fallocate n mode filepos lastPos => v' = v.setFile n
      (fallocated mode (toLoff filepos).toNat (toLoff lastPos).toNat (v.files n))
  | .clone src dst posIn posOut len => v' = v.setFile dst
      (cloned (toLoff posIn).toNat (toLoff posOut).toNat len.toNat (v.files src) (v.files dst))
  | .mmapStore n filepos poff len data => v' = v.setFile n
      (((v.files n).write ((toLoff filepos).toNat + poff) len data).resize (v.files n).size)
  | .setxattr n ioc => (ioc.create → ioc.value ≠ none → v.attrs n ioc.name = none) ∧
      (ioc.replace ∨ ioc.value = none → v.attrs n ioc.name ≠ none) ∧
      v' = v.setAttrs n (update (v.attrs n) ioc.name ioc.value)

/-- How a request ends that succeeds, or does not: one that fails changes nothing. -/
def Ends (v : Volume) (a : Act) (ok : Bool) (v' : Volume) : Prop := if ok then v.Does v' a else v' = v

variable {v} in
theorem Ends.failed {a : Act} {ok : Bool} {v' : Volume} (hok : ok = false) (h : v' = v) :
    v.Ends a ok v' := by
  rw [Ends, hok]
  exact h

variable {v} in
theorem Ends.done {a : Act} {ok : Bool} {v' : Volume} (hok : ok = true) (h : v.Does v' a) :
    v.Ends a ok v' := by
  rw [Ends, hok]
  exact h

/-- **A request** is on inodes that infos are there of. -/
def Step (v : Volume) (a : Act) (ok : Bool) (v' : Volume) : Prop :=
  (∀ n ∈ a.records, v.Open n) ∧ v.Ends a ok v'

end Volume

/-- Whether a request succeeds. -/
def Sys.succeeds (x : Sys) (apiMapMaxSize : ℕ) : Act → Bool
  | .newInode dir ioc addr => (x.sbi.newInode dir ioc addr).1.isSome
  | .iget ino addr => (x.sbi.iget ino addr).1.isOk
  | .evict _ => true
  | .addDentry dir n name => (x.sbi.addDirent dir n name).1.isNone
  | .removeDentry dir n name => (x.sbi.removeDentry dir n name).1.isNone
  | .rename oldDir newDir old oldName newName time flags =>
    (x.sbi.rename oldDir newDir old oldName newName time flags).1.isNone
  | .write n buf filepos len => (x.sbi.write apiMapMaxSize n buf (toLoff filepos) len).1.isOk
  | .fallocate n mode filepos lastPos =>
    (x.sbi.fallocate n mode (toLoff filepos) (fallocLen filepos lastPos)).1.isNone
  | .truncate n size => (x.sbi.truncate n size).1.isNone
  | .clone src dst posIn posOut len =>
    (x.sbi.clone src dst (toLoff posIn) (toLoff posOut) len).1.isNone
  | .mmapStore n filepos .. => (x.sbi.getBlockWr n (toLoff filepos)).1.isOk
  | .setxattr n ioc => (x.sbi.setxattr n ioc).any fun r => r.1.isOk

/-! ## The volume of a state -/

/-- What `_find_xe` finds on a page. -/
def pageAttrs (pg : Bytes) (name : List UInt8) : Option (List UInt8) :=
  if 0 ∈ name then none else (findXe pg xeEnd name).bind fun xe => xe.map (entryValue pg)

namespace Sbi

variable (s : Sbi) (n : RecPtr)

/-- The content of a regular file. -/
def fileOf : ByteMap := if (s.inodes n).iMode = .reg then s.content n else .zeros 0

/-- What `_get_symlink` gives. -/
def textOf : List UInt8 :=
  match s.getSymlink n with
  | .ok buf => buf.slice 0 (s.inodes n).iSize.toNat
  | .error _ => []

/-- The page of the attributes, or an empty one. -/
def attrPage : Bytes := if (s.inodes n).iXattr = 0 then fun _ => 0 else s.mem (s.inodes n).iXattr

/-- The directory that a directory is in. -/
def parentOf : UInt64 := if (s.inodes n).iMode = .dir then (s.inodes n).iDirParent else 0

/-- The inode that an info is bound to. -/
def infoOf (a : ℕ) : Option (RecPtr × ℤ) :=
  (s.tiis a).bind fun info => info.ti.map fun n => (n, info.ref)

/-- The volume a state stands for. -/
def volume : Volume where
  kind n := (s.inodes n).iMode
  number n := (s.inodes n).iIno
  links n := (s.inodes n).iNlink
  parent := s.parentOf
  names := s.resolve
  files := s.fileOf
  texts := s.textOf
  attrs n := pageAttrs (s.attrPage n)
  infos := s.infoOf

end Sbi

end Zus.Toyfs
