import Zus.Toyfs.VolumeFiles

/-!
# toyfs is a volume

toyfs is right about a request when infos of the inodes it names are in memory, a request on a
file is one the file stands, a request that fails has nothing to take back, and what the request
asks for is not one of the things toyfs does differently: a rename over a name that is taken or to
another parent, a mode or a range of a fallocate or a clone that does not fit, an inode that is
got while no info of it is in memory, attributes whose walk lands in the wrong place, stores into
a mapped page. In a run of such requests each one does to the volume what it is to do, or fails and
changes nothing, and what is read is read from the volume.
-/

namespace Zus.Toyfs

open Zus.Lib Function Xattr

variable {s' : Sbi} {x x' : Sys} {a : Act} {apiMapMaxSize : ℕ}

/-- The request as one that may fail after it has begun. -/
def Act.fileReq : Act → Option FileReq
  | .write n buf filepos len => some (.write n buf filepos len)
  | .truncate n size => some (.truncate n size)
  | .clone src dst posIn posOut len => some (.clone src dst posIn posOut len)
  | _ => none

/-- What a request asks for is what toyfs does. -/
def Sys.Fits (x : Sys) : Act → Prop
  | .evict b => x.EvictFits b
  | .rename oldDir newDir old _ newName _ _ => x.RenameFits oldDir newDir old newName
  | .fallocate n mode filepos lastPos => x.sbi.FallocRight n mode (toLoff filepos) (toLoff lastPos)
  | .clone src dst posIn posOut len => x.sbi.CloneRight src dst (toLoff posIn) (toLoff posOut) len
  | .setxattr n ioc => storable (x.sbi.attrPage n) ioc = true
  | _ => True

/-- The conditions under which toyfs is right about a request. -/
structure Sys.ServesRight (x : Sys) (apiMapMaxSize : ℕ) (a : Act) : Prop where
  /-- infos of the inodes it names are in memory -/
  held : ∀ n ∈ a.records, x.InMemory n
  /-- its positions are positions in a file -/
  inFile : a.InFile
  size : ∀ n ∈ a.target, (x.sbi.inodes n).iSize.toNat < 2 ^ 63
  /-- it leaves zeros past the end of the file -/
  tail : x.KeepsTail apiMapMaxSize a
  /-- what it does before it fails cannot be told from what was there -/
  spares : ∀ r ∈ a.fileReq, r.Spares apiMapMaxSize x.sbi
  table : x.KeepsTable a
  fits : x.Fits a

/-- What is kept of the files, the names, the numbers, the infos and the attributes. -/
structure VolumeOk (x : Sys) : Prop where
  ends : EndsOk x.sbi
  dirs : DirsOk x.sbi
  ids : x.sbi.IdsBelow
  table : TableOk x.sbi x.live
  attrs : AttrsOk x.sbi

/-- An inode with an info in memory is open. -/
theorem Sys.InMemory.open {n : RecPtr} (h : x.InMemory n) : x.sbi.volume.Open n := by
  obtain ⟨b, info, hb, hti⟩ := h
  exact ⟨b, info.ref, by simp [Sbi.volume, Sbi.infoOf, hb, hti]⟩

/-- **A request** is a step of the volume. -/
theorem VolumeOk.step (h : VolumeOk x) (hmap : apiMapMaxSize < 2 ^ 63)
    (hright : x.ServesRight apiMapMaxSize a) (hsend : x.Sends a)
    (hs : x.serve apiMapMaxSize a = some s') :
    x.sbi.volume.Step a (x.succeeds apiMapMaxSize a) s'.volume := by
  obtain ⟨hends, hdirs, hids, htable, hattrs⟩ := h
  have hstore := hends.files.store
  obtain ⟨hheld, hfile, hsize, htail, hspares, hkeeps, hfits⟩ := hright
  refine ⟨fun n hn => (hheld n hn).open, ?_⟩
  cases a with
  | newInode dir ioc addr =>
    obtain rfl := Option.some.inj hs
    exact ends_newInode hstore hdirs hids hsend
  | iget ino addr =>
    obtain rfl := Option.some.inj hs
    exact ends_iget htable hkeeps
  | evict b => exact ends_evict hstore hdirs htable hfits hsend hs
  | addDentry dir n name =>
    obtain rfl := Option.some.inj hs
    exact ends_addDentry hstore hdirs hsend
  | removeDentry dir n name =>
    obtain rfl := Option.some.inj hs
    exact ends_removeDentry hstore hdirs hsend
  | rename oldDir newDir old oldName newName time flags =>
    obtain rfl := Option.some.inj hs
    exact ends_rename hstore hdirs hsend hfits
  | write n buf filepos len =>
    obtain rfl := Option.some.inj hs
    exact ends_write hends hdirs hsend hmap (hsize n rfl) (hspares _ rfl)
  | fallocate n mode filepos lastPos =>
    obtain rfl := Option.some.inj hs
    exact ends_fallocate hends hdirs hsend hfile (hsize n rfl) hfits
  | truncate n size =>
    obtain rfl := Option.some.inj hs
    exact ends_truncate hends hdirs hsend (hsize n rfl) (hspares _ rfl)
  | clone src dst posIn posOut len =>
    obtain rfl := Option.some.inj hs
    exact ends_clone hends hdirs hsend hfile hfits (hspares _ rfl)
  | mmapStore n filepos poff len data => exact htail.elim
  | setxattr n ioc => exact ends_setxattr hstore hdirs hattrs hsend hfits hs

end Zus.Toyfs
