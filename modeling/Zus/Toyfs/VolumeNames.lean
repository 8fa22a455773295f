import Zus.Toyfs.VolumeAttrs

/-!
# toyfs refines a volume

Each request that meets the conditions under which toyfs is right about files does to the volume
of the state what it is to do, so a run of toyfs is one of its volume.
-/

namespace Zus.Toyfs

open Zus.Lib Function

variable {s s' s₁ : Sbi} {x x' : Sys} {held : RecPtr → ℕ} {n m dir : RecPtr} {a : Act} {bn : ℕ}
  {name : List UInt8} {apiMapMaxSize : ℕ}

/-! ## What an inode holds -/

theorem content_eq (h : ReadsSame m s s') : s'.content m = s.content m :=
  ByteMap.ext (congrArg UInt64.toNat h.size) (funext fun p => h.bytes p (Int.natCast_nonneg p))

theorem fileOf_eq (hmode : (s'.inodes m).iMode = (s.inodes m).iMode)
    (h : (s.inodes m).iMode = .reg → ReadsSame m s s') : s'.fileOf m = s.fileOf m := by
  unfold Sbi.fileOf
  rw [hmode]
  split
  · next hreg => exact content_eq (h hreg)
  · rfl

theorem fileOf_of_reg (hreg : (s.inodes m).iMode = .reg) : s.fileOf m = s.content m := if_pos hreg

theorem fileOf_of_not (hreg : (s.inodes m).iMode ≠ .reg) : s.fileOf m = .zeros 0 := if_neg hreg

theorem textOf_of_not (hl : (s.inodes m).iMode ≠ .lnk) : s.textOf m = [] := by
  unfold Sbi.textOf Sbi.getSymlink
  rw [if_pos hl]

theorem textOf_eq (hmode : (s'.inodes m).iMode = (s.inodes m).iMode)
    (h : (s.inodes m).iMode = .lnk → KeepsSymlink m s s') : s'.textOf m = s.textOf m := by
  by_cases hl : (s.inodes m).iMode = .lnk
  · unfold Sbi.textOf
    rw [(h hl).getSymlink, (h hl).size]
  · rw [textOf_of_not hl, textOf_of_not (by rwa [hmode])]

/-- What an inode holds stays. -/
structure KeepsObject (m : RecPtr) (s s' : Sbi) : Prop where
  kind : (s'.inodes m).iMode = (s.inodes m).iMode
  number : (s'.inodes m).iIno = (s.inodes m).iIno
  parent : s'.parentOf m = s.parentOf m
  file : s'.fileOf m = s.fileOf m
  text : s'.textOf m = s.textOf m
  attrs : s'.attrPage m = s.attrPage m

/-! ## Requests on names and attributes -/

/-- A file whose record is kept reads the same after a request that is not on a file. -/
theorem StoreOk.readsSame (h : StoreOk x.sbi) (hsend : x.Sends a) (ht : a.target = none)
    (hs : x.serve apiMapMaxSize a = some s') (hsame : SameFile (x.sbi.inodes m) (s'.inodes m))
    (hreg : (x.sbi.inodes m).iMode = .reg) : ReadsSame m x.sbi s' := by
  have hkeep : ∀ k ∈ (x.sbi.inodes m).keys, KeepsBlock x.sbi s' k.2 := by
    rcases h.keepsData hsend ht hs m with hfresh | ⟨-, hkeep⟩
    · have hnil : (x.sbi.inodes m).iblkrefs = [] := hsame.iblkrefs.symm.trans hfresh.iblkrefs
      intro k hk
      rw [Inode.keys, hnil] at hk
      cases hk
    · exact hkeep
  refine ⟨hsame.size (by rw [hreg]; exact fun h => by cases h), fun p _ => ?_⟩
  have hblocks : s'.blocksOf m = x.sbi.blocksOf m := hsame.iblkrefs
  refine readByte_congr (hsame.size (by rw [hreg]; exact fun h => by cases h)) ?_
  unfold Sbi.byteAt
  rw [hblocks]
  split
  · next ib hf =>
    obtain ⟨hpage, hmem⟩ := hkeep _ (mem_keys_of_mem (fetchIblkref_some hf).1)
    rw [hpage, hmem]
  · rfl

/-- **A request that keeps the records** keeps what they hold, attributes aside. -/
theorem StoreOk.keepsObject (h : StoreOk x.sbi) (hsend : x.Sends a) (ht : a.target = none)
    (hs : x.serve apiMapMaxSize a = some s') (hfree : x.frees a ≠ some m)
    (hsame : SameFile (x.sbi.inodes m) (s'.inodes m))
    (hids : (s'.inodes m).iIno = (x.sbi.inodes m).iIno)
    (hparent : (s'.inodes m).iDirParent = (x.sbi.inodes m).iDirParent)
    (hattrs : KeepsAttrs m x.sbi s') : KeepsObject m x.sbi s' where
  kind := hsame.mode
  number := hids
  parent := by rw [Sbi.parentOf, hsame.mode, hparent, Sbi.parentOf]
  file := fileOf_eq hsame.mode (h.readsSame hsend ht hs hsame)
  text := textOf_eq hsame.mode fun hl => by
    obtain ⟨held, hinv⟩ := h.store
    exact serve_symlink hinv hsend hs hl hfree
  attrs := hattrs.attrPage

/-- All inodes but one are kept. -/
theorem volume_eq_update (h : ∀ m, m ≠ n → KeepsObject m s s')
    (hlinks : ∀ m, m ≠ n → (s'.inodes m).iNlink = (s.inodes m).iNlink) : s'.volume =
      { kind := update s.volume.kind n (s'.inodes n).iMode
        number := update s.volume.number n (s'.inodes n).iIno
        links := update s.volume.links n (s'.inodes n).iNlink
        parent := update s.volume.parent n (s'.parentOf n)
        names := s'.resolve
        files := update s.volume.files n (s'.fileOf n)
        texts := update s.volume.texts n (s'.textOf n)
        attrs := update s.volume.attrs n (pageAttrs (s'.attrPage n))
        infos := s'.infoOf } := by
  have hrest : ∀ {α : Type} {f g : RecPtr → α}, (∀ m, m ≠ n → f m = g m) → f = update g n (f n) :=
    fun hfg => eq_update_iff.mpr ⟨rfl, hfg⟩
  exact Volume.ext (hrest fun m hm => (h m hm).kind) (hrest fun m hm => (h m hm).number)
    (hrest hlinks) (hrest fun m hm => (h m hm).parent) rfl (hrest fun m hm => (h m hm).file)
    (hrest fun m hm => (h m hm).text) (hrest fun m hm => congrArg pageAttrs (h m hm).attrs) rfl

/-- Only names and links change. -/
theorem volume_eq_of_objects (h : ∀ m, KeepsObject m s s') (htiis : s'.tiis = s.tiis) : s'.volume =
    { s.volume with names := s'.resolve, links := fun m => (s'.inodes m).iNlink } := by
  refine Volume.ext (funext fun m => (h m).kind) (funext fun m => (h m).number) rfl
    (funext fun m => (h m).parent) rfl (funext fun m => (h m).file) (funext fun m => (h m).text)
    (funext fun m => congrArg pageAttrs (h m).attrs) (funext fun a => ?_)
  change s'.infoOf a = s.infoOf a
  rw [Sbi.infoOf, htiis, Sbi.infoOf]

theorem volume_eq (h : ∀ m, KeepsObject m s s') (htiis : s'.tiis = s.tiis)
    (hlinks : ∀ m, (s'.inodes m).iNlink = (s.inodes m).iNlink) (hnames : s'.resolve = s.resolve) :
    s'.volume = s.volume := by
  rw [volume_eq_of_objects h htiis, hnames, funext hlinks]
  rfl

/-- The number a name leads to. -/
theorem resolve_of_leadsTo (hok : DirsOk x.sbi) (hd : (x.sbi.inodes dir).iMode = .dir)
    (hname : ValidName name) (hl : x.LeadsTo dir name n) :
    x.sbi.resolve (dir, name) = (x.sbi.inodes n).iIno :=
  UInt64.toNat_inj.mp ((hok.lookup_eq hd hname).symm.trans hl.2)

/-- **A name for an inode.** -/
theorem ends_addDentry (h : StoreOk x.sbi) (hok : DirsOk x.sbi)
    (hsend : x.Sends (.addDentry dir n name)) :
    x.sbi.volume.Ends (.addDentry dir n name) (x.succeeds apiMapMaxSize (.addDentry dir n name))
      (x.sbi.addDirent dir n name).2.volume := by
  obtain ⟨held, hinv⟩ := h.store
  obtain ⟨hd, hn, hvalid, hnew⟩ := id hsend
  have hserve : ∀ cap, x.serve cap (.addDentry dir n name) = some _ := fun _ => rfl
  have hids : KeepsIds x.sbi (x.sbi.addDirent dir n name).2 := .addDirent hinv hd hn
  have hobj : ∀ m, KeepsObject m x.sbi (x.sbi.addDirent dir n name).2 := fun m =>
    h.keepsObject hsend rfl (hserve apiMapMaxSize) (by simp [Sys.frees])
      ((KeepsFiles.addDirent hd).files m) (hids.ids m) (hids.parents m) (.addDirent hinv hd hn)
  rcases hok.addDirent hinv hd hn hvalid hnew with heq | ⟨hres, -, hresolve, -⟩
  · exact .failed (by rw [Sys.succeeds, heq]; rfl) (by rw [heq])
  · have hlinks := funext fun m => nlink_addDirent hinv hd hres (m := m)
    refine .done (by rw [Sys.succeeds, hres]; rfl)
      ⟨(hok.resolve_eq_zero_iff hd hvalid).mpr hnew, ?_⟩
    rw [volume_eq_of_objects hobj (tables_tiis hids.tables), hresolve, hlinks]
    rfl

theorem size_stdRemoveDentry : ((s.stdRemoveDentry dir n).inodes m).iSize = (s.inodes m).iSize := by
  have hsize : ∀ (t : Sbi) (k : RecPtr) (c : UInt32), ((t.addNlink k c).inodes m).iSize =
      (t.inodes m).iSize := fun t k c => apply_setInode Inode.iSize (by rfl) m
  unfold Sbi.stdRemoveDentry
  simp only
  split
  · rw [hsize, hsize, hsize]
  · rw [hsize]

/-- **The links after a removal.** -/
theorem nlink_removeDentry (hd : (s.inodes dir).iMode = .dir)
    (hres : (s.removeDentry dir n name).1 = none) (m : RecPtr) :
    ((s.removeDentry dir n name).2.inodes m).iNlink = (s.volume.unlink n dir name).links m := by
  unfold Sbi.removeDentry at hres ⊢
  split at hres
  · cases hres
  next bn j hl =>
  split at hres
  · cases hres
  next hnonempty =>
  simp only [if_neg hnonempty]
  set s₁ := s.removeDirent dir n bn j
  have hlinks : ∀ k, (s₁.inodes k).iNlink = s.volume.linksWithout n dir k :=
    fun _ => nlink_removeDirent
  have hmode : (s₁.inodes n).iMode = (s.inodes n).iMode := (KeepsFiles.removeDirent hd).mode
  have hsize : (s₁.inodes n).iSize =
      (s.inodes n).iSize - if n = dir then 4096 else 0 := by
    refine size_stdRemoveDentry.trans ?_
    unfold Sbi.setDirSize
    obtain rfl | hne := eq_or_ne n dir
    · rw [setInode_inodes_self, if_pos rfl]
      rfl
    · rw [setInode_inodes_ne hne, if_neg hne, UInt64.sub_zero]
      rfl
  -- an empty directory that is removed from another one stays empty
  have hcond : ((s₁.inodes n).iMode = .dir ∧ (s₁.inodes n).iNlink = 1 ∧ (s₁.inodes n).iSize = 0) ↔
      (s.volume.kind n = .dir ∧ n ≠ dir ∧ s.volume.linksWithout n dir n = 1) := by
    rw [hmode, hlinks, hsize]
    change _ ↔ (s.inodes n).iMode = .dir ∧ _
    refine and_congr_right fun hdir => ?_
    have hempty : (s.inodes n).iSize = 0 := by
      by_contra hne
      exact hnonempty ⟨hdir, hne⟩
    rw [hempty, and_comm]
    refine and_congr_left fun _ => ?_
    by_cases heq : n = dir
    · rw [if_pos heq]
      exact iff_of_false (by decide) fun h => h heq
    · rw [if_neg heq]
      exact iff_of_true rfl heq
  simp only [hcond, Volume.unlink]
  split
  · obtain rfl | hne := eq_or_ne m n
    · rw [setInode_inodes_self, update_self]
    · rw [setInode_inodes_ne hne, update_of_ne hne, hlinks]
  · exact hlinks m

/-- **A name goes.** -/
theorem ends_removeDentry (h : StoreOk x.sbi) (hok : DirsOk x.sbi)
    (hsend : x.Sends (.removeDentry dir n name)) :
    x.sbi.volume.Ends (.removeDentry dir n name)
      (x.succeeds apiMapMaxSize (.removeDentry dir n name))
      (x.sbi.removeDentry dir n name).2.volume := by
  obtain ⟨held, hinv⟩ := h.store
  obtain ⟨hd, hn, hvalid, hleads⟩ := id hsend
  have hserve : ∀ cap, x.serve cap (.removeDentry dir n name) = some _ := fun _ => rfl
  have hids : KeepsIds x.sbi (x.sbi.removeDentry dir n name).2 :=
    .of_metaStep (metaStep_removeDentry hd hn)
  have hobj : ∀ m, KeepsObject m x.sbi (x.sbi.removeDentry dir n name).2 := fun m =>
    h.keepsObject hsend rfl (hserve apiMapMaxSize) (by simp [Sys.frees])
      ((KeepsFiles.removeDentry hd).files m) (hids.ids m) (hids.parents m)
      (.removeDentry hinv hd hn)
  rcases hok.removeDentry hinv hd hvalid (n := n) with ⟨e, heq⟩ | ⟨hres, -, hresolve⟩
  · exact .failed (by rw [Sys.succeeds, heq]; rfl) (by rw [heq])
  · have hlinks := funext (nlink_removeDentry hd hres)
    refine .done (by rw [Sys.succeeds, hres]; rfl) ⟨resolve_of_leadsTo hok hd hvalid hleads, ?_⟩
    rw [volume_eq_of_objects hobj (tables_tiis hids.tables), hresolve, hlinks]
    rfl

/-- The new name is not taken, and a directory has the new directory for its parent already (and is
not moved into or out of itself). -/
def Sys.RenameFits (x : Sys) (oldDir newDir old : RecPtr) (newName : List UInt8) : Prop :=
  x.sbi.lookupDirent newDir newName = none ∧ ((x.sbi.inodes old).iMode = .dir →
    (x.sbi.inodes old).iDirParent = (x.sbi.inodes newDir).iIno ∧ (old = newDir ↔ old = oldDir))

/-- **A rename** that fits. -/
theorem ends_rename {oldDir newDir old : RecPtr} {oldName newName : List UInt8} {time : UInt64}
    {flags : UInt32} (h : StoreOk x.sbi) (hok : DirsOk x.sbi)
    (hsend : x.Sends (.rename oldDir newDir old oldName newName time flags))
    (hfits : x.RenameFits oldDir newDir old newName) :
    x.sbi.volume.Ends (.rename oldDir newDir old oldName newName time flags)
      (x.succeeds apiMapMaxSize (.rename oldDir newDir old oldName newName time flags))
      (x.sbi.rename oldDir newDir old oldName newName time flags).2.volume := by
  obtain ⟨held, hinv⟩ := h.store
  obtain ⟨ho, hw, hn, hold, hnew, hleads, hne⟩ := id hsend
  obtain ⟨hfree, hdir⟩ := hfits
  have hserve : ∀ cap, x.serve cap (.rename oldDir newDir old oldName newName time flags) = some _ :=
    fun _ => rfl
  have hids : KeepsIds x.sbi (x.sbi.rename oldDir newDir old oldName newName time flags).2 :=
    .rename hinv ho hw hn
  have hobj : ∀ m, KeepsObject m x.sbi
      (x.sbi.rename oldDir newDir old oldName newName time flags).2 := fun m =>
    h.keepsObject hsend rfl (hserve apiMapMaxSize) (by simp [Sys.frees])
      ((KeepsFiles.rename ho hw).files m) (hids.ids m) (hids.parents m) (.rename hinv ho hw hn)
  rcases hok.rename time flags hinv ho hw hn hold hnew hne with ⟨e, heq⟩ | ⟨hres, -, hresolve⟩
  · exact .failed (by rw [Sys.succeeds, heq]; rfl) (by rw [heq])
  · have hlinks := funext fun m => (rename_inodes hok hinv ho hw hn hold hnew hne hres m).2
    simp only [if_pos hfree] at hlinks hresolve
    refine .done (by rw [Sys.succeeds, hres]; rfl) ⟨resolve_of_leadsTo hok ho hold hleads,
      x.sbi.volume, .inl ⟨(hok.resolve_eq_zero_iff hw hnew).mpr hfree, rfl⟩, ?_⟩
    rw [volume_eq_of_objects hobj (tables_tiis hids.tables), hresolve, hlinks]
    -- the parent of a directory is the new one already
    have hparent : x.sbi.volume.parent = if x.sbi.volume.kind old = .dir
        then update x.sbi.volume.parent old (x.sbi.volume.number newDir)
        else x.sbi.volume.parent := by
      split
      · next hd =>
        refine (update_eq_self_iff.mpr ?_).symm
        exact (hdir hd).1.symm.trans (if_pos hd).symm
      · rfl
    exact Volume.ext rfl rfl rfl hparent rfl rfl rfl rfl rfl

/-! ## Requests on inodes -/

/-- The volume is made of the records, the blocks and the pages, and of the infos. -/
theorem volume_congr (hi : s'.inodes = s.inodes) (hm : s'.mem = s.mem)
    (hd : s'.dblkrefs = s.dblkrefs) : s'.volume = { s.volume with infos := s'.infoOf } := by
  cases s
  cases s'
  cases hi
  cases hm
  cases hd
  rfl

/-- Another info at an address. -/
theorem infoOf_update {b : ℕ} {info : Option InodeInfo} (h : s'.tiis = update s.tiis b info) :
    s'.infoOf = update s.infoOf b (info.bind fun info => info.ti.map fun n => (n, info.ref)) := by
  funext c
  unfold Sbi.infoOf
  rw [h]
  obtain rfl | hne := eq_or_ne c b
  · rw [update_self, update_self]
  · rw [update_of_ne hne, update_of_ne hne]

/-- **A reference to an inode** that an info is there of. -/
theorem ends_iget {ino : UInt64} {addr : Option ℕ} (h : TableOk x.sbi x.live)
    (hget : x.GetsBound addr ino) :
    x.sbi.volume.Ends (.iget ino addr) (x.succeeds apiMapMaxSize (.iget ino addr))
      (x.sbi.iget ino addr).2.volume := by
  rcases h.iget_cases ino addr with ⟨-, heq⟩ | ⟨n, hlive, hcases⟩
  · exact .failed (by rw [Sys.succeeds, heq]; rfl) (by rw [heq])
  rcases hcases with ⟨b, info, hb, hti, -, -, heq⟩ | ⟨-, -, -, heq⟩ | ⟨hmem, halloc, -⟩
  · refine .done (by rw [Sys.succeeds, heq]; rfl) ?_
    obtain ⟨hnumber, hne, -⟩ := h.number ino n hlive
    refine ⟨hne, n, hnumber, .inl ⟨b, info.ref, by simp [Sbi.volume, Sbi.infoOf, hb, hti], ?_⟩⟩
    rw [volume_congr iget_same.1 iget_same.2.1 iget_same.2.2, heq, infoOf_update rfl]
    simp only [Option.bind_some, hti, Option.map_some]
    rfl
  · exact .failed (by rw [Sys.succeeds, heq]; rfl) (by rw [heq])
  · rcases hget n hlive with hin | ⟨hroot, hnone⟩
    · exact absurd hin hmem
    · exact absurd hnone (halloc hroot)

/-- **Attributes of an inode.** -/
theorem ends_setxattr {ioc : IocXattr} (h : StoreOk x.sbi) (hok : DirsOk x.sbi)
    (hattrs : AttrsOk x.sbi) (hsend : x.Sends (.setxattr n ioc))
    (hstore : storable (x.sbi.attrPage n) ioc = true)
    (hs : x.serve apiMapMaxSize (.setxattr n ioc) = some s') :
    x.sbi.volume.Ends (.setxattr n ioc) (x.succeeds apiMapMaxSize (.setxattr n ioc)) s'.volume := by
  obtain ⟨held, hinv⟩ := h.store
  obtain ⟨res, s₁, hr, hag, hflags⟩ := setxattr_agrees hinv hattrs hsend.2 hstore
  obtain rfl : s₁ = s' := by
    rw [Sys.serve, hr] at hs
    exact Option.some.inj hs
  have hids : KeepsIds x.sbi s₁ := .setxattr hinv hr
  have hsame : ∀ m, SameFile (x.sbi.inodes m) (s₁.inodes m) := (KeepsFiles.setxattr hr).files
  have hlinks : ∀ m, (s₁.inodes m).iNlink = (x.sbi.inodes m).iNlink := by
    intro m
    rcases Sbi.setxattr_some hr with rfl | ⟨s₂, pg, hx, rfl⟩
    · rfl
    rcases Sbi.requireXattr_some hx with ⟨-, rfl⟩ | ⟨-, c, s₃, ha, rfl⟩
    · rfl
    · obtain ⟨-, -, hq, -⟩ := acquirePmemb_spec hinv ha
      exact (apply_setInode Inode.iNlink (by rfl) m).trans (by rw [hq.inodes])
  have hattr : s₁.volume.attrs = update x.sbi.volume.attrs n
      (specAfter (x.sbi.volume.attrs n) ioc res) :=
    eq_update_iff.mpr ⟨pageAttrs_eq hag, fun m hne =>
      congrArg pageAttrs (KeepsAttrs.setxattr hinv hne hr).attrPage⟩
  have hvol : s₁.volume =
      x.sbi.volume.setAttrs n (specAfter (x.sbi.volume.attrs n) ioc res) := by
    refine Volume.ext (funext fun m => (hsame m).mode) (funext hids.ids) (funext hlinks)
      (funext fun m => ?_) ((KeepsDirs.setxattr hinv hsend.1 hr).resolve hok)
      (funext fun m => fileOf_eq (hsame m).mode (h.readsSame hsend rfl hs (hsame m)))
      (funext fun m => textOf_eq (hsame m).mode fun hl =>
        serve_symlink hinv hsend hs hl (by simp [Sys.frees])) hattr (funext fun b => ?_)
    · change s₁.parentOf m = x.sbi.parentOf m
      rw [Sbi.parentOf, (hsame m).mode, hids.parents, Sbi.parentOf]
    · change s₁.infoOf b = x.sbi.infoOf b
      rw [Sbi.infoOf, tables_tiis hids.tables, Sbi.infoOf]
  rcases res with err | _
  · refine .failed (by rw [Sys.succeeds, hr]; rfl) (hvol.trans ?_)
    exact Volume.ext rfl rfl rfl rfl rfl rfl rfl (update_eq_self n x.sbi.volume.attrs) rfl
  · exact .done (by rw [Sys.succeeds, hr]; rfl) ⟨(hflags rfl).1, (hflags rfl).2, hvol⟩

/-- A record that is freed is zeroed, but for that of a directory that is not empty. -/
theorem inodes_freeInode (h : (s.inodes n).iMode = .dir → (s.inodes n).iSize = 0) :
    (s.freeInode n).inodes n = {} := by
  unfold Sbi.freeInode
  simp only
  split
  · next hd =>
    rw [if_neg (not_not.mpr (h hd))]
    exact setInode_inodes_self
  all_goals exact setInode_inodes_self

/-- The next number is above those in use. -/
def Sbi.IdsBelow (s : Sbi) : Prop := s.sTopIno = 0 ∨ ∀ m, (s.inodes m).iIno < s.sTopIno

namespace Sbi.IdsBelow

theorem pos (h : s.IdsBelow) (htop : s.sTopIno ≠ 0) (m : RecPtr) :
    (s.inodes m).iIno < s.sTopIno := h.resolve_left htop m

theorem keeps (h : s.IdsBelow) (htop : s'.sTopIno = s.sTopIno)
    (hids : ∀ m, (s'.inodes m).iIno = (s.inodes m).iIno ∨ (s'.inodes m).iIno = 0) :
    s'.IdsBelow := by
  unfold Sbi.IdsBelow
  rw [htop]
  refine h.imp_right fun hall m => ?_
  rcases hids m with heq | hzero
  · rw [heq]
    exact hall m
  · rw [hzero]
    exact UInt64.lt_of_le_of_lt UInt64.zero_le (hall m)

/-- One more number. -/
theorem succ (h : s.IdsBelow) (htop : s.sTopIno ≠ 0) (hnew : s'.sTopIno = s.sTopIno + 1)
    (hids : ∀ m, (s'.inodes m).iIno = (s.inodes m).iIno ∨ (s'.inodes m).iIno = s.sTopIno) :
    s'.IdsBelow := by
  unfold Sbi.IdsBelow
  rw [hnew]
  rcases lt_add_one_or_eq_zero (UInt64.le_refl s.sTopIno) with hz | hlt
  · exact .inl hz
  · refine .inr fun m => ?_
    rcases hids m with heq | htop'
    · rw [heq]
      exact UInt64.lt_trans (h.pos htop m) hlt
    · rw [htop']
      exact hlt

theorem newInode {ioc : IocNewInode} {addr : Option ℕ} (h : s.IdsBelow) (hinv : Inv held s)
    (htop : s.sTopIno ≠ 0) (hfresh : ∀ b ∈ addr, s.tiis b = none) :
    (s.newInode dir ioc addr).2.IdsBelow := by
  rcases hr : s.newInode dir ioc addr with ⟨res, s'⟩
  rcases newInode_cases hinv hfresh hr with ⟨-, hnot⟩ | ⟨a, n, -, -, hmade⟩
  · rcases hnot.top with heq | heq
    · exact h.keeps heq fun m => .inl (by rw [hnot.inodes])
    · exact h.succ htop heq fun m => .inl (by rw [hnot.inodes])
  · refine h.succ htop hmade.top fun m => ?_
    obtain rfl | hne := eq_or_ne m n
    · exact .inr hmade.ino
    · exact .inl (by rw [hmade.others m hne])

theorem iget {ino : UInt64} {addr : Option ℕ} (h : s.IdsBelow) : (s.iget ino addr).2.IdsBelow := by
  refine h.keeps ?_ fun m => .inl (by rw [iget_same.1])
  unfold Sbi.iget
  split
  · rfl
  · split
    · split <;> rfl
    · split
      · rfl
      · next a s₁ ha =>
        obtain ⟨-, rfl⟩ := Sbi.allocIi_some ha
        rfl

theorem evict {b : ℕ} (h : s.IdsBelow) (hinv : Inv held s) (he : s.evict b = some s') :
    s'.IdsBelow := by
  obtain ⟨info, ha, ⟨-, rfl⟩ | ⟨hone, n, s₂, hti, hs₂, hstep, -⟩⟩ := evict_cases he
  · exact h.keeps rfl fun _ => .inl rfl
  · refine h.keeps (evict_table hinv ha hone hti he).1 fun m => ?_
    rw [hstep.inodes, hs₂]
    split
    · obtain rfl | hne := eq_or_ne m n
      · rcases @freeInode_self (s.setTii b { info with ref := info.ref - 1 }) m with hzero | heq
        · exact .inr (by rw [hzero])
        · exact .inl (by rw [heq]; rfl)
      · have hinv₁ : Inv held (s.setTii b { info with ref := info.ref - 1 }) :=
          hinv.congr rfl rfl rfl
        exact .inl (by rw [(inodeStep_freeInode hinv₁).others m hne]; rfl)
    · exact .inl rfl

end Sbi.IdsBelow

/-- What a new inode holds. -/
theorem fileOf_made {held : RecPtr → ℕ} {ioc : IocNewInode} {b : ℕ} {p : Pool}
    (hmade : Made held b n ioc.iMode s s') (hnew : NewInode b n ioc p s s') :
    s'.fileOf n = .zeros (if ioc.iMode = .reg then ioc.iSize.toNat else 0) := by
  split
  · next hreg =>
    have hmode : (s'.inodes n).iMode = .reg := hmade.mode.trans hreg
    have hsize : (s'.inodes n).iSize = ioc.iSize := hnew.size (by rw [hreg]; decide)
    rw [fileOf_of_reg hmode]
    refine ByteMap.ext (congrArg UInt64.toNat hsize) (funext fun q => ?_)
    have hnil : s'.blocksOf n = [] := hmade.iblkrefs
    change s'.readByte n q = 0
    by_cases hlt : (q : ℤ) < (s'.inodes n).iSize.toNat
    · rw [readByte_of_lt hlt]
      exact byteAt_of_missing fun ib hib => by
        rw [hnil] at hib
        cases hib
    · exact readByte_of_le (Int.not_lt.mp hlt)
  · next hreg => exact fileOf_of_not (by rwa [hmade.mode])

theorem textOf_made {held : RecPtr → ℕ} {ioc : IocNewInode} {b : ℕ} {p : Pool}
    (hmade : Made held b n ioc.iMode s s') (hnew : NewInode b n ioc p s s') :
    s'.textOf n = ioc.text := by
  unfold IocNewInode.text
  split
  · next hl => exact textOf_of_not (by rwa [hmade.mode])
  · next hl =>
    replace hl := not_not.mp hl
    have hmode : (s'.inodes n).iMode = .lnk := hmade.mode.trans hl
    have hsize : (s'.inodes n).iSize = ioc.iSize := hnew.size (by rw [hl]; decide)
    unfold Sbi.textOf Sbi.getSymlink
    rw [if_neg (not_not.mpr hmode), hsize, hnew.symlink]
    by_cases hshort : ioc.iSize < symlinkSize
    · rw [if_pos hshort, if_pos hshort]
    · obtain ⟨bn, rfl, -, -, hread⟩ := hnew.long ⟨hl, UInt64.not_lt.mp hshort⟩
      rw [if_neg hshort, if_neg hshort]
      exact hread

/-- The directory a directory is made in. -/
theorem parent_newInode {ioc : IocNewInode} {addr : Option ℕ} {b : ℕ} {info : InodeInfo}
    (hr : s.newInode dir ioc addr = (some b, s')) (hinfo : s'.tiis b = some info)
    (hti : info.ti = some n) (hmode : ioc.iMode = .dir) :
    (s'.inodes n).iDirParent = (s.inodes dir).iIno := by
  cases Sbi.newInode_ends hr with
  | @made b k s₁ s₂ s₃ ha _ _ hn hs =>
    rw [Sbi.iTrack, show (Sbi.setTii _ b _).tiis b = some _ from update_self ..] at hinfo
    obtain rfl := Option.some.inj hinfo
    obtain ⟨-, rfl⟩ := Sbi.allocIi_some ha
    obtain ⟨p, -, rfl⟩ := Sbi.acquireInode_some hn
    obtain rfl := Option.some.inj hti
    unfold Sbi.setupInode at hs
    simp only [hmode, Option.some.injEq] at hs
    rw [← hs]
    exact congrArg Inode.iDirParent setInode_inodes_self

/-- **An inode is made.** -/
theorem ends_newInode {ioc : IocNewInode} {addr : Option ℕ} (h : StoreOk x.sbi) (hok : DirsOk x.sbi)
    (hids : x.sbi.IdsBelow) (hsend : x.Sends (.newInode dir ioc addr)) :
    x.sbi.volume.Ends (.newInode dir ioc addr) (x.succeeds apiMapMaxSize (.newInode dir ioc addr))
      (x.sbi.newInode dir ioc addr).2.volume := by
  obtain ⟨held, hinv⟩ := h.store
  obtain ⟨-, hfresh, htop⟩ := id hsend
  have hserve : ∀ cap, x.serve cap (.newInode dir ioc addr) = some _ := fun _ => rfl
  have hnames : (x.sbi.newInode dir ioc addr).2.resolve = x.sbi.resolve :=
    (hok.newInode hinv hfresh htop).2
  have hobj : ∀ m, (∀ b, InUse x.sbi b → (x.sbi.newInode dir ioc addr).2.mem b = x.sbi.mem b) →
      (x.sbi.newInode dir ioc addr).2.inodes m = x.sbi.inodes m →
      KeepsObject m x.sbi (x.sbi.newInode dir ioc addr).2 := fun m hmem hi =>
    h.keepsObject hsend rfl (hserve apiMapMaxSize) (by simp [Sys.frees]) (by rw [hi]; exact .refl _)
      (by rw [hi]) (by rw [hi]) (.of_inode hi fun b hb => hmem b (.inr ⟨.xattr, m, hb⟩))
  rcases hr : x.sbi.newInode dir ioc addr with ⟨res, s'⟩
  rw [hr] at hobj hnames
  rcases newInode_ways hinv hfresh hr with ⟨rfl, hnot⟩ | ⟨b, n, p, rfl, haddr, hmade, hnew⟩
  · exact .failed (by rw [Sys.succeeds, hr]; rfl) (volume_eq
      (fun m => hobj m hnot.mem (congrFun hnot.inodes m)) hnot.tiis (fun m => by rw [hnot.inodes])
      hnames)
  · have hrest : ∀ m, m ≠ n → KeepsObject m x.sbi s' := fun m hm =>
      hobj m hmade.mem (hmade.others m hm)
    have hset : (x.sbi.inodes n).iMode = .unset := by rw [hmade.fresh]
    have hparent : s'.parentOf n = if ioc.iMode = .dir then (x.sbi.inodes dir).iIno else 0 := by
      unfold Sbi.parentOf
      rw [hmade.mode]
      split
      · next hd => exact parent_newInode hr hnew.info rfl hd
      · rfl
    have hfree : x.sbi.infoOf b = none := by
      rw [Sbi.infoOf, hfresh b haddr]
      rfl
    have hpage : pageAttrs (s'.attrPage n) = fun _ => none := by
      rw [attrPage_of_zero hnew.xattr, pageAttrs_eq agrees_empty]
    refine .done (by rw [Sys.succeeds, hr]; rfl) ⟨n, x.sbi.sTopIno, b, haddr, hfree, hset,
      hmade.notUnset, htop, fun m _ heq => ?_, ?_⟩
    · have hlt := hids.pos htop m
      rw [show (x.sbi.inodes m).iIno = x.sbi.sTopIno from heq] at hlt
      exact UInt64.lt_irrefl _ hlt
    · rw [volume_eq_update hrest fun m hm => congrArg Inode.iNlink (hmade.others m hm), hmade.mode,
        hmade.ino, hnew.nlink, hparent, hnames, fileOf_made hmade hnew, textOf_made hmade hnew,
        hpage, infoOf_update hmade.tiis]
      rfl

/-- A directory that is freed is empty. -/
def Sys.EvictFits (x : Sys) (b : ℕ) : Prop :=
  ∀ n ∈ x.evicted b, (x.sbi.inodes n).iMode = .dir → (x.sbi.inodes n).iSize = 0

instance (x : Sys) (b : ℕ) : Decidable (x.EvictFits b) :=
  inferInstanceAs (Decidable (∀ n ∈ x.evicted b, _))

/-- **A reference goes**, and with the last one to an inode without links the inode. -/
theorem ends_evict {b : ℕ} (h : StoreOk x.sbi) (hok : DirsOk x.sbi) (htable : TableOk x.sbi x.live)
    (hfits : x.EvictFits b) (hsend : x.Sends (.evict b)) (hs : x.sbi.evict b = some s') :
    x.sbi.volume.Ends (.evict b) (x.succeeds apiMapMaxSize (.evict b)) s'.volume := by
  obtain ⟨held, hinv⟩ := h.store
  refine .done rfl ?_
  obtain ⟨info, ha, ⟨hne, rfl⟩ | ⟨hone, n, s₂, hti, hs₂, hstep, htiis⟩⟩ := evict_cases hs
  · obtain ⟨n, hti, -⟩ := htable.info b info ha
    refine ⟨n, info.ref, by simp [Sbi.volume, Sbi.infoOf, ha, hti], ?_⟩
    rw [if_pos hne, volume_congr rfl rfl rfl, infoOf_update rfl]
    simp only [Option.bind_some, hti, Option.map_some]
    rfl
  refine ⟨n, 1, by simp [Sbi.volume, Sbi.infoOf, ha, hti, hone], ?_⟩
  rw [if_neg (not_not.mpr rfl)]
  have hev := Sys.evicted_of_last ha hone hti
  set t := x.sbi.setTii b { info with ref := info.ref - 1 }
  have hinv₁ : Inv held t := hinv.congr rfl rfl rfl
  have hfree : InodeStep n t (t.freeInode n) := inodeStep_freeInode hinv₁
  have hinfos : s'.infoOf = update x.sbi.infoOf b none := by
    have hs₂tiis : s₂.tiis = t.tiis := by
      rw [hs₂]
      split
      · exact tables_tiis hfree.tables
      · rfl
    have hgone : s'.tiis = update x.sbi.tiis b none := by
      rw [htiis, hs₂tiis]
      exact update_idem ..
    rw [infoOf_update hgone]
    rfl
  by_cases hlinks : (x.sbi.inodes n).iNlink = 0
  swap
  · rw [if_neg hlinks] at hs₂
    rw [hs₂] at hstep
    rw [if_neg (show x.sbi.volume.links n ≠ 0 from hlinks),
      volume_congr hstep.inodes hstep.mem hstep.dblkrefs, hinfos]
    rfl
  rw [if_pos hlinks] at hs₂ hev
  rw [hs₂] at hstep
  rw [if_pos (show x.sbi.volume.links n = 0 from hlinks)]
  have hzero : (t.freeInode n).inodes n = {} := inodes_freeInode (hfits n hev)
  have hself : s'.inodes n = {} := by
    rw [hstep.inodes, hzero]
  have hothers : ∀ m, m ≠ n → s'.inodes m = x.sbi.inodes m := fun m hm => by
    rw [hstep.inodes, hfree.others m hm]
    rfl
  have hmem : ∀ c use m, m ≠ n → (x.sbi.inodes m).Holds c use → s'.mem c = x.sbi.mem c :=
    fun c use m hm hc => by
      rw [hstep.mem, hfree.mem c use m hm hc]
      rfl
  have hrest : ∀ m, m ≠ n → KeepsObject m x.sbi s' := fun m hm =>
    h.keepsObject hsend rfl (show x.serve apiMapMaxSize (.evict b) = _ from hs)
      (fun heq => hm (Option.some.inj (hev.symm.trans heq)).symm)
      (by rw [hothers m hm]; exact .refl _) (by rw [hothers m hm]) (by rw [hothers m hm])
      (.of_inode (hothers m hm) fun c hc => hmem c .xattr m hm hc)
  have hunset : (s'.inodes n).iMode = .unset := by rw [hself]
  have hpage : pageAttrs (s'.attrPage n) = fun _ => none := by
    rw [attrPage_of_zero (by rw [hself]), pageAttrs_eq agrees_empty]
  have hnames : s'.resolve = fun p => if p.1 = n then 0 else x.sbi.resolve p := by
    funext ⟨d, name⟩
    simp only
    split
    · next hd =>
      rw [hd]
      exact resolve_notDir (by rw [hunset]; decide)
    · next hd => exact SameDir.resolve (.of_eq (hothers d hd) fun c hc => hmem c .entries d hd hc) hok
  have hparent : s'.parentOf n = 0 := if_neg (by rw [hunset]; decide)
  rw [volume_eq_update hrest fun m hm => congrArg Inode.iNlink (hothers m hm), hself, hparent, hnames,
    fileOf_of_not (by rw [hunset]; decide), textOf_of_not (by rw [hunset]; decide), hpage, hinfos]
  rfl

end Zus.Toyfs
