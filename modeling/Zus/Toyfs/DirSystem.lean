import Zus.Toyfs.DirMap
import Zus.Toyfs.Frame
import Zus.Toyfs.InodeTable

/-!
# The name space

What all directories say together is one map: a directory and a name lead to an inode
number, or to nothing. `toyfs_add_dirent` and `toyfs_remove_dirent` change it at one place,
all other requests leave it. Every directory toyfs reaches is in order, so that this holds in
every run.
-/

namespace Zus.Toyfs

open Zus.Lib Dirent

variable {s s' s₁ : Sbi} {held : RecPtr → ℕ} {dir d n m : RecPtr} {ds : List Dentries}
  {name : List UInt8} {ino : UInt64} {apiMapMaxSize : ℕ}

/-- All directories are in order, and an inode has a number. -/
structure DirsOk (s : Sbi) : Prop where
  dirs : ∀ d, (s.inodes d).iMode = .dir → ∃ ds, DirAt s d ds
  numbered : ∀ n, (s.inodes n).iMode ≠ .unset → (s.inodes n).iIno ≠ 0

/-- What a directory and a name lead to; zero is nothing. -/
def Sbi.resolve (s : Sbi) (p : RecPtr × List UInt8) : UInt64 :=
  if (s.inodes p.1).iMode = .dir ∧ ValidName p.2 then .ofNat (s.lookup p.1 p.2) else 0

theorem resolve_eq (hd : (s.inodes dir).iMode = .dir) (hname : ValidName name) :
    s.resolve (dir, name) = .ofNat (s.lookup dir name) := if_pos ⟨hd, hname⟩

theorem resolve_notDir (hd : (s.inodes dir).iMode ≠ .dir) : s.resolve (dir, name) = 0 :=
  if_neg fun h => hd h.1

theorem resolve_invalid (hname : ¬ ValidName name) : s.resolve (dir, name) = 0 :=
  if_neg fun h => hname h.2

/-! ## A directory in order -/

/-- **A name leads to the number of its entry.** -/
theorem DirAt.lookup_of_mem {x : LiveDirent} (h : DirAt s dir ds) (hx : x ∈ dirents 2 ds) :
    s.lookup dir x.entry.name = x.entry.ino.toNat := by
  rw [Sbi.lookup, h.lookupDirent_of_mem hx]
  exact (h.entryAt hx).1.ino

theorem DirAt.lookup_of_notMem (h : DirAt s dir ds) (hname : name ≠ [])
    (hno : ∀ x ∈ dirents 2 ds, x.entry.name ≠ name) : s.lookup dir name = 0 := by
  have hnone : (dirents 2 ds).find? (fun x => x.entry.name == name) = none :=
    List.find?_eq_none.mpr fun x hx => by simpa using hno x hx
  rw [Sbi.lookup, h.lookupDirent hname, hnone]
  rfl

/-- A number is found just with an entry that carries it. -/
theorem DirAt.resolve_eq_iff (h : DirAt s dir ds) (hd : (s.inodes dir).iMode = .dir)
    (hino : ino ≠ 0) : s.resolve (dir, name) = ino ↔
      ∃ x ∈ dirents 2 ds, x.entry.name = name ∧ x.entry.ino = ino := by
  constructor
  · intro hres
    have hvalid : ValidName name := by
      by_contra hnot
      rw [resolve_invalid hnot] at hres
      exact hino hres.symm
    by_cases hex : ∃ x ∈ dirents 2 ds, x.entry.name = name
    · obtain ⟨x, hx, rfl⟩ := hex
      rw [resolve_eq hd hvalid, h.lookup_of_mem hx, UInt64.ofNat_toNat] at hres
      exact ⟨x, hx, rfl, hres⟩
    · rw [resolve_eq hd hvalid, h.lookup_of_notMem hvalid.1 fun x hx heq => hex ⟨x, hx, heq⟩] at hres
      exact absurd hres.symm hino
  · rintro ⟨x, hx, rfl, rfl⟩
    rw [resolve_eq hd x.entry.valid, h.lookup_of_mem hx, UInt64.ofNat_toNat]

theorem DirAt.resolve_of_mem {x : LiveDirent} (h : DirAt s dir ds)
    (hd : (s.inodes dir).iMode = .dir) (hx : x ∈ dirents 2 ds) :
    s.resolve (dir, x.entry.name) = x.entry.ino :=
  (h.resolve_eq_iff hd x.entry.ino_ne).mpr ⟨x, hx, rfl, rfl⟩

/-- Two directories with the same numbers for the same names. -/
theorem resolve_ext (h : DirAt s dir ds) (hd : (s.inodes dir).iMode = .dir) {ds' : List Dentries}
    (h' : DirAt s' d ds') (hd' : (s'.inodes d).iMode = .dir) {name' : List UInt8}
    (hsame : ∀ i, (∃ x ∈ dirents 2 ds', x.entry.name = name' ∧ x.entry.ino = i) ↔
      ∃ x ∈ dirents 2 ds, x.entry.name = name ∧ x.entry.ino = i) :
    s'.resolve (d, name') = s.resolve (dir, name) := by
  by_cases hz : s.resolve (dir, name) = 0
  · by_contra hne
    rw [hz] at hne
    have hnew := (hsame _).mp ((h'.resolve_eq_iff hd' hne).mp rfl)
    rw [← h.resolve_eq_iff hd hne, hz] at hnew
    exact hne hnew.symm
  · exact (h'.resolve_eq_iff hd' hz).mpr ((hsame _).mpr ((h.resolve_eq_iff hd hz).mp rfl))

theorem DirsOk.resolve_eq_zero_iff (h : DirsOk s) (hd : (s.inodes dir).iMode = .dir)
    (hname : ValidName name) : s.resolve (dir, name) = 0 ↔ s.lookupDirent dir name = none := by
  obtain ⟨ds, hat⟩ := h.dirs dir hd
  by_cases hex : ∃ x ∈ dirents 2 ds, x.entry.name = name
  · obtain ⟨x, hx, rfl⟩ := hex
    rw [hat.resolve_of_mem hd hx, hat.lookupDirent_of_mem hx]
    exact iff_of_false x.entry.ino_ne (by simp)
  · have hno : ∀ x ∈ dirents 2 ds, x.entry.name ≠ name := fun x hx heq => hex ⟨x, hx, heq⟩
    have hnone : (dirents 2 ds).find? (fun x => x.entry.name == name) = none :=
      List.find?_eq_none.mpr fun x hx => by simpa using hno x hx
    rw [resolve_eq hd hname, hat.lookup_of_notMem hname.1 hno, hat.lookupDirent hname.1, hnone]
    exact iff_of_true rfl rfl

/-- The number a lookup gives is that of the name space. -/
theorem DirsOk.lookup_eq (h : DirsOk s) (hd : (s.inodes dir).iMode = .dir)
    (hname : ValidName name) : s.lookup dir name = (s.resolve (dir, name)).toNat := by
  obtain ⟨ds, hat⟩ := h.dirs dir hd
  by_cases hex : ∃ x ∈ dirents 2 ds, x.entry.name = name
  · obtain ⟨x, hx, rfl⟩ := hex
    rw [hat.resolve_of_mem hd hx, hat.lookup_of_mem hx]
  · have hzero := hat.lookup_of_notMem hname.1 fun x hx heq => hex ⟨x, hx, heq⟩
    rw [resolve_eq hd hname, hzero]
    rfl

/-! ## Requests that leave a directory alone -/

/-- The entries of a directory stay where they are. -/
structure SameDir (s s' : Sbi) (d : RecPtr) : Prop where
  mode : (s'.inodes d).iMode = (s.inodes d).iMode
  childs : (s'.inodes d).childs = (s.inodes d).childs
  blocks : (s'.inodes d).iBlocks = (s.inodes d).iBlocks
  size : (s'.inodes d).iSize = (s.inodes d).iSize
  mem : ∀ b ∈ (s.inodes d).childs, s'.mem b = s.mem b

namespace SameDir

theorem of_eq (hin : s'.inodes d = s.inodes d) (hm : ∀ b ∈ (s.inodes d).childs, s'.mem b = s.mem b) :
    SameDir s s' d := ⟨by rw [hin], by rw [hin], by rw [hin], by rw [hin], hm⟩

theorem dirAt (h : SameDir s s' d) (hat : DirAt s d ds) : DirAt s' d ds :=
  hat.congr h.childs h.blocks h.size h.mem

theorem resolve (h : SameDir s s' d) (hok : DirsOk s) : s'.resolve (d, name) = s.resolve (d, name) := by
  by_cases hd : (s.inodes d).iMode = .dir
  · obtain ⟨ds, hat⟩ := hok.dirs d hd
    exact resolve_ext hat hd (h.dirAt hat) (h.mode.trans hd) fun _ => Iff.rfl
  · rw [resolve_notDir hd, resolve_notDir (by rwa [h.mode])]

end SameDir

/-- No directory changes. -/
structure KeepsDirs (s s' : Sbi) : Prop where
  same : ∀ d, (s.inodes d).iMode = .dir ∨ (s'.inodes d).iMode = .dir → SameDir s s' d
  numbered : ∀ n, (s'.inodes n).iMode ≠ .unset →
    (s.inodes n).iMode ≠ .unset ∧ (s'.inodes n).iIno = (s.inodes n).iIno

namespace KeepsDirs

theorem of_inodes (hin : s'.inodes = s.inodes)
    (hm : ∀ d, ∀ b ∈ (s.inodes d).childs, s'.mem b = s.mem b) : KeepsDirs s s' :=
  ⟨fun d _ => .of_eq (by rw [hin]) (hm d), fun n hn => by
    rw [hin] at hn ⊢
    exact ⟨hn, rfl⟩⟩

theorem dirsOk (h : KeepsDirs s s') (hok : DirsOk s) : DirsOk s' where
  dirs d hd := by
    have hsame := h.same d (.inr hd)
    obtain ⟨ds, hat⟩ := hok.dirs d (hsame.mode.symm.trans hd)
    exact ⟨ds, hsame.dirAt hat⟩
  numbered n hn := by
    obtain ⟨hset, hino⟩ := h.numbered n hn
    rw [hino]
    exact hok.numbered n hset

theorem resolve (h : KeepsDirs s s') (hok : DirsOk s) : s'.resolve = s.resolve := by
  funext ⟨d, name⟩
  by_cases hd : (s.inodes d).iMode = .dir ∨ (s'.inodes d).iMode = .dir
  · exact (h.same d hd).resolve hok
  · rw [not_or] at hd
    rw [resolve_notDir hd.1, resolve_notDir hd.2]

theorem of_fileStep (h : FileStep n s s') : KeepsDirs s s' := by
  obtain ⟨l, size, blocks, hself⟩ := h.self
  have hreg : (s'.inodes n).iMode = .reg := by
    rw [hself]
    exact h.reg
  refine ⟨fun d hd => .of_eq (h.others d ?_) fun b hb => h.mem b .entries d hb, fun m hm => ?_⟩
  · rintro rfl
    rw [h.reg, hreg] at hd
    rcases hd with hd | hd <;> cases hd
  · obtain rfl | hne := eq_or_ne m n
    · rw [hself, h.reg]
      exact ⟨(fun h => by cases h), rfl⟩
    · rw [h.others m hne] at hm ⊢
      exact ⟨hm, rfl⟩

theorem trans (h : KeepsDirs s s₁) (h₁ : KeepsDirs s₁ s')
    (hmode : ∀ d, (s₁.inodes d).iMode = .dir ↔ (s.inodes d).iMode = .dir) : KeepsDirs s s' where
  same d hd := by
    have hdir : (s₁.inodes d).iMode = .dir ∨ (s'.inodes d).iMode = .dir :=
      hd.imp_left (hmode d).mpr
    have hdir' : (s.inodes d).iMode = .dir ∨ (s₁.inodes d).iMode = .dir := by
      rcases hdir with hd₁ | hd'
      · exact .inr hd₁
      · exact .inr ((h₁.same d (.inr hd')).mode.symm.trans hd')
    have hs := h.same d hdir'
    have hs₁ := h₁.same d hdir
    refine ⟨hs₁.mode.trans hs.mode, hs₁.childs.trans hs.childs, hs₁.blocks.trans hs.blocks,
      hs₁.size.trans hs.size, fun b hb => ?_⟩
    rw [hs₁.mem b (by rwa [hs.childs]), hs.mem b hb]
  numbered n hn := by
    obtain ⟨hset₁, hino₁⟩ := h₁.numbered n hn
    obtain ⟨hset, hino⟩ := h.numbered n hset₁
    exact ⟨hset, hino₁.trans hino⟩

/-- The pages of a directory are in use. -/
theorem inUse_of_childs {b : ℕ} (hb : b ∈ (s.inodes d).childs) : InUse s b :=
  .inr ⟨.entries, d, hb⟩

theorem setxattr {ioc : IocXattr} {res : Except Errno Unit} (hinv : Inv held s)
    (hn : (s.inodes n).iMode ≠ .unset) (hr : s.setxattr n ioc = some (res, s')) :
    KeepsDirs s s' := by
  rcases Sbi.setxattr_some hr with rfl | ⟨s₁, pg, hx, rfl⟩
  · exact of_inodes rfl fun _ _ _ => rfl
  · have h₁ := hinv.requireXattr hn hx
    have hown := requireXattr_owns hinv hx
    obtain ⟨hkeep, hmode⟩ : KeepsDirs s s₁ ∧ ∀ m, (s₁.inodes m).iMode = (s.inodes m).iMode := by
      rcases Sbi.requireXattr_some hx with ⟨-, rfl⟩ | ⟨-, b, s₂, ha, rfl⟩
      · exact ⟨of_inodes rfl fun _ _ _ => rfl, fun _ => rfl⟩
      · obtain ⟨-, -, hq, -⟩ := acquirePmemb_spec hinv ha
        have hfield : ∀ {α : Type} (f : Inode → α), (∀ i b, f { i with iXattr := b } = f i) → ∀ m,
            f ((s₂.setInode n { s₂.inodes n with iXattr := b }).inodes m) = f (s.inodes m) :=
          fun f hf m => (apply_setInode f (hf _ b) m).trans (by rw [hq.inodes])
        refine ⟨⟨fun d _ => ⟨hfield Inode.iMode (fun _ _ => rfl) d,
          hfield Inode.childs (fun _ _ => rfl) d, hfield Inode.iBlocks (fun _ _ => rfl) d,
          hfield Inode.iSize (fun _ _ => rfl) d, fun c hc => hq.mem c (inUse_of_childs hc)⟩,
          fun m hm => ⟨?_, hfield Inode.iIno (fun _ _ => rfl) m⟩⟩,
          hfield Inode.iMode fun _ _ => rfl⟩
        rwa [hfield Inode.iMode fun _ _ => rfl] at hm
    have hpage : KeepsDirs s₁ (s₁.setPage (s₁.inodes n).iXattr pg) := by
      refine of_inodes rfl fun d b hb => Function.update_of_ne ?_ ..
      -- a page of attributes is none of entries
      rintro rfl
      have hentries : Owns s₁ (s₁.inodes n).iXattr (.inode .entries d) := hb
      cases h₁.exclusive _ _ _ hown hentries
    exact hkeep.trans hpage fun d => by rw [hmode]

theorem iget {addr : Option ℕ} : KeepsDirs s (s.iget ino addr).2 :=
  of_inodes iget_same.1 fun _ _ _ => by rw [iget_same.2.1]

end KeepsDirs

/-! ## Inodes come and go -/

/-- An inode with no entries. -/
structure Inode.Empty (i : Inode) : Prop where
  childs : i.childs = []
  blocks : i.iBlocks = 0
  size : i.iSize = 0

theorem Inode.Empty.dirAt (h : (s.inodes d).Empty) : DirAt s d [] :=
  ⟨h.childs, .nil, trivial, .nil, h.blocks, h.size⟩

theorem Inode.Empty.resolve (h : (s.inodes d).Empty) : s.resolve (d, name) = 0 := by
  by_cases hd : (s.inodes d).iMode = .dir
  · by_contra hne
    obtain ⟨x, hx, -⟩ := (h.dirAt.resolve_eq_iff hd hne).mp rfl
    simp [dirents] at hx
  · exact resolve_notDir hd

/-- A new directory has no entries. -/
theorem setupInode_empty {ioc : IocNewInode} (hr : s.setupInode dir n ioc ino = some s')
    (hd : (s'.inodes n).iMode = .dir) : (s'.inodes n).Empty := by
  obtain ⟨i, hi, hend⟩ := Sbi.setupInode_some hr
  have hself : s'.inodes n = i := by
    rcases hend with ⟨-, -, rfl⟩ | ⟨-, bn, s₁, -, -, rfl⟩ <;> exact setInode_inodes_self
  rw [hself] at hd ⊢
  exact ⟨hi.childs, hi.blocks, hi.size.trans (if_pos (hi.mode.symm.trans hd))⟩

theorem newInode_empty {ioc : IocNewInode} {addr : Option ℕ} (n : RecPtr) :
    (s.newInode dir ioc addr).2.inodes n = s.inodes n ∨
      (((s.newInode dir ioc addr).2.inodes n).iMode = .dir →
        ((s.newInode dir ioc addr).2.inodes n).Empty) := by
  rcases newInode_record (Prod.eta (s.newInode dir ioc addr)).symm n with h | h | ⟨t, t', ino, hs, h⟩
  · exact .inl h
  · exact .inr fun hd => by
      rw [h] at hd
      cases hd
  · rw [h]
    exact .inr (setupInode_empty hs)

/-- **A new inode** is no directory, or an empty one. -/
theorem DirsOk.newInode {ioc : IocNewInode} {addr : Option ℕ} (hok : DirsOk s)
    (hinv : Inv held s) (hfresh : ∀ a ∈ addr, s.tiis a = none) (htop : s.sTopIno ≠ 0) :
    DirsOk (s.newInode dir ioc addr).2 ∧ (s.newInode dir ioc addr).2.resolve = s.resolve := by
  have hempty := fun n => @newInode_empty s dir ioc addr n
  rcases hr : s.newInode dir ioc addr with ⟨res, s'⟩
  rw [hr] at hempty
  have hpages : (∀ b, InUse s b → s'.mem b = s.mem b) →
      ∀ d, ∀ b ∈ (s.inodes d).childs, s'.mem b = s.mem b :=
    fun hmem d b hb => hmem b (KeepsDirs.inUse_of_childs hb)
  rcases newInode_cases hinv hfresh hr with ⟨-, hnot⟩ | ⟨a, n, -, -, hmade⟩
  · have hkeep : KeepsDirs s s' := .of_inodes hnot.inodes (hpages hnot.mem)
    exact ⟨hkeep.dirsOk hok, hkeep.resolve hok⟩
  · have hsame : ∀ d, d ≠ n → SameDir s s' d := fun d hd =>
      .of_eq (hmade.others d hd) (hpages hmade.mem d)
    have hnew : (s'.inodes n).iMode = .dir → (s'.inodes n).Empty := by
      refine (hempty n).resolve_left fun heq => hmade.notUnset ?_
      rw [← hmade.mode, heq, hmade.fresh]
    refine ⟨⟨fun d hd => ?_, fun m hm => ?_⟩, ?_⟩
    · obtain rfl | hne := eq_or_ne d n
      · exact ⟨[], (hnew hd).dirAt⟩
      · obtain ⟨ds, hat⟩ := hok.dirs d ((hsame d hne).mode.symm.trans hd)
        exact ⟨ds, (hsame d hne).dirAt hat⟩
    · obtain rfl | hne := eq_or_ne m n
      · rw [hmade.ino]
        exact htop
      · rw [hmade.others m hne] at hm ⊢
        exact hok.numbered m hm
    · funext ⟨d, name⟩
      obtain rfl | hne := eq_or_ne d n
      · have hold : s.resolve (d, name) = 0 := resolve_notDir (by
          rw [hmade.fresh]
          exact fun h => by cases h)
        rw [hold]
        by_cases hd : (s'.inodes d).iMode = .dir
        · exact (hnew hd).resolve
        · exact resolve_notDir hd
      · exact (hsame d hne).resolve hok

/-- **An eviction** leaves the directories but the one it frees. -/
theorem DirsOk.evict {a : ℕ} (hok : DirsOk s) (hinv : Inv held s) (he : s.evict a = some s') :
    DirsOk s' := by
  obtain ⟨info, -, ⟨-, rfl⟩ | ⟨-, n, s₂, -, hs₂, hstep, -⟩⟩ := evict_cases he
  · have hinfo : KeepsDirs s (s.setTii a { info with ref := info.ref - 1 }) :=
      .of_inodes rfl fun _ _ _ => rfl
    exact hinfo.dirsOk hok
  · have hkeep : KeepsDirs s₂ s' := .of_inodes hstep.inodes fun _ _ _ => by rw [hstep.mem]
    refine hkeep.dirsOk ?_
    set t := s.setTii a { info with ref := info.ref - 1 }
    have hinfo : KeepsDirs s t := .of_inodes rfl fun _ _ _ => rfl
    have ht : DirsOk t := hinfo.dirsOk hok
    rw [hs₂]
    split
    · have hinvt : Inv held t := hinv.congr rfl rfl rfl
      rcases @freeInode_self t n with hzero | heq
      · have hfree := inodeStep_freeInode hinvt (n := n)
        refine ⟨fun d hd => ?_, fun m hm => ?_⟩
        · have hne : d ≠ n := by
            rintro rfl
            rw [hzero] at hd
            cases hd
          rw [hfree.others d hne] at hd
          obtain ⟨ds, hat⟩ := ht.dirs d hd
          exact ⟨ds, SameDir.dirAt (.of_eq (hfree.others d hne)
            fun b hb => hfree.mem b .entries d hne hb) hat⟩
        · have hne : m ≠ n := by
            rintro rfl
            rw [hzero] at hm
            exact hm rfl
          rw [hfree.others m hne] at hm ⊢
          exact ht.numbered m hm
      · rw [heq]
        exact ht
    · exact ht

/-! ## Entries come and go -/

namespace KeepsDirs

/-- A change of link counts and times. -/
theorem of_setInode {i : Inode} (hmode : i.iMode = (s.inodes n).iMode)
    (hchilds : i.childs = (s.inodes n).childs) (hblocks : i.iBlocks = (s.inodes n).iBlocks)
    (hsize : i.iSize = (s.inodes n).iSize) (hino : i.iIno = (s.inodes n).iIno) :
    KeepsDirs s (s.setInode n i) := by
  have hfield : ∀ {α : Type} (f : Inode → α), f i = f (s.inodes n) → ∀ m,
      f ((s.setInode n i).inodes m) = f (s.inodes m) := fun f h m => apply_setInode f h m
  refine ⟨fun d _ => ⟨hfield _ hmode d, hfield _ hchilds d, hfield _ hblocks d, hfield _ hsize d,
    fun _ _ => rfl⟩, fun m hm => ⟨?_, hfield _ hino m⟩⟩
  rwa [hfield _ hmode] at hm

end KeepsDirs

/-- The pages of two directories are different ones. -/
theorem DirStep.sameDir {grown : List ℕ} (h : DirStep dir grown s s') (hinv : Inv held s)
    (hne : d ≠ dir) : SameDir s s' d := by
  obtain ⟨hchilds, hblocks, hsize⟩ := h.others d hne
  refine ⟨h.mode d, hchilds, hblocks, hsize, fun b hb => h.mem b fun hin => ?_⟩
  have hown : Owns s b (.inode .entries d) := hb
  rw [h.childs] at hin
  rcases List.mem_append.mp hin with hin | hin
  · have hown' : Owns s b (.inode .entries dir) := hin
    obtain ⟨-, rfl⟩ := Owner.inode.inj (hinv.exclusive _ _ _ hown hown')
    exact hne rfl
  · have hpool : Owns s b .pool := by
      change b ∈ s.pool.pages
      rw [h.pool]
      exact List.mem_append_left _ hin
    cases hinv.exclusive _ _ _ hown hpool

/-- An entry that stays is found where it was. -/
theorem DirStep.lookupDirent {grown : List ℕ} {ds ds' : List Dentries} {place : ℕ × ℕ}
    {name' : List UInt8} (h : DirStep dir grown s s') (hok : DirsOk s) (hinv : Inv held s)
    (hat : DirAt s dir ds) (hat' : DirAt s' dir ds')
    (hothers : ∀ x, x.entry.name ≠ name → (x ∈ dirents 2 ds' ↔ x ∈ dirents 2 ds))
    (hd : (s.inodes d).iMode = .dir) (hname : name' ≠ []) (hne : (d, name') ≠ (dir, name))
    (hl : s.lookupDirent d name' = some place) : s'.lookupDirent d name' = some place := by
  obtain ⟨bn, j⟩ := place
  obtain rfl | hdir := eq_or_ne d dir
  · obtain ⟨x, hx, rfl, rfl, rfl⟩ := hat.mem_of_lookupDirent hname hl
    exact hat'.lookupDirent_of_mem ((hothers x fun heq => hne (by rw [heq])).mpr hx)
  · obtain ⟨ds₁, hat₁⟩ := hok.dirs d hd
    rw [((h.sameDir hinv hdir).dirAt hat₁).lookupDirent hname, ← hat₁.lookupDirent hname, hl]

/-- **One directory changes at one name.** -/
theorem DirsOk.edit {grown : List ℕ} {ds ds' : List Dentries} (hok : DirsOk s) (hinv : Inv held s)
    (hd : (s.inodes dir).iMode = .dir) (hat : DirAt s dir ds) (hat' : DirAt s' dir ds')
    (hstep : DirStep dir grown s s')
    (hothers : ∀ x, x.entry.name ≠ name → (x ∈ dirents 2 ds' ↔ x ∈ dirents 2 ds)) :
    DirsOk s' ∧ s'.resolve = Function.update s.resolve (dir, name) (s'.resolve (dir, name)) := by
  have hd' : (s'.inodes dir).iMode = .dir := (hstep.mode dir).trans hd
  refine ⟨⟨fun d hdir => ?_, fun m hm => ?_⟩, ?_⟩
  · obtain rfl | hne := eq_or_ne d dir
    · exact ⟨ds', hat'⟩
    · have hsame := hstep.sameDir hinv hne
      obtain ⟨ds₁, hat₁⟩ := hok.dirs d (hsame.mode.symm.trans hdir)
      exact ⟨ds₁, hsame.dirAt hat₁⟩
  · rw [hstep.mode] at hm
    rw [hstep.ino]
    exact hok.numbered m hm
  · funext ⟨d, name'⟩
    obtain rfl | hne := eq_or_ne d dir
    · obtain rfl | hname := eq_or_ne name' name
      · rw [Function.update_self]
      · rw [Function.update_of_ne (by simpa using hname)]
        refine resolve_ext hat hd hat' hd' fun i => ?_
        constructor
        · rintro ⟨x, hx, rfl, rfl⟩
          exact ⟨x, (hothers x hname).mp hx, rfl, rfl⟩
        · rintro ⟨x, hx, rfl, rfl⟩
          exact ⟨x, (hothers x hname).mpr hx, rfl, rfl⟩
    · rw [Function.update_of_ne (by simp [hne])]
      exact (hstep.sameDir hinv hne).resolve hok

/-- **`toyfs_add_dirent`** makes a name lead to the inode. -/
theorem DirsOk.addDirent (hok : DirsOk s) (hinv : Inv held s) (hd : (s.inodes dir).iMode = .dir)
    (hn : (s.inodes n).iMode ≠ .unset) (hvalid : ValidName name)
    (hnew : s.lookupDirent dir name = none) :
    s.addDirent dir n name = (some .enospc, s) ∨
      ((s.addDirent dir n name).1 = none ∧ DirsOk (s.addDirent dir n name).2 ∧
        (s.addDirent dir n name).2.resolve =
          Function.update s.resolve (dir, name) (s.inodes n).iIno ∧
        (∃ grown, DirStep dir grown s (s.addDirent dir n name).2) ∧
        ∀ d name' place, (s.inodes d).iMode = .dir → name' ≠ [] → (d, name') ≠ (dir, name) →
          s.lookupDirent d name' = some place →
          (s.addDirent dir n name).2.lookupDirent d name' = some place) := by
  obtain ⟨ds, hat⟩ := hok.dirs dir hd
  have hfree : ∀ b ∈ s.pool.pages, b ∉ (s.inodes dir).childs := by
    intro b hb hin
    have hpool : Owns s b .pool := hb
    have hown : Owns s b (.inode .entries dir) := hin
    cases hinv.exclusive _ _ _ hpool hown
  have hino := hok.numbered n hn
  have hnames : ∀ x ∈ dirents 2 ds, x.entry.name ≠ name := by
    rintro x hx rfl
    rw [hat.lookupDirent_of_mem hx] at hnew
    cases hnew
  refine (hat.addDirent hfree hvalid hino hnames).imp_right ?_
  rintro ⟨ds', ls, x, rs, grown, hres, hat', hbefore, hafter, hentry, hstep⟩
  have hxname : x.entry.name = name := by
    rw [hentry]
    rfl
  have hxino : x.entry.ino = (s.inodes n).iIno := by
    rw [hentry]
    rfl
  have hothers : ∀ y, y.entry.name ≠ name → (y ∈ dirents 2 ds' ↔ y ∈ dirents 2 ds) := by
    intro y hy
    have hne : y ≠ x := by
      rintro rfl
      exact hy hxname
    simp [hafter, hbefore, hne]
  obtain ⟨hok', hresolve⟩ := hok.edit hinv hd hat hat' hstep hothers
  have hx : x ∈ dirents 2 ds' := by simp [hafter]
  have hat₁ := hat'.resolve_of_mem ((hstep.mode dir).trans hd) hx
  rw [hxname, hxino] at hat₁
  rw [hat₁] at hresolve
  exact ⟨hres, hok', hresolve, ⟨grown, hstep⟩, fun d name' place hdir hname hne hl =>
    hstep.lookupDirent hok hinv hat hat' hothers hdir hname hne hl⟩

/-- **`toyfs_remove_dirent`** makes a name lead to nothing. -/
theorem DirsOk.removeDirent {bn j : ℕ} (hok : DirsOk s) (hinv : Inv held s)
    (hd : (s.inodes dir).iMode = .dir) (hvalid : ValidName name)
    (hl : s.lookupDirent dir name = some (bn, j)) :
    DirsOk (s.removeDirent dir n bn j) ∧
      (s.removeDirent dir n bn j).resolve = Function.update s.resolve (dir, name) 0 ∧
      DirStep dir [] s (s.removeDirent dir n bn j) := by
  obtain ⟨ds, hat⟩ := hok.dirs dir hd
  obtain ⟨x, hx, rfl, rfl, rfl⟩ := hat.mem_of_lookupDirent hvalid.1 hl
  obtain ⟨ds', ls, rs, hat', hbefore, hafter, hstep⟩ := hat.removeDirent (n := n) hx
  have hnames := hat.names
  rw [hbefore, List.map_append, List.map_cons, List.perm_middle.nodup_iff, List.nodup_cons,
    ← List.map_append, ← hafter] at hnames
  have hothers : ∀ y, y.entry.name ≠ x.entry.name →
      (y ∈ dirents 2 ds' ↔ y ∈ dirents 2 ds) := by
    intro y hy
    have hne : y ≠ x := by
      rintro rfl
      exact hy rfl
    simp [hafter, hbefore, hne]
  obtain ⟨hok', hresolve⟩ := hok.edit hinv hd hat hat' hstep hothers
  have hd' := (hstep.mode dir).trans hd
  have hgone : (s.removeDirent dir n x.bn x.idx).resolve (dir, x.entry.name) = 0 := by
    by_contra hne
    obtain ⟨y, hy, hname, -⟩ := (hat'.resolve_eq_iff hd' hne).mp rfl
    exact hnames.1 (List.mem_map.mpr ⟨y, hy, hname⟩)
  rw [hgone] at hresolve
  exact ⟨hok', hresolve, hstep⟩

theorem DirsOk.removeDentry (hok : DirsOk s) (hinv : Inv held s) (hd : (s.inodes dir).iMode = .dir)
    (hvalid : ValidName name) :
    (∃ e, s.removeDentry dir n name = (some e, s)) ∨
      ((s.removeDentry dir n name).1 = none ∧ DirsOk (s.removeDentry dir n name).2 ∧
        (s.removeDentry dir n name).2.resolve = Function.update s.resolve (dir, name) 0) := by
  unfold Sbi.removeDentry
  split
  · exact .inl ⟨_, rfl⟩
  · next bn j hl =>
    obtain ⟨hok₁, hres₁, -⟩ := hok.removeDirent hinv hd hvalid hl (n := n)
    split
    · exact .inl ⟨_, rfl⟩
    · refine .inr ?_
      simp only
      split
      · have hkeep : KeepsDirs (s.removeDirent dir n bn j) ((s.removeDirent dir n bn j).setInode n
            { (s.removeDirent dir n bn j).inodes n with iNlink := 0 }) :=
          .of_setInode rfl rfl rfl rfl rfl
        exact ⟨rfl, hkeep.dirsOk hok₁, (hkeep.resolve hok₁).trans hres₁⟩
      · exact ⟨rfl, hok₁, hres₁⟩

/-- The part of a rename after the new entry is there. -/
theorem DirsOk.renameRest {oldDir : RecPtr} {bn j : ℕ} (newDir old : RecPtr) (time : UInt64)
    (hok : DirsOk s) (hinv : Inv held s) (ho : (s.inodes oldDir).iMode = .dir) (hvalid : ValidName name)
    (hl : s.lookupDirent oldDir name = some (bn, j)) :
    DirsOk (s.renameRest oldDir newDir old time bn j) ∧
      (s.renameRest oldDir newDir old time bn j).resolve =
        Function.update s.resolve (oldDir, name) 0 := by
  set s₂ := s.removeDirent oldDir old bn j
  set s₃ := if (s₂.inodes old).iMode = .dir then s₂.addNlink old 1 else s₂ with hs₃
  set s₄ := (s₃.touch oldDir time).touch newDir time
  obtain ⟨hok₂, hres₂, -⟩ := hok.removeDirent hinv ho hvalid hl (n := old)
  have hstep : ∀ {t t' : Sbi}, KeepsDirs t t' → DirsOk t ∧ t.resolve = s₂.resolve →
      DirsOk t' ∧ t'.resolve = s₂.resolve :=
    fun hk ht => ⟨hk.dirsOk ht.1, (hk.resolve ht.1).trans ht.2⟩
  have h₃ : DirsOk s₃ ∧ s₃.resolve = s₂.resolve := by
    rw [hs₃]
    split
    · exact hstep (.of_setInode rfl rfl rfl rfl rfl) ⟨hok₂, rfl⟩
    · exact ⟨hok₂, rfl⟩
  have h₄ : DirsOk s₄ ∧ s₄.resolve = s₂.resolve :=
    hstep (.of_setInode rfl rfl rfl rfl rfl) (hstep (.of_setInode rfl rfl rfl rfl rfl) h₃)
  have hend : KeepsDirs s₄ (s₄.setInode old { s₄.inodes old with iCtime := time }) :=
    .of_setInode rfl rfl rfl rfl rfl
  obtain ⟨hok', hres'⟩ := hstep hend h₄
  exact ⟨hok', hres'.trans hres₂⟩

/-- **What a rename does to the name space**: nothing when it fails, and else the old name leads
to nothing and the new one, if it led to nothing, to the inode. -/
theorem DirsOk.rename {oldDir newDir old : RecPtr} {oldName newName : List UInt8} (time : UInt64)
    (flags : UInt32) (hok : DirsOk s) (hinv : Inv held s) (ho : (s.inodes oldDir).iMode = .dir)
    (hw : (s.inodes newDir).iMode = .dir) (hn : (s.inodes old).iMode ≠ .unset)
    (hold : ValidName oldName) (hnew : ValidName newName)
    (hne : ¬ (oldDir = newDir ∧ oldName = newName)) :
    (∃ e, s.rename oldDir newDir old oldName newName time flags = (some e, s)) ∨
      ((s.rename oldDir newDir old oldName newName time flags).1 = none ∧
        DirsOk (s.rename oldDir newDir old oldName newName time flags).2 ∧
        (s.rename oldDir newDir old oldName newName time flags).2.resolve = Function.update
          (if s.lookupDirent newDir newName = none
            then Function.update s.resolve (newDir, newName) (s.inodes old).iIno else s.resolve)
          (oldDir, oldName) 0) := by
  rcases hr : s.rename oldDir newDir old oldName newName time flags with ⟨res, s'⟩
  cases Sbi.rename_ends hr with
  | refused err => exact .inl ⟨_, rfl⟩
  | @noRoom err s₁ hlnew hadd =>
    rcases hok.addDirent hinv hw hn hnew hlnew with heq | ⟨hres, -⟩
    · exact .inl ⟨_, hadd.symm.trans heq⟩
    · rw [hadd] at hres
      cases hres
  | @onto bn j place _ hl hlnew =>
    rw [hlnew]
    exact .inr ⟨rfl, hok.renameRest newDir old time hinv ho hold hl⟩
  | @moved bn j s₁ _ hl hlnew hadd =>
    obtain ⟨hinv₁, hmode⟩ := @Inv.addDirent s held old newDir newName hinv hw hn
    rcases hok.addDirent hinv hw hn hnew hlnew with heq | ⟨-, hok₁, hresolve, -, hfound⟩
    · cases hadd.symm.trans heq
    · have hl₁ := hfound oldDir oldName (bn, j) ho hold.1 (fun heq => hne (Prod.mk.inj heq)) hl
      rw [hadd] at hinv₁ hmode hok₁ hresolve hl₁
      have hrest := hok₁.renameRest newDir old time hinv₁ ((hmode oldDir).trans ho) hold hl₁
      rw [hresolve] at hrest
      rw [hlnew]
      exact .inr ⟨rfl, hrest.1, hrest.2⟩

/-! ## Link counts -/

theorem nlink_addNlink {add : UInt32} : ((s.addNlink n add).inodes m).iNlink =
    (s.inodes m).iNlink + if m = n then add else 0 := by
  unfold Sbi.addNlink
  obtain rfl | hne := eq_or_ne m n
  · rw [setInode_inodes_self, if_pos rfl]
  · rw [setInode_inodes_ne hne, if_neg hne, UInt32.add_zero]

theorem mode_addNlink {add : UInt32} :
    ((s.addNlink n add).inodes m).iMode = (s.inodes m).iMode :=
  apply_setInode Inode.iMode (by rfl) m

theorem nlink_stdAddDentry : ((s.stdAddDentry dir n).inodes m).iNlink =
    (s.inodes m).iNlink + (if m = n then 1 else 0) +
      if (s.inodes n).iMode = .dir ∧ m = dir then 1 else 0 := by
  unfold Sbi.stdAddDentry
  simp only [mode_addNlink]
  split
  · next hd => simp only [nlink_addNlink, hd, true_and]
  · next hd => simp only [nlink_addNlink, hd, false_and, if_false, UInt32.add_zero]

theorem nlink_stdRemoveDentry : ((s.stdRemoveDentry dir n).inodes m).iNlink =
    (s.inodes m).iNlink - (if m = n then 1 else 0) - if (s.inodes n).iMode = .dir then
      (if m = n then 1 else 0) + (if m = dir then 1 else 0) else 0 := by
  unfold Sbi.stdRemoveDentry
  simp only
  split
  · simp only [nlink_addNlink]
    grind
  · simp only [nlink_addNlink]
    grind

theorem nlink_setDirSize {size : UInt64} :
    ((s.setDirSize n size).inodes m).iNlink = (s.inodes m).iNlink :=
  apply_setInode Inode.iNlink (by rfl) m

theorem mode_setDirSize {size : UInt64} :
    ((s.setDirSize n size).inodes m).iMode = (s.inodes m).iMode :=
  apply_setInode Inode.iMode (by rfl) m

/-- **An entry is a link**, and one more for the directory if it is that of a directory. -/
theorem nlink_addDirent (hinv : Inv held s) (hd : (s.inodes dir).iMode = .dir)
    (hres : (s.addDirent dir n name).1 = none) :
    ((s.addDirent dir n name).2.inodes m).iNlink =
      (s.inodes m).iNlink + (if m = n then 1 else 0) +
        if (s.inodes n).iMode = .dir ∧ m = dir then 1 else 0 := by
  rcases ha : s.acquireDirent dir name.length with _ | ⟨⟨bn, i, off⟩, s₁⟩
  · simp [Sbi.addDirent, ha] at hres
  · obtain ⟨-, hmode⟩ := hinv.acquireDirent hd ha
    have hlinks : (s₁.inodes m).iNlink = (s.inodes m).iNlink := by
      rcases acquireDirent_cases ha with ⟨-, rfl⟩ | ⟨s₂, -, hb, -, rfl⟩
      · rfl
      · obtain ⟨-, -, hin, -⟩ := acquirePmemb_eq hb
        obtain rfl | hne := eq_or_ne m dir
        · rw [setInode_inodes_self, hin]
        · rw [setInode_inodes_ne hne, hin]
    have hpage : ∀ (t : Sbi) pg k, ((t.setPage bn pg).inodes k) = t.inodes k := fun _ _ _ => rfl
    simp only [Sbi.addDirent, ha]
    rw [nlink_stdAddDentry, nlink_setDirSize, mode_setDirSize, hpage, hpage, hlinks, hmode]

theorem nlink_removeDirent {bn j : ℕ} : ((s.removeDirent dir n bn j).inodes m).iNlink =
    (s.inodes m).iNlink - (if m = n then 1 else 0) - if (s.inodes n).iMode = .dir then
      (if m = n then 1 else 0) + (if m = dir then 1 else 0) else 0 := by
  set t := ((s.assert (0 < dNlen (s.mem bn) j)).setPage bn (resetDirent (s.mem bn) j))
  have hmode : ((t.setDirSize dir ((t.inodes dir).iSize - 4096)).inodes n).iMode =
      (s.inodes n).iMode := mode_setDirSize
  unfold Sbi.removeDirent
  simp only
  rw [nlink_stdRemoveDentry, nlink_setDirSize, hmode]
  rfl

/-! ## Runs -/

/-- **One request keeps the directories in order.** -/
theorem DirsOk.serve {x : Sys} {a : Act} (hok : DirsOk x.sbi) (hinv : Inv held x.sbi)
    (hsend : x.Sends a) (hs : x.serve apiMapMaxSize a = some s') : DirsOk s' := by
  rcases ht : a.target with _ | n
  · cases a with
    | newInode dir ioc addr =>
      obtain rfl := Option.some.inj hs
      exact (hok.newInode hinv hsend.2.1 hsend.2.2).1
    | iget ino addr =>
      obtain rfl := Option.some.inj hs
      exact KeepsDirs.iget.dirsOk hok
    | evict a => exact hok.evict hinv hs
    | addDentry dir n name =>
      obtain rfl := Option.some.inj hs
      obtain ⟨hd, hn, hvalid, hnew⟩ := hsend
      rcases hok.addDirent hinv hd hn hvalid hnew with heq | ⟨-, hok', -⟩
      · rw [heq]
        exact hok
      · exact hok'
    | removeDentry dir n name =>
      obtain rfl := Option.some.inj hs
      obtain ⟨hd, -, hvalid, -⟩ := hsend
      rcases hok.removeDentry hinv hd hvalid (n := n) with ⟨e, heq⟩ | ⟨-, hok', -⟩
      · rw [heq]
        exact hok
      · exact hok'
    | rename oldDir newDir old oldName newName time flags =>
      obtain rfl := Option.some.inj hs
      obtain ⟨ho, hw, hn, hold, hnew, -, hne⟩ := hsend
      rcases hok.rename time flags hinv ho hw hn hold hnew hne with ⟨e, heq⟩ | ⟨-, hok', -⟩
      · rw [heq]
        exact hok
      · exact hok'
    | setxattr n ioc =>
      obtain ⟨⟨res, s₁⟩, hr, rfl⟩ := Option.map_eq_some_iff.mp hs
      exact (KeepsDirs.setxattr hinv hsend.1 hr).dirsOk hok
    | _ => cases ht
  · obtain ⟨s₁, hs₁, hserve⟩ := @Sys.serves held n apiMapMaxSize x a hinv hsend ht
    obtain rfl := Option.some.inj (hs₁.symm.trans hs)
    exact (KeepsDirs.of_fileStep hserve.op.step).dirsOk hok

/-- **The directories are in order in every state toyfs reaches.** -/
theorem toyfs_dirsOk {x : Sys} (h : (toyfs apiMapMaxSize).Reachable x) : DirsOk x.sbi := by
  refine (h.invariant (I := fun x => StoreOk x.sbi ∧ DirsOk x.sbi) ?_ ?_).2
  · rintro x ⟨nblocks, addr, -, hm⟩
    obtain ⟨n, hmount⟩ := mounted_spec hm
    refine ⟨mounted_storeOk hm, fun d hd => ?_, fun m hset => ?_⟩
    · refine ⟨[], Inode.Empty.dirAt ?_⟩
      rcases hmount.inode_cases d with ⟨-, heq⟩ | heq <;>
      · rw [heq]
        exact ⟨rfl, rfl, rfl⟩
    · rcases hmount.inode_cases m with ⟨-, heq⟩ | heq
      · rw [heq]
        decide
      · rw [heq] at hset
        exact absurd rfl hset
  · rintro x a x' ⟨hstore, hok⟩ hn
    obtain ⟨hsend, hs, -, -⟩ := Sys.next_cases hn
    obtain ⟨held, hinv⟩ := hstore.store
    exact ⟨hstore.serve hsend hs, hok.serve hinv hsend hs⟩

end Zus.Toyfs
