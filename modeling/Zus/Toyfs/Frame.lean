import Zus.Toyfs.BlockList

/-!
# The data of files

A request on a directory, on attributes or on the inode table stores into pages of its own
kind, so the blocks of files keep their bytes (`StoreOk.keepsData`). The exception is the
eviction of a file without links, whose blocks go; those of other files stay.

A page has one owner (`Inv.exclusive`), so a page with entries or attributes is that of no block:
`KeepsBlocks` is the frame that follows, with a lemma for each operation that stores anywhere. What
is read from a file depends on its record and its blocks alone, so the modules on contents have
to look at the requests on that file only.
-/

namespace Zus.Toyfs

open Zus.Lib

variable {s s' s₁ : Sbi} {held : RecPtr → ℕ} {n m d dir : RecPtr} {bn : ℕ}

/-- All blocks in use keep their counts, their pages and the bytes of these. -/
def KeepsBlocks (s s' : Sbi) : Prop :=
  ∀ d, 0 < counts s d → s'.dblkrefs d = s.dblkrefs d ∧ s'.mem (s.pageOf d) = s.mem (s.pageOf d)

/-- What takes pages and records from the pool leaves the blocks in use alone. -/
theorem Quiet.keepsBlocks (h : Quiet s s') : KeepsBlocks s s' :=
  fun d hd => ⟨h.dblkrefs d hd, (h.keepsBlock hd).2⟩

namespace KeepsBlocks

/-- Neither blocks nor pages change. -/
theorem of_eq (hd : s'.dblkrefs = s.dblkrefs) (hm : s'.mem = s.mem) : KeepsBlocks s s' :=
  fun d _ => ⟨congrFun hd d, congrFun hm _⟩

theorem refl (s : Sbi) : KeepsBlocks s s := of_eq rfl rfl

theorem trans (h : KeepsBlocks s s₁) (h₁ : KeepsBlocks s₁ s') : KeepsBlocks s s' := by
  intro d hd
  obtain ⟨hrec, hmem⟩ := h d hd
  have hpage : s₁.pageOf d = s.pageOf d := congrArg Dblkref.bn hrec
  obtain ⟨hrec₁, hmem₁⟩ := h₁ d (by rw [counts, hrec]; exact hd)
  rw [hpage] at hmem₁
  exact ⟨hrec₁.trans hrec, hmem₁.trans hmem⟩

/-- A block in use keeps its page and the bytes in it. -/
theorem keepsBlock (h : KeepsBlocks s s') (hd : 0 < counts s d) : KeepsBlock s s' d :=
  ⟨congrArg Dblkref.bn (h d hd).1, (h d hd).2⟩

/-- A store into a page that an inode uses. -/
theorem update {use : PageUse} {pg : Bytes} (h : KeepsBlocks s s₁) (hinv : Inv held s)
    (hown : Owns s bn (.inode use n)) (hd : s'.dblkrefs = s₁.dblkrefs)
    (hm : s'.mem = Function.update s₁.mem bn pg) : KeepsBlocks s s' := by
  intro d hpos
  obtain ⟨hrec, hmem⟩ := h d hpos
  have hne : s.pageOf d ≠ bn := by
    rintro rfl
    have hdata : Owns s (s.pageOf d) (.data d) := ⟨hpos, rfl⟩
    cases hinv.exclusive _ _ _ hown hdata
  rw [hd, hm, Function.update_of_ne hne]
  exact ⟨hrec, hmem⟩

end KeepsBlocks

/-! ## Directories -/

/-- The place that is found for an entry is on a page of the directory. -/
theorem searchChilds_mem {required dOff : ℕ} {place : ℕ × ℕ × ℕ} {l : List ℕ}
    (h : s.searchChilds required dOff l = some place) : place.1 ∈ l := by
  induction l generalizing dOff with
  | nil => cases h
  | cons b rest ih =>
    unfold Sbi.searchChilds at h
    split at h
    · obtain rfl := Option.some.inj h
      exact List.mem_cons_self
    · exact List.mem_cons_of_mem _ (ih h)

/-- So is an entry that is found. -/
theorem lookupDirent_mem {name : List UInt8} {i : ℕ} (h : s.lookupDirent dir name = some (bn, i)) :
    Owns s bn (.inode .entries dir) := by
  obtain ⟨b, hb, hf⟩ := List.exists_of_findSome?_eq_some h
  obtain ⟨j, -, heq⟩ := Option.map_eq_some_iff.mp hf
  obtain ⟨rfl, -⟩ := Prod.mk.inj heq
  exact hb

/-- The place found for an entry is in a page of the directory. -/
theorem acquireDirent_keeps {nlen : ℕ} {place : ℕ × ℕ × ℕ} (hinv : Inv held s)
    (ha : s.acquireDirent dir nlen = some (place, s')) :
    KeepsBlocks s s' ∧ Owns s' place.1 (.inode .entries dir) := by
  rcases acquireDirent_cases ha with ⟨hplace, rfl⟩ | ⟨s₁, -, hb, -, rfl⟩
  · exact ⟨.refl s', searchChilds_mem hplace⟩
  · obtain ⟨-, -, hq, -⟩ := acquirePmemb_spec hinv hb
    refine ⟨hq.keepsBlocks.trans (.of_eq rfl rfl), ?_⟩
    change place.1 ∈ ((s₁.setInode dir _).inodes dir).childs
    rw [setInode_inodes_self]
    exact List.mem_append_right _ (List.mem_singleton.mpr rfl)

namespace KeepsBlocks

/-- `toyfs_add_dirent` writes to a page of the directory only. -/
theorem addDirent {name : List UInt8} (hinv : Inv held s) (hd : (s.inodes dir).iMode = .dir)
    (hn : (s.inodes n).iMode ≠ .unset) : KeepsBlocks s (s.addDirent dir n name).2 := by
  rcases @addDirent_cases s held n dir name hinv hd hn with heq | ⟨b, j, off, s₁, ha, -, hs, hm⟩
  · rw [heq]
    exact refl s
  · obtain ⟨hkeep, hown⟩ := acquireDirent_keeps hinv ha
    obtain ⟨h₁, -⟩ := hinv.acquireDirent hd ha
    exact hkeep.trans ((refl s₁).update h₁ hown hs.dblkrefs hm)

theorem removeDirent_dblkrefs {j : ℕ} : (s.removeDirent dir n bn j).dblkrefs = s.dblkrefs := by
  unfold Sbi.removeDirent Sbi.stdRemoveDentry
  simp only
  split <;> rfl

/-- `toyfs_remove_dirent` resets one slot. -/
theorem removeDirent_mem {j : ℕ} : (s.removeDirent dir n bn j).mem =
    Function.update s.mem bn (Dirent.resetDirent (s.mem bn) j) := by
  unfold Sbi.removeDirent
  rw [stdRemoveDentry_mem]
  rfl

/-- `toyfs_remove_dentry` writes to a page of the directory only. -/
theorem removeDentry {name : List UInt8} (hinv : Inv held s) :
    KeepsBlocks s (s.removeDentry dir n name).2 := by
  unfold Sbi.removeDentry
  split
  · exact refl s
  · next b j hl =>
    split
    · exact refl s
    · have h₁ : KeepsBlocks s (s.removeDirent dir n b j) :=
        (refl s).update hinv (lookupDirent_mem hl) removeDirent_dblkrefs removeDirent_mem
      simp only
      split
      · exact h₁.trans (of_eq rfl rfl)
      · exact h₁

/-- `toyfs_rename` writes to pages of two directories only. -/
theorem rename {oldDir newDir old : RecPtr} {oldName newName : List UInt8} {time : UInt64}
    {flags : UInt32} (hinv : Inv held s) (hw : (s.inodes newDir).iMode = .dir)
    (hn : (s.inodes old).iMode ≠ .unset) : KeepsBlocks s (s.rename oldDir newDir old oldName newName time flags).2 := by
  refine Sbi.rename_rule flags (refl s) (addDirent hinv hw hn) fun {s₁ b j} hl h₁ => ?_
  -- the old entry goes from its page, after the new one is there
  set s₂ := s₁.removeDirent oldDir old b j
  set s₃ := if (s₂.inodes old).iMode = .dir then s₂.addNlink old 1 else s₂ with hs₃
  have h₂ : KeepsBlocks s s₂ :=
    h₁.update hinv (lookupDirent_mem hl) removeDirent_dblkrefs removeDirent_mem
  have h₃ : KeepsBlocks s s₃ := by
    rw [hs₃]
    split
    · exact h₂.trans (of_eq rfl rfl)
    · exact h₂
  exact h₃.trans (of_eq rfl rfl)

/-! ## Attributes and inodes -/

theorem acquirePmemb_dblkrefs (ha : s.acquirePmemb = some (bn, s')) : s'.dblkrefs = s.dblkrefs := by
  obtain ⟨-, -, _, -, rfl⟩ := Sbi.acquirePmemb_some ha
  rfl

/-- `toyfs_setxattr` writes to the page of the attributes only. -/
theorem setxattr {ioc : IocXattr} {res : Except Errno Unit} (hinv : Inv held s)
    (hn : (s.inodes n).iMode ≠ .unset) (hr : s.setxattr n ioc = some (res, s')) :
    KeepsBlocks s s' := by
  rcases Sbi.setxattr_some hr with rfl | ⟨s₁, pg, hx, rfl⟩
  · exact refl _
  · have h₁ := hinv.requireXattr hn hx
    have hown := requireXattr_owns hinv hx
    have hkeep : KeepsBlocks s s₁ := by
      rcases Sbi.requireXattr_some hx with ⟨-, rfl⟩ | ⟨-, b, s₂, ha, rfl⟩
      · exact refl _
      · obtain ⟨-, -, hq, -⟩ := acquirePmemb_spec hinv ha
        exact hq.keepsBlocks.trans (of_eq rfl rfl)
    exact hkeep.trans ((refl s₁).update h₁ hown rfl rfl)

theorem setupInode_dblkrefs {ioc : IocNewInode} {ino : UInt64}
    (hr : s.setupInode dir n ioc ino = some s') : s'.dblkrefs = s.dblkrefs := by
  obtain ⟨i, -, ⟨-, -, rfl⟩ | ⟨-, b, s₁, ha, -, rfl⟩⟩ := Sbi.setupInode_some hr
  · rfl
  · have hdb : s₁.dblkrefs = s.dblkrefs := acquirePmemb_dblkrefs ha
    exact hdb

theorem newInode_dblkrefs {ioc : IocNewInode} {addr : Option ℕ} :
    (s.newInode dir ioc addr).2.dblkrefs = s.dblkrefs := by
  rcases hr : s.newInode dir ioc addr with ⟨res, s'⟩
  cases Sbi.newInode_ends hr with
  | noInfo => rfl
  | noRecord ha =>
    obtain ⟨-, rfl⟩ := Sbi.allocIi_some ha
    rfl
  | noPage ha hn =>
    obtain ⟨-, rfl⟩ := Sbi.allocIi_some ha
    obtain ⟨_, -, rfl⟩ := Sbi.acquireInode_some hn
    rfl
  | made ha _ _ hn hs =>
    have h₃ := setupInode_dblkrefs hs
    obtain ⟨-, rfl⟩ := Sbi.allocIi_some ha
    obtain ⟨_, -, rfl⟩ := Sbi.acquireInode_some hn
    exact h₃

/-- `toyfs_new_inode` writes to the page of a symlink only. -/
theorem newInode {ioc : IocNewInode} {addr : Option ℕ} (hinv : Inv held s)
    (hfresh : ∀ a ∈ addr, s.tiis a = none) : KeepsBlocks s (s.newInode dir ioc addr).2 := by
  have hdb := @newInode_dblkrefs s dir ioc addr
  rcases hr : s.newInode dir ioc addr with ⟨res, s'⟩
  rw [hr] at hdb
  have hmem : ∀ b, InUse s b → s'.mem b = s.mem b := by
    rcases newInode_cases hinv hfresh hr with ⟨-, hnot⟩ | ⟨a, n, -, -, hmade⟩
    · exact hnot.mem
    · exact hmade.mem
  exact fun d hd => ⟨congrFun hdb d, hmem _ (.inl ⟨d, hd, rfl⟩)⟩

/-- `toyfs_iget` writes to no page. -/
theorem iget {ino : UInt64} {addr : Option ℕ} : KeepsBlocks s (s.iget ino addr).2 :=
  of_eq iget_same.2.2 iget_same.2.1

end KeepsBlocks

/-- The pages of a directory that go back are those of no block. -/
theorem releaseDir_keepsBlock : KeepsBlock s (s.releaseDir n) d := by
  have hloop : ∀ (l : List ℕ) (t : Sbi), KeepsBlock s t d →
      KeepsBlock s (l.foldl (fun s bn => s.releaseDirPage n bn) t) d := by
    intro l
    induction l with
    | nil => exact fun t h => h
    | cons b rest ih => exact fun t h => ih _ (h.trans ⟨rfl, rfl⟩)
  exact (hloop _ s ⟨rfl, rfl⟩).trans ⟨rfl, rfl⟩

/-- The blocks of the other files stay when an inode is freed. -/
theorem freeInode_keepsFile (hinv : Inv held s) (hne : m ≠ n) : KeepsFile m s (s.freeInode n) := by
  have hrest : ∀ {t : Sbi}, KeepsFile m t ((t.dropXattr n).releaseInode n) := by
    intro t
    refine ⟨(inodeStep_dropXattr.trans inodeStep_releaseInode).others m hne, fun k _ => ⟨?_, ?_⟩⟩
    · unfold Sbi.dropXattr
      split <;> rfl
    · unfold Sbi.dropXattr
      split <;> rfl
  unfold Sbi.freeInode
  simp only
  split
  · split
    · exact .refl m s
    · exact KeepsFile.trans ⟨inodeStep_releaseDir.others m hne, fun k _ => releaseDir_keepsBlock⟩ hrest
  · refine KeepsFile.trans ⟨inodeStep_releaseSymlink.others m hne, fun k _ => ?_⟩ hrest
    unfold Sbi.releaseSymlink
    simp only
    split <;> exact ⟨rfl, rfl⟩
  · next hmode =>
    have hserve : Serves n ∅ True held s (s.truncate n 0).2 := truncate_serves hinv hmode
    exact (hserve.op.keeps m hne fun _ _ => Set.notMem_empty _).trans hrest
  · exact hrest

/-- **A request that is not on a file** keeps each inode's blocks and their bytes, or frees
the inode or makes it. -/
theorem StoreOk.keepsData {x : Sys} {a : Act} {apiMapMaxSize : ℕ} (h : StoreOk x.sbi)
    (hsend : x.Sends a) (ht : a.target = none) (hs : x.serve apiMapMaxSize a = some s')
    (m : RecPtr) : (s'.inodes m).Fresh ∨ (SameFile (x.sbi.inodes m) (s'.inodes m) ∧
      ∀ k ∈ (x.sbi.inodes m).keys, KeepsBlock x.sbi s' k.2) := by
  obtain ⟨held, hinv⟩ := h.store
  have hall : ∀ {t}, KeepsBlocks x.sbi t →
      ∀ k ∈ (x.sbi.inodes m).keys, KeepsBlock x.sbi t k.2 :=
    fun ht k hk => ht.keepsBlock (hinv.counts_pos hk)
  rcases h.sameFile hsend ht hs m with hsame | hfresh
  · by_cases hf : (s'.inodes m).Fresh
    · exact .inl hf
    refine .inr ⟨hsame, ?_⟩
    cases a with
    | newInode dir ioc addr =>
      obtain rfl := Option.some.inj hs
      exact hall (.newInode hinv hsend.2.1)
    | iget ino addr =>
      obtain rfl := Option.some.inj hs
      exact hall .iget
    | evict a =>
      obtain ⟨info, -, ⟨-, rfl⟩ | ⟨-, n, s₂, -, hs₂, hstep, -⟩⟩ := evict_cases hs
      · exact hall (.of_eq rfl rfl)
      · set s₁ := x.sbi.setTii a { info with ref := info.ref - 1 }
        have hinv₁ : Inv held s₁ := hinv.congr rfl rfl rfl
        have hkeep : ∀ k ∈ (x.sbi.inodes m).keys, KeepsBlock x.sbi s₂ k.2 := by
          rw [hs₂]
          split
          · obtain rfl | hne := eq_or_ne m n
            · rcases @freeInode_self s₁ m with hblank | hkept
              · -- the record was zeroed
                have hlinks : (x.sbi.inodes m).iNlink = 0 := ‹_›
                rw [hstep.inodes, hs₂, if_pos hlinks, hblank] at hf
                exact absurd fresh_default hf
              · rw [hkept]
                exact fun _ _ => ⟨rfl, rfl⟩
            · exact (freeInode_keepsFile hinv₁ hne).2
          · exact fun _ _ => ⟨rfl, rfl⟩
        intro k hk
        obtain ⟨hpage, hmem⟩ := hkeep k hk
        rw [KeepsBlock, Sbi.pageOf, hstep.dblkrefs, hstep.mem]
        exact ⟨hpage, hmem⟩
    | addDentry dir n name =>
      obtain rfl := Option.some.inj hs
      exact hall (.addDirent hinv hsend.1 hsend.2.1)
    | removeDentry dir n name =>
      obtain rfl := Option.some.inj hs
      exact hall (.removeDentry hinv)
    | rename oldDir newDir old oldName newName time flags =>
      obtain rfl := Option.some.inj hs
      exact hall (.rename hinv hsend.2.1 hsend.2.2.1)
    | setxattr n ioc =>
      obtain ⟨⟨res, s₁⟩, hr, rfl⟩ := Option.map_eq_some_iff.mp hs
      exact hall (.setxattr hinv hsend.1 hr)
    | _ => cases ht
  · exact .inl hfresh

end Zus.Toyfs
