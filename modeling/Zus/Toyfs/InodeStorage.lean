import Zus.Toyfs.CloneOps
import Zus.Toyfs.System

/-!
# Inodes and directories keep the store

The requests on inodes and directories take pages and records from the pool, give them to
an inode, and give them back when it is freed. Most of what they change is of no concern to
the store: link counts, sizes of directories, times. `MetaStep` is a change of that kind.

`InodeStep` is the frame of the others, which give back what one inode has. The end of a file is
where references can be lost: `toyfs_free_inode` gives the record back with the blocks that are
still on its list, and these stay counted (`Inv.freeInode`). A new inode is told in two structures,
for the request that makes one (`Made`) and for the one that fails anywhere on the way (`NotMade`).
-/

namespace Zus.Toyfs

open Zus.Lib

variable {s s' s₁ s₂ : Sbi} {held : RecPtr → ℕ} {n m d : RecPtr} {i i' : Inode} {bn : ℕ}

/-! ## Changes of no concern -/

/-- Nothing the store is about changes in an inode. -/
structure MetaEq (i i' : Inode) : Prop where
  mode : i'.iMode = i.iMode
  iblkrefs : i'.iblkrefs = i.iblkrefs
  childs : i'.childs = i.childs
  xattr : i'.iXattr = i.iXattr
  symDpp : i'.iSymDpp = i.iSymDpp
  ino : i'.iIno = i.iIno
  parent : i'.iDirParent = i.iDirParent
  size : i.iMode ≠ .dir → i'.iSize = i.iSize
  unset : i.iMode = .unset → i' = i

theorem MetaEq.refl (i : Inode) : MetaEq i i :=
  ⟨rfl, rfl, rfl, rfl, rfl, rfl, rfl, fun _ => rfl, fun _ => rfl⟩

theorem MetaEq.trans {i₁ i₂ i₃ : Inode} (h : MetaEq i₁ i₂) (h' : MetaEq i₂ i₃) : MetaEq i₁ i₃ where
  mode := h'.mode.trans h.mode
  iblkrefs := h'.iblkrefs.trans h.iblkrefs
  childs := h'.childs.trans h.childs
  xattr := h'.xattr.trans h.xattr
  symDpp := h'.symDpp.trans h.symDpp
  ino := h'.ino.trans h.ino
  parent := h'.parent.trans h.parent
  size hd := (h'.size (by rwa [h.mode])).trans (h.size hd)
  unset hu := (h'.unset (by rwa [h.mode])).trans (h.unset hu)

/-- The blocks are the same. -/
theorem MetaEq.keys (h : MetaEq i i') : i'.keys = i.keys := by
  rw [Inode.keys, h.iblkrefs, Inode.keys]

/-- The pages are the same. -/
theorem MetaEq.holds (h : MetaEq i i') {use : PageUse} : i'.Holds bn use ↔ i.Holds bn use := by
  cases use with
  | entries => simp only [Inode.Holds, h.childs]
  | xattr => simp only [Inode.Holds, h.xattr]
  | symlink =>
    simp only [Inode.Holds, h.mode, h.symDpp]
    refine and_congr_right fun hl => ?_
    rw [h.size (by rw [hl]; exact fun h => by cases h)]

/-- Only link counts, times, and sizes of directories change, and the bytes of pages. -/
structure MetaStep (s s' : Sbi) : Prop where
  pool : s'.pool = s.pool
  dblkrefs : s'.dblkrefs = s.dblkrefs
  tables : s'.tables = s.tables
  inodes : ∀ m, MetaEq (s.inodes m) (s'.inodes m)

theorem MetaStep.refl (s : Sbi) : MetaStep s s := ⟨rfl, rfl, rfl, fun _ => .refl _⟩

theorem MetaStep.trans (h : MetaStep s s₁) (h₁ : MetaStep s₁ s₂) : MetaStep s s₂ :=
  ⟨h₁.pool.trans h.pool, h₁.dblkrefs.trans h.dblkrefs, h₁.tables.trans h.tables,
    fun m => (h.inodes m).trans (h₁.inodes m)⟩

/-- A record that changes in its metadata. -/
theorem metaStep_setInode (h : MetaEq (s.inodes n) i) : MetaStep s (s.setInode n i) :=
  ⟨rfl, rfl, rfl, forall_setInode (P := fun m j => MetaEq (s.inodes m) j) h fun _ _ => .refl _⟩

/-- The records in use are the same. -/
theorem MetaStep.used (h : MetaStep s s') {kind : RecKind} {r : RecPtr} :
    Used s' kind r ↔ Used s kind r := by
  cases kind with
  | inode => simp only [Used, (h.inodes r).mode]
  | dblkref => simp only [Used, h.dblkrefs]
  | iblkref => simp only [Used, (h.inodes _).keys]

/-- The owners of pages are the same. -/
theorem MetaStep.owns (h : MetaStep s s') {o : Owner} : Owns s' bn o ↔ Owns s bn o := by
  cases o with
  | pool => simp only [Owns, h.pool]
  | data d => simp only [Owns, h.dblkrefs, Sbi.pageOf]
  | inode use m => exact (h.inodes m).holds
  | recs kind => simp only [Owns, h.pool, h.used]

/-- The references to blocks are the same. -/
theorem MetaStep.refs (h : MetaStep s s') : refs s' = refs s := by
  funext d
  ext p
  simp only [Toyfs.refs, Set.mem_ofPred_eq, (h.inodes _).keys]

/-- **Metadata changes nothing of the store.** -/
theorem Inv.metaStep (h : Inv held s) (hs : MetaStep s s') : Inv held s' where
  exclusive b o o' ho ho' := h.exclusive b o o' (hs.owns.mp ho) (hs.owns.mp ho')
  nonzero b o ho := h.nonzero b o (hs.owns.mp ho)
  pagesNodup := by
    rw [hs.pool]
    exact h.pagesNodup
  freeNodup kind := by
    rw [hs.pool]
    exact h.freeNodup kind
  freeUnused kind r hr hu := by
    rw [hs.pool] at hr
    exact h.freeUnused kind r hr (hs.used.mp hu)
  keysNodup m := by
    rw [(hs.inodes m).keys]
    exact h.keysNodup m
  keysInj m m' p d d' hm hm' := by
    rw [(hs.inodes _).keys] at hm hm'
    exact h.keysInj m m' p d d' hm hm'
  childsNodup m := by
    rw [(hs.inodes m).childs]
    exact h.childsNodup m
  blank m hm := by
    rw [(hs.inodes m).mode] at hm
    rw [(hs.inodes m).unset hm]
    exact h.blank m hm
  counted := by
    have hc : counts s' = counts s := by
      funext d
      rw [counts, hs.dblkrefs, counts]
    rw [hs.refs, hc]
    exact h.counted

/-- A page that is written to keeps its owner. -/
theorem metaStep_setPage {pg : Bytes} : MetaStep s (s.setPage bn pg) :=
  ⟨rfl, rfl, rfl, fun _ => .refl _⟩

theorem metaStep_assert {c : Bool} : MetaStep s (s.assert c) := ⟨rfl, rfl, rfl, fun _ => .refl _⟩

/-- Links are metadata. -/
theorem metaStep_addNlink {add : UInt32} (hn : (s.inodes n).iMode ≠ .unset) :
    MetaStep s (s.addNlink n add) :=
  metaStep_setInode ⟨rfl, rfl, rfl, rfl, rfl, rfl, rfl, fun _ => rfl, fun h => absurd h hn⟩

theorem metaStep_touch {time : UInt64} (hn : (s.inodes n).iMode ≠ .unset) :
    MetaStep s (s.touch n time) :=
  metaStep_setInode ⟨rfl, rfl, rfl, rfl, rfl, rfl, rfl, fun _ => rfl, fun h => absurd h hn⟩

/-- The size of a directory is metadata. -/
theorem metaStep_setDirSize {size : UInt64} (hn : (s.inodes n).iMode = .dir) :
    MetaStep s (s.setDirSize n size) := by
  refine metaStep_setInode ⟨rfl, rfl, rfl, rfl, rfl, rfl, rfl, fun h => absurd hn h, fun h => ?_⟩
  rw [hn] at h
  cases h

theorem MetaStep.mode (h : MetaStep s s') : (s'.inodes n).iMode = (s.inodes n).iMode :=
  (h.inodes n).mode

/-- The counts stay right when the record keeps its blocks. -/
theorem Inv.counted_setInode (h : Inv held s) (hkeys : i.keys = (s.inodes n).keys) :
    Counted (refs (s.setInode n i)) held (counts s) := by
  rw [refs_setInode hkeys]
  exact h.counted

/-! ## Directory entries -/

section Dentry

variable {dir : RecPtr}

/-- `zus_std_add_dentry` changes links and the parent. -/
theorem metaStep_stdAddDentry (hd : (s.inodes dir).iMode ≠ .unset)
    (hn : (s.inodes n).iMode ≠ .unset) : MetaStep s (s.stdAddDentry dir n) := by
  have h₁ : MetaStep s (s.addNlink n 1) := metaStep_addNlink hn
  unfold Sbi.stdAddDentry
  simp only
  split
  · exact h₁.trans (metaStep_addNlink (by rwa [h₁.mode]))
  · exact h₁

/-- `zus_std_remove_dentry` changes links. -/
theorem metaStep_stdRemoveDentry (hd : (s.inodes dir).iMode ≠ .unset)
    (hn : (s.inodes n).iMode ≠ .unset) : MetaStep s (s.stdRemoveDentry dir n) := by
  have h₁ : MetaStep s (if (s.inodes n).iMode = .dir then (s.addNlink n (-1)).addNlink dir (-1)
      else s) := by
    split
    · have h₂ : MetaStep s (s.addNlink n (-1)) := metaStep_addNlink hn
      exact h₂.trans (metaStep_addNlink (by rwa [h₂.mode]))
    · exact .refl s
  exact h₁.trans (metaStep_addNlink (by rwa [h₁.mode]))

theorem stdAddDentry_mem : (s.stdAddDentry dir n).mem = s.mem := by
  unfold Sbi.stdAddDentry
  simp only
  split <;> rfl

theorem stdRemoveDentry_mem : (s.stdRemoveDentry dir n).mem = s.mem := by
  unfold Sbi.stdRemoveDentry
  simp only
  split <;> rfl

/-- A directory gets a page. -/
theorem Inv.addChild {blocks : ℕ} (h : Inv held s) (hd : (s.inodes dir).iMode = .dir)
    (hu : Unowned s bn) : Inv held (s.setInode dir
      { s.inodes dir with iBlocks := blocks, childs := (s.inodes dir).childs ++ [bn] }) := by
  have hset : (s.inodes dir).iMode ≠ .unset := by
    rw [hd]
    exact fun h => by cases h
  have hne : bn ≠ dir.bn := by
    rintro rfl
    exact hu.2 (.recs .inode) ⟨dir, rfl, .inr hset⟩
  have hnotin : bn ∉ (s.inodes dir).childs := hu.2 (.inode .entries dir)
  refine h.setPages .entries (.inl rfl) ?_ (fun hm => absurd hm hset) (fun _ => .inl hset) ?_ ?_
  · refine (h.childsNodup dir).append (List.nodup_singleton bn) fun b hb hb' => ?_
    rw [List.mem_singleton] at hb'
    exact hnotin (hb' ▸ hb)
  · intro b use hb
    cases use with
    | entries =>
      rcases List.mem_append.mp hb with hb | hb
      · exact .inl hb
      · rw [List.mem_singleton] at hb
        exact .inr ⟨rfl, hb ▸ hu, hb ▸ hne⟩
    | xattr => exact .inl hb
    | symlink => exact .inl hb
  · exact h.counted_setInode rfl

/-- A place is found on a page, or a page is taken for it. -/
theorem acquireDirent_cases {nlen : ℕ} {place : ℕ × ℕ × ℕ}
    (ha : s.acquireDirent dir nlen = some (place, s')) :
    (s.searchChilds (Dirent.namelenToNde nlen) 2 (s.inodes dir).childs = some place ∧ s' = s) ∨
    (∃ s₁, s.searchChilds (Dirent.namelenToNde nlen) 2 (s.inodes dir).childs = none ∧
      s.acquirePmemb = some (place.1, s₁) ∧ place.2.1 = 0 ∧
      s' = s₁.setInode dir { s₁.inodes dir with
        iBlocks := (s₁.inodes dir).iBlocks + 1
        childs := (s₁.inodes dir).childs ++ [place.1] }) := by
  unfold Sbi.acquireDirent at ha
  split at ha
  · next p hp =>
    obtain ⟨rfl, rfl⟩ := Prod.mk.inj (Option.some.inj ha)
    exact .inl ⟨hp, rfl⟩
  · next hp =>
    split at ha
    · cases ha
    · next b s₁ hb =>
      obtain ⟨rfl, rfl⟩ := Prod.mk.inj (Option.some.inj ha)
      exact .inr ⟨s₁, hp, hb, rfl, rfl⟩

/-- The page that is taken is the directory's. -/
theorem Inv.acquireDirent {nlen : ℕ} {place : ℕ × ℕ × ℕ} (h : Inv held s)
    (hd : (s.inodes dir).iMode = .dir) (ha : s.acquireDirent dir nlen = some (place, s')) :
    Inv held s' ∧ ∀ m, (s'.inodes m).iMode = (s.inodes m).iMode := by
  rcases acquireDirent_cases ha with ⟨-, rfl⟩ | ⟨s₁, -, hb, -, rfl⟩
  · exact ⟨h, fun _ => rfl⟩
  · obtain ⟨h₁, hu, hq, -⟩ := acquirePmemb_spec h hb
    refine ⟨h₁.addChild (by rw [hq.inodes]; exact hd) hu, fun m => ?_⟩
    by_cases hm : m = dir
    · subst hm
      rw [setInode_inodes_self, hq.inodes]
    · rw [setInode_inodes_ne hm, hq.inodes]

/-- **`toyfs_add_dirent`** fails and changes nothing, or finds a place for the entry, sets
it, and changes link counts and the size of the directory. -/
theorem addDirent_cases {name : List UInt8} (h : Inv held s) (hd : (s.inodes dir).iMode = .dir)
    (hn : (s.inodes n).iMode ≠ .unset) :
    s.addDirent dir n name = (some .enospc, s) ∨
    (∃ b j off s₁, s.acquireDirent dir name.length = some ((b, j, off), s₁) ∧
      (s.addDirent dir n name).1 = none ∧ MetaStep s₁ (s.addDirent dir n name).2 ∧
      (s.addDirent dir n name).2.mem = Function.update s₁.mem b
        (Dirent.setDirent (s₁.mem b) j name (s₁.inodes n).iIno (s₁.inodes n).iMode.iftodt off)) := by
  unfold Sbi.addDirent
  split
  · exact .inl rfl
  · next b j off s₁ ha =>
    obtain ⟨h₁, hmode⟩ := h.acquireDirent hd ha
    refine .inr ⟨b, j, off, s₁, ha, rfl, ?_, ?_⟩
    · simp only
      set pg := Dirent.setDirent (s₁.mem b) j name (s₁.inodes n).iIno (s₁.inodes n).iMode.iftodt off
      have hpage : MetaStep s₁ (s₁.setPage b pg) := metaStep_setPage
      have hsize : MetaStep s₁ ((s₁.setPage b pg).setDirSize dir
          (((s₁.setPage b pg).inodes dir).iSize + 4096)) :=
        hpage.trans (metaStep_setDirSize (by rw [hpage.mode, hmode]; exact hd))
      refine hsize.trans (metaStep_stdAddDentry ?_ ?_)
      · rw [hsize.mode, hmode, hd]
        exact fun h => by cases h
      · rw [hsize.mode, hmode]
        exact hn
    · simp only
      rw [stdAddDentry_mem]
      rfl

/-- **`toyfs_add_dirent`** keeps the store in order. -/
theorem Inv.addDirent {name : List UInt8} (h : Inv held s) (hd : (s.inodes dir).iMode = .dir)
    (hn : (s.inodes n).iMode ≠ .unset) : Inv held (s.addDirent dir n name).2 ∧
      ∀ m, ((s.addDirent dir n name).2.inodes m).iMode = (s.inodes m).iMode := by
  rcases @addDirent_cases s held n dir name h hd hn with heq | ⟨b, j, off, s₁, ha, -, hs, -⟩
  · rw [heq]
    exact ⟨h, fun _ => rfl⟩
  · obtain ⟨h₁, hmode⟩ := h.acquireDirent hd ha
    exact ⟨h₁.metaStep hs, fun m => by rw [hs.mode, hmode]⟩

/-- An entry that goes leaves its page to the directory. -/
theorem metaStep_removeDirent {j : ℕ} (hd : (s.inodes dir).iMode = .dir)
    (hn : (s.inodes n).iMode ≠ .unset) : MetaStep s (s.removeDirent dir n bn j) := by
  unfold Sbi.removeDirent
  simp only
  set s₁ := (s.assert (0 < Dirent.dNlen (s.mem bn) j)).setPage bn (Dirent.resetDirent (s.mem bn) j)
  have hpage : MetaStep s s₁ := metaStep_assert.trans metaStep_setPage
  have hsize : MetaStep s (s₁.setDirSize dir ((s₁.inodes dir).iSize - 4096)) :=
    hpage.trans (metaStep_setDirSize (by rw [hpage.mode]; exact hd))
  refine hsize.trans (metaStep_stdRemoveDentry ?_ ?_)
  · rw [hsize.mode, hd]
    exact fun h => by cases h
  · rw [hsize.mode]
    exact hn

theorem metaStep_removeDentry {name : List UInt8} (hd : (s.inodes dir).iMode = .dir)
    (hn : (s.inodes n).iMode ≠ .unset) : MetaStep s (s.removeDentry dir n name).2 := by
  unfold Sbi.removeDentry
  split
  · exact .refl s
  · next b j hl =>
    split
    · exact .refl s
    · have h₁ : MetaStep s (s.removeDirent dir n b j) := metaStep_removeDirent hd hn
      simp only
      split
      · refine h₁.trans (metaStep_setInode ⟨rfl, rfl, rfl, rfl, rfl, rfl, rfl, fun _ => rfl,
          fun hu => ?_⟩)
        rw [h₁.mode] at hu
        exact absurd hu hn
      · exact h₁

/-- The part of a rename after the new entry is there. -/
theorem metaStep_renameRest {oldDir newDir old : RecPtr} {j : ℕ} {time : UInt64}
    (ho : (s.inodes oldDir).iMode = .dir) (hw : (s.inodes newDir).iMode = .dir)
    (hn : (s.inodes old).iMode ≠ .unset) :
    MetaStep s (s.renameRest oldDir newDir old time bn j) := by
  set s₂ := s.removeDirent oldDir old bn j
  set s₃ := if (s₂.inodes old).iMode = .dir then s₂.addNlink old 1 else s₂ with hs₃
  set s₄ := (s₃.touch oldDir time).touch newDir time with hs₄
  have h₂ : MetaStep s s₂ := metaStep_removeDirent ho hn
  have h₃ : MetaStep s s₃ := by
    rw [hs₃]
    split
    · exact h₂.trans (metaStep_addNlink (by rwa [h₂.mode]))
    · exact h₂
  have ho₃ : (s₃.inodes oldDir).iMode ≠ .unset := by
    rw [h₃.mode, ho]
    exact fun h => by cases h
  have h₃' : MetaStep s (s₃.touch oldDir time) := h₃.trans (metaStep_touch ho₃)
  have hw₃ : ((s₃.touch oldDir time).inodes newDir).iMode ≠ .unset := by
    rw [h₃'.mode, hw]
    exact fun h => by cases h
  have h₄ : MetaStep s s₄ := h₃'.trans (metaStep_touch hw₃)
  refine h₄.trans (metaStep_setInode ⟨rfl, rfl, rfl, rfl, rfl, rfl, rfl, fun _ => rfl,
    fun hu => ?_⟩)
  rw [h₄.mode] at hu
  exact absurd hu hn

theorem Inv.rename {oldDir newDir old : RecPtr} {oldName newName : List UInt8} {time : UInt64}
    {flags : UInt32} (h : Inv held s) (ho : (s.inodes oldDir).iMode = .dir)
    (hw : (s.inodes newDir).iMode = .dir) (hn : (s.inodes old).iMode ≠ .unset) :
    Inv held (s.rename oldDir newDir old oldName newName time flags).2 ∧
      ∀ m, ((s.rename oldDir newDir old oldName newName time flags).2.inodes m).iMode =
        (s.inodes m).iMode := by
  refine Sbi.rename_rule (P := fun t => Inv held t ∧ ∀ m, (t.inodes m).iMode = (s.inodes m).iMode)
    flags ⟨h, fun _ => rfl⟩ (h.addDirent hw hn) ?_
  rintro s₁ bn j - ⟨h₁, hmode⟩
  have hstep : MetaStep s₁ (s₁.renameRest oldDir newDir old time bn j) :=
    metaStep_renameRest ((hmode oldDir).trans ho) ((hmode newDir).trans hw) (by rwa [hmode old])
  exact ⟨h₁.metaStep hstep, fun m => hstep.mode.trans (hmode m)⟩

end Dentry

/-! ## Extended attributes -/

theorem Inv.requireXattr (h : Inv held s) (hn : (s.inodes n).iMode ≠ .unset)
    (hr : s.requireXattr n = some s') : Inv held s' := by
  rcases Sbi.requireXattr_some hr with ⟨-, rfl⟩ | ⟨hzero, b, s₁, ha, rfl⟩
  · exact h
  · obtain ⟨h₁, hu, hq, -⟩ := acquirePmemb_spec h ha
    rw [← hq.inodes] at hn hzero
    have hne : b ≠ n.bn := by
      rintro rfl
      exact hu.2 (.recs .inode) ⟨n, rfl, .inr hn⟩
    refine h₁.setPages .xattr (.inl rfl) (h₁.childsNodup n) (fun hm => absurd hm hn)
      (fun _ => .inl hn) (fun b' use hb => ?_) (h₁.counted_setInode rfl)
    cases use with
    | entries => exact .inl hb
    | symlink => exact .inl hb
    | xattr =>
      obtain ⟨-, rfl⟩ := hb
      exact .inr ⟨rfl, hu, hne⟩

/-- The inode has its page of attributes after the call. -/
theorem requireXattr_owns (h : Inv held s) (hr : s.requireXattr n = some s') :
    Owns s' (s'.inodes n).iXattr (.inode .xattr n) := by
  rcases Sbi.requireXattr_some hr with ⟨hne, rfl⟩ | ⟨-, b, s₁, ha, rfl⟩
  · exact ⟨hne, rfl⟩
  · obtain ⟨-, hu, -⟩ := acquirePmemb_spec h ha
    refine ⟨?_, rfl⟩
    rw [setInode_inodes_self]
    exact hu.1

theorem Inv.setxattr {ioc : IocXattr} {res : Except Errno Unit} (h : Inv held s)
    (hn : (s.inodes n).iMode ≠ .unset) (hr : s.setxattr n ioc = some (res, s')) : Inv held s' := by
  rcases Sbi.setxattr_some hr with rfl | ⟨s₁, pg, hx, rfl⟩
  · exact h
  · exact (h.requireXattr hn hx).congr rfl rfl rfl

/-- The page of the attributes goes back. -/
theorem Inv.dropXattr (h : Inv held s) (hn : (s.inodes n).iMode ≠ .unset) :
    Inv held (s.dropXattr n) := by
  unfold Sbi.dropXattr
  split
  · next hx =>
    have hset : Inv held (s.setInode n { s.inodes n with iXattr := 0 }) := by
      refine h.setPages .xattr (.inl rfl) (h.childsNodup n) (fun hm => absurd hm hn)
        (fun _ => .inl hn) (fun b use hb => ?_) (h.counted_setInode rfl)
      cases use with
      | entries => exact .inl hb
      | symlink => exact .inl hb
      | xattr => exact absurd rfl hb.1
    have hlost : Unowned (s.setInode n { s.inodes n with iXattr := 0 }) (s.inodes n).iXattr := by
      have hold : (s.inodes n).Holds (s.inodes n).iXattr .xattr := ⟨hx, rfl⟩
      refine h.unowned_of_lost hold (fun k hk => hk) (fun hm => hm) fun use hb => ?_
      -- a page with another use is not that of the attributes
      have hown : Owns s (s.inodes n).iXattr (.inode .xattr n) := hold
      cases use with
      | xattr => exact hb.1 rfl
      | entries =>
        have hown' : Owns s (s.inodes n).iXattr (.inode .entries n) := hb
        cases h.exclusive _ _ _ hown hown'
      | symlink =>
        have hown' : Owns s (s.inodes n).iXattr (.inode .symlink n) := hb
        cases h.exclusive _ _ _ hown hown'
    exact hset.releasePmemb hlost
  · exact h

/-! ## Freeing an inode -/

/-- A zeroed record uses no page. -/
theorem not_holds_default {use : PageUse} : ¬ ({} : Inode).Holds bn use := by
  intro hh
  cases use with
  | entries => cases hh
  | xattr => exact hh.1 rfl
  | symlink => cases hh.1

/-- **A record goes back**: the references of the blocks still on its list are lost. -/
theorem Inv.releaseInode (h : Inv held s) (hn : (s.inodes n).iMode ≠ .unset) :
    ∃ held', Inv held' (s.releaseInode n) ∧ ((s.inodes n).iblkrefs = [] → held' = held) := by
  obtain ⟨⟨held', h', hheld⟩, hspare⟩ := h.zeroInode hn
  refine ⟨held', (h'.pushRec hspare).congr rfl rfl rfl, fun hnil => hheld ?_⟩
  rw [Inode.keys, hnil, List.map_nil]

/-- The symlink page is given up; it goes back to the pool if the target is long. -/
theorem Inv.releaseSymlink (h : Inv held s) (hn : (s.inodes n).iMode = .lnk) :
    Inv held (s.releaseSymlink n) := by
  have hset : (s.inodes n).iMode ≠ .unset := by
    rw [hn]
    exact fun h => by cases h
  have hnot : ∀ b, ¬ ({ s.inodes n with iSize := 0, iSymDpp := 0 } : Inode).Holds b .symlink := by
    rintro b ⟨-, hle, -⟩
    have hle' : symlinkSize ≤ 0 := hle
    exact absurd hle' (by decide)
  have hinv : Inv held (s.setInode n { s.inodes n with iSize := 0, iSymDpp := 0 }) := by
    refine h.setPages .symlink (.inl rfl) (h.childsNodup n) (fun hm => absurd hm hset)
      (fun _ => .inl hset) (fun b use hb => ?_) (h.counted_setInode rfl)
    cases use with
    | entries => exact .inl hb
    | xattr => exact .inl hb
    | symlink => exact absurd hb (hnot b)
  unfold Sbi.releaseSymlink
  simp only
  split
  · next hlt =>
    have hold : (s.inodes n).Holds (Sbi.dppToBn (s.inodes n).iSymDpp) .symlink :=
      ⟨hn, UInt64.le_of_lt hlt, rfl⟩
    have hown : Owns s _ (.inode .symlink n) := hold
    refine (hinv.releasePmemb (h.unowned_of_lost hold (fun k hk => hk) (fun hm => hm)
      fun use hb => ?_)).congr rfl rfl rfl
    cases use with
    | entries =>
      have hown' : Owns s _ (.inode .entries n) := hb
      cases h.exclusive _ _ _ hown hown'
    | xattr =>
      have hown' : Owns s _ (.inode .xattr n) := hb
      cases h.exclusive _ _ _ hown hown'
    | symlink => exact hnot _ hb
  · exact hinv

/-- A page of a directory goes back. -/
theorem Inv.releaseDirPage (h : Inv held s) (hn : (s.inodes n).iMode = .dir)
    (hb : bn ∈ (s.inodes n).childs) : Inv held (s.releaseDirPage n bn) := by
  have hset : (s.inodes n).iMode ≠ .unset := by
    rw [hn]
    exact fun h => by cases h
  have hinv : Inv held (s.setInode n { s.inodes n with
      childs := (s.inodes n).childs.erase bn, iBlocks := (s.inodes n).iBlocks - 1 }) := by
    refine h.setPages .entries (.inl rfl) ((h.childsNodup n).erase bn) (fun hm => absurd hm hset)
      (fun _ => .inl hset) (fun b use hh => ?_) (h.counted_setInode rfl)
    cases use with
    | entries => exact .inl (List.mem_of_mem_erase hh)
    | xattr => exact .inl hh
    | symlink => exact .inl hh
  have hold : (s.inodes n).Holds bn .entries := hb
  have hown : Owns s bn (.inode .entries n) := hold
  refine (hinv.releasePmemb (h.unowned_of_lost hold (fun k hk => hk) (fun hm => hm)
    fun use hh => ?_)).congr rfl rfl rfl
  cases use with
  | entries => exact (h.childsNodup n).not_mem_erase hh
  | xattr =>
    have hown' : Owns s bn (.inode .xattr n) := hh
    cases h.exclusive _ _ _ hown hown'
  | symlink =>
    have hown' : Owns s bn (.inode .symlink n) := hh
    cases h.exclusive _ _ _ hown hown'

/-- The fields a freed directory keeps while its pages go back. -/
theorem releaseDirPage_inode : ∃ blocks, (s.releaseDirPage n bn).inodes n =
    { s.inodes n with childs := (s.inodes n).childs.erase bn, iBlocks := blocks } :=
  ⟨_, setInode_inodes_self⟩

/-- They all do, one after the other. -/
theorem releaseDirPages_inv (l : List ℕ) (h : Inv held s) (hn : (s.inodes n).iMode = .dir)
    (hnd : l.Nodup) (hl : ∀ b ∈ l, b ∈ (s.inodes n).childs) :
    Inv held (l.foldl (fun s bn => s.releaseDirPage n bn) s) ∧
      ((l.foldl (fun s bn => s.releaseDirPage n bn) s).inodes n).iMode = .dir ∧
      ((l.foldl (fun s bn => s.releaseDirPage n bn) s).inodes n).iblkrefs =
        (s.inodes n).iblkrefs := by
  induction l generalizing s with
  | nil => exact ⟨h, hn, rfl⟩
  | cons b rest ih =>
    rw [List.nodup_cons] at hnd
    obtain ⟨blocks, hself⟩ := @releaseDirPage_inode s n b
    have h₁ := h.releaseDirPage hn (hl b List.mem_cons_self)
    obtain ⟨hinv, hmode, hblk⟩ := ih h₁ (by rw [hself]; exact hn) hnd.2 (fun x hx => by
      rw [hself]
      have hne : x ≠ b := fun he => hnd.1 (he ▸ hx)
      exact (List.mem_erase_of_ne hne).mpr (hl x (List.mem_cons_of_mem _ hx)))
    refine ⟨hinv, hmode, ?_⟩
    rw [List.foldl_cons, hblk, hself]

/-- A change of the inode `n` alone: other inodes and their pages stay. -/
structure InodeStep (n : RecPtr) (s s' : Sbi) : Prop where
  others : ∀ m, m ≠ n → s'.inodes m = s.inodes m
  tables : s'.tables = s.tables
  mem : ∀ bn use m, m ≠ n → (s.inodes m).Holds bn use → s'.mem bn = s.mem bn

theorem InodeStep.refl (n : RecPtr) (s : Sbi) : InodeStep n s s :=
  ⟨fun _ _ => rfl, rfl, fun _ _ _ _ _ => rfl⟩

theorem InodeStep.trans (h : InodeStep n s s₁) (h₁ : InodeStep n s₁ s₂) : InodeStep n s s₂ := by
  refine ⟨fun m hm => (h₁.others m hm).trans (h.others m hm), h₁.tables.trans h.tables,
    fun bn use m hm hh => ?_⟩
  rw [h₁.mem bn use m hm (by rwa [h.others m hm]), h.mem bn use m hm hh]

/-- A step on a file is one on its inode. -/
theorem FileStep.inodeStep (h : FileStep n s s') : InodeStep n s s' :=
  ⟨h.others, h.tables, fun bn use m _ hh => h.mem bn use m hh⟩

/-- A new content of the record. -/
theorem inodeStep_setInode : InodeStep n s (s.setInode n i) :=
  ⟨fun _ hm => setInode_inodes_ne hm, rfl, fun _ _ _ _ _ => rfl⟩

/-- A page that goes back is not written to. -/
theorem inodeStep_releasePmemb : InodeStep n s (s.releasePmemb bn) :=
  ⟨fun _ _ => rfl, rfl, fun _ _ _ _ _ => rfl⟩

theorem inodeStep_assert {c : Bool} : InodeStep n s (s.assert c) :=
  ⟨fun _ _ => rfl, rfl, fun _ _ _ _ _ => rfl⟩

/-- The attributes go. -/
theorem inodeStep_dropXattr : InodeStep n s (s.dropXattr n) := by
  unfold Sbi.dropXattr
  split
  · exact inodeStep_releasePmemb.trans inodeStep_setInode
  · exact .refl n s

/-- The target of a symlink goes. -/
theorem inodeStep_releaseSymlink : InodeStep n s (s.releaseSymlink n) := by
  unfold Sbi.releaseSymlink
  simp only
  split
  · exact inodeStep_releasePmemb.trans inodeStep_setInode
  · exact inodeStep_setInode

/-- The entries of a directory go. -/
theorem inodeStep_releaseDir : InodeStep n s (s.releaseDir n) := by
  have hloop : ∀ (l : List ℕ) (s : Sbi),
      InodeStep n s (l.foldl (fun s bn => s.releaseDirPage n bn) s) := by
    intro l
    induction l with
    | nil => exact fun s => .refl n s
    | cons b rest ih =>
      intro s
      have hpage : InodeStep n s (s.releaseDirPage n b) :=
        (inodeStep_assert.trans inodeStep_setInode).trans inodeStep_releasePmemb
      exact hpage.trans (ih _)
  exact (hloop _ s).trans inodeStep_assert

/-- The record goes. -/
theorem inodeStep_releaseInode : InodeStep n s (s.releaseInode n) :=
  ⟨fun _ hm => setInode_inodes_ne hm, rfl, fun _ _ _ _ _ => rfl⟩

/-- The end of `toyfs_free_inode`. -/
theorem Inv.zeroAndRelease (h : Inv held s) (hn : (s.inodes n).iMode ≠ .unset) :
    ∃ held', Inv held' ((s.dropXattr n).releaseInode n) ∧
      ((s.inodes n).iblkrefs = [] → held' = held) := by
  have h₁ := h.dropXattr hn
  have hsame : ((s.dropXattr n).inodes n).iMode = (s.inodes n).iMode ∧
      ((s.dropXattr n).inodes n).iblkrefs = (s.inodes n).iblkrefs := by
    unfold Sbi.dropXattr
    split
    · rw [setInode_inodes_self]
      exact ⟨rfl, rfl⟩
    · exact ⟨rfl, rfl⟩
  obtain ⟨held', h', hheld⟩ := h₁.releaseInode (by rw [hsame.1]; exact hn)
  exact ⟨held', h', fun hnil => hheld (by rw [hsame.2]; exact hnil)⟩

/-- Freeing the inode gives every block of its list back. -/
def FreesAll (i : Inode) : Prop :=
  i.iblkrefs = [] ∨ (i.iSize ≠ 0 ∧ ∀ ib ∈ i.iblkrefs, 0 ≤ ib.off)

instance (i : Inode) : Decidable (FreesAll i) := inferInstanceAs (Decidable (_ ∨ _))

/-- **`toyfs_truncate(tii, 0)`** drops the blocks at offsets that are not negative, if the
size is not zero already. -/
theorem blocksOf_truncate_zero (h : Inv held s) (hn : (s.inodes n).iMode = .reg) :
    ((s.truncate n 0).2).blocksOf n =
      if (s.inodes n).iSize ≠ 0 then (s.blocksOf n).filter (fun x => x.off < 0)
      else s.blocksOf n := by
  unfold Sbi.truncate
  rw [if_neg (by rw [hn]; exact fun h => by cases h), if_neg (by rw [hn]; exact fun h => h rfl)]
  by_cases hsize : (s.inodes n).iSize = 0
  · rw [if_neg (by rw [hsize]; decide), if_neg (by simpa using hsize)]
    exact blocksOf_setInode
  · have hpos : (0 : UInt64) < (s.inodes n).iSize := UInt64.pos_iff_ne_zero.mpr hsize
    rw [if_pos hpos, if_pos hsize]
    have hzero : (s.dropRange n (toLoff 0)).zeroAfter n (toLoff 0) =
        (none, s.dropRange n (toLoff 0)) := by
      rw [Sbi.zeroAfter, if_pos (by decide)]
    simp only [hzero]
    rw [Sbi.setSize, blocksOf_setInode]
    have hdrop := @blocksOf_dropRange s held n (toLoff 0) h
    exact hdrop

/-- Nothing is left on the list when the size is not zero, or there was nothing. -/
theorem truncate_zero_nil (h : Inv held s) (hn : (s.inodes n).iMode = .reg)
    (hall : FreesAll (s.inodes n)) : ((s.truncate n 0).2).blocksOf n = [] := by
  rw [blocksOf_truncate_zero h hn]
  rcases hall with hnil | ⟨hsize, hoff⟩
  · have hblocks : s.blocksOf n = [] := hnil
    rw [hblocks]
    split <;> rfl
  · rw [if_pos hsize, List.filter_eq_nil_iff]
    intro ib hib hlt
    have := hoff ib hib
    rw [decide_eq_true_eq] at hlt
    omega

/-- **Freeing an inode keeps the store**; the blocks that stay on its list are lost. -/
theorem Inv.freeInode (h : Inv held s) (hn : (s.inodes n).iMode ≠ .unset)
    (hreg : (s.inodes n).iMode ≠ .reg → (s.inodes n).iblkrefs = []) :
    ∃ held', Inv held' (s.freeInode n) ∧
      (((s.inodes n).iMode = .reg → FreesAll (s.inodes n)) → held' = held) := by
  unfold Sbi.freeInode
  simp only
  split
  · next hmode =>
    have hnil := hreg (by rw [hmode]; exact fun h => by cases h)
    split
    · exact ⟨held, h, fun _ => rfl⟩
    · obtain ⟨hinv, hm, hblk⟩ := releaseDirPages_inv _ h hmode (h.childsNodup n) fun _ hb => hb
      have hdir : Inv held (s.releaseDir n) := hinv.congr rfl rfl rfl
      obtain ⟨held', h', hheld⟩ := hdir.zeroAndRelease (n := n) (fun hu => by
        have hm' : ((s.releaseDir n).inodes n).iMode = .dir := hm
        rw [hm'] at hu
        cases hu)
      exact ⟨held', h', fun _ => hheld (hblk.trans hnil)⟩
  · next hmode =>
    have hnil := hreg (by rw [hmode]; exact fun h => by cases h)
    have hself : ((s.releaseSymlink n).inodes n).iMode = (s.inodes n).iMode ∧
        ((s.releaseSymlink n).inodes n).iblkrefs = (s.inodes n).iblkrefs := by
      unfold Sbi.releaseSymlink
      simp only [setInode_inodes_self]
      split <;> exact ⟨rfl, rfl⟩
    obtain ⟨held', h', hheld⟩ := (h.releaseSymlink hmode).zeroAndRelease (n := n)
      (by rw [hself.1]; exact hn)
    exact ⟨held', h', fun _ => hheld (hself.2.trans hnil)⟩
  · next hmode =>
    have hserve : Serves n ∅ True held s (s.truncate n 0).2 := truncate_serves h hmode
    obtain ⟨held₁, h₁, hheld₁⟩ := hserve.inv
    obtain ⟨held', h', hheld⟩ := h₁.zeroAndRelease (n := n) (by
      rw [hserve.reg]
      exact fun h => by cases h)
    refine ⟨held', h', fun hall => ?_⟩
    rw [hheld (truncate_zero_nil h hmode (hall hmode)), hheld₁ trivial]
  · next hd hl hr =>
    obtain ⟨held', h', hheld⟩ := h.zeroAndRelease hn
    exact ⟨held', h', fun _ => hheld (hreg hr)⟩

/-- **`toyfs_free_inode`** is a step on the one inode. -/
theorem inodeStep_freeInode (h : Inv held s) : InodeStep n s (s.freeInode n) := by
  have hzero : ∀ t, InodeStep n t ((t.dropXattr n).releaseInode n) :=
    fun t => inodeStep_dropXattr.trans inodeStep_releaseInode
  unfold Sbi.freeInode
  simp only
  split
  · split
    · exact .refl n s
    · exact inodeStep_releaseDir.trans (hzero _)
  · exact inodeStep_releaseSymlink.trans (hzero _)
  · next hmode =>
    have hserve : Serves n ∅ True held s (s.truncate n 0).2 := truncate_serves h hmode
    exact hserve.op.step.inodeStep.trans (hzero _)
  · exact hzero s

/-! ## New inodes -/

/-- **An inode record from the pool** is zeroed and not in use. -/
theorem acquireInode_spec (h : Inv held s) (ha : s.acquireInode = some (n, s')) :
    Inv held s' ∧ Spare s' .inode n ∧ s.inodes n = {} ∧ ∃ p, s' = s.withPool p := by
  obtain ⟨p, hpop, rfl⟩ := Sbi.acquireInode_some ha
  obtain ⟨h₁, hspare, -⟩ := h.popRec hpop
  refine ⟨h₁, hspare, h.blank n ?_, p, rfl⟩
  by_contra hu
  exact hspare.notUsed hu

/-- A record in hand stays in hand while a page is taken. -/
theorem Spare.acquirePmemb {kind : RecKind} {r : RecPtr} (hs : Spare s kind r)
    (ha : s.acquirePmemb = some (bn, s')) : Spare s' kind r ∧ bn ≠ r.bn := by
  obtain ⟨-, -, p, hpop, rfl⟩ := Sbi.acquirePmemb_some ha
  obtain ⟨rest, hpages, hp⟩ := Pool.popPmemb_eq hpop
  have hfree : p.free = s.pool.free := by rw [hp]
  have hspare : Spare (s.withPool p) kind r := by
    refine ⟨?_, ?_, fun o ho => hs.page o (owns_popPmemb hpop ho), hs.pos⟩
    · change r ∉ p.free kind
      rw [hfree]
      exact hs.notFree
    · rw [Used.withPool_iff]
      exact hs.notUsed
  refine ⟨hspare.congr rfl rfl rfl, ?_⟩
  rintro rfl
  have hpool : Owns s r.bn .pool := by
    change r.bn ∈ s.pool.pages
    rw [hpages]
    exact List.mem_cons_self
  cases hs.page _ hpool

/-- A record in hand becomes an inode without blocks and entries. -/
theorem Inv.startInode (h : Inv held s) (hs : Spare s .inode n) (hmode : i.iMode ≠ .unset)
    (hblk : i.iblkrefs = []) (hchilds : i.childs = []) (hx : i.iXattr = 0)
    (hsym : ∀ b, i.Holds b .symlink → Unowned s b ∧ b ≠ n.bn) : Inv held (s.setInode n i) := by
  have hblank : s.inodes n = {} := h.blank n (by
    by_contra hu
    exact hs.notUsed hu)
  have hkeys : i.keys = (s.inodes n).keys := by
    rw [hblank, Inode.keys, hblk]
    rfl
  refine h.setPages .symlink (.inl hkeys) (by rw [hchilds]; exact List.nodup_nil)
    (fun hm => absurd hm hmode) (fun _ => .inr hs) (fun b use hb => ?_) (h.counted_setInode hkeys)
  cases use with
  | entries =>
    have hb' : b ∈ i.childs := hb
    rw [hchilds] at hb'
    cases hb'
  | xattr => exact absurd hx hb.1
  | symlink => exact .inr ⟨rfl, hsym b hb⟩

/-- What a successful `setupInode` does. -/
theorem setupInode_spec {dir : RecPtr} {ioc : IocNewInode} {ino : UInt64} (h : Inv held s)
    (hs : Spare s .inode n) (hmode : ioc.iMode ≠ .unset)
    (hr : s.setupInode dir n ioc ino = some s') :
    Inv held s' ∧ (∀ m, m ≠ n → s'.inodes m = s.inodes m) ∧ s'.tables = s.tables ∧
      (∀ b, InUse s b → s'.mem b = s.mem b) ∧ (s'.inodes n).iMode = ioc.iMode ∧
      (s'.inodes n).iIno = ino ∧ (s'.inodes n).iblkrefs = [] ∧ (s'.inodes n).childs = [] := by
  obtain ⟨i, hi, ⟨hshort, hdpp, rfl⟩ | ⟨-, b, s₁, ha, hdpp, rfl⟩⟩ := Sbi.setupInode_some hr
  · rw [setInode_inodes_self]
    refine ⟨h.startInode hs (hi.mode.symm ▸ hmode) hi.iblkrefs hi.childs hi.xattr ?_,
      fun m hne => setInode_inodes_ne hne, rfl, fun _ _ => rfl, hi.mode, hi.ino, hi.iblkrefs,
      hi.childs⟩
    rintro b ⟨hl, hle, -⟩
    have hlnk := hi.mode.symm.trans hl
    rw [hi.size, if_neg (by rw [hlnk]; exact fun h => by cases h)] at hle
    exact absurd ⟨hlnk, hle⟩ hshort
  · obtain ⟨h₁, hu, hq, -⟩ := acquirePmemb_spec h ha
    obtain ⟨hs₁, hne⟩ := hs.acquirePmemb ha
    set pg := (s₁.mem b).store 0 ioc.iSize.toNat ioc.symname
    have h₂ : Inv held (s₁.setPage b pg) := h₁.congr rfl rfl rfl
    have hs₂ : Spare (s₁.setPage b pg) .inode n := hs₁.congr rfl rfl rfl
    have hu₂ : Unowned (s₁.setPage b pg) b := hu.congr rfl rfl rfl
    rw [setInode_inodes_self]
    refine ⟨h₂.startInode hs₂ (hi.mode.symm ▸ hmode) hi.iblkrefs hi.childs hi.xattr ?_,
      fun m hm => ?_, hq.tables, fun b' hb' => ?_, hi.mode, hi.ino, hi.iblkrefs, hi.childs⟩
    · rintro b' ⟨-, -, hb'⟩
      obtain rfl : b = b' := by
        rw [← hb', hdpp]
        simp [Sbi.dppToBn, pageSize]
      exact ⟨hu₂, hne⟩
    · rw [setInode_inodes_ne hm]
      exact congrFun hq.inodes m
    · have hne' : b' ≠ b := by
        rintro rfl
        rcases hq.inUse hb' with ⟨d, hd⟩ | ⟨use, m, hm⟩
        · exact hu.2 _ hd
        · exact hu.2 _ hm
      rw [← hq.mem b' hb']
      simp [Sbi.setPage, hne']

/-- An info is no part of the store. -/
theorem Inv.allocIi {addr : Option ℕ} {a : ℕ} (h : Inv held s)
    (ha : s.allocIi addr = some (a, s')) : Inv held s' := by
  obtain ⟨-, rfl⟩ := Sbi.allocIi_some ha
  exact h.congr rfl rfl rfl

/-- The infos are as before when a fresh one is freed again. -/
theorem update_none_of_fresh {a : ℕ} {x : Option InodeInfo} (hf : s.tiis a = none) :
    Function.update (Function.update s.tiis a x) a none = s.tiis := by
  rw [Function.update_idem, ← hf, Function.update_eq_self]

/-- A new inode was not made: nothing in use has changed, but a number may be gone. -/
structure NotMade (held : RecPtr → ℕ) (s s' : Sbi) : Prop where
  inv : Inv held s'
  inodes : s'.inodes = s.inodes
  mem : ∀ b, InUse s b → s'.mem b = s.mem b
  imap : s'.imap = s.imap
  tiis : s'.tiis = s.tiis
  top : s'.sTopIno = s.sTopIno ∨ s'.sTopIno = s.sTopIno + 1

/-- A new inode was made in the record `n`, with its info at `a`. -/
structure Made (held : RecPtr → ℕ) (a : ℕ) (n : RecPtr) (ft : FileType) (s s' : Sbi) : Prop where
  inv : Inv held s'
  fresh : s.inodes n = {}
  others : ∀ m, m ≠ n → s'.inodes m = s.inodes m
  mem : ∀ b, InUse s b → s'.mem b = s.mem b
  mode : (s'.inodes n).iMode = ft
  notUnset : ft ≠ .unset
  ino : (s'.inodes n).iIno = s.sTopIno
  iblkrefs : (s'.inodes n).iblkrefs = []
  childs : (s'.inodes n).childs = []
  imap : s'.imap = Function.update s.imap (slotOf s.sTopIno)
    (⟨some a, some n, s.sTopIno⟩ :: s.imap (slotOf s.sTopIno))
  tiis : s'.tiis = Function.update s.tiis a
    (some { ti := some n, zi := some n, ino := s.sTopIno, ref := 1, mapped := true })
  top : s'.sTopIno = s.sTopIno + 1

/-- **What `toyfs_new_inode` does.** -/
theorem newInode_cases {dir : RecPtr} {ioc : IocNewInode} {addr : Option ℕ} {res : Option ℕ}
    (h : Inv held s) (hfresh : ∀ a ∈ addr, s.tiis a = none)
    (hr : s.newInode dir ioc addr = (res, s')) :
    (res = none ∧ NotMade held s s') ∨
    (∃ a n, res = some a ∧ addr = some a ∧ Made held a n ioc.iMode s s') := by
  -- the info is what is undone last
  have hback : ∀ {a s₁}, s.allocIi addr = some (a, s₁) → NotMade held s (s₁.tiiFree a) := by
    intro a s₁ ha
    obtain ⟨haddr, rfl⟩ := Sbi.allocIi_some ha
    exact ⟨h.congr rfl rfl rfl, rfl, fun _ _ => rfl, rfl, update_none_of_fresh (hfresh a haddr),
      .inl rfl⟩
  cases Sbi.newInode_ends hr with
  | noInfo => exact .inl ⟨rfl, h, rfl, fun _ _ => rfl, rfl, rfl, .inl rfl⟩
  | noRecord ha => exact .inl ⟨rfl, hback ha⟩
  | @noPage a n s₁ s₂ ha hn =>
    -- the record goes back as it came
    obtain ⟨h₂, hspare, hblank, p, hs₂⟩ := acquireInode_spec (h.allocIi ha) hn
    have h₃ : Inv held s₂.nextIno.2 := h₂.congr rfl rfl rfl
    have hspare' : Spare s₂.nextIno.2 .inode n := hspare.congr rfl rfl rfl
    obtain ⟨haddr, rfl⟩ := Sbi.allocIi_some ha
    subst hs₂
    have hin : Function.update s.inodes n {} = s.inodes := by
      have hb : s.inodes n = {} := hblank
      rw [← hb, Function.update_eq_self]
    exact .inl ⟨rfl, (h₃.pushRec hspare').congr rfl rfl hin, hin, fun _ _ => rfl, rfl,
      update_none_of_fresh (hfresh a haddr), .inr rfl⟩
  | @made a n s₁ s₂ s₃ ha hmode hsize hn hsetup =>
    obtain ⟨h₂, hspare, hblank, p, hs₂⟩ := acquireInode_spec (h.allocIi ha) hn
    have h₂' : Inv held s₂.nextIno.2 := h₂.congr rfl rfl rfl
    have hspare' : Spare s₂.nextIno.2 .inode n := hspare.congr rfl rfl rfl
    obtain ⟨h₃, hothers, htab, hmem, hm, hino, hblk, hch⟩ :=
      setupInode_spec h₂' hspare' hmode hsetup
    obtain ⟨haddr, rfl⟩ := Sbi.allocIi_some ha
    subst hs₂
    obtain ⟨himap, htiis, htop⟩ : s₃.imap = s.imap ∧
        s₃.tiis = Function.update s.tiis a (some {}) ∧ s₃.sTopIno = s.sTopIno + 1 := by
      simp only [Sbi.tables, Prod.mk.injEq] at htab
      exact ⟨htab.1, htab.2.2.1, htab.2.2.2.1⟩
    refine .inr ⟨a, n, rfl, haddr, h₃.congr rfl rfl rfl, hblank, hothers, fun b hb => hmem b hb, hm,
      hmode, hino, hblk, hch, ?_, ?_, htop⟩
    · simp only [Sbi.iTrack, Sbi.itableInsert, Sbi.setTii, Sbi.setSlot, himap]
      rfl
    · simp only [Sbi.iTrack, Sbi.itableInsert, Sbi.setTii, Sbi.setSlot, htiis,
        Function.update_idem]
      rfl

/-! ## Eviction -/

/-- The state differs in the table, the infos and the counts of files only. -/
structure TableStep (s s' : Sbi) : Prop where
  pool : s'.pool = s.pool
  dblkrefs : s'.dblkrefs = s.dblkrefs
  inodes : s'.inodes = s.inodes
  mem : s'.mem = s.mem
  bfree : (s'.fBfree, s'.fBavail) = (s.fBfree, s.fBavail)

/-- `_i_untrack` changes the table and the info. -/
theorem iUntrack_spec {a : ℕ} {info : InodeInfo} {remove : Bool} :
    TableStep s (s.iUntrack a info remove) ∧
      (s.iUntrack a info remove).tiis =
        Function.update s.tiis a (some { info with mapped := false }) := by
  unfold Sbi.iUntrack
  simp only
  split
  · unfold Sbi.itableRemove Sbi.setTii Sbi.setSlot Sbi.assert
    exact ⟨⟨rfl, rfl, rfl, rfl, rfl⟩, rfl⟩
  · unfold Sbi.setEntryTii Sbi.setTii Sbi.setSlot Sbi.assert
    exact ⟨⟨rfl, rfl, rfl, rfl, rfl⟩, rfl⟩

/-- **What `toyfs_evict` does**: it drops a reference, or with the last one the info, and
the inode too if that has no links. -/
theorem evict_cases {a : ℕ} (he : s.evict a = some s') :
    ∃ info, s.tiis a = some info ∧
      ((info.ref ≠ 1 ∧ s' = s.setTii a { info with ref := info.ref - 1 }) ∨
        (info.ref = 1 ∧ ∃ n s₂, info.ti = some n ∧
          s₂ = (if (s.inodes n).iNlink = 0
            then (s.setTii a { info with ref := info.ref - 1 }).freeInode n
            else s.setTii a { info with ref := info.ref - 1 }) ∧
          TableStep s₂ s' ∧ s'.tiis = Function.update s₂.tiis a none)) := by
  unfold Sbi.evict at he
  split at he
  · cases he
  · next info ha =>
    refine ⟨info, ha, ?_⟩
    simp only at he
    split at he
    · next hne =>
      obtain rfl := Option.some.inj he
      exact .inl ⟨by omega, rfl⟩
    · next hone =>
      split at he
      · cases he
      · next n hti =>
        obtain rfl := Option.some.inj he
        refine .inr ⟨by omega, n, _, hti, rfl, ?_⟩
        have hself : (s.setTii a { info with ref := info.ref - 1 }).inodes = s.inodes := rfl
        rw [hself]
        generalize (if (s.inodes n).iNlink = 0
            then (s.setTii a { info with ref := info.ref - 1 }).freeInode n
            else s.setTii a { info with ref := info.ref - 1 }) = s₂
        split
        · obtain ⟨⟨hp, hd, hi, hm, hb⟩, ht⟩ := @iUntrack_spec s₂ a
            { info with ref := info.ref - 1 } ((s.inodes n).iNlink == 0)
          refine ⟨⟨hp, hd, hi, hm, hb⟩, ?_⟩
          simp only [Sbi.tiiFree, ht, Function.update_idem]
        · exact ⟨⟨rfl, rfl, rfl, rfl, rfl⟩, rfl⟩

end Zus.Toyfs
