import Zus.Toyfs.DirMap
import Zus.Toyfs.PageFlow

/-!
# The store of a mounted toyfs

Every request keeps the store, so its invariant holds in every state toyfs reaches. What a
request may rely on besides is in `StoreOk`: an info that is in memory points to an inode,
and no two infos point to the same one, so an inode is freed once.
-/

namespace Zus.Toyfs

open Zus.Lib

variable {s s' s₁ s₂ : Sbi} {held : RecPtr → ℕ} {n m d : RecPtr} {i i' i₁ : Inode} {bn : ℕ}
  {apiMapMaxSize : ℕ}

/-! ## Requests that are not about files -/

/-- What a file consists of stays, the bytes of its blocks aside. -/
structure SameFile (i i' : Inode) : Prop where
  mode : i'.iMode = i.iMode
  iblkrefs : i'.iblkrefs = i.iblkrefs
  symDpp : i'.iSymDpp = i.iSymDpp
  symlink : i'.iSymlink = i.iSymlink
  size : i.iMode ≠ .dir → i'.iSize = i.iSize
  blocks : i.iMode ≠ .dir → i'.iBlocks = i.iBlocks

theorem SameFile.refl (i : Inode) : SameFile i i := ⟨rfl, rfl, rfl, rfl, fun _ => rfl, fun _ => rfl⟩

theorem SameFile.trans (h : SameFile i i₁) (h₁ : SameFile i₁ i') : SameFile i i' where
  mode := h₁.mode.trans h.mode
  iblkrefs := h₁.iblkrefs.trans h.iblkrefs
  symDpp := h₁.symDpp.trans h.symDpp
  symlink := h₁.symlink.trans h.symlink
  size hd := (h₁.size (by rwa [h.mode])).trans (h.size hd)
  blocks hd := (h₁.blocks (by rwa [h.mode])).trans (h.blocks hd)

/-- No file changes, and no table. -/
structure KeepsFiles (s s' : Sbi) : Prop where
  tables : s'.tables = s.tables
  files : ∀ m, SameFile (s.inodes m) (s'.inodes m)

namespace KeepsFiles

theorem refl (s : Sbi) : KeepsFiles s s := ⟨rfl, fun _ => .refl _⟩

theorem trans (h : KeepsFiles s s₁) (h₁ : KeepsFiles s₁ s₂) : KeepsFiles s s₂ :=
  ⟨h₁.tables.trans h.tables, fun m => (h.files m).trans (h₁.files m)⟩

theorem mode (h : KeepsFiles s s') : (s'.inodes n).iMode = (s.inodes n).iMode := (h.files n).mode

theorem of_inodes (ht : s'.tables = s.tables) (hi : s'.inodes = s.inodes) : KeepsFiles s s' :=
  ⟨ht, fun m => by
    rw [hi]
    exact .refl _⟩

theorem of_setInode (hi : SameFile (s.inodes n) i) : KeepsFiles s (s.setInode n i) :=
  ⟨rfl, forall_setInode (P := fun m j => SameFile (s.inodes m) j) hi fun _ _ => .refl _⟩

/-- A change of the entries, the count and the size of a directory. -/
theorem of_setDir (hd : (s.inodes n).iMode = .dir) (hmode : i.iMode = .dir)
    (hblk : i.iblkrefs = (s.inodes n).iblkrefs) (hsym : i.iSymDpp = (s.inodes n).iSymDpp)
    (htext : i.iSymlink = (s.inodes n).iSymlink) : KeepsFiles s (s.setInode n i) :=
  of_setInode ⟨hmode.trans hd.symm, hblk, hsym, htext, fun h => absurd hd h, fun h => absurd hd h⟩

theorem addNlink {add : UInt32} : KeepsFiles s (s.addNlink n add) :=
  of_setInode ⟨rfl, rfl, rfl, rfl, fun _ => rfl, fun _ => rfl⟩

theorem touch {time : UInt64} : KeepsFiles s (s.touch n time) :=
  of_setInode ⟨rfl, rfl, rfl, rfl, fun _ => rfl, fun _ => rfl⟩

theorem setDirSize {size : UInt64} (hd : (s.inodes n).iMode = .dir) :
    KeepsFiles s (s.setDirSize n size) := of_setDir hd hd rfl rfl rfl

theorem acquirePmemb (ha : s.acquirePmemb = some (bn, s')) : KeepsFiles s s' := by
  obtain ⟨-, -, _, -, rfl⟩ := Sbi.acquirePmemb_some ha
  exact of_inodes rfl rfl

theorem stdAddDentry : KeepsFiles s (s.stdAddDentry m n) := by
  unfold Sbi.stdAddDentry
  simp only
  split
  · exact addNlink.trans addNlink
  · exact addNlink

theorem stdRemoveDentry : KeepsFiles s (s.stdRemoveDentry m n) := by
  unfold Sbi.stdRemoveDentry
  simp only
  split
  · exact (addNlink.trans addNlink).trans addNlink
  · exact addNlink

theorem acquireDirent {nlen : ℕ} {place : ℕ × ℕ × ℕ} (hd : (s.inodes m).iMode = .dir)
    (ha : s.acquireDirent m nlen = some (place, s')) : KeepsFiles s s' := by
  rcases acquireDirent_cases ha with ⟨-, rfl⟩ | ⟨s₁, -, hb, -, rfl⟩
  · exact refl s'
  · have h₁ : KeepsFiles s s₁ := acquirePmemb hb
    have hd₁ : (s₁.inodes m).iMode = .dir := h₁.mode.trans hd
    exact h₁.trans (of_setDir hd₁ hd₁ rfl rfl rfl)

theorem addDirent {name : List UInt8} (hd : (s.inodes m).iMode = .dir) :
    KeepsFiles s (s.addDirent m n name).2 := by
  unfold Sbi.addDirent
  split
  · exact refl s
  · next b j off s₁ ha =>
    have h₁ : KeepsFiles s s₁ := acquireDirent hd ha
    have h₂ : KeepsFiles s (s₁.setPage b (Dirent.setDirent (s₁.mem b) j name (s₁.inodes n).iIno
        (s₁.inodes n).iMode.iftodt off)) := h₁.trans (of_inodes rfl rfl)
    exact (h₂.trans (setDirSize (h₂.mode.trans hd))).trans stdAddDentry

theorem removeDirent {j : ℕ} (hd : (s.inodes m).iMode = .dir) :
    KeepsFiles s (s.removeDirent m n bn j) := by
  unfold Sbi.removeDirent
  have h₁ : KeepsFiles s ((s.assert (0 < Dirent.dNlen (s.mem bn) j)).setPage bn
      (Dirent.resetDirent (s.mem bn) j)) := of_inodes rfl rfl
  exact (h₁.trans (setDirSize (h₁.mode.trans hd))).trans stdRemoveDentry

theorem removeDentry {name : List UInt8} (hd : (s.inodes m).iMode = .dir) :
    KeepsFiles s (s.removeDentry m n name).2 := by
  unfold Sbi.removeDentry
  split
  · exact refl s
  · next b j hl =>
    split
    · exact refl s
    · have h₁ : KeepsFiles s (s.removeDirent m n b j) := removeDirent hd
      simp only
      split
      · exact h₁.trans (of_setInode ⟨rfl, rfl, rfl, rfl, fun _ => rfl, fun _ => rfl⟩)
      · exact h₁

theorem rename {oldDir newDir old : RecPtr} {oldName newName : List UInt8} {time : UInt64}
    {flags : UInt32} (ho : (s.inodes oldDir).iMode = .dir) (hw : (s.inodes newDir).iMode = .dir) :
    KeepsFiles s (s.rename oldDir newDir old oldName newName time flags).2 := by
  refine Sbi.rename_rule flags (refl s) (addDirent hw) fun {s₁ bn j} _ h₁ => ?_
  set s₂ := s₁.removeDirent oldDir old bn j
  set s₃ := if (s₂.inodes old).iMode = .dir then s₂.addNlink old 1 else s₂ with hs₃
  have h₂ : KeepsFiles s s₂ := h₁.trans (removeDirent (h₁.mode.trans ho))
  have h₃ : KeepsFiles s s₃ := by
    rw [hs₃]
    split
    · exact h₂.trans addNlink
    · exact h₂
  have h₄ : KeepsFiles s ((s₃.touch oldDir time).touch newDir time) := (h₃.trans touch).trans touch
  exact h₄.trans (of_setInode ⟨rfl, rfl, rfl, rfl, fun _ => rfl, fun _ => rfl⟩)

theorem setxattr {ioc : IocXattr} {res : Except Errno Unit}
    (hr : s.setxattr n ioc = some (res, s')) : KeepsFiles s s' := by
  rcases Sbi.setxattr_some hr with rfl | ⟨s₁, pg, hx, rfl⟩
  · exact refl _
  · have h₁ : KeepsFiles s s₁ := by
      rcases Sbi.requireXattr_some hx with ⟨-, rfl⟩ | ⟨-, b, s₂, ha, rfl⟩
      · exact refl _
      · have h₂ : KeepsFiles s s₂ := acquirePmemb ha
        exact h₂.trans (of_setInode ⟨rfl, rfl, rfl, rfl, fun _ => rfl, fun _ => rfl⟩)
    exact h₁.trans (of_inodes rfl rfl)

end KeepsFiles

/-! ## The invariant -/

/-- Only a long symlink has a text outside the record. -/
def Inode.Targeted (i : Inode) : Prop := i.iSymDpp ≠ 0 → i.iMode = .lnk ∧ symlinkSize ≤ i.iSize

theorem SameFile.targeted (h : SameFile i i') (ht : i.Targeted) : i'.Targeted := by
  intro hne
  rw [h.symDpp] at hne
  obtain ⟨hl, hsize⟩ := ht hne
  rw [h.mode, h.size (by rw [hl]; exact fun h => by cases h)]
  exact ⟨hl, hsize⟩

/-- The store is in order, and each info has its own inode. -/
structure StoreOk (s : Sbi) : Prop where
  store : ∃ held, Inv held s
  /-- only files have blocks -/
  plain : ∀ n, (s.inodes n).iMode ≠ .reg → (s.inodes n).iblkrefs = []
  target : ∀ n, (s.inodes n).Targeted
  infoSet : ∀ a info n, s.tiis a = some info → info.ti = some n → (s.inodes n).iMode ≠ .unset
  infoInj : ∀ a a' info info' n, s.tiis a = some info → s.tiis a' = some info' →
    info.ti = some n → info'.ti = some n → a = a'

theorem tables_tiis (h : s'.tables = s.tables) : s'.tiis = s.tiis := by
  simp only [Sbi.tables, Prod.mk.injEq] at h
  exact h.2.2.1

/-- `toyfs_iget` changes no record and no byte. -/
theorem iget_same {ino : UInt64} {addr : Option ℕ} :
    (s.iget ino addr).2.inodes = s.inodes ∧ (s.iget ino addr).2.mem = s.mem ∧
      (s.iget ino addr).2.dblkrefs = s.dblkrefs := by
  unfold Sbi.iget
  split
  · exact ⟨rfl, rfl, rfl⟩
  · split
    · split <;> exact ⟨rfl, rfl, rfl⟩
    · split
      · exact ⟨rfl, rfl, rfl⟩
      · next a s₁ ha =>
        obtain ⟨-, rfl⟩ := Sbi.allocIi_some ha
        exact ⟨rfl, rfl, rfl⟩

namespace StoreOk

/-- Requests on directories and attributes. -/
theorem keeps (h : StoreOk s) (hinv : Inv held s') (hk : KeepsFiles s s') : StoreOk s' where
  store := ⟨held, hinv⟩
  plain n hn := by
    rw [(hk.files n).iblkrefs]
    exact h.plain n (by rwa [hk.mode] at hn)
  target n := (hk.files n).targeted (h.target n)
  infoSet a info n ha hti := by
    rw [tables_tiis hk.tables] at ha
    rw [hk.mode]
    exact h.infoSet a info n ha hti
  infoInj := by
    rw [tables_tiis hk.tables]
    exact h.infoInj

/-- Requests on a file. -/
theorem serves (h : StoreOk s) (hs : Serves n Set.univ False held s s') : StoreOk s' := by
  obtain ⟨held', hinv, -⟩ := hs.inv
  have hstep := hs.op.step
  obtain ⟨l, size, blocks, hself⟩ := hstep.self
  have hmode : ∀ m, (s'.inodes m).iMode = (s.inodes m).iMode := by
    intro m
    obtain rfl | hm := eq_or_ne m n
    · rw [hself]
    · rw [hstep.others m hm]
  refine ⟨⟨held', hinv⟩, fun m hm => ?_, fun m => ?_, fun a info m ha hti => ?_, ?_⟩
  · rw [hmode] at hm
    have hne : m ≠ n := by
      rintro rfl
      exact hm hstep.reg
    rw [hstep.others m hne]
    exact h.plain m hm
  · obtain rfl | hne := eq_or_ne m n
    · -- a file has no text
      rw [hself]
      intro hsym
      have hl := (h.target m hsym).1
      rw [hstep.reg] at hl
      cases hl
    · rw [hstep.others m hne]
      exact h.target m
  · rw [tables_tiis hstep.tables] at ha
    rw [hmode]
    exact h.infoSet a info m ha hti
  · rw [tables_tiis hstep.tables]
    exact h.infoInj

/-- The infos change in a way that gives no inode a second one. -/
theorem setInfos (h : StoreOk s) (hinv : Inv held s') (hi : s'.inodes = s.inodes)
    (hsub : ∀ a info n, s'.tiis a = some info → info.ti = some n →
      ∃ info', s.tiis a = some info' ∧ info'.ti = some n) : StoreOk s' where
  store := ⟨held, hinv⟩
  plain := by
    rw [hi]
    exact h.plain
  target := by
    rw [hi]
    exact h.target
  infoSet a info n ha hti := by
    obtain ⟨info', ha', hti'⟩ := hsub a info n ha hti
    rw [hi]
    exact h.infoSet a info' n ha' hti'
  infoInj a a' info info' n ha ha' hti hti' := by
    obtain ⟨j, hj, hjti⟩ := hsub a info n ha hti
    obtain ⟨j', hj', hjti'⟩ := hsub a' info' n ha' hti'
    exact h.infoInj a a' j j' n hj hj' hjti hjti'

theorem iget {ino : UInt64} {addr : Option ℕ} (h : StoreOk s) : StoreOk (s.iget ino addr).2 := by
  obtain ⟨held, hinv⟩ := h.store
  unfold Sbi.iget
  split
  · exact h
  · split
    · next tir htir a htii =>
      split
      · next info ha =>
        refine h.setInfos (hinv.congr rfl rfl rfl) rfl fun b info' n hb hti => ?_
        obtain rfl | hne := eq_or_ne b a
        · have hb' : some { info with ref := info.ref + 1 } = some info' := by
            rw [← hb]
            simp [Sbi.setTii]
          obtain rfl := Option.some.inj hb'
          exact ⟨info, ha, hti⟩
        · exact ⟨info', by simpa [Sbi.setTii, hne] using hb, hti⟩
      · exact h
    · split
      · exact h
      · next a s₁ ha =>
        obtain ⟨-, rfl⟩ := Sbi.allocIi_some ha
        refine h.setInfos (hinv.congr rfl rfl rfl) rfl fun b info' n hb hti => ?_
        obtain rfl | hne := eq_or_ne b a
        · -- the info of an inode that comes back points nowhere
          simp [Sbi.setTii] at hb
          rw [← hb] at hti
          cases hti
        · exact ⟨info', by simpa [Sbi.setTii, Sbi.setEntryTii, Sbi.setSlot, hne] using hb, hti⟩

end StoreOk

/-- What becomes of the record of a freed inode; a directory that is not empty stays. -/
theorem freeInode_self : (s.freeInode n).inodes n = {} ∨ s.freeInode n = s := by
  unfold Sbi.freeInode
  simp only
  split
  · split
    · exact .inr rfl
    · exact .inl setInode_inodes_self
  all_goals exact .inl setInode_inodes_self

/-- A record without blocks, zeroed or of a new inode. -/
structure Inode.Fresh (i : Inode) : Prop where
  iblkrefs : i.iblkrefs = []
  blocks : i.iBlocks = 0
  targeted : i.Targeted

theorem fresh_default : ({} : Inode).Fresh := ⟨rfl, rfl, fun h => absurd rfl h⟩

theorem setupInode_fresh {ioc : IocNewInode} {ino : UInt64}
    (hr : s.setupInode m n ioc ino = some s') :
    (∀ m, m ≠ n → s'.inodes m = s.inodes m) ∧ (s'.inodes n).Fresh := by
  obtain ⟨i, hi, ⟨-, hdpp, rfl⟩ | ⟨⟨hl, hlong⟩, b, s₁, ha, -, rfl⟩⟩ := Sbi.setupInode_some hr
  · rw [setInode_inodes_self]
    exact ⟨fun m hm => setInode_inodes_ne hm, hi.iblkrefs, hi.blocks, fun h => absurd hdpp h⟩
  · rw [setInode_inodes_self]
    refine ⟨fun m hm => ?_, hi.iblkrefs, hi.blocks, fun _ => ⟨hi.mode.trans hl, ?_⟩⟩
    · rw [setInode_inodes_ne hm]
      exact congrFun (acquirePmemb_eq ha).2.2.1 m
    · rw [hi.size, if_neg (by rw [hl]; exact fun h => by cases h)]
      exact hlong

/-- `toyfs_new_inode` touches no record but the one it takes. -/
theorem newInode_record {ioc : IocNewInode} {addr res : Option ℕ} (hr : s.newInode m ioc addr = (res, s'))
    (n : RecPtr) : s'.inodes n = s.inodes n ∨ s'.inodes n = {} ∨
      ∃ t t' ino, Sbi.setupInode t m n ioc ino = some t' ∧ s'.inodes n = t'.inodes n := by
  cases Sbi.newInode_ends hr with
  | noInfo => exact .inl rfl
  | noRecord ha =>
    obtain ⟨-, rfl⟩ := Sbi.allocIi_some ha
    exact .inl rfl
  | @noPage a r s₁ s₂ ha hn =>
    obtain ⟨-, rfl⟩ := Sbi.allocIi_some ha
    obtain ⟨p, -, rfl⟩ := Sbi.acquireInode_some hn
    obtain rfl | hne := eq_or_ne n r
    · exact .inr (.inl setInode_inodes_self)
    · exact .inl (setInode_inodes_ne hne)
  | @made a r s₁ s₂ s₃ ha hmode hsize hn hs =>
    obtain ⟨-, rfl⟩ := Sbi.allocIi_some ha
    obtain ⟨p, -, rfl⟩ := Sbi.acquireInode_some hn
    obtain rfl | hne := eq_or_ne n r
    · exact .inr (.inr ⟨_, s₃, _, hs, rfl⟩)
    · exact .inl ((setupInode_fresh hs).1 n hne)

theorem newInode_fresh {ioc : IocNewInode} {addr : Option ℕ} (n : RecPtr) :
    (s.newInode m ioc addr).2.inodes n = s.inodes n ∨
      ((s.newInode m ioc addr).2.inodes n).Fresh := by
  rcases newInode_record (Prod.eta (s.newInode m ioc addr)).symm n with h | h | ⟨t, t', ino, hs, h⟩
  · exact .inl h
  · exact .inr (h ▸ fresh_default)
  · exact .inr (h ▸ (setupInode_fresh hs).2)

namespace StoreOk

theorem newInode {dir : RecPtr} {ioc : IocNewInode} {addr : Option ℕ} (h : StoreOk s)
    (hfresh : ∀ a ∈ addr, s.tiis a = none) : StoreOk (s.newInode dir ioc addr).2 := by
  obtain ⟨held, hinv⟩ := h.store
  have htarget : ∀ n, ((s.newInode dir ioc addr).2.inodes n).Targeted := by
    intro n
    rcases @newInode_fresh s dir ioc addr n with heq | hfresh
    · rw [heq]
      exact h.target n
    · exact hfresh.targeted
  rcases hr : s.newInode dir ioc addr with ⟨res, s'⟩
  rw [hr] at htarget
  rcases newInode_cases hinv hfresh hr with ⟨-, hnot⟩ | ⟨a, n, -, -, hmade⟩
  · refine h.setInfos hnot.inv hnot.inodes fun b info m hb hti => ?_
    rw [hnot.tiis] at hb
    exact ⟨info, hb, hti⟩
  · have hset : (s'.inodes n).iMode ≠ .unset := by
      rw [hmade.mode]
      exact hmade.notUnset
    -- no info pointed to the record before
    have hnone : ∀ b info, s.tiis b = some info → info.ti ≠ some n := by
      intro b info hb hti
      refine h.infoSet b info n hb hti ?_
      rw [hmade.fresh]
    have hold : ∀ b info m, s'.tiis b = some info → info.ti = some m →
        (b = a ∧ m = n) ∨ (b ≠ a ∧ s.tiis b = some info ∧ m ≠ n) := by
      intro b info m hb hti
      rw [hmade.tiis] at hb
      obtain rfl | hne := eq_or_ne b a
      · rw [Function.update_self] at hb
        obtain rfl := Option.some.inj hb
        exact .inl ⟨rfl, (Option.some.inj hti).symm⟩
      · rw [Function.update_of_ne hne] at hb
        refine .inr ⟨hne, hb, ?_⟩
        rintro rfl
        exact hnone b info hb hti
    refine ⟨⟨held, hmade.inv⟩, fun m hm => ?_, htarget, fun b info m hb hti => ?_,
      fun b b' info info' m hb hb' hti hti' => ?_⟩
    · obtain rfl | hne := eq_or_ne m n
      · exact hmade.iblkrefs
      · rw [hmade.others m hne] at hm ⊢
        exact h.plain m hm
    · rcases hold b info m hb hti with ⟨-, rfl⟩ | ⟨-, hb, hne⟩
      · exact hset
      · rw [hmade.others m hne]
        exact h.infoSet b info m hb hti
    · rcases hold b info m hb hti with ⟨rfl, rfl⟩ | ⟨-, hb, hne⟩
      · rcases hold b' info' m hb' hti' with ⟨rfl, -⟩ | ⟨-, -, hne⟩
        · rfl
        · exact absurd rfl hne
      · rcases hold b' info' m hb' hti' with ⟨-, rfl⟩ | ⟨-, hb', -⟩
        · exact absurd rfl hne
        · exact h.infoInj b b' info info' m hb hb' hti hti'

theorem evict {a : ℕ} (h : StoreOk s) (he : s.evict a = some s') : StoreOk s' := by
  obtain ⟨held, hinv⟩ := h.store
  obtain ⟨info, ha, ⟨-, rfl⟩ | ⟨-, n, s₂, hti, hs₂, hstep, htiis⟩⟩ := evict_cases he
  · refine h.setInfos (hinv.congr rfl rfl rfl) rfl fun b info' n hb hti => ?_
    obtain rfl | hne := eq_or_ne b a
    · have hb' : some { info with ref := info.ref - 1 } = some info' := by
        rw [← hb]
        simp [Sbi.setTii]
      obtain rfl := Option.some.inj hb'
      exact ⟨info, ha, hti⟩
    · exact ⟨info', by simpa [Sbi.setTii, hne] using hb, hti⟩
  · set s₁ := s.setTii a { info with ref := info.ref - 1 } with hs₁
    have hinv₁ : Inv held s₁ := hinv.congr rfl rfl rfl
    have hset : (s.inodes n).iMode ≠ .unset := h.infoSet a info n ha hti
    -- what becomes of the inode
    obtain ⟨⟨held₂, hinv₂⟩, hothers, hself, htab⟩ : (∃ held₂, Inv held₂ s₂) ∧
        (∀ m, m ≠ n → s₂.inodes m = s.inodes m) ∧
        (s₂.inodes n = {} ∨ s₂.inodes n = s.inodes n) ∧ s₂.tables = s₁.tables := by
      rw [hs₂]
      split
      · obtain ⟨held', h', -⟩ := hinv₁.freeInode hset (h.plain n)
        have hfree : InodeStep n s₁ (s₁.freeInode n) := inodeStep_freeInode hinv₁
        exact ⟨⟨held', h'⟩, hfree.others,
          freeInode_self.imp id fun heq => by rw [heq, hs₁, Sbi.setTii], hfree.tables⟩
      · exact ⟨⟨held, hinv₁⟩, fun _ _ => rfl, .inr rfl, rfl⟩
    have hinfos : ∀ b info' m, s'.tiis b = some info' → info'.ti = some m →
        s.tiis b = some info' ∧ m ≠ n := by
      intro b info' m hb hti'
      rw [htiis, tables_tiis htab] at hb
      obtain rfl | hne := eq_or_ne b a
      · rw [Function.update_self] at hb
        cases hb
      · have hb' : s.tiis b = some info' := by simpa [hs₁, Sbi.setTii, hne] using hb
        refine ⟨hb', ?_⟩
        rintro rfl
        exact hne (h.infoInj b a info' info m hb' ha hti' hti)
    refine ⟨⟨held₂, hinv₂.congr hstep.pool hstep.dblkrefs hstep.inodes⟩, ?_, ?_,
      fun b info' m hb hti' => ?_, fun b b' i i' m hb hb' hti hti' => ?_⟩
    · rw [hstep.inodes]
      intro m hm
      obtain rfl | hne := eq_or_ne m n
      · rcases hself with heq | heq
        · rw [heq]
        · rw [heq] at hm ⊢
          exact h.plain m hm
      · rw [hothers m hne] at hm ⊢
        exact h.plain m hm
    · rw [hstep.inodes]
      intro m
      obtain rfl | hne := eq_or_ne m n
      · rcases hself with heq | heq
        · rw [heq]
          exact fun h => absurd rfl h
        · rw [heq]
          exact h.target m
      · rw [hothers m hne]
        exact h.target m
    · obtain ⟨hb, hne⟩ := hinfos b info' m hb hti'
      rw [hstep.inodes, hothers m hne]
      exact h.infoSet b info' m hb hti'
    · exact h.infoInj b b' i i' m (hinfos b i m hb hti).1 (hinfos b' i' m hb' hti').1 hti hti'

end StoreOk

/-! ## Runs -/

/-- **What a request does**: it is one the kernel sends, and the code served it without a
crash and without a failed assertion. -/
theorem Sys.next_cases {x x' : Sys} {a : Act} (h : x.next apiMapMaxSize a = some x') :
    x.Sends a ∧ x.serve apiMapMaxSize a = some x'.sbi ∧ x'.sbi.panicked = false ∧
      x'.live = x.liveAfter x'.sbi a := by
  unfold Sys.next at h
  split at h
  · next hsend =>
    split at h
    · cases h
    · next s hs =>
      split at h
      · cases h
      · next hp =>
        obtain rfl := Option.some.inj h
        exact ⟨hsend, hs, Bool.not_eq_true _ ▸ hp, rfl⟩
  · cases h

/-- An eviction that leaves references frees no inode. -/
theorem Sys.evicted_of_ref_ne {x : Sys} {a : ℕ} {info : InodeInfo} (ha : x.sbi.tiis a = some info)
    (hne : info.ref ≠ 1) : x.evicted a = none := by
  rw [Sys.evicted, ha]
  split
  · next heq =>
    obtain rfl := Option.some.inj heq
    exact absurd rfl hne
  · rfl

/-- The last eviction frees an inode without links. -/
theorem Sys.evicted_of_last {x : Sys} {a : ℕ} {info : InodeInfo} (ha : x.sbi.tiis a = some info)
    (hone : info.ref = 1) (hti : info.ti = some n) :
    x.evicted a = if (x.sbi.inodes n).iNlink = 0 then some n else none := by
  obtain ⟨ti, zi, ino, ref, mapped⟩ := info
  obtain rfl : ref = 1 := hone
  obtain rfl : ti = some n := hti
  simp [Sys.evicted, ha]

/-- The file a request changes. -/
def Act.target : Act → Option RecPtr
  | .write n .. => some n
  | .fallocate n .. => some n
  | .truncate n _ => some n
  | .clone _ dst .. => some dst
  | .mmapStore n .. => some n
  | _ => none

section Serve

variable {x : Sys} {a : Act}

/-- A request on a file. -/
theorem Sys.serves (hinv : Inv held x.sbi) (hsend : x.Sends a) (ht : a.target = some n) :
    ∃ s', x.serve apiMapMaxSize a = some s' ∧ Serves n Set.univ False held x.sbi s' := by
  cases a with
  | write m buf filepos len =>
    obtain rfl := Option.some.inj ht
    exact ⟨_, rfl, (write_serves hinv hsend).mono subset_rfl False.elim⟩
  | fallocate m mode filepos lastPos =>
    obtain rfl := Option.some.inj ht
    exact ⟨_, rfl, (fallocate_serves hinv hsend (fun _ _ _ _ => Set.mem_univ _)
      fun _ _ _ _ => Set.mem_univ _).mono subset_rfl False.elim⟩
  | truncate m size =>
    obtain rfl := Option.some.inj ht
    exact ⟨_, rfl, truncate_serves hinv hsend⟩
  | clone src dst posIn posOut len =>
    obtain rfl := Option.some.inj ht
    exact ⟨_, rfl, (clone_serves hinv hsend.2).mono subset_rfl False.elim⟩
  | mmapStore m filepos poff len data =>
    obtain rfl := Option.some.inj ht
    exact ⟨_, rfl, mmapStore_serves hinv hsend.1 fun _ _ => Set.mem_univ _⟩
  | _ => cases ht

/-- **One request keeps the store.** -/
theorem StoreOk.serve (h : StoreOk x.sbi) (hsend : x.Sends a)
    (hs : x.serve apiMapMaxSize a = some s') : StoreOk s' := by
  obtain ⟨held, hinv⟩ := h.store
  rcases ht : a.target with _ | n
  · cases a with
    | newInode dir ioc addr =>
      obtain rfl := Option.some.inj hs
      exact h.newInode hsend.2.1
    | iget ino addr =>
      obtain rfl := Option.some.inj hs
      exact h.iget
    | evict a => exact h.evict hs
    | addDentry dir n name =>
      obtain rfl := Option.some.inj hs
      obtain ⟨hd, hn, -⟩ := hsend
      exact h.keeps (hinv.addDirent hd hn).1 (.addDirent hd)
    | removeDentry dir n name =>
      obtain rfl := Option.some.inj hs
      obtain ⟨hd, hn, -⟩ := hsend
      exact h.keeps (hinv.metaStep (metaStep_removeDentry hd hn)) (.removeDentry hd)
    | rename oldDir newDir old oldName newName time flags =>
      obtain rfl := Option.some.inj hs
      obtain ⟨ho, hw, hn, -⟩ := hsend
      exact h.keeps (hinv.rename ho hw hn).1 (.rename ho hw)
    | setxattr n ioc =>
      obtain ⟨⟨res, s₁⟩, hr, rfl⟩ := Option.map_eq_some_iff.mp hs
      exact h.keeps (hinv.setxattr hsend.1 hr) (.setxattr hr)
    | _ => cases ht
  · obtain ⟨s₁, hs₁, hserve⟩ := @Sys.serves held n apiMapMaxSize x a hinv hsend ht
    obtain rfl := Option.some.inj (hs₁.symm.trans hs)
    exact h.serves hserve

/-- A request that is not on a file keeps a record or makes it one without blocks; of what
a file consists of nothing changes. -/
theorem StoreOk.sameFile (h : StoreOk x.sbi) (hsend : x.Sends a) (ht : a.target = none)
    (hs : x.serve apiMapMaxSize a = some s') (n : RecPtr) :
    SameFile (x.sbi.inodes n) (s'.inodes n) ∨ (s'.inodes n).Fresh := by
  obtain ⟨held, hinv⟩ := h.store
  have hkeep : ∀ s', KeepsFiles x.sbi s' →
      SameFile (x.sbi.inodes n) (s'.inodes n) ∨ (s'.inodes n).Fresh :=
    fun s' hk => .inl (hk.files n)
  cases a with
  | newInode dir ioc addr =>
    obtain rfl := Option.some.inj hs
    refine (newInode_fresh n).imp_left fun heq => ?_
    rw [heq]
    exact .refl _
  | iget ino addr =>
    obtain rfl := Option.some.inj hs
    rw [iget_same.1]
    exact .inl (.refl _)
  | evict a =>
    obtain ⟨info, -, ⟨-, rfl⟩ | ⟨-, m, s₂, -, hs₂, hstep, -⟩⟩ := evict_cases hs
    · exact .inl (.refl _)
    · rw [hstep.inodes, hs₂]
      split
      · have hinv₁ : Inv held (x.sbi.setTii a { info with ref := info.ref - 1 }) :=
          hinv.congr rfl rfl rfl
        obtain rfl | hne := eq_or_ne n m
        · rcases @freeInode_self (x.sbi.setTii a { info with ref := info.ref - 1 }) n with heq | heq
          · rw [heq]
            exact .inr fresh_default
          · rw [heq]
            exact .inl (.refl _)
        · rw [(inodeStep_freeInode hinv₁).others n hne]
          exact .inl (.refl _)
      · exact .inl (.refl _)
  | addDentry dir n name =>
    obtain rfl := Option.some.inj hs
    exact hkeep _ (.addDirent hsend.1)
  | removeDentry dir n name =>
    obtain rfl := Option.some.inj hs
    exact hkeep _ (.removeDentry hsend.1)
  | rename oldDir newDir old oldName newName time flags =>
    obtain rfl := Option.some.inj hs
    exact hkeep _ (.rename hsend.1 hsend.2.1)
  | setxattr n ioc =>
    obtain ⟨⟨res, s₁⟩, hr, rfl⟩ := Option.map_eq_some_iff.mp hs
    exact hkeep _ (.setxattr hr)
  | _ => cases ht

end Serve

/-! ## Mount -/

/-- A fresh device has pages in the pool, and nothing else. -/
theorem owns_setup {nblocks : ℕ} {o : Owner} (ho : Owns (Sbi.setup nblocks) bn o) :
    o = .pool ∧ bn ∈ (Pool.setup nblocks).pages := by
  cases o with
  | pool => exact ⟨rfl, ho⟩
  | data d => exact absurd ho.1 (Nat.lt_irrefl 0)
  | inode use n => exact absurd ho not_holds_default
  | recs kind =>
    obtain ⟨r, -, hf | hu⟩ := ho
    · cases hf
    · cases kind with
      | inode => exact absurd rfl hu
      | dblkref => exact absurd hu (Nat.lt_irrefl 0)
      | iblkref =>
        obtain ⟨n, d, hm⟩ := hu
        cases hm

theorem inv_setup (nblocks : ℕ) : Inv (fun _ => 0) (Sbi.setup nblocks) where
  exclusive _ _ _ ho ho' := (owns_setup ho).1.trans (owns_setup ho').1.symm
  nonzero bn o ho := by
    have hmem := (owns_setup ho).2
    simp only [Pool.setup, List.mem_reverse, List.mem_map] at hmem
    obtain ⟨i, -, rfl⟩ := hmem
    omega
  pagesNodup := List.nodup_reverse.mpr
    (List.nodup_range.map fun i j (h : i + 2 = j + 2) => by omega)
  freeNodup _ := List.nodup_nil
  freeUnused _ _ hr := by cases hr
  keysNodup _ := List.nodup_nil
  keysInj _ _ _ _ _ hm := by cases hm
  childsNodup _ := List.nodup_nil
  blank _ _ := rfl
  counted d := by
    have hnone : refs (Sbi.setup nblocks) d = ∅ := by
      refine Set.eq_empty_of_forall_notMem fun p hp => ?_
      obtain ⟨n, hm⟩ := hp
      cases hm
    rw [hnone, Set.encard_empty]
    rfl

/-- The state after the mount: the root directory in a record `n` of its own. -/
structure Mounted (nblocks addr : ℕ) (n : RecPtr) (x : Sys) : Prop where
  pop : (Pool.setup nblocks).popRec .inode = some (n, x.sbi.pool)
  live : x.live = [(rootIno, n)]
  inv : Inv (fun _ => 0) x.sbi
  tiis : x.sbi.tiis = Function.update (fun _ => none) addr
    (some { ti := some n, zi := some n, ino := rootIno })
  imap : x.sbi.imap = Function.update (fun _ => []) (slotOf rootIno) [⟨some addr, some n, rootIno⟩]
  top : x.sbi.sTopIno = rootIno + 1
  dblkrefs : x.sbi.dblkrefs = fun _ => {}
  bfree : x.sbi.fBfree = nblocks - 2
  bavail : x.sbi.fBavail = nblocks - 2
  root : x.sbi.inodes n = { iMode := .dir, iNlink := 2, iIno := rootIno }
  others : ∀ m, m ≠ n → x.sbi.inodes m = {}
  panicked : x.sbi.panicked = false

theorem mounted_spec {nblocks addr : ℕ} {x : Sys} (h : mounted nblocks addr = some x) :
    ∃ n, Mounted nblocks addr n x := by
  unfold mounted at h
  obtain ⟨⟨n, s⟩, hroot, rfl⟩ := Option.map_eq_some_iff.mp h
  obtain ⟨a, s₁, s₂, ha, hn, rfl⟩ := Sbi.newRootInode_some hroot
  obtain ⟨h₂, hspare, -, -⟩ := acquireInode_spec ((inv_setup nblocks).allocIi ha) hn
  obtain ⟨haddr, rfl⟩ := Sbi.allocIi_some ha
  obtain rfl := Option.some.inj haddr
  obtain ⟨p, hpop, rfl⟩ := Sbi.acquireInode_some hn
  refine ⟨n, hpop, rfl, ?_, ?_, rfl, rfl, rfl, rfl, rfl, setInode_inodes_self,
    fun m hne => setInode_inodes_ne hne, rfl⟩
  · refine Inv.congr (h₂.startInode hspare (fun h => by cases h) rfl rfl rfl ?_) rfl rfl rfl
    rintro b ⟨hl, -⟩
    cases hl
  · simp only [Sbi.itableInsert, Sbi.setSlot, Sbi.setInode, Sbi.setTii, Function.update_idem]
    rfl

namespace Mounted

variable {nblocks addr : ℕ} {x : Sys}

/-- The root directory is the only inode. -/
theorem inode_cases (h : Mounted nblocks addr n x) (m : RecPtr) :
    (m = n ∧ x.sbi.inodes m = { iMode := .dir, iNlink := 2, iIno := rootIno }) ∨
      x.sbi.inodes m = {} := by
  obtain rfl | hne := eq_or_ne m n
  · exact .inl ⟨rfl, h.root⟩
  · exact .inr (h.others m hne)

theorem notReg (h : Mounted nblocks addr n x) (m : RecPtr) : (x.sbi.inodes m).iMode ≠ .reg := by
  rcases h.inode_cases m with ⟨-, heq⟩ | heq <;>
  · rw [heq]
    exact fun h => by cases h

end Mounted

theorem mounted_storeOk {nblocks addr : ℕ} {x : Sys} (h : mounted nblocks addr = some x) :
    StoreOk x.sbi := by
  obtain ⟨n, hmount⟩ := mounted_spec h
  have hinfo : ∀ a info' m, x.sbi.tiis a = some info' → info'.ti = some m → a = addr ∧ m = n := by
    intro a info' m ha hm
    rw [hmount.tiis] at ha
    obtain rfl | hne := eq_or_ne a addr
    · rw [Function.update_self] at ha
      obtain rfl := Option.some.inj ha
      exact ⟨rfl, (Option.some.inj hm).symm⟩
    · rw [Function.update_of_ne hne] at ha
      cases ha
  refine ⟨⟨_, hmount.inv⟩, fun m hm => ?_, fun m => ?_, fun a info' m ha hm => ?_,
    fun a a' i i' m ha ha' hm hm' => (hinfo a i m ha hm).1.trans (hinfo a' i' m ha' hm').1.symm⟩
  · rcases hmount.inode_cases m with ⟨-, heq⟩ | heq <;> rw [heq]
  · rcases hmount.inode_cases m with ⟨-, heq⟩ | heq <;>
    · rw [heq]
      exact fun h => absurd rfl h
  · obtain ⟨-, rfl⟩ := hinfo a info' m ha hm
    rw [hmount.root]
    exact fun h => by cases h

/-- **The store is in order in every state toyfs reaches.** -/
theorem toyfs_storeOk {x : Sys} (h : (toyfs apiMapMaxSize).Reachable x) : StoreOk x.sbi := by
  refine h.invariant (I := fun x => StoreOk x.sbi) ?_ ?_
  · rintro x ⟨nblocks, addr, -, hm⟩
    exact mounted_storeOk hm
  · intro x a x' hok hn
    obtain ⟨hsend, hs, -, -⟩ := Sys.next_cases hn
    exact hok.serve hsend hs

/-! ## Pages over a run -/

section Run

variable {N : Set ℕ} {k : ℕ} {x x' : Sys}

theorem Within.serve {a : Act} (h : Within N k x.sbi) (hinv : Inv held x.sbi) (hsend : x.Sends a)
    (hs : x.serve apiMapMaxSize a = some s') : Within N k s' := by
  cases a with
  | evict a => exact h.evict hinv hs
  | setxattr n ioc =>
    obtain ⟨⟨res, s₁⟩, hr, rfl⟩ := Option.map_eq_some_iff.mp hs
    exact h.setxattr hr
  | newInode dir ioc addr =>
    obtain rfl := Option.some.inj hs
    exact h.newInode
  | iget ino addr =>
    obtain rfl := Option.some.inj hs
    exact h.iget
  | addDentry dir n name =>
    obtain rfl := Option.some.inj hs
    exact h.addDirent
  | removeDentry dir n name =>
    obtain rfl := Option.some.inj hs
    exact h.removeDentry
  | rename oldDir newDir old oldName newName time flags =>
    obtain rfl := Option.some.inj hs
    exact h.rename
  | write n buf filepos len =>
    obtain rfl := Option.some.inj hs
    exact h.write
  | fallocate n mode filepos lastPos =>
    obtain rfl := Option.some.inj hs
    exact h.fallocate
  | truncate n size =>
    obtain rfl := Option.some.inj hs
    exact h.truncate hinv
  | clone src dst posIn posOut len =>
    obtain rfl := Option.some.inj hs
    exact h.clone hinv
  | mmapStore n filepos poff len data =>
    obtain rfl := Option.some.inj hs
    exact h.mmapStore

/-- A page cut into records at the mount is one that `f_bfree` still counts. -/
theorem mounted_within {nblocks addr : ℕ} (h : mounted nblocks addr = some x) :
    Within Set.univ 1 x.sbi := by
  obtain ⟨n, hmount⟩ := mounted_spec h
  have hpop := hmount.pop
  refine ⟨trivial, fun _ _ => trivial, fun _ => trivial, fun d _ => ?_,
    fun _ => ⟨fun _ _ => trivial, trivial, trivial⟩, ?_, hmount.bavail.trans hmount.bfree.symm⟩
  · rw [Sbi.pageOf, hmount.dblkrefs]
  · have hlen : x.sbi.pool.pages.length + 1 = (Pool.setup nblocks).pages.length := by
      unfold Pool.popRec Pool.addFree at hpop
      rcases hpages : (Pool.setup nblocks).popPmemb with _ | ⟨b, q⟩
      · rw [hpages] at hpop
        cases hpop
      · rw [hpages] at hpop
        obtain ⟨rest, hrest, rfl⟩ := Pool.popPmemb_eq hpages
        rw [Pool.popFree_pages hpop, hrest]
        rfl
    have hall : (Pool.setup nblocks).pages.length = nblocks - 2 := by simp [Pool.setup]
    rw [hmount.bfree]
    omega

/-- What is kept by every request, in a run that starts anywhere. -/
theorem within_startAt (h : Within N k x.sbi) (hok : StoreOk x.sbi)
    (hreach : ((toyfs apiMapMaxSize).startAt x).Reachable x') : Within N k x'.sbi := by
  refine (hreach.invariant (I := fun x => Within N k x.sbi ∧ StoreOk x.sbi) ?_ ?_).1
  · rintro x rfl
    exact ⟨h, hok⟩
  · rintro x a x' ⟨h, hok⟩ hn
    obtain ⟨hsend, hs, -, -⟩ := Sys.next_cases hn
    obtain ⟨held, hinv⟩ := hok.store
    exact ⟨h.serve hinv hsend hs, hok.serve hsend hs⟩

end Run

/-! ## Exclusive pages -/

/-- Each page has at most one use, and no record is both free and in use. -/
structure PagesExclusive (s : Sbi) : Prop where
  pages : s.pool.pages.Nodup
  owner : ∀ bn o o', Owns s bn o → Owns s bn o' → o = o'
  entries : ∀ n, (s.inodes n).childs.Nodup
  records : ∀ kind, ∀ r ∈ s.pool.free kind, ¬ Used s kind r

theorem StoreOk.pagesExclusive (h : StoreOk s) : PagesExclusive s := by
  obtain ⟨held, hinv⟩ := h.store
  exact ⟨hinv.pagesNodup, hinv.exclusive, hinv.childsNodup, hinv.freeUnused⟩

/-- A page cut into records is named nowhere else. -/
theorem StoreOk.within_cut {kind : RecKind} (h : StoreOk s) (hall : Within Set.univ 1 s)
    (hcut : Owns s bn (.recs kind)) : Within { b | b ≠ bn } 1 s := by
  obtain ⟨held, hinv⟩ := h.store
  have hpos : 0 ≠ bn := (hinv.nonzero bn _ hcut).symm
  have hother : ∀ b o, Owns s b o → (∀ kind, o ≠ .recs kind) → b ≠ bn := by
    rintro b o ho hne rfl
    exact hne kind (hinv.exclusive b _ _ ho hcut)
  refine ⟨hpos, fun b hb => hother b .pool hb nofun, fun d => ?_, hall.unused,
    fun n => ⟨fun b hb => hother b (.inode .entries n) hb nofun, ?_, ?_⟩, hall.bfree, hall.bavail⟩
  · rcases Nat.eq_zero_or_pos (counts s d) with hzero | hd
    · rw [hall.unused d hzero]
      exact hpos
    · exact hother _ (.data d) ⟨hd, rfl⟩ nofun
  · by_cases hx : (s.inodes n).iXattr = 0
    · rw [hx]
      exact hpos
    · exact hother _ (.inode .xattr n) ⟨hx, rfl⟩ nofun
  · by_cases hsym : (s.inodes n).iSymDpp = 0
    · have hdpp : Sbi.dppToBn 0 = 0 := rfl
      rw [hsym, hdpp]
      exact hpos
    · obtain ⟨hl, hsize⟩ := h.target n hsym
      exact hother _ (.inode .symlink n) ⟨hl, hsize, rfl⟩ nofun

theorem Within.owner {o : Owner} {k : ℕ} (h : Within { b | b ≠ bn } k s) (ho : Owns s bn o) :
    ∃ kind, o = .recs kind := by
  cases o with
  | pool => exact absurd rfl (h.pages bn ho)
  | data d => exact absurd ho.2 (h.data d)
  | recs kind => exact ⟨kind, rfl⟩
  | inode use n =>
    obtain ⟨hentries, hxattr, hsym⟩ := h.inodes n
    cases use with
    | entries => exact absurd rfl (hentries bn ho)
    | xattr => exact absurd ho.2 hxattr
    | symlink => exact absurd ho.2.2 hsym

theorem toyfs_within {x : Sys} (h : (toyfs apiMapMaxSize).Reachable x) :
    Within Set.univ 1 x.sbi := by
  refine (h.invariant (I := fun x => Within Set.univ 1 x.sbi ∧ StoreOk x.sbi) ?_ ?_).1
  · rintro x ⟨nblocks, addr, -, hm⟩
    exact ⟨mounted_within hm, mounted_storeOk hm⟩
  · rintro x a x' ⟨h, hok⟩ hn
    obtain ⟨hsend, hs, -, -⟩ := Sys.next_cases hn
    obtain ⟨held, hinv⟩ := hok.store
    exact ⟨h.serve hinv hsend hs, hok.serve hsend hs⟩

/-- A run on a device of `1024` blocks that ends in a state passing a test. -/
theorem exists_reachable_of_mounted (apiMapMaxSize : ℕ) (as : List Act) {p : Sys → Bool}
    (hr : ((mounted 1024 1).bind (Lts.runAll (fun x a => x.next apiMapMaxSize a) as)).any p) :
    ∃ x, (toyfs apiMapMaxSize).Reachable x ∧ p x = true :=
  Lts.Reachable.exists_of_start (fun _ hm => ⟨1024, 1, Nat.le_refl _, hm⟩) as hr

/-- The same for the runs that meet a guard. -/
theorem exists_restrict_of_mounted (apiMapMaxSize : ℕ) (ok : Sys → Act → Prop)
    [∀ x a, Decidable (ok x a)] (as : List Act) {p : Sys → Bool}
    (hr : ((mounted 1024 1).bind (Lts.runAll
      (fun x a => if ok x a then x.next apiMapMaxSize a else none) as)).any p) :
    ∃ x, ((toyfs apiMapMaxSize).restrict ok).Reachable x ∧ p x = true :=
  Lts.Reachable.exists_of_restrict (fun _ hm => ⟨1024, 1, Nat.le_refl _, hm⟩) as hr

/-! ## Free-space counters -/

/-- The counters `toyfs_statfs` reports: `f_bfree` is the length of the free list, and
`f_files - f_ffree` the number of live inodes. -/
def Sys.Truthful (x : Sys) : Prop :=
  x.sbi.statfs.fBfree = x.sbi.pool.pages.length ∧
    x.sbi.statfs.fFiles - x.sbi.statfs.fFfree = x.live.length

instance (x : Sys) : Decidable x.Truthful := inferInstanceAs (Decidable (_ ∧ _))

/-- **The free-space counters are never truthful**: the pages cut into records, that of the
root inode first, are taken from the free list behind the back of `f_bfree`. -/
theorem toyfs_not_truthful (apiMapMaxSize : ℕ) (x : Sys) (h : (toyfs apiMapMaxSize).Reachable x) :
    ¬ x.Truthful := by
  rintro ⟨hbfree, -⟩
  have hahead := (toyfs_within h).bfree
  have heq : x.sbi.fBfree = x.sbi.pool.pages.length := hbfree
  omega

/-- Two files are made and written, and one of them is deleted. -/
theorem toyfs_not_truthful_deleted : ∃ x, (toyfs 65536).Reachable x ∧
    (x.sbi.blocksOf ⟨1023, 1⟩).length = 1 ∧ (x.sbi.inodes ⟨1023, 2⟩).iMode = .unset ∧
    ¬ x.Truthful := by
  obtain ⟨x, hx, hp⟩ := exists_reachable_of_mounted 65536
    [.newInode ⟨1023, 0⟩ ⟨.reg, 0, 0, [], fun _ => 0, false⟩ (some 2),
      .addDentry ⟨1023, 0⟩ ⟨1023, 1⟩ [97],
      .newInode ⟨1023, 0⟩ ⟨.reg, 0, 0, [], fun _ => 0, false⟩ (some 3),
      .addDentry ⟨1023, 0⟩ ⟨1023, 2⟩ [98],
      .write ⟨1023, 1⟩ (fun _ => 7) 0 5, .write ⟨1023, 2⟩ (fun _ => 8) 0 5000,
      .removeDentry ⟨1023, 0⟩ ⟨1023, 2⟩ [98], .evict 3]
    (p := fun x => (x.sbi.blocksOf ⟨1023, 1⟩).length == 1 &&
      (x.sbi.inodes ⟨1023, 2⟩).iMode == .unset) (by decide +kernel)
  simp only [Bool.and_eq_true, beq_iff_eq] at hp
  exact ⟨x, hx, hp.1, hp.2, toyfs_not_truthful 65536 x hx⟩

/-- A device of `1024` blocks, just mounted: `1022` free blocks are reported, and the list
has `1021`. -/
theorem mounted_not_truthful : ¬ ∀ x, (toyfs 65536).Reachable x → x.Truthful := by
  intro hall
  obtain ⟨x, hx, hp⟩ := exists_reachable_of_mounted 65536 []
    (p := fun x => x.sbi.statfs.fBfree == 1022 && x.sbi.pool.pages.length == 1021)
    (by decide +kernel)
  simp only [Bool.and_eq_true, beq_iff_eq] at hp
  have heq := (hall x hx).1
  omega

end Zus.Toyfs
