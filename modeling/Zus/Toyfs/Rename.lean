import Zus.Toyfs.DirSystem

/-!
# Rename

`_do_rename` adds an entry for the new name only if there is none, and then removes the old
one. An entry that is there is left as it is: it leads to the inode it led to, while the renamed
inode has lost a link. And the parent of a directory is never set, so that it stays the one the
directory was made in.
-/

namespace Zus.Toyfs

open Zus.Lib

variable {s s' s₁ : Sbi} {held : RecPtr → ℕ} {dir n m oldDir newDir old : RecPtr}
  {name oldName newName : List UInt8} {time : UInt64} {apiMapMaxSize : ℕ}

/-! ## Link counts and parents -/

theorem nlink_touch : ((s.touch n time).inodes m).iNlink = (s.inodes m).iNlink :=
  apply_setInode Inode.iNlink (by rfl) m

/-- The removal of the old entry takes a link from the inode, and of a directory one from the
directory the entry was in. -/
theorem nlink_renameRest {bn j : ℕ} (newDir old m : RecPtr) (time : UInt64) (hok : DirsOk s) (hinv : Inv held s)
    (ho : (s.inodes oldDir).iMode = .dir) (hvalid : ValidName name)
    (hl : s.lookupDirent oldDir name = some (bn, j)) :
    let s₂ := s.removeDirent oldDir old bn j
    let s₃ := if (s₂.inodes old).iMode = .dir then s₂.addNlink old 1 else s₂
    let s₄ := (s₃.touch oldDir time).touch newDir time
    ((s₄.setInode old { s₄.inodes old with iCtime := time }).inodes m).iNlink =
      (s.inodes m).iNlink - (if m = old then 1 else 0) -
        if (s.inodes old).iMode = .dir ∧ m = oldDir then 1 else 0 := by
  intro s₂ s₃ s₄
  obtain ⟨-, -, hstep⟩ := hok.removeDirent hinv ho hvalid hl (n := old)
  have hmode : (s₂.inodes old).iMode = (s.inodes old).iMode := hstep.mode old
  have hlast : ((s₄.setInode old { s₄.inodes old with iCtime := time }).inodes m).iNlink =
      (s₄.inodes m).iNlink := apply_setInode Inode.iNlink (by rfl) m
  have h₃ : (s₃.inodes m).iNlink = (s₂.inodes m).iNlink +
      if (s.inodes old).iMode = .dir ∧ m = old then 1 else 0 := by
    simp only [s₃]
    rw [hmode]
    split
    · next hd => simp only [nlink_addNlink, hd, true_and]
    · next hd => simp only [hd, false_and, if_false, UInt32.add_zero]
  have h₂ : (s₂.inodes m).iNlink = _ := nlink_removeDirent
  rw [hlast]
  simp only [s₄]
  rw [nlink_touch, nlink_touch, h₃, h₂]
  grind

/-- What a rename that succeeds changes in the inodes. -/
theorem rename_inodes {flags : UInt32} (hok : DirsOk s) (hinv : Inv held s)
    (ho : (s.inodes oldDir).iMode = .dir) (hw : (s.inodes newDir).iMode = .dir)
    (hn : (s.inodes old).iMode ≠ .unset) (hold : ValidName oldName) (hnew : ValidName newName)
    (hne : ¬ (oldDir = newDir ∧ oldName = newName))
    (hres : (s.rename oldDir newDir old oldName newName time flags).1 = none) (m : RecPtr) :
    let s' := (s.rename oldDir newDir old oldName newName time flags).2
    (s'.inodes m).iDirParent = (s.inodes m).iDirParent ∧
      (s'.inodes m).iNlink = (s.inodes m).iNlink +
        (if s.lookupDirent newDir newName = none then
          if (s.inodes old).iMode = .dir ∧ m = newDir then 1 else 0
          else if m = old then -1 else 0) -
        if (s.inodes old).iMode = .dir ∧ m = oldDir then 1 else 0 := by
  intro s'
  simp only [s']
  unfold Sbi.rename at hres ⊢
  split at hres
  · cases hres
  next hflags =>
  rw [if_neg hflags]
  split at hres
  · cases hres
  next bn j hl =>
  simp only
  rcases hlnew : s.lookupDirent newDir newName with _ | place
  · obtain ⟨hinv₁, hmode⟩ := @Inv.addDirent s held old newDir newName hinv hw hn
    rw [hlnew] at hres
    rcases hok.addDirent hinv hw hn hnew hlnew with heq | ⟨hadded, hok₁, -, ⟨grown, hstep⟩, hfound⟩
    · rw [heq] at hres
      cases hres
    · have hl₁ := hfound oldDir oldName (bn, j) ho hold.1 (fun heq => hne (Prod.mk.inj heq)) hl
      have hlinks := nlink_addDirent hinv hw hadded (m := m)
      rcases hadd : s.addDirent newDir old newName with ⟨res, s₁⟩
      rw [hadd] at hinv₁ hmode hadded hok₁ hl₁ hlinks hstep
      dsimp only at hadded hok₁ hl₁ hinv₁ hlinks hstep hmode
      subst hadded
      have hrest := nlink_renameRest newDir old m time hok₁ hinv₁ ((hmode oldDir).trans ho) hold hl₁
      refine ⟨((metaStep_renameRest ((hmode oldDir).trans ho) ((hmode newDir).trans hw)
        (by rwa [hmode old])).inodes m).parent.trans (hstep.parent m), hrest.trans ?_⟩
      rw [hlinks, hmode]
      grind
  · have hrest := nlink_renameRest newDir old m time hok hinv ho hold hl
    refine ⟨((metaStep_renameRest ho hw hn).inodes m).parent, hrest.trans ?_⟩
    grind

/-! ## When a rename is right -/

/-- What a rename of an inode has to do. -/
structure Sys.Renamed (x : Sys) (oldDir newDir old : RecPtr) (oldName newName : List UInt8)
    (s' : Sbi) : Prop where
  new : s'.lookup newDir newName = (x.sbi.inodes old).iIno.toNat
  gone : s'.lookup oldDir oldName = 0
  others : ∀ d name, (x.sbi.inodes d).iMode = .dir → ValidName name →
    (d, name) ≠ (oldDir, oldName) → (d, name) ≠ (newDir, newName) →
    s'.lookup d name = x.sbi.lookup d name
  links : (s'.inodes old).iNlink = (x.sbi.inodes old).iNlink
  parent : (x.sbi.inodes old).iMode = .dir →
    (s'.inodes old).iDirParent = (x.sbi.inodes newDir).iIno
  /-- the link that was replaced is gone -/
  replaced : ∀ y, x.LeadsTo newDir newName y →
    (s'.inodes y).iNlink = (x.sbi.inodes y).iNlink - 1

/-- **A rename is right just when** the new name is not taken, and a directory has the new
directory for its parent already (and is not moved into or out of itself). -/
theorem renamed_iff (apiMapMaxSize : ℕ) (x : Sys) (h : (toyfs apiMapMaxSize).Reachable x)
    (oldDir newDir old : RecPtr) (oldName newName : List UInt8) (time : UInt64)
    (hsend : x.Sends (.rename oldDir newDir old oldName newName time 0))
    (hother : ¬ x.LeadsTo newDir newName old)
    (hres : (x.sbi.rename oldDir newDir old oldName newName time 0).1 = none) :
    x.Renamed oldDir newDir old oldName newName
        (x.sbi.rename oldDir newDir old oldName newName time 0).2 ↔
      x.sbi.lookupDirent newDir newName = none ∧ ((x.sbi.inodes old).iMode = .dir →
        (x.sbi.inodes old).iDirParent = (x.sbi.inodes newDir).iIno ∧
        (old = newDir ↔ old = oldDir)) := by
  obtain ⟨ho, hw, hn, hold, hnew, -, hne⟩ := hsend
  have hok := toyfs_dirsOk h
  obtain ⟨held, hinv⟩ := (toyfs_storeOk h).store
  have hinodes := rename_inodes hok hinv ho hw hn hold hnew hne hres
  rcases hok.rename time 0 hinv ho hw hn hold hnew hne with ⟨e, heq⟩ | ⟨-, hok', hresolve⟩
  · rw [heq] at hres
    cases hres
  set s' := (x.sbi.rename oldDir newDir old oldName newName time 0).2 with hs'
  have hmode : ∀ d, (s'.inodes d).iMode = (x.sbi.inodes d).iMode :=
    fun d => (KeepsFiles.rename ho hw).mode
  have hlookup : ∀ d name, (x.sbi.inodes d).iMode = .dir → ValidName name →
      s'.lookup d name = (s'.resolve (d, name)).toNat := fun d name hd hname =>
    hok'.lookup_eq ((hmode d).trans hd) hname
  have hplaces : (newDir, newName) ≠ (oldDir, oldName) := fun heq =>
    hne ⟨(Prod.mk.inj heq).1.symm, (Prod.mk.inj heq).2.symm⟩
  constructor
  · intro hren
    rcases hl : x.sbi.lookupDirent newDir newName with _ | place
    · refine ⟨rfl, fun hd => ⟨(hinodes old).1.symm.trans (hren.parent hd), ?_⟩⟩
      have hlinks := (hinodes old).2
      rw [hren.links, hl, if_pos rfl] at hlinks
      simp only [hd, true_and] at hlinks
      grind
    · -- an entry that is there leads to another inode
      rw [hl, if_neg (by simp)] at hresolve
      refine absurd ⟨by rw [hl]; rfl, ?_⟩ hother
      rw [← hren.new, hlookup newDir newName hw hnew, hresolve, Function.update_of_ne hplaces,
        hok.lookup_eq hw hnew]
  · rintro ⟨hl, hdir⟩
    rw [if_pos hl] at hresolve
    refine ⟨?_, ?_, fun d name hd hname hno hno' => ?_, ?_, fun hd => ?_, fun y hy => ?_⟩
    · rw [hlookup newDir newName hw hnew, hresolve, Function.update_of_ne hplaces,
        Function.update_self]
    · rw [hlookup oldDir oldName ho hold, hresolve, Function.update_self]
      rfl
    · rw [hlookup d name hd hname, hresolve, Function.update_of_ne hno, Function.update_of_ne hno',
        hok.lookup_eq hd hname]
    · rw [(hinodes old).2, if_pos hl]
      by_cases hd : (x.sbi.inodes old).iMode = .dir
      · have hself := (hdir hd).2
        simp only [hd, true_and, hself]
        grind
      · simp [hd]
    · rw [(hinodes old).1, (hdir hd).1]
    · obtain ⟨hsome, -⟩ := hy
      rw [hl] at hsome
      cases hsome

/-- A directory and a file get new names in the root. -/
theorem renamed_iff_root : ∃ x, (toyfs 65536).Reachable x ∧
    x.Renamed ⟨1023, 0⟩ ⟨1023, 0⟩ ⟨1023, 1⟩ [97] [99]
      (x.sbi.rename ⟨1023, 0⟩ ⟨1023, 0⟩ ⟨1023, 1⟩ [97] [99] 5 0).2 ∧
    x.Renamed ⟨1023, 0⟩ ⟨1023, 0⟩ ⟨1023, 2⟩ [98] [99]
      (x.sbi.rename ⟨1023, 0⟩ ⟨1023, 0⟩ ⟨1023, 2⟩ [98] [99] 5 0).2 := by
  obtain ⟨x, hx, hp⟩ := exists_reachable_of_mounted 65536
    [.newInode ⟨1023, 0⟩ ⟨.dir, 0, 0, [], fun _ => 0, false⟩ (some 2),
      .newInode ⟨1023, 0⟩ ⟨.reg, 0, 0, [], fun _ => 0, false⟩ (some 3),
      .addDentry ⟨1023, 0⟩ ⟨1023, 1⟩ [97], .addDentry ⟨1023, 0⟩ ⟨1023, 2⟩ [98]]
    (p := fun x =>
      decide (x.Sends (.rename ⟨1023, 0⟩ ⟨1023, 0⟩ ⟨1023, 1⟩ [97] [99] 5 0)) &&
      decide (x.Sends (.rename ⟨1023, 0⟩ ⟨1023, 0⟩ ⟨1023, 2⟩ [98] [99] 5 0)) &&
      decide ((x.sbi.rename ⟨1023, 0⟩ ⟨1023, 0⟩ ⟨1023, 1⟩ [97] [99] 5 0).1 = none) &&
      decide ((x.sbi.rename ⟨1023, 0⟩ ⟨1023, 0⟩ ⟨1023, 2⟩ [98] [99] 5 0).1 = none) &&
      decide (x.sbi.lookupDirent ⟨1023, 0⟩ [99] = none) &&
      decide ((x.sbi.inodes ⟨1023, 1⟩).iDirParent = (x.sbi.inodes ⟨1023, 0⟩).iIno) &&
      decide ((x.sbi.inodes ⟨1023, 2⟩).iMode = .reg))
    (by decide +kernel)
  simp only [Bool.and_eq_true, decide_eq_true_eq] at hp
  obtain ⟨⟨⟨⟨⟨⟨hsend, hsend'⟩, hres⟩, hres'⟩, hfree⟩, hparent⟩, hreg⟩ := hp
  have hother : ∀ n, ¬ x.LeadsTo ⟨1023, 0⟩ [99] n := by
    rintro n ⟨hsome, -⟩
    rw [hfree] at hsome
    cases hsome
  refine ⟨x, hx,
    (renamed_iff 65536 x hx _ _ _ _ _ _ hsend (hother _) hres).mpr
      ⟨hfree, fun _ => ⟨hparent, by decide⟩⟩,
    (renamed_iff 65536 x hx _ _ _ _ _ _ hsend' (hother _) hres').mpr ⟨hfree, fun hd => ?_⟩⟩
  rw [hreg] at hd
  cases hd

/-- A rename onto a name that is taken leaves the name to the inode that had it. -/
theorem rename_keeps_taken : ¬ ∀ x, (toyfs 65536).Reachable x →
    ∀ oldDir newDir old oldName newName time,
      x.Sends (.rename oldDir newDir old oldName newName time 0) →
      ¬ x.LeadsTo newDir newName old →
      (x.sbi.rename oldDir newDir old oldName newName time 0).1 = none →
      x.Renamed oldDir newDir old oldName newName
        (x.sbi.rename oldDir newDir old oldName newName time 0).2 := by
  intro hall
  obtain ⟨x, hx, hp⟩ := exists_reachable_of_mounted 65536
    [.newInode ⟨1023, 0⟩ ⟨.reg, 0, 0, [], fun _ => 0, false⟩ (some 2),
      .newInode ⟨1023, 0⟩ ⟨.reg, 0, 0, [], fun _ => 0, false⟩ (some 3),
      .addDentry ⟨1023, 0⟩ ⟨1023, 1⟩ [97], .addDentry ⟨1023, 0⟩ ⟨1023, 2⟩ [98]]
    (p := fun x =>
      decide (x.Sends (.rename ⟨1023, 0⟩ ⟨1023, 0⟩ ⟨1023, 1⟩ [97] [98] 5 0)) &&
      decide (¬ x.LeadsTo ⟨1023, 0⟩ [98] ⟨1023, 1⟩) &&
      decide ((x.sbi.rename ⟨1023, 0⟩ ⟨1023, 0⟩ ⟨1023, 1⟩ [97] [98] 5 0).1 = none) &&
      decide ((x.sbi.rename ⟨1023, 0⟩ ⟨1023, 0⟩ ⟨1023, 1⟩ [97] [98] 5 0).2.lookup
        ⟨1023, 0⟩ [98] = 3) &&
      decide ((x.sbi.inodes ⟨1023, 1⟩).iIno = 2))
    (by decide +kernel)
  simp only [Bool.and_eq_true, decide_eq_true_eq] at hp
  obtain ⟨⟨⟨⟨hsend, hother⟩, hres⟩, hfound⟩, hino⟩ := hp
  have hren := hall x hx _ _ _ _ _ _ hsend hother hres
  have hnew := hren.new
  rw [hfound, hino] at hnew
  cases hnew

end Zus.Toyfs
