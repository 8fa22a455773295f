import Zus.Toyfs.Refcount

/-!
# What an inode takes and gives back

`toyfs_new_inode` takes an info and a record, and for a long symlink a page;
`toyfs_free_inode` gives back a record that was never used with all that came with it.
-/

namespace Zus.Toyfs

open Zus.Lib

variable {s s' t : Sbi} {n dir : RecPtr} {ioc : IocNewInode} {addr : Option ℕ} {a b : ℕ} {p : Pool}
  {ino : UInt64} {info : InodeInfo}

/-! ## Creation -/

theorem acquirePmemb_bfree (ha : s.acquirePmemb = some (b, s')) : s.fBfree = s'.fBfree + 1 := by
  obtain ⟨hbfree, -, _, -, rfl⟩ := Sbi.acquirePmemb_some ha
  exact (Nat.succ_pred_eq_of_ne_zero hbfree).symm

theorem allocIi_ffree (ha : s.allocIi addr = some (a, s')) : s.fFfree = s'.fFfree + 1 := by
  unfold Sbi.allocIi at ha
  split at ha
  · cases ha
  next hffree =>
  split at ha
  · cases ha
  obtain ⟨-, rfl⟩ := Prod.mk.inj (Option.some.inj ha)
  exact (Nat.succ_pred_eq_of_ne_zero (not_or.mp hffree).1).symm

/-- An inode and its parts, when `toyfs_new_inode` makes one. -/
theorem newInode_some (hr : s.newInode dir ioc addr = (some a, s')) :
    ioc.iSize < 4096 ∧ ∃ s₁ n p s₃, s.allocIi addr = some (a, s₁) ∧
      s.pool.popRec .inode = some (n, p) ∧
      ({ s₁ with pool := p, sTopIno := s.sTopIno + 1 } : Sbi).setupInode dir n ioc s.sTopIno =
        some s₃ ∧
      s' = s₃.iTrack a { ti := some n, zi := some n, ino := s.sTopIno, ref := 1 } := by
  cases Sbi.newInode_ends hr with
  | @made _ n s₁ s₂ s₃ ha _ hsize hn hsetup =>
    obtain ⟨-, hs₁⟩ := Sbi.allocIi_some ha
    obtain ⟨p, hpop, rfl⟩ := Sbi.acquireInode_some hn
    have hpool : s₁.pool = s.pool := by
      rw [hs₁]
    have htop : s₁.sTopIno = s.sTopIno := by
      rw [hs₁]
    rw [hpool] at hpop
    rw [← htop]
    exact ⟨hsize, s₁, n, p, s₃, ha, hpop, hsetup, rfl⟩

/-- What a new inode consists of; `p` is the pool without its record. -/
structure NewInode (a : ℕ) (n : RecPtr) (ioc : IocNewInode) (p : Pool) (s s' : Sbi) : Prop where
  pop : s.pool.popRec .inode = some (n, p)
  info : s'.tiis a = some
    { ti := some n, zi := some n, ino := s.sTopIno, ref := 1, mapped := true }
  mode : (s'.inodes n).iMode = ioc.iMode
  iblkrefs : (s'.inodes n).iblkrefs = []
  xattr : (s'.inodes n).iXattr = 0
  symlink : (s'.inodes n).iSymlink = ioc.iSymlink
  size : ioc.iMode ≠ .dir → (s'.inodes n).iSize = ioc.iSize
  nlink : (s'.inodes n).iNlink =
    if ioc.iMode = .dir ∨ (ioc.iMode = .reg ∧ ioc.tmpfile) then 1 else ioc.iNlink
  ffree : s.fFfree = s'.fFfree + 1
  icount : s'.icount = s.icount + 1
  panicked : s'.panicked = s.panicked
  /-- no page is taken -/
  short : ¬ ioc.LongSymlink → s'.pool.pages = p.pages ∧ s'.fBfree = s.fBfree
  /-- a page is taken for the text -/
  long : ioc.LongSymlink → ∃ bn, Sbi.dppToBn (s'.inodes n).iSymDpp = bn ∧
    p.pages = bn :: s'.pool.pages ∧ s.fBfree = s'.fBfree + 1 ∧
      (s'.mem bn).slice 0 ioc.iSize.toNat = ioc.symname.slice 0 ioc.iSize.toNat

/-- Bytes stored at the start of a page are read back. -/
theorem slice_store_zero (pg src : Bytes) (len : ℕ) :
    (pg.store 0 len src).slice 0 len = src.slice 0 len := by
  refine Bytes.slice_congr fun i hi => ?_
  rw [Bytes.store_of_mem _ _ (Nat.zero_le _) (Nat.add_lt_add_left hi 0), Nat.sub_zero]

/-- **The inode `toyfs_new_inode` makes.** -/
theorem newInode_spec (hr : s.newInode dir ioc addr = (some a, s')) :
    ∃ n p, NewInode a n ioc p s s' := by
  obtain ⟨-, s₁, n, p, s₃, ha, hpop, hsetup, rfl⟩ := newInode_some hr
  have hffree := allocIi_ffree ha
  obtain ⟨-, rfl⟩ := Sbi.allocIi_some ha
  set t : Sbi := { s with
    tiis := Function.update s.tiis a (some {})
    fFfree := s.fFfree - 1
    fFavail := s.fFavail - 1
    pool := p
    sTopIno := s.sTopIno + 1 }
  obtain ⟨i, hi, hend⟩ := Sbi.setupInode_some hsetup
  obtain ⟨s₂, rfl, hpage⟩ : ∃ s₂ : Sbi, s₃ = s₂.setInode n i ∧ ((¬ ioc.LongSymlink ∧ s₂ = t) ∨
      (ioc.LongSymlink ∧ ∃ bn s₁, t.acquirePmemb = some (bn, s₁) ∧ i.iSymDpp = bn * pageSize ∧
        s₂ = s₁.setPage bn ((s₁.mem bn).store 0 ioc.iSize.toNat ioc.symname))) := by
    rcases hend with ⟨hshort, -, rfl⟩ | ⟨hlong, bn, s₁, hc, hdpp, rfl⟩
    · exact ⟨t, rfl, .inl ⟨hshort, rfl⟩⟩
    · exact ⟨_, rfl, .inr ⟨hlong, bn, s₁, hc, hdpp, rfl⟩⟩
  have hself : (s₂.setInode n i).inodes n = i := setInode_inodes_self
  obtain ⟨htables, hpanic⟩ : s₂.tables = t.tables ∧ s₂.panicked = t.panicked := by
    rcases hpage with ⟨-, rfl⟩ | ⟨-, bn, s₃, hc, -, rfl⟩
    · exact ⟨rfl, rfl⟩
    · have hkeep : KeepsFiles t s₃ := .acquirePmemb hc
      exact ⟨hkeep.tables, (acquirePmemb_eq hc).2.2.2⟩
  simp only [Sbi.tables, Prod.mk.injEq] at htables
  obtain ⟨-, hicount, -, -, hfree, -⟩ := htables
  refine ⟨n, p, hpop, Function.update_self .., (congrArg Inode.iMode hself).trans hi.mode,
    (congrArg Inode.iblkrefs hself).trans hi.iblkrefs, (congrArg Inode.iXattr hself).trans hi.xattr,
    (congrArg Inode.iSymlink hself).trans hi.symlink,
    fun hd => (congrArg Inode.iSize hself).trans (hi.size.trans (if_neg hd)),
    (congrArg Inode.iNlink hself).trans hi.nlink, ?_, ?_, hpanic, fun hshort => ?_, fun hlong => ?_⟩
  · exact hffree.trans (congrArg (· + 1) hfree.symm)
  · exact congrArg (· + 1) hicount
  · rcases hpage with ⟨-, rfl⟩ | ⟨hlong, -⟩
    · exact ⟨rfl, rfl⟩
    · exact absurd hlong hshort
  · rcases hpage with ⟨hshort, -⟩ | ⟨-, bn, s₃, hc, hdpp, rfl⟩
    · exact absurd hlong hshort
    · have hbfree := acquirePmemb_bfree hc
      have hbn : Sbi.dppToBn i.iSymDpp = bn := by
        simp [hdpp, Sbi.dppToBn, pageSize]
      refine ⟨bn, (congrArg (fun j => Sbi.dppToBn j.iSymDpp) hself).trans hbn,
        (acquirePmemb_eq hc).1, hbfree, ?_⟩
      change (Function.update s₃.mem _ _ _).slice 0 _ = _
      rw [Function.update_self, slice_store_zero]

/-! ## Release -/

/-- The page `toyfs_release_symlink` gives back is that of a target longer than the record. -/
theorem releaseSymlink_pool : (s.releaseSymlink n).fBfree =
      s.fBfree + (if symlinkSize < (s.inodes n).iSize then 1 else 0) ∧
    (s.releaseSymlink n).pool.pages = (if symlinkSize < (s.inodes n).iSize
      then Sbi.dppToBn (s.inodes n).iSymDpp :: s.pool.pages else s.pool.pages) := by
  unfold Sbi.releaseSymlink
  split
  · exact ⟨rfl, rfl⟩
  · exact ⟨rfl, rfl⟩

/-- The symlink has a page that is returned. -/
def Inode.ReturnsPage (i : Inode) : Prop := i.iMode = .lnk ∧ symlinkSize < i.iSize

instance (i : Inode) : Decidable i.ReturnsPage := inferInstanceAs (Decidable (_ ∧ _))

/-- What freeing an inode that uses nothing but its record leaves. -/
structure Freed (n : RecPtr) (s s' : Sbi) : Prop where
  inodes : s'.inodes = Function.update s.inodes n {}
  mem : s'.mem = s.mem
  free : n ∈ s'.pool.free .inode
  pages : s'.pool.pages = if (s.inodes n).ReturnsPage
    then Sbi.dppToBn (s.inodes n).iSymDpp :: s.pool.pages else s.pool.pages
  bfree : s'.fBfree = s.fBfree + if (s.inodes n).ReturnsPage then 1 else 0
  panicked : s'.panicked = s.panicked

theorem releaseSymlink_rest : (s.releaseSymlink n).mem = s.mem ∧
    (s.releaseSymlink n).panicked = s.panicked ∧
    ((s.releaseSymlink n).inodes n).iXattr = (s.inodes n).iXattr ∧
    Function.update (s.releaseSymlink n).inodes n {} = Function.update s.inodes n {} := by
  unfold Sbi.releaseSymlink
  simp only [setInode_inodes_self]
  split
  · exact ⟨rfl, rfl, rfl, Function.update_idem ..⟩
  · exact ⟨rfl, rfl, rfl, Function.update_idem ..⟩

/-- Of a file without blocks, `toyfs_truncate` changes the record only. -/
theorem truncate_unused (hreg : (s.inodes n).iMode = .reg) (hnil : (s.inodes n).iblkrefs = []) :
    (s.truncate n 0).2 = s.setInode n { s.inodes n with iSize := 0 } := by
  have hblocks : s.blocksOf n = [] := hnil
  have hloff : toLoff 0 % pageSize = 0 := by decide
  unfold Sbi.truncate
  rw [if_neg (by simp [hreg]), if_neg (not_ne_iff.mpr hreg)]
  split
  · simp only [Sbi.dropRange, hblocks, List.foldl_nil, Sbi.zeroAfter, hloff, if_true]
    rfl
  · rfl

theorem dropXattr_releaseInode (hx : (s.inodes n).iXattr = 0) :
    (s.dropXattr n).releaseInode n = s.releaseInode n := by
  simp [Sbi.dropXattr, hx]

theorem mem_free_releaseInode : n ∈ (s.releaseInode n).pool.free .inode := by
  simp [Sbi.releaseInode, Pool.pushRec, Pool.setFree]

/-- Only the record changes before it is zeroed. -/
theorem freed_setInode {i : Inode} (hi : i.iXattr = 0) (hnot : ¬ (s.inodes n).ReturnsPage) :
    Freed n s (((s.setInode n i).dropXattr n).releaseInode n) := by
  rw [dropXattr_releaseInode (by rw [setInode_inodes_self]; exact hi)]
  refine ⟨Function.update_idem .., rfl, mem_free_releaseInode, ?_, ?_, rfl⟩
  · rw [if_neg hnot]
    rfl
  · rw [if_neg hnot]
    rfl

theorem freed_releaseSymlink (hx : (s.inodes n).iXattr = 0) (hmode : (s.inodes n).iMode = .lnk) :
    Freed n s (((s.releaseSymlink n).dropXattr n).releaseInode n) := by
  obtain ⟨hbfree, hpages⟩ := @releaseSymlink_pool s n
  obtain ⟨hmem, hpanic, hxattr, hrec⟩ := @releaseSymlink_rest s n
  have hiff : (s.inodes n).ReturnsPage ↔ symlinkSize < (s.inodes n).iSize := and_iff_right hmode
  rw [dropXattr_releaseInode (hxattr.trans hx)]
  refine ⟨hrec, hmem, mem_free_releaseInode, ?_, ?_, hpanic⟩
  · simp only [hiff]
    exact hpages
  · simp only [hiff]
    exact hbfree

/-- **An inode without data and attributes is freed.** -/
theorem freeInode_unused (hd : (s.inodes n).iMode ≠ .dir) (hx : (s.inodes n).iXattr = 0)
    (hnil : (s.inodes n).iblkrefs = []) : Freed n s (s.freeInode n) := by
  have hself : s.setInode n (s.inodes n) = s := by
    rw [Sbi.setInode, Function.update_eq_self]
  unfold Sbi.freeInode
  simp only
  split
  · next hmode => exact absurd hmode hd
  · next hmode => exact freed_releaseSymlink hx hmode
  · next hmode =>
    have hnot : ¬ (s.inodes n).ReturnsPage := by
      rintro ⟨hl, -⟩
      rw [hmode] at hl
      cases hl
    rw [truncate_unused hmode hnil]
    exact freed_setInode hx hnot
  · next hlnk hreg =>
    have hnot : ¬ (s.inodes n).ReturnsPage := fun h => hlnk h.1
    have h := freed_setInode (i := s.inodes n) hx hnot
    rwa [hself] at h

/-- **What a new inode took comes back** when it is freed, but for the page of a symlink with a
target as long as its record. -/
theorem Freed.restores (hfreed : Freed n s' t) (hnew : NewInode a n ioc p s s')
    (hd : ioc.iMode ≠ .dir) :
    (¬ (ioc.iMode = .lnk ∧ ioc.iSize = symlinkSize) →
      t.fBfree = s.fBfree ∧ t.pool.pages = p.pages) ∧
    (ioc.iMode = .lnk ∧ ioc.iSize = symlinkSize → s.fBfree = t.fBfree + 1) := by
  have hreturns : (s'.inodes n).ReturnsPage ↔ ioc.iMode = .lnk ∧ symlinkSize < ioc.iSize := by
    rw [Inode.ReturnsPage, hnew.mode, hnew.size hd]
  constructor
  · intro hne
    by_cases hlong : ioc.LongSymlink
    · have hlt : symlinkSize < ioc.iSize :=
        UInt64.lt_of_le_of_ne hlong.2 fun heq => hne ⟨hlong.1, heq.symm⟩
      have hret := hreturns.mpr ⟨hlong.1, hlt⟩
      obtain ⟨bn, hbn, hpages, hbfree, -⟩ := hnew.long hlong
      rw [hfreed.bfree, hfreed.pages, if_pos hret, if_pos hret, hbn]
      exact ⟨hbfree.symm, hpages.symm⟩
    · have hret : ¬ (s'.inodes n).ReturnsPage := fun h =>
        hlong ⟨(hreturns.mp h).1, UInt64.le_of_lt (hreturns.mp h).2⟩
      obtain ⟨hpages, hbfree⟩ := hnew.short hlong
      rw [hfreed.bfree, hfreed.pages, if_neg hret, if_neg hret]
      exact ⟨hbfree, hpages⟩
  · rintro ⟨hl, hsize⟩
    have hret : ¬ (s'.inodes n).ReturnsPage := fun h => by
      have hlt := (hreturns.mp h).2
      rw [hsize] at hlt
      exact UInt64.lt_irrefl _ hlt
    obtain ⟨bn, -, -, hbfree, -⟩ := hnew.long ⟨hl, by rw [hsize]; exact UInt64.le_refl _⟩
    rw [hfreed.bfree, if_neg hret]
    exact hbfree

end Zus.Toyfs
