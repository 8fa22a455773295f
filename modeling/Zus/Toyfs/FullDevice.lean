import Zus.Toyfs.CloneRoom
import Zus.Toyfs.NewInode

/-!
# A full device

The preallocation of a range without blocks takes as many blocks as it has pages, so that a
device can be filled to its last page by one request. What that leaves for the others is a pool
without pages that still has records of inodes: an inode can be made, and no first entry of a
directory.
-/

namespace Zus.Toyfs

open Zus.Lib

variable {s s' : Sbi} {n dir : RecPtr} {off last : ℤ} {N : Set ℕ} {j : ℕ}

/-- Blocks are taken for holes, one after the other. -/
def Stock.freshes : ℕ → Stock → Option Stock
  | 0, k => some k
  | m + 1, k => k.fresh.bind (freshes m)

/-! ## Blocks take no record of an inode -/

theorem free_newDblkref : s.newDblkref.2.pool.free .inode = s.pool.free .inode := by
  unfold Sbi.newDblkref
  split
  · rfl
  next bn s₁ ha =>
  have hfree := (acquirePmemb_pool ha).2
  split
  · exact congrFun hfree .inode
  next d s₂ hd =>
  obtain ⟨p, hpop, rfl⟩ := Sbi.acquireDblkref_some hd
  rw [← hfree, ← (Pool.popRec_cases hpop).2 .inode (by decide)]
  rfl

theorem free_newIblkref : (s.newIblkref n off).2.pool.free .inode = s.pool.free .inode := by
  have hnew := @free_newDblkref s
  unfold Sbi.newIblkref
  rcases hd : s.newDblkref with ⟨_ | d, s₁⟩
  · rw [hd] at hnew
    exact hnew
  rw [hd] at hnew
  simp only
  split
  · apply Eq.trans _ hnew
    unfold Sbi.decrefDblkref Sbi.putDblkref
    split
    · rfl
    · rfl
  next r s₂ hr =>
  obtain ⟨p, hpop, rfl⟩ := Sbi.acquireIblkref_some hr
  apply Eq.trans _ hnew
  exact (Pool.popRec_cases hpop).2 .inode (by decide)

theorem free_requireIblkref :
    (s.requireIblkref n off).2.pool.free .inode = s.pool.free .inode := by
  unfold Sbi.requireIblkref
  split
  · have hnew := @free_newIblkref s n (offToBoff off)
    rcases hib : s.newIblkref n (offToBoff off) with ⟨_ | ib, s₁⟩
    · rw [hib] at hnew
      exact hnew
    · rw [hib] at hnew
      exact hnew
  · split
    · have hnew := @free_newDblkref s
      rcases hd : s.newDblkref with ⟨_ | d, s₁⟩
      · rw [hd] at hnew
        exact hnew
      · rw [hd] at hnew
        exact hnew
    · rfl

/-! ## The blocks of a range -/

/-- **The preallocation of a range without blocks** takes one for each of its pages. -/
theorem fallocRangeLoop_stock {cnt c : UInt64} (h : OnFile n s) (hw : Within N j s) (hoff : 0 ≤ off)
    (hend : ∀ ib ∈ s.blocksOf n, ib.off < offToBoff off)
    (hr : s.fallocRangeLoop n off last cnt = (.ok c, s')) :
    Stock.freshes (pagesIn off last).length s.pool.stock = some s'.pool.stock ∧
      s'.pool.free .inode = s.pool.free .inode := by
  fun_induction Sbi.fallocRangeLoop s n off last cnt with
  | case1 s off cnt hlt s₁ hreq => cases (Prod.mk.inj hr).1
  | case2 s off cnt hlt ib s₁ hreq ih =>
    obtain ⟨held, hinv⟩ := h.inv
    have hw₁ : Within N j (s.requireIblkref n off).2 := hw.requireIblkref
    have hfree := @free_requireIblkref s n off
    rw [hreq] at hw₁ hfree
    have hnone : fetchIblkref (s.blocksOf n) off = none := by
      rcases hf : fetchIblkref (s.blocksOf n) off with _ | x
      · rfl
      · obtain ⟨hx, hxoff⟩ := fetchIblkref_some hf
        exact absurd hxoff (Int.ne_of_lt (hend x hx))
    have hstock : s.pool.stock.fresh = some s₁.pool.stock := by
      have := requireIblkref_stock h hw hreq
      rw [hnone] at this
      exact this
    have hnext : offToBoff off < offToBoff (nextPage off) := by
      rw [offToBoff_of_aligned (nextPage_emod hoff)]
      exact Int.lt_of_le_of_lt (offToBoff_le hoff) (lt_nextPage off)
    have hbefore : ∀ x ∈ s₁.blocksOf n, x.off < offToBoff (nextPage off) := by
      intro x hx
      by_cases hxoff : x.off = offToBoff off
      · rw [hxoff]
        exact hnext
      · exact Int.lt_trans (hend x ((mem_requireIblkref hinv h.reg hreq hxoff).mp hx)) hnext
    obtain ⟨hrest, hinodes⟩ := ih (h.requireIblkref hoff hreq) hw₁ (nextPage_nonneg hoff) hbefore hr
    rw [pagesIn_of_lt hlt, List.length_cons, Stock.freshes, hstock, Option.bind_some]
    exact ⟨hrest, hinodes.trans hfree⟩
  | case3 s off cnt hlt =>
    obtain ⟨-, rfl⟩ := Prod.mk.inj hr
    rw [pagesIn_of_ge (Int.not_lt.mp hlt)]
    exact ⟨rfl, rfl⟩

/-- **The preallocation of an empty file** that there is room for. -/
theorem fallocRange_stock {len : UInt64} {pages : ℕ} (h : OnFile n s) (hw : Within N j s)
    (hnil : s.blocksOf n = []) (hlen : toLoff len = pages * pageSize)
    (hroom : s.pool.Room pages 0) :
    Stock.freshes pages s.pool.stock = some (s.fallocRange n 0 len).2.pool.stock ∧
      (s.fallocRange n 0 len).2.pool.free .inode = s.pool.free .inode := by
  obtain ⟨held, hinv⟩ := h.inv
  have hdone : (s.fallocRangeLoop n 0 (pages * pageSize) 0).1 = _ :=
    fallocRangeLoop_result (le_refl 0) h.file hinv hw h.reg
  rw [if_pos ((fits_empty_iff hnil pages).mpr hroom)] at hdone
  have hlength : (pagesIn 0 (pages * pageSize)).length = pages := by
    have := length_pagesIn (Int.zero_emod pageSize) pages
    rwa [Int.zero_add] at this
  unfold Sbi.fallocRange
  rw [Int.zero_add, hlen]
  rcases hloop : s.fallocRangeLoop n 0 (pages * pageSize) 0 with ⟨err | cnt, s₁⟩
  · rw [hloop] at hdone
    cases hdone
  · have hstock := fallocRangeLoop_stock h hw (le_refl 0) (by simp [hnil]) hloop
    rw [hlength] at hstock
    exact hstock

/-! ## Creations on a full device -/

/-- No page is left, but records of inodes are; the directory has no entry, and the address is
not in use. -/
structure Sbi.Full (s : Sbi) (dir : RecPtr) (addr : ℕ) : Prop where
  pages : s.pool.pages = []
  records : s.pool.free .inode ≠ []
  counts : ¬ (s.fFfree = 0 ∨ s.fFavail = 0)
  mode : (s.inodes dir).iMode = .dir
  childs : (s.inodes dir).childs = []
  fresh : s.tiis addr = none
  top : s.sTopIno ≠ 0

/-- Without pages there is no place for the first entry of a directory. -/
theorem addDirent_full {m : RecPtr} {name : List UInt8} (hpages : s.pool.pages = [])
    (hnil : (s.inodes dir).childs = []) : s.addDirent dir m name = (some .enospc, s) := by
  have hnone : s.acquirePmemb = none := by
    unfold Sbi.acquirePmemb Pool.popPmemb
    rw [hpages]
    simp
  unfold Sbi.addDirent Sbi.acquireDirent
  rw [hnil, Sbi.searchChilds, hnone]

theorem Sbi.Full.sends {x : Sys} {ioc : IocNewInode} {addr : ℕ} (h : x.sbi.Full dir addr) :
    x.Sends (.newInode dir ioc (some addr)) :=
  ⟨h.mode, fun _ hb => Option.some.inj hb ▸ h.fresh, h.top⟩

/-- **A file or a directory is made** when there is a record for it. -/
theorem newInode_made {ioc : IocNewInode} {addr : ℕ} (hcounts : ¬ (s.fFfree = 0 ∨ s.fFavail = 0))
    (hpop : (s.pool.popRec .inode).isSome) (hmode : ioc.iMode = .reg ∨ ioc.iMode = .dir)
    (hsize : ioc.iSize < 4096) : (s.newInode dir ioc (some addr)).1 = some addr := by
  have hunset : ioc.iMode ≠ .unset := by
    rcases hmode with hm | hm <;> simp [hm]
  obtain ⟨⟨r, p⟩, hp⟩ := Option.isSome_iff_exists.mp hpop
  unfold Sbi.newInode Sbi.allocIi
  rw [if_neg hcounts]
  simp only [if_neg hunset, if_neg (UInt64.not_le.mpr hsize), Sbi.acquireInode, hp]
  unfold Sbi.setupInode
  rcases hmode with hm | hm
  · simp [hm]
  · simp [hm]

/-- A file or a directory is made, and its entry fails. -/
theorem Sbi.Full.newInode {held : RecPtr → ℕ} {ioc : IocNewInode} {addr : ℕ}
    (h : s.Full dir addr) (hinv : Inv held s) (hmode : ioc.iMode = .reg ∨ ioc.iMode = .dir)
    (hsize : ioc.iSize < 4096) : ∃ m s₁, s.newInode dir ioc (some addr) = (some addr, s₁) ∧
      (s₁.tiis addr).bind InodeInfo.ti = some m ∧
      ∀ name, s₁.addDirent dir m name = (some .enospc, s₁) := by
  have hpop : (s.pool.popRec .inode).isSome := by
    rw [Option.isSome_iff_ne_none]
    exact fun hnone => h.records (Pool.popRec_none hnone).1
  have hmade := @newInode_made s dir ioc addr h.counts hpop hmode hsize
  rcases hr : s.newInode dir ioc (some addr) with ⟨res, s₁⟩
  rw [hr] at hmade
  obtain rfl : res = some addr := hmade
  obtain ⟨m, p, hnew⟩ := newInode_spec hr
  have hfresh : ∀ b ∈ some addr, s.tiis b = none := fun b hb => by
    obtain rfl := Option.some.inj hb
    exact h.fresh
  obtain ⟨hres, -⟩ | ⟨b, k, hres, -, hat⟩ := newInode_cases hinv hfresh hr
  · cases hres
  obtain rfl := Option.some.inj hres
  obtain rfl : m = k := by
    have htii := hnew.info
    rw [hat.tiis, Function.update_self] at htii
    simpa [eq_comm] using htii
  refine ⟨m, s₁, rfl, by rw [hnew.info]; rfl, fun name => addDirent_full ?_ ?_⟩
  · have hshort : ¬ ioc.LongSymlink := by
      rcases hmode with hm | hm <;> simp [IocNewInode.LongSymlink, hm]
    have hsub := Pool.popRec_pages hnew.pop
    rw [h.pages] at hsub
    rw [(hnew.short hshort).1]
    exact List.sublist_nil.mp hsub
  · have hne : dir ≠ m := by
      rintro rfl
      have hd := h.mode
      rw [hat.fresh] at hd
      cases hd
    rw [hat.others dir hne]
    exact h.childs

/-- A request that is served without a failed assertion. -/
theorem Sys.next_of_serve {x : Sys} {act : Act} {apiMapMaxSize : ℕ} (hsend : x.Sends act)
    (hs : x.serve apiMapMaxSize act = some s) (hrun : s.panicked = false) :
    x.next apiMapMaxSize act = some ⟨s, x.liveAfter s act⟩ := by
  unfold Sys.next
  rw [if_pos hsend, hs]
  simp [hrun]

/-- The preallocation of `1005` pages takes the last page of a device of `1024` blocks. -/
theorem exists_full : ∃ x, (toyfs 65536).Reachable x ∧ x.sbi.Full ⟨1023, 0⟩ 3 := by
  obtain ⟨x, hx, hp⟩ := exists_restrict_of_mounted 65536 (fun _ a => a.InFile)
    [.newInode ⟨1023, 0⟩ ⟨.reg, 0, 0, [], fun _ => 0, false⟩ (some 2)]
    (p := fun x => (x.sbi.inodes ⟨1023, 1⟩).iMode == .reg &&
      (x.sbi.blocksOf ⟨1023, 1⟩).isEmpty && decide (x.sbi.pool.stock = ⟨1021, 0, 0⟩) &&
      decide (x.sbi.pool.Room 1005 0) && !(x.sbi.pool.free .inode).isEmpty &&
      decide (¬ (x.sbi.fFfree = 0 ∨ x.sbi.fFavail = 0)) &&
      (x.sbi.inodes ⟨1023, 0⟩).iMode == .dir && (x.sbi.inodes ⟨1023, 0⟩).childs.isEmpty &&
      (x.sbi.tiis 3).isNone && x.sbi.sTopIno != 0)
    (by decide +kernel)
  simp only [Bool.and_eq_true, beq_iff_eq, List.isEmpty_iff, decide_eq_true_eq, bne_iff_ne,
    Bool.not_eq_true', List.isEmpty_eq_false_iff, Option.isNone_iff_eq_none] at hp
  obtain ⟨⟨⟨⟨⟨⟨⟨⟨⟨hreg, hnil⟩, hstock⟩, hroom⟩, hrec⟩, hcounts⟩, hdir⟩, hchilds⟩, hfresh⟩, htop⟩ := hp
  have hon : OnFile ⟨1023, 1⟩ x.sbi := (toyfs_filesOk hx).onFile hreg
  have hw := toyfs_within hx.of_restrict
  obtain ⟨held, hinv⟩ := hon.inv
  have hzero : toLoff 0 = 0 := by decide
  have hlen : toSize (toLoff 4116480 - 0) = 4116480 := by decide
  have hplain : x.sbi.fallocate ⟨1023, 1⟩ 0 0 4116480 = x.sbi.fallocRange ⟨1023, 1⟩ 0 4116480 := by
    have hio : checkIo 0 4116480 = none := by decide
    have hcheck : checkFalloc 0 0 4116480 = none := by decide
    unfold Sbi.fallocate
    rw [hio]
    simp [hcheck]
  set s₁ := (x.sbi.fallocRange ⟨1023, 1⟩ 0 4116480).2
  have hserve : x.serve 65536 (.fallocate ⟨1023, 1⟩ 0 0 4116480) = some s₁ := by
    unfold Sys.serve
    simp only [hzero, hlen, hplain, s₁]
  -- the blocks and their records take all pages
  have hpages : toLoff 4116480 = (1005 : ℕ) * pageSize := by decide
  obtain ⟨htaken, hinodes⟩ := fallocRange_stock hon hw hnil hpages hroom
  have hlast : s₁.pool.stock = ⟨0, 19, 19⟩ := by
    have hall : Stock.freshes 1005 ⟨1021, 0, 0⟩ = some ⟨0, 19, 19⟩ := by decide +kernel
    rw [hstock, hall] at htaken
    exact (Option.some.inj htaken).symm
  -- the rest of the state is as before
  have hsend : x.Sends (.fallocate ⟨1023, 1⟩ 0 0 4116480) := hreg
  have hrun : s₁.panicked = false :=
    (FileOk.serve (toyfs_filesOk hx).lists (toyfs_filesOk hx).running hinv hsend (by decide) rfl
      hserve).running
  obtain ⟨s₂, hs₂, hserves⟩ := @Sys.serves held ⟨1023, 1⟩ 65536 x _ hinv hsend rfl
  obtain rfl := Option.some.inj (hserve.symm.trans hs₂)
  have hroot := hserves.op.step.others ⟨1023, 0⟩ (by decide)
  have htables := hserves.op.step.tables
  simp only [Sbi.tables, Prod.mk.injEq] at htables
  obtain ⟨-, -, htiis, htopIno, hffree, hfavail⟩ := htables
  have hnext : x.next 65536 (.fallocate ⟨1023, 1⟩ 0 0 4116480) = some ⟨s₁, x.live⟩ :=
    Sys.next_of_serve hsend hserve hrun
  refine ⟨_, .step hx.of_restrict hnext, List.length_eq_zero_iff.mp (congrArg Stock.pages hlast),
    ?_, ?_, ?_, ?_, ?_, ?_⟩
  · rw [hinodes]
    exact hrec
  · rw [hffree, hfavail]
    exact hcounts
  · rw [hroot]
    exact hdir
  · rw [hroot]
    exact hchilds
  · rw [htiis]
    exact hfresh
  · rw [htopIno]
    exact htop

end Zus.Toyfs
