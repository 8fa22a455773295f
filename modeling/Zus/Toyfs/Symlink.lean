import Zus.Toyfs.Frame
import Zus.Toyfs.NewInode

/-!
# Symlinks

A short target lies in the record of its inode, a long one in a page of its own whose address
takes the place of the text. `toyfs_new_inode`, `_get_symlink` and `toyfs_release_symlink` each
decide from the length which of the two it is: the first two take a target of `32` bytes for a
long one, and the last for a short one, so that its page is lost.
-/

namespace Zus.Toyfs

open Zus.Lib

variable {s s' s₁ : Sbi} {x x' x₁ y : Sys} {held : RecPtr → ℕ} {n m dir : RecPtr}
  {ioc : IocNewInode} {addr : Option ℕ} {a b : ℕ} {act : Act} {p : Pool} {target : List UInt8}
  {apiMapMaxSize : ℕ}

/-- `_get_symlink`: the buffer with the target. -/
def Sbi.getSymlink (s : Sbi) (n : RecPtr) : Except Errno Bytes :=
  if (s.inodes n).iMode ≠ .lnk then .error .einval
  else if (s.inodes n).iSize < symlinkSize then .ok (.ofList (s.inodes n).iSymlink)
  else .ok (s.mem (dppToBn (s.inodes n).iSymDpp))

/-! ## The target stays -/

/-- The target of a symlink stays. -/
structure KeepsSymlink (n : RecPtr) (s s' : Sbi) : Prop where
  mode : (s'.inodes n).iMode = (s.inodes n).iMode
  size : (s'.inodes n).iSize = (s.inodes n).iSize
  symlink : (s'.inodes n).iSymlink = (s.inodes n).iSymlink
  symDpp : (s'.inodes n).iSymDpp = (s.inodes n).iSymDpp
  mem : ∀ b, (s.inodes n).Holds b .symlink → s'.mem b = s.mem b

namespace KeepsSymlink

theorem of_inode (hi : s'.inodes n = s.inodes n)
    (hm : ∀ b, (s.inodes n).Holds b .symlink → s'.mem b = s.mem b) : KeepsSymlink n s s' :=
  ⟨by rw [hi], by rw [hi], by rw [hi], by rw [hi], hm⟩

theorem refl (n : RecPtr) (s : Sbi) : KeepsSymlink n s s := of_inode rfl fun _ _ => rfl

theorem of_eq (hi : s'.inodes = s.inodes) (hm : s'.mem = s.mem) : KeepsSymlink n s s' :=
  of_inode (congrFun hi n) fun b _ => congrFun hm b

theorem trans (h : KeepsSymlink n s s₁) (h₁ : KeepsSymlink n s₁ s') : KeepsSymlink n s s' where
  mode := h₁.mode.trans h.mode
  size := h₁.size.trans h.size
  symlink := h₁.symlink.trans h.symlink
  symDpp := h₁.symDpp.trans h.symDpp
  mem b hb := by
    have hb₁ : (s₁.inodes n).Holds b .symlink := by
      simpa only [Inode.Holds, h.mode, h.size, h.symDpp] using hb
    rw [h₁.mem b hb₁, h.mem b hb]

/-- Nothing of the file changes, and its page does not either. -/
theorem of_keepsFiles (hk : KeepsFiles s s') (hl : (s.inodes n).iMode = .lnk)
    (hm : ∀ b, (s.inodes n).Holds b .symlink → s'.mem b = s.mem b) : KeepsSymlink n s s' where
  mode := hk.mode
  size := (hk.files n).size (by rw [hl]; exact fun h => by cases h)
  symlink := (hk.files n).symlink
  symDpp := (hk.files n).symDpp
  mem := hm

theorem of_inodeStep (h : InodeStep m s s') (hne : n ≠ m) : KeepsSymlink n s s' :=
  of_inode (h.others n hne) fun b hb => h.mem b .symlink n hne hb

/-- **What is read of a symlink** depends on its target only. -/
theorem getSymlink (h : KeepsSymlink n s s') : s'.getSymlink n = s.getSymlink n := by
  unfold Sbi.getSymlink
  rw [h.mode, h.size, h.symlink, h.symDpp]
  split
  · rfl
  next hl =>
  split
  · rfl
  next hlong =>
  rw [h.mem _ ⟨not_ne_iff.mp hl, UInt64.not_lt.mp hlong, rfl⟩]

end KeepsSymlink

/-! ## Requests on other pages -/

/-- The page of a target is no page with another use. -/
theorem Inv.symlink_ne {o : Owner} (h : Inv held s) (hb : (s.inodes n).Holds b .symlink)
    (ho : Owns s a o) (hne : o ≠ .inode .symlink n) : b ≠ a := by
  rintro rfl
  have hown : Owns s b (.inode .symlink n) := hb
  exact hne (h.exclusive _ _ _ ho hown)

theorem addDirent_symlink {name : List UInt8} (h : Inv held s) (hd : (s.inodes dir).iMode = .dir)
    (hm : (s.inodes m).iMode ≠ .unset) (hl : (s.inodes n).iMode = .lnk) :
    KeepsSymlink n s (s.addDirent dir m name).2 := by
  refine .of_keepsFiles (.addDirent hd) hl fun b hb => ?_
  rcases @addDirent_cases s held m dir name h hd hm with heq | ⟨c, j, off, s₁, ha, -, hs, hmem⟩
  · rw [heq]
  · rw [hmem]
    rcases acquireDirent_cases ha with ⟨hplace, rfl⟩ | ⟨s₂, -, hc, -, rfl⟩
    · have hown : Owns s₁ c (.inode .entries dir) := searchChilds_mem hplace
      exact Function.update_of_ne (h.symlink_ne hb hown fun h => by cases h) ..
    · -- the page of the entry comes from the pool
      obtain ⟨-, hun, hq, -⟩ := acquirePmemb_spec h hc
      have hne : b ≠ c := by
        rintro rfl
        refine hun.2 (.inode .symlink n) ?_
        change (s₂.inodes n).Holds b .symlink
        rw [hq.inodes]
        exact hb
      rw [Function.update_of_ne hne]
      exact hq.mem b (.inr ⟨.symlink, n, hb⟩)

theorem removeDirent_symlink {bn j : ℕ} (hd : (s.inodes dir).iMode = .dir)
    (hl : (s.inodes n).iMode = .lnk) (hne : ∀ b, (s.inodes n).Holds b .symlink → b ≠ bn) :
    KeepsSymlink n s (s.removeDirent dir m bn j) := by
  refine .of_keepsFiles (.removeDirent hd) hl fun b hb => ?_
  rw [KeepsBlocks.removeDirent_mem, Function.update_of_ne (hne b hb)]

theorem removeDentry_symlink {name : List UInt8} (h : Inv held s)
    (hd : (s.inodes dir).iMode = .dir) (hl : (s.inodes n).iMode = .lnk) :
    KeepsSymlink n s (s.removeDentry dir m name).2 := by
  unfold Sbi.removeDentry
  split
  · exact .refl n s
  · next bn j hlook =>
    split
    · exact .refl n s
    · have h₁ : KeepsSymlink n s (s.removeDirent dir m bn j) :=
        removeDirent_symlink hd hl fun b hb =>
          h.symlink_ne hb (lookupDirent_mem hlook) fun h => by cases h
      have hl₁ : ((s.removeDirent dir m bn j).inodes n).iMode = .lnk := h₁.mode.trans hl
      simp only
      split
      · exact h₁.trans (.of_keepsFiles (.of_setInode ⟨rfl, rfl, rfl, rfl, fun _ => rfl,
          fun _ => rfl⟩) hl₁ fun _ _ => rfl)
      · exact h₁

theorem rename_symlink {oldDir newDir old : RecPtr} {oldName newName : List UInt8} {time : UInt64}
    {flags : UInt32} (h : Inv held s) (ho : (s.inodes oldDir).iMode = .dir)
    (hw : (s.inodes newDir).iMode = .dir) (hm : (s.inodes old).iMode ≠ .unset)
    (hl : (s.inodes n).iMode = .lnk) :
    KeepsSymlink n s (s.rename oldDir newDir old oldName newName time flags).2 := by
  refine .of_keepsFiles (.rename ho hw) hl fun b hb => ?_
  have hadd : KeepsSymlink n s (s.addDirent newDir old newName).2 := addDirent_symlink h hw hm hl
  refine Sbi.rename_rule (P := fun t => t.mem b = s.mem b) flags rfl (hadd.mem b hb)
    fun {s₁ bn j} hlook h₁ => ?_
  -- the old entry goes from its page, after the new one is there
  have hne : b ≠ bn := h.symlink_ne hb (lookupDirent_mem hlook) fun h => by cases h
  set s₂ := s₁.removeDirent oldDir old bn j
  have h₂ : s₂.mem b = s.mem b := by
    rw [← h₁, KeepsBlocks.removeDirent_mem, Function.update_of_ne hne]
  change (if (s₂.inodes old).iMode = .dir then s₂.addNlink old 1 else s₂).mem b = s.mem b
  split
  · exact h₂
  · exact h₂

theorem setxattr_symlink {xioc : IocXattr} {res : Except Errno Unit} (h : Inv held s)
    (hl : (s.inodes n).iMode = .lnk)
    (hr : s.setxattr m xioc = some (res, s')) : KeepsSymlink n s s' := by
  refine .of_keepsFiles (.setxattr hr) hl fun b hb => ?_
  rcases Sbi.setxattr_some hr with rfl | ⟨s₁, pg, hx, rfl⟩
  · rfl
  rcases Sbi.requireXattr_some hx with ⟨hne, rfl⟩ | ⟨-, c, s₂, ha, rfl⟩
  · have hown : Owns s₁ (s₁.inodes m).iXattr (.inode .xattr m) := ⟨hne, rfl⟩
    exact Function.update_of_ne (h.symlink_ne hb hown fun h => by cases h) ..
  · obtain ⟨-, hun, hq, -⟩ := acquirePmemb_spec h ha
    have hne : b ≠ c := by
      rintro rfl
      refine hun.2 (.inode .symlink n) ?_
      change (s₂.inodes n).Holds b .symlink
      rw [hq.inodes]
      exact hb
    simp only [setInode_inodes_self]
    refine (Function.update_of_ne hne ..).trans ?_
    exact hq.mem b (.inr ⟨.symlink, n, hb⟩)

/-- The inode a request frees. -/
def Sys.frees (x : Sys) : Act → Option RecPtr
  | .evict a => x.evicted a
  | _ => none

/-- **A request keeps the target** of every symlink but the one it frees. -/
theorem serve_symlink {x : Sys} (hinv : Inv held x.sbi) (hsend : x.Sends act)
    (hs : x.serve apiMapMaxSize act = some s') (hl : (x.sbi.inodes n).iMode = .lnk)
    (hfree : x.frees act ≠ some n) : KeepsSymlink n x.sbi s' := by
  rcases ht : act.target with _ | m
  · cases act with
    | newInode dir ioc addr =>
      obtain rfl := Option.some.inj hs
      rcases hr : x.sbi.newInode dir ioc addr with ⟨res, s₁⟩
      rcases newInode_cases hinv hsend.2.1 hr with ⟨-, hnot⟩ | ⟨a, m, -, -, hmade⟩
      · exact .of_inode (congrFun hnot.inodes n) fun b hb => hnot.mem b (.inr ⟨.symlink, n, hb⟩)
      · have hne : n ≠ m := by
          rintro rfl
          rw [hmade.fresh] at hl
          cases hl
        exact .of_inode (hmade.others n hne) fun b hb => hmade.mem b (.inr ⟨.symlink, n, hb⟩)
    | iget ino addr =>
      obtain rfl := Option.some.inj hs
      exact .of_eq iget_same.1 iget_same.2.1
    | evict a =>
      rcases evict_evicted hs with ⟨-, hstep⟩ | ⟨m, info, hev, hstep⟩
      · exact .of_eq hstep.inodes hstep.mem
      · have hne : n ≠ m := by
          rintro rfl
          exact hfree hev
        have hinv₁ : Inv held (x.sbi.setTii a info) := hinv.congr rfl rfl rfl
        have hinfo : KeepsSymlink n x.sbi (x.sbi.setTii a info) := .of_eq rfl rfl
        have hfreed := hinfo.trans (.of_inodeStep (inodeStep_freeInode hinv₁) hne)
        exact hfreed.trans (.of_eq hstep.inodes hstep.mem)
    | addDentry dir m name =>
      obtain rfl := Option.some.inj hs
      exact addDirent_symlink hinv hsend.1 hsend.2.1 hl
    | removeDentry dir m name =>
      obtain rfl := Option.some.inj hs
      exact removeDentry_symlink hinv hsend.1 hl
    | rename oldDir newDir old oldName newName time flags =>
      obtain rfl := Option.some.inj hs
      exact rename_symlink hinv hsend.1 hsend.2.1 hsend.2.2.1 hl
    | setxattr m ioc =>
      obtain ⟨⟨res, s₁⟩, hr, rfl⟩ := Option.map_eq_some_iff.mp hs
      exact setxattr_symlink hinv hl hr
    | _ => cases ht
  · obtain ⟨s₁, hs₁, hserve⟩ := @Sys.serves held m apiMapMaxSize x act hinv hsend ht
    obtain rfl := Option.some.inj (hs₁.symm.trans hs)
    have hstep := hserve.op.step
    have hne : n ≠ m := by
      rintro rfl
      rw [hstep.reg] at hl
      cases hl
    exact .of_inodeStep hstep.inodeStep hne

/-- toyfs from a state on, as long as it does not free an inode. -/
def symlinkRuns (apiMapMaxSize : ℕ) (n : RecPtr) (x₁ : Sys) : Lts Sys Act :=
  ((toyfs apiMapMaxSize).startAt x₁).restrict fun y act => y.frees act ≠ some n

/-- **A symlink keeps its target** in every run that does not free it. -/
theorem symlinkRuns_keeps (hok : StoreOk x₁.sbi) (hl : (x₁.sbi.inodes n).iMode = .lnk)
    (h : (symlinkRuns apiMapMaxSize n x₁).Reachable y) :
    StoreOk y.sbi ∧ KeepsSymlink n x₁.sbi y.sbi := by
  induction h with
  | init h₀ =>
    obtain rfl : _ = x₁ := h₀
    exact ⟨hok, .refl n _⟩
  | step _ hs ih =>
    obtain ⟨hfree, hn⟩ := hs
    obtain ⟨hoky, hkeep⟩ := ih
    obtain ⟨hsend, hserve, -, -⟩ := Sys.next_cases hn
    obtain ⟨held, hinv⟩ := hoky.store
    exact ⟨hoky.serve hsend hserve,
      hkeep.trans (serve_symlink hinv hsend hserve (hkeep.mode.trans hl) hfree)⟩

/-! ## The life of a symlink -/

/-- What the kernel sends for a symlink: a short target in the inode, a longer one at
`app_ptr`. -/
structure KernelSymlink (ioc : IocNewInode) (target : List UInt8) : Prop where
  mode : ioc.iMode = .lnk
  size : ioc.iSize = .ofNat target.length
  short : target.length < 32 → ioc.iSymlink.take target.length = target
  long : 32 ≤ target.length → ioc.symname.slice 0 target.length = target

/-- A page goes from the pool between two states. -/
def TakesPage (s s' : Sbi) : Prop := s.fBfree = s'.fBfree + 1

theorem takesPage_releaseSymlink :
    TakesPage (s.releaseSymlink n) s ↔ symlinkSize < (s.inodes n).iSize := by
  rw [TakesPage, releaseSymlink_pool.1]
  split
  · next hlt => exact iff_of_true rfl hlt
  · next hnot => exact iff_of_false (Nat.ne_of_lt (Nat.lt_succ_self _)) hnot

theorem NewInode.takesPage (h : NewInode a n ioc p s s') (hl : ioc.iMode = .lnk) :
    TakesPage s s' ↔ symlinkSize ≤ ioc.iSize := by
  constructor
  · intro htake
    by_contra hshort
    have heq : s'.fBfree = s.fBfree := (h.short fun hlong => hshort hlong.2).2
    have htaken : s.fBfree = s'.fBfree + 1 := htake
    omega
  · intro hlong
    obtain ⟨bn, -, -, htake, -⟩ := h.long ⟨hl, hlong⟩
    exact htake

namespace KernelSymlink

variable (h : KernelSymlink ioc target) (hlen : target.length < 4096)
include h hlen

theorem size_toNat : ioc.iSize.toNat = target.length := by
  rw [h.size, UInt64.toNat_ofNat', Nat.mod_eq_of_lt (Nat.lt_trans hlen (by decide))]

/-- The length at which `toyfs_new_inode` takes a page. -/
theorem symlinkSize_le : symlinkSize ≤ ioc.iSize ↔ 32 ≤ target.length := by
  rw [UInt64.le_iff_toNat_le, h.size_toNat hlen]
  rfl

/-- The length at which `toyfs_release_symlink` returns one. -/
theorem symlinkSize_lt : symlinkSize < ioc.iSize ↔ 32 < target.length := by
  rw [UInt64.lt_iff_toNat_lt, h.size_toNat hlen]
  rfl

/-- **A new symlink gives its target back.** -/
theorem getSymlink (hnew : NewInode a n ioc p s s') :
    ∃ buf, s'.getSymlink n = .ok buf ∧ buf.slice 0 target.length = target := by
  have hdir : ioc.iMode ≠ .dir := by
    rw [h.mode]
    exact fun h => by cases h
  unfold Sbi.getSymlink
  rw [if_neg (not_ne_iff.mpr (hnew.mode.trans h.mode)), hnew.size hdir]
  split
  · next hshort =>
    have hlt : target.length < 32 := by
      rw [← not_le, ← h.symlinkSize_le hlen]
      exact UInt64.not_le.mpr hshort
    have htake := h.short hlt
    refine ⟨_, rfl, ?_⟩
    rw [hnew.symlink]
    -- the text in the record is at least as long as the target
    have hle : target.length ≤ ioc.iSymlink.length := by
      rw [← htake, List.length_take]
      exact Nat.min_le_right _ _
    refine List.ext_getElem (Bytes.length_slice _) fun i h₁ h₂ => ?_
    have hi : i < ioc.iSymlink.length := Nat.lt_of_lt_of_le h₂ hle
    have helem : target[i] = ioc.iSymlink[i] :=
      (List.getElem_of_eq htake.symm h₂).trans List.getElem_take
    simp only [Bytes.slice, List.getElem_map, List.getElem_range, Nat.zero_add, Bytes.ofList, helem]
    rw [List.getD_eq_getElem?_getD, List.getElem?_eq_getElem hi, Option.getD_some]
  · next hnot =>
    have hlong : symlinkSize ≤ ioc.iSize := UInt64.not_lt.mp hnot
    obtain ⟨bn, rfl, -, -, hread⟩ := hnew.long ⟨h.mode, hlong⟩
    rw [h.size_toNat hlen] at hread
    exact ⟨_, rfl, hread.trans (h.long ((h.symlinkSize_le hlen).mp hlong))⟩

end KernelSymlink

/-- The life of a symlink that a request made. -/
structure SymlinkLife (apiMapMaxSize : ℕ) (target : List UInt8) (n : RecPtr) (x x₁ : Sys) :
    Prop where
  /-- the target is read back in every state up to its end -/
  gives : ∀ y, (symlinkRuns apiMapMaxSize n x₁).Reachable y →
    ∃ buf, y.sbi.getSymlink n = .ok buf ∧ buf.slice 0 target.length = target
  /-- the release returns a page just when the creation took one -/
  returns : ∀ y, (symlinkRuns apiMapMaxSize n x₁).Reachable y →
    (TakesPage (y.sbi.releaseSymlink n) y.sbi ↔ TakesPage x.sbi x₁.sbi)
  /-- freed at once, the symlink leaves the free pages as they were without its record -/
  restores : (x₁.sbi.freeInode n).fBfree = x.sbi.fBfree ∧
    ∃ p, x.sbi.pool.popRec .inode = some (n, p) ∧ (x₁.sbi.freeInode n).pool.pages = p.pages

/-- **The life of a symlink** is as it should be unless its target has just the `32` bytes of
the record: then it takes a page that is not returned. -/
theorem symlinkLife_iff (apiMapMaxSize : ℕ) (x x₁ : Sys)
    (h : (toyfs apiMapMaxSize).Reachable x) (dir : RecPtr) (ioc : IocNewInode) (addr : Option ℕ)
    (a : ℕ) (target : List UInt8) (hlen : 1 ≤ target.length ∧ target.length < 4096)
    (hkernel : KernelSymlink ioc target) (hmade : (x.sbi.newInode dir ioc addr).1 = some a)
    (hn : x.next apiMapMaxSize (.newInode dir ioc addr) = some x₁) :
    ∃ n, (x₁.sbi.tiis a).bind InodeInfo.ti = some n ∧
      (SymlinkLife apiMapMaxSize target n x x₁ ↔ target.length ≠ 32) := by
  obtain ⟨hsend, hserve, -, -⟩ := Sys.next_cases hn
  have hok₁ : StoreOk x₁.sbi := (toyfs_storeOk h).serve hsend hserve
  have hr : x.sbi.newInode dir ioc addr = (some a, x₁.sbi) :=
    Prod.ext hmade (Option.some.inj hserve)
  obtain ⟨n, p, hnew⟩ := newInode_spec hr
  have hl : (x₁.sbi.inodes n).iMode = .lnk := hnew.mode.trans hkernel.mode
  have hdir : ioc.iMode ≠ .dir := by
    rw [hkernel.mode]
    exact fun h => by cases h
  have hsize := hnew.size hdir
  have htakes : TakesPage x.sbi x₁.sbi ↔ 32 ≤ target.length :=
    (hnew.takesPage hkernel.mode).trans (hkernel.symlinkSize_le hlen.2)
  have hreturns : ∀ y, (symlinkRuns apiMapMaxSize n x₁).Reachable y →
      (TakesPage (y.sbi.releaseSymlink n) y.sbi ↔ 32 < target.length) := by
    intro y hy
    have hkeep := (symlinkRuns_keeps hok₁ hl hy).2
    rw [takesPage_releaseSymlink, hkeep.size, hsize]
    exact hkernel.symlinkSize_lt hlen.2
  refine ⟨n, by rw [hnew.info]; rfl, fun hlife => ?_, fun hne => ⟨fun y hy => ?_, fun y hy => ?_, ?_⟩⟩
  · rintro heq
    have hstart : (symlinkRuns apiMapMaxSize n x₁).Reachable x₁ := .init rfl
    have hboth := (hreturns x₁ hstart).symm.trans ((hlife.returns x₁ hstart).trans htakes)
    omega
  · obtain ⟨buf, hbuf, htarget⟩ := hkernel.getSymlink hlen.2 hnew
    exact ⟨buf, (symlinkRuns_keeps hok₁ hl hy).2.getSymlink.trans hbuf, htarget⟩
  · rw [hreturns y hy, htakes]
    omega
  · have hfreed := freeInode_unused (by rw [hl]; exact fun h => by cases h) hnew.xattr hnew.iblkrefs
    have hsame : ¬ (ioc.iMode = .lnk ∧ ioc.iSize = symlinkSize) := by
      rintro ⟨-, heq⟩
      have hle := (hkernel.symlinkSize_le hlen.2).mp (by rw [heq]; exact UInt64.le_refl _)
      have hlt := mt (hkernel.symlinkSize_lt hlen.2).mpr (by rw [heq]; exact UInt64.lt_irrefl _)
      omega
    obtain ⟨hbfree, hpages⟩ := (hfreed.restores hnew hdir).1 hsame
    exact ⟨hbfree, p, hnew.pop, hpages⟩

/-- The request for a symlink with a target of `len` bytes `97`. -/
def symlinkOf (len : ℕ) : IocNewInode :=
  ⟨.lnk, 0, .ofNat len, List.replicate len 97, fun _ => 97, false⟩

theorem kernelSymlink_symlinkOf (len : ℕ) :
    KernelSymlink (symlinkOf len) (List.replicate len 97) where
  mode := rfl
  size := by rw [List.length_replicate, symlinkOf]
  short _ := by rw [List.length_replicate, symlinkOf, List.take_replicate, Nat.min_self]
  long _ := by simp [symlinkOf, Bytes.slice]

/-- A target of `100` bytes on a fresh device. -/
theorem symlinkLife_iff_hundred : ∃ x x₁ n, (toyfs 65536).Reachable x ∧
    x.next 65536 (.newInode ⟨1023, 0⟩ (symlinkOf 100) (some 2)) = some x₁ ∧
    SymlinkLife 65536 (List.replicate 100 97) n x x₁ := by
  obtain ⟨x, hx, hp⟩ := exists_reachable_of_mounted 65536 []
    (p := fun x => (x.sbi.newInode ⟨1023, 0⟩ (symlinkOf 100) (some 2)).1 == some 2 &&
      (x.next 65536 (.newInode ⟨1023, 0⟩ (symlinkOf 100) (some 2))).isSome) (by decide +kernel)
  rw [Bool.and_eq_true, beq_iff_eq] at hp
  obtain ⟨x₁, hx₁⟩ := Option.isSome_iff_exists.mp hp.2
  obtain ⟨n, -, hlife⟩ := symlinkLife_iff 65536 x x₁ hx ⟨1023, 0⟩ (symlinkOf 100) (some 2) 2
    (List.replicate 100 97) (by decide) (kernelSymlink_symlinkOf 100) hp.1 hx₁
  exact ⟨x, x₁, n, hx, hx₁, hlife.mpr (by decide)⟩

/-- A target of `32` bytes: the creation takes a page, and the release returns none. -/
theorem symlink_page_lost : ¬ ∀ x x₁, (toyfs 65536).Reachable x → ∀ dir ioc addr a target,
    1 ≤ target.length ∧ target.length < 4096 → KernelSymlink ioc target →
    (x.sbi.newInode dir ioc addr).1 = some a → x.next 65536 (.newInode dir ioc addr) = some x₁ →
    ∃ n, (x₁.sbi.tiis a).bind InodeInfo.ti = some n ∧ SymlinkLife 65536 target n x x₁ := by
  intro hall
  obtain ⟨x, hx, hp⟩ := exists_reachable_of_mounted 65536 []
    (p := fun x => (x.sbi.newInode ⟨1023, 0⟩ (symlinkOf 32) (some 2)).1 == some 2 &&
      (x.next 65536 (.newInode ⟨1023, 0⟩ (symlinkOf 32) (some 2))).any fun x₁ =>
        (x₁.sbi.tiis 2).bind InodeInfo.ti == some ⟨1023, 1⟩ &&
        x.sbi.fBfree == x₁.sbi.fBfree + 1 &&
        (x₁.sbi.releaseSymlink ⟨1023, 1⟩).fBfree == x₁.sbi.fBfree) (by decide +kernel)
  rw [Bool.and_eq_true, beq_iff_eq, Option.any_eq_true] at hp
  obtain ⟨hmade, x₁, hx₁, hp⟩ := hp
  simp only [Bool.and_eq_true, beq_iff_eq] at hp
  obtain ⟨⟨hti, htake⟩, hkept⟩ := hp
  obtain ⟨n, hn, hlife⟩ := hall x x₁ hx ⟨1023, 0⟩ (symlinkOf 32) (some 2) 2
    (List.replicate 32 97) (by decide) (kernelSymlink_symlinkOf 32) hmade hx₁
  obtain rfl := Option.some.inj (hn.symm.trans hti)
  have hback : (x₁.sbi.releaseSymlink ⟨1023, 1⟩).fBfree = x₁.sbi.fBfree + 1 :=
    (hlife.returns x₁ (.init rfl)).mpr htake
  omega

end Zus.Toyfs
