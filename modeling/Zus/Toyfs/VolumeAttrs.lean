import Zus.Toyfs.FailedCreate
import Zus.Toyfs.Volume
import Zus.Toyfs.XattrCalls

/-!
# The attributes of a volume

The attributes of an inode are those that `_find_xe` finds on its page, or none if it has no page.
A request that is not `toyfs_setxattr` leaves the page of an inode that stays. `toyfs_setxattr`
does to the attributes what it is to do as long as its walks land well (`storable`).
-/

namespace Zus.Toyfs

open Zus.Lib Function Xattr

variable {s s' s₁ : Sbi} {x : Sys} {held : RecPtr → ℕ} {n m dir : RecPtr} {a : Act} {bn : ℕ}
  {name : List UInt8} {apiMapMaxSize : ℕ} {ioc : IocXattr}

/-! ## Requests that leave the page -/

/-- The attributes of an inode stay. -/
structure KeepsAttrs (m : RecPtr) (s s' : Sbi) : Prop where
  xattr : (s'.inodes m).iXattr = (s.inodes m).iXattr
  mem : ∀ b, (s.inodes m).Holds b .xattr → s'.mem b = s.mem b

namespace KeepsAttrs

theorem of_inode (hi : s'.inodes m = s.inodes m)
    (hm : ∀ b, (s.inodes m).Holds b .xattr → s'.mem b = s.mem b) : KeepsAttrs m s s' :=
  ⟨by rw [hi], hm⟩

theorem refl (m : RecPtr) (s : Sbi) : KeepsAttrs m s s := ⟨rfl, fun _ _ => rfl⟩

theorem trans (h : KeepsAttrs m s s₁) (h₁ : KeepsAttrs m s₁ s') : KeepsAttrs m s s' where
  xattr := h₁.xattr.trans h.xattr
  mem b hb := by
    rw [h₁.mem b (by simpa only [Inode.Holds, h.xattr] using hb), h.mem b hb]

theorem attrPage (h : KeepsAttrs m s s') : s'.attrPage m = s.attrPage m := by
  unfold Sbi.attrPage
  rw [h.xattr]
  split
  · rfl
  · next hne => rw [h.mem _ ⟨hne, rfl⟩]

end KeepsAttrs

/-- A page an inode uses for other things than entries is not one entries are in. -/
theorem Inv.page_ne_entries {use : PageUse} {b : ℕ} (h : Inv held s) (huse : use ≠ .entries)
    (hb : (s.inodes m).Holds b use) (hbn : Owns s bn (.inode .entries dir)) : b ≠ bn := by
  rintro rfl
  have hown : Owns s b (.inode use m) := hb
  exact huse (Owner.inode.inj (h.exclusive _ _ _ hown hbn)).1

/-- **`toyfs_add_dirent`** stores into a page of entries, or into one that was free. -/
theorem KeepsAttrs.addDirent (h : Inv held s) (hd : (s.inodes dir).iMode = .dir)
    (hn : (s.inodes n).iMode ≠ .unset) : KeepsAttrs m s (s.addDirent dir n name).2 := by
  rcases @addDirent_cases s held n dir name h hd hn with heq | ⟨c, j, off, s₁, ha, -, hs, hmem⟩
  · rw [heq]
    exact .refl m s
  rcases acquireDirent_cases ha with ⟨hplace, rfl⟩ | ⟨s₂, -, hc, -, rfl⟩
  · have hown : Owns s₁ c (.inode .entries dir) := searchChilds_mem hplace
    refine ⟨(hs.inodes m).xattr, fun b hb => ?_⟩
    rw [hmem, update_of_ne (h.page_ne_entries (fun h => by cases h) hb hown)]
  · obtain ⟨-, hun, hq, -⟩ := acquirePmemb_spec h hc
    refine ⟨(hs.inodes m).xattr.trans ((apply_setInode Inode.iXattr (by rfl) m).trans (by rw [hq.inodes])),
      fun b hb => ?_⟩
    have hne : b ≠ c := by
      rintro rfl
      refine hun.2 (.inode .xattr m) ?_
      change (s₂.inodes m).Holds b .xattr
      rw [hq.inodes]
      exact hb
    rw [hmem, update_of_ne hne]
    exact hq.mem b (.inr ⟨.xattr, m, hb⟩)

theorem KeepsAttrs.removeDentry (h : Inv held s) (hd : (s.inodes dir).iMode = .dir)
    (hn : (s.inodes n).iMode ≠ .unset) : KeepsAttrs m s (s.removeDentry dir n name).2 := by
  refine ⟨((metaStep_removeDentry hd hn).inodes m).xattr, fun b hb => ?_⟩
  unfold Sbi.removeDentry
  split
  · rfl
  next bn j hl =>
  have hmem : (s.removeDirent dir n bn j).mem b = s.mem b := by
    rw [KeepsBlocks.removeDirent_mem,
      update_of_ne (h.page_ne_entries (fun h => by cases h) hb (lookupDirent_mem hl))]
  split
  · rfl
  · simp only
    split
    · exact hmem
    · exact hmem

theorem KeepsAttrs.rename {oldDir newDir old : RecPtr} {oldName newName : List UInt8} {time : UInt64}
    {flags : UInt32} (h : Inv held s) (ho : (s.inodes oldDir).iMode = .dir)
    (hw : (s.inodes newDir).iMode = .dir) (hn : (s.inodes old).iMode ≠ .unset) :
    KeepsAttrs m s (s.rename oldDir newDir old oldName newName time flags).2 := by
  have hadd : KeepsAttrs m s (s.addDirent newDir old newName).2 := .addDirent h hw hn
  refine (Sbi.rename_rule
    (P := fun t => KeepsAttrs m s t ∧ ∀ m, (t.inodes m).iMode = (s.inodes m).iMode)
    flags ⟨.refl m s, fun _ => rfl⟩ ⟨hadd, (h.addDirent hw hn).2⟩ ?_).1
  rintro s₁ bn j hl ⟨h₁, hmode⟩
  have hstep : MetaStep s₁ (s₁.renameRest oldDir newDir old time bn j) :=
    metaStep_renameRest ((hmode oldDir).trans ho) ((hmode newDir).trans hw) (by rwa [hmode old])
  refine ⟨⟨(hstep.inodes m).xattr.trans h₁.xattr, fun b hb => ?_⟩,
    fun m => hstep.mode.trans (hmode m)⟩
  -- the old entry goes from its page, after the new one is there
  set s₂ := s₁.removeDirent oldDir old bn j
  have h₂ : s₂.mem b = s.mem b := by
    rw [← h₁.mem b hb, KeepsBlocks.removeDirent_mem,
      update_of_ne (h.page_ne_entries (fun h => by cases h) hb (lookupDirent_mem hl))]
  change (if (s₂.inodes old).iMode = .dir then s₂.addNlink old 1 else s₂).mem b = s.mem b
  split
  · exact h₂
  · exact h₂

/-- **`toyfs_setxattr`** stores into the page of one inode. -/
theorem KeepsAttrs.setxattr {ioc : IocXattr} {res : Except Errno Unit} (h : Inv held s)
    (hne : m ≠ n) (hr : s.setxattr n ioc = some (res, s')) : KeepsAttrs m s s' := by
  rcases Sbi.setxattr_some hr with rfl | ⟨s₁, pg, hx, rfl⟩
  · exact .refl m _
  rcases Sbi.requireXattr_some hx with ⟨hpage, rfl⟩ | ⟨-, c, s₂, ha, rfl⟩
  · refine ⟨rfl, fun b hb => update_of_ne ?_ ..⟩
    rintro rfl
    have hown : Owns s₁ (s₁.inodes n).iXattr (.inode .xattr n) := ⟨hpage, rfl⟩
    have hown' : Owns s₁ (s₁.inodes n).iXattr (.inode .xattr m) := hb
    exact hne (Owner.inode.inj (h.exclusive _ _ _ hown' hown)).2
  · obtain ⟨-, hun, hq, -⟩ := acquirePmemb_spec h ha
    refine ⟨?_, fun b hb => ?_⟩
    · change ((s₂.setInode n _).inodes m).iXattr = _
      rw [setInode_inodes_ne hne, hq.inodes]
    · have hbc : b ≠ c := by
        rintro rfl
        refine hun.2 (.inode .xattr m) ?_
        change (s₂.inodes m).Holds b .xattr
        rw [hq.inodes]
        exact hb
      simp only [setInode_inodes_self]
      refine (update_of_ne hbc ..).trans ?_
      exact hq.mem b (.inr ⟨.xattr, m, hb⟩)

/-- What `toyfs_new_inode` does, with what is in the new inode. -/
theorem newInode_ways {ioc : IocNewInode} {addr res : Option ℕ} (h : Inv held s)
    (hfresh : ∀ b ∈ addr, s.tiis b = none) (hr : s.newInode dir ioc addr = (res, s')) :
    (res = none ∧ NotMade held s s') ∨ ∃ b n p, res = some b ∧ addr = some b ∧
      Made held b n ioc.iMode s s' ∧ NewInode b n ioc p s s' := by
  rcases newInode_cases h hfresh hr with hnot | ⟨b, n, rfl, haddr, hmade⟩
  · exact .inl hnot
  · obtain ⟨k, p, hnew⟩ := newInode_spec hr
    obtain rfl : n = k := by
      have htii := hnew.info
      rw [hmade.tiis, update_self] at htii
      simpa using htii
    exact .inr ⟨b, n, p, rfl, haddr, hmade, hnew⟩

/-- **Only `toyfs_setxattr`** changes the attributes of an inode that stays. -/
theorem Sys.keepsAttrs (h : Inv held x.sbi) (hsend : x.Sends a)
    (hs : x.serve apiMapMaxSize a = some s') (m : RecPtr) :
    KeepsAttrs m x.sbi s' ∨ (s'.inodes m).iXattr = 0 ∨ ∃ ioc, a = .setxattr m ioc := by
  have hfile : ∀ n, a.target = some n → KeepsAttrs m x.sbi s' := by
    intro n ht
    obtain ⟨s₁, hs₁, hserve⟩ := @Sys.serves held n apiMapMaxSize x a h hsend ht
    obtain rfl := Option.some.inj (hs₁.symm.trans hs)
    have hstep := hserve.op.step
    obtain ⟨l, size, blocks, hself⟩ := hstep.self
    refine ⟨?_, fun b hb => hstep.mem b .xattr m hb⟩
    obtain rfl | hne := eq_or_ne m n
    · rw [hself]
    · rw [hstep.others m hne]
  cases a with
  | newInode dir ioc addr =>
    obtain rfl := Option.some.inj hs
    rcases hr : x.sbi.newInode dir ioc addr with ⟨res, s'⟩
    have hmem : (∀ b, InUse x.sbi b → s'.mem b = x.sbi.mem b) → s'.inodes m = x.sbi.inodes m →
        KeepsAttrs m x.sbi s' := fun hmem hi => .of_inode hi fun b hb => hmem b (.inr ⟨.xattr, m, hb⟩)
    rcases newInode_ways h hsend.2.1 hr with ⟨-, hnot⟩ | ⟨b, n, p, -, -, hmade, hnew⟩
    · exact .inl (hmem hnot.mem (congrFun hnot.inodes m))
    · obtain rfl | hne := eq_or_ne m n
      · exact .inr (.inl hnew.xattr)
      · exact .inl (hmem hmade.mem (hmade.others m hne))
  | iget ino addr =>
    obtain rfl := Option.some.inj hs
    exact .inl (.of_inode (congrFun iget_same.1 m) fun b _ => congrFun iget_same.2.1 b)
  | evict b =>
    rcases evict_evicted hs with ⟨-, hstep⟩ | ⟨n, info, -, hstep⟩
    · exact .inl (.of_inode (congrFun hstep.inodes m) fun c _ => congrFun hstep.mem c)
    have hinv₁ : Inv held (x.sbi.setTii b info) := h.congr rfl rfl rfl
    have hfree : InodeStep n (x.sbi.setTii b info) ((x.sbi.setTii b info).freeInode n) :=
      inodeStep_freeInode hinv₁
    obtain rfl | hne := eq_or_ne m n
    · rcases @freeInode_self (x.sbi.setTii b info) m with hzero | heq
      · exact .inr (.inl (by rw [hstep.inodes, hzero]))
      · rw [heq] at hstep
        exact .inl (.of_inode (congrFun hstep.inodes m) fun c _ => congrFun hstep.mem c)
    · refine .inl (.of_inode ?_ fun c hc => ?_)
      · rw [hstep.inodes, hfree.others m hne]
        rfl
      · rw [hstep.mem, hfree.mem c .xattr m hne hc]
        rfl
  | addDentry dir n name =>
    obtain rfl := Option.some.inj hs
    exact .inl (.addDirent h hsend.1 hsend.2.1)
  | removeDentry dir n name =>
    obtain rfl := Option.some.inj hs
    exact .inl (.removeDentry h hsend.1 hsend.2.1)
  | rename oldDir newDir old oldName newName time flags =>
    obtain rfl := Option.some.inj hs
    exact .inl (.rename h hsend.1 hsend.2.1 hsend.2.2.1)
  | setxattr n ioc =>
    obtain ⟨⟨res, s₁⟩, hr, rfl⟩ := Option.map_eq_some_iff.mp hs
    obtain rfl | hne := eq_or_ne m n
    · exact .inr (.inr ⟨ioc, rfl⟩)
    · exact .inl (.setxattr h hne hr)
  | write n buf filepos len => exact .inl (hfile n rfl)
  | fallocate n mode filepos lastPos => exact .inl (hfile n rfl)
  | truncate n size => exact .inl (hfile n rfl)
  | clone src dst posIn posOut len => exact .inl (hfile dst rfl)
  | mmapStore n filepos poff len data => exact .inl (hfile n rfl)

/-! ## What the page holds -/

/-- What is found on a page in agreement with a map is the map. -/
theorem pageAttrs_eq {pg : Bytes} {spec : List UInt8 → Option (List UInt8)} (h : Agrees pg spec) :
    pageAttrs pg = spec := by
  funext name
  unfold pageAttrs
  split
  · next hname =>
    obtain ⟨l, hl, -, rfl⟩ := h
    refine (lookup_none_iff.mpr fun hmem => ?_).symm
    obtain ⟨a, ha, rfl⟩ := List.mem_map.mp hmem
    exact hl.name_of_mem a ha hname
  · next hname =>
    rcases findXe_agrees h hname with ⟨hspec, hfind⟩ | ⟨xe, hfind, hspec, -⟩
    · rw [hfind, hspec]
      rfl
    · rw [hfind, hspec]
      rfl

/-- The walk over the page of every inode meets its attributes, each inside the page. -/
def AttrsOk (s : Sbi) : Prop := ∀ m, Agrees (s.attrPage m) (pageAttrs (s.attrPage m))

/-- A page without attributes. -/
theorem agrees_empty : Agrees (fun _ => 0) fun _ => none :=
  ⟨[], .stop (by decide) rfl, List.nodup_nil, rfl⟩

theorem attrPage_of_zero (h : (s.inodes m).iXattr = 0) : s.attrPage m = fun _ => 0 := if_pos h

theorem attrPage_of_ne (h : (s.inodes m).iXattr ≠ 0) :
    s.attrPage m = s.mem (s.inodes m).iXattr := if_neg h

theorem agrees_of_zero (h : (s.inodes m).iXattr = 0) :
    Agrees (s.attrPage m) (pageAttrs (s.attrPage m)) := by
  rw [attrPage_of_zero h, pageAttrs_eq agrees_empty]
  exact agrees_empty

/-- **`_require_xattr`** leaves the inode with a page that holds its attributes. -/
theorem attrPage_requireXattr (h : Inv held s) (hr : s.requireXattr n = some s₁) :
    (s₁.inodes n).iXattr ≠ 0 ∧ s₁.mem (s₁.inodes n).iXattr = s.attrPage n := by
  rcases Sbi.requireXattr_some hr with ⟨hpage, rfl⟩ | ⟨hzero, c, s₂, ha, rfl⟩
  · exact ⟨hpage, (attrPage_of_ne hpage).symm⟩
  · obtain ⟨-, hun, -, -, hmem⟩ := acquirePmemb_spec h ha
    rw [setInode_inodes_self, attrPage_of_zero hzero]
    exact ⟨hun.1, hmem⟩

/-- A call that succeeds found the name there, or not there, as its flags ask. -/
theorem setxattrPage_flags {pg pg' : Bytes} {spec : List UInt8 → Option (List UInt8)}
    (h : Agrees pg spec) (hv : IocXattr.ValidName ioc.name)
    (hr : setxattrPage pg xeEnd ioc = some (.ok (), pg')) :
    (ioc.create → ioc.value ≠ none → spec ioc.name = none) ∧
      (ioc.replace ∨ ioc.value = none → spec ioc.name ≠ none) := by
  rw [setxattrPage] at hr
  rcases findXe_agrees h hv.2.2 with ⟨hspec, hfind⟩ | ⟨xe, hfind, hspec, -⟩
  · refine ⟨fun _ _ => hspec, ?_⟩
    rcases hval : ioc.value with _ | value
    · simp [hval, doRemovexattr, hfind] at hr
    · rcases hrep : ioc.replace
      · simp
      · simp [hval, doSetxattr, hfind, hrep] at hr
  · refine ⟨fun hcreate hne => ?_, fun _ => by simp [hspec]⟩
    obtain ⟨value, hval⟩ := Option.ne_none_iff_exists'.mp hne
    simp [hval, doSetxattr, hfind, hcreate] at hr

/-- **`toyfs_setxattr`** that is storable returns, and does to the attributes what it does to a
map. -/
theorem setxattr_agrees (h : Inv held s) (hattrs : AttrsOk s) (hv : IocXattr.ValidName ioc.name)
    (hok : storable (s.attrPage n) ioc = true) : ∃ res s', s.setxattr n ioc = some (res, s') ∧
      Agrees (s'.attrPage n) (specAfter (pageAttrs (s.attrPage n)) ioc res) ∧
      (res = .ok () →
        (ioc.create → ioc.value ≠ none → pageAttrs (s.attrPage n) ioc.name = none) ∧
        (ioc.replace ∨ ioc.value = none → pageAttrs (s.attrPage n) ioc.name ≠ none)) := by
  rcases hx : s.requireXattr n with _ | s₁
  · exact ⟨.error .enospc, s, by rw [Sbi.setxattr, hx], hattrs n, fun hres => by cases hres⟩
  obtain ⟨hpage, hmem⟩ := attrPage_requireXattr h hx
  obtain ⟨res, pg', hset, hag⟩ := setxattrPage_agrees (hattrs n) hv hok
  refine ⟨res, s₁.setPage (s₁.inodes n).iXattr pg', ?_, ?_, ?_⟩
  · rw [Sbi.setxattr, hx]
    simp only [hmem, hset]
  · have hpage' : ((s₁.setPage (s₁.inodes n).iXattr pg').inodes n).iXattr ≠ 0 := hpage
    have hnew : (s₁.setPage (s₁.inodes n).iXattr pg').mem (s₁.inodes n).iXattr = pg' :=
      update_self ..
    rw [attrPage_of_ne hpage']
    exact hnew.symm ▸ hag
  · rintro rfl
    exact setxattrPage_flags (hattrs n) hv hset

/-- **One request** whose walks land well leaves the attributes in order. -/
theorem AttrsOk.serve (h : AttrsOk x.sbi) (hinv : Inv held x.sbi) (hsend : x.Sends a)
    (hok : ∀ n ioc, a = .setxattr n ioc → storable (x.sbi.attrPage n) ioc = true)
    (hs : x.serve apiMapMaxSize a = some s') : AttrsOk s' := by
  intro m
  rcases Sys.keepsAttrs hinv hsend hs m with hkeep | hzero | ⟨ioc, rfl⟩
  · rw [hkeep.attrPage]
    exact h m
  · exact agrees_of_zero hzero
  · obtain ⟨res, s₁, hr, hag, -⟩ := setxattr_agrees hinv h hsend.2 (hok m ioc rfl)
    obtain rfl : s₁ = s' := by
      rw [Sys.serve, hr] at hs
      exact Option.some.inj hs
    rwa [pageAttrs_eq hag]

end Zus.Toyfs
