import Zus.Toyfs.Links

/-!
# Link counts over runs

The law of the link counts holds in every run whose requests it stands. What it does not stand is
a directory that is made when the last page of the device is gone: directories that lie one in the
other, with the last one empty, bring a device there.
-/

namespace Zus.Toyfs

open Zus.Lib Dirent

variable {s s' : Sbi} {x x' x₁ : Sys} {held : RecPtr → ℕ} {dir n m oldDir newDir old : RecPtr}
  {ioc : IocNewInode} {addr : Option ℕ} {a : ℕ} {name oldName newName : List UInt8}
  {time : UInt64} {flags : UInt32} {apiMapMaxSize : ℕ}

/-! ## Runs -/

/-- A run of toyfs the table stands. -/
abbrev toyfsTable (apiMapMaxSize : ℕ) : Lts Sys Act :=
  (toyfs apiMapMaxSize).restrict fun x act => x.KeepsTable act

theorem toyfsTable_step {act : Act} (h : (toyfsTable apiMapMaxSize).Reachable x)
    (hn : x.next apiMapMaxSize act = some x') (hkeep : x.KeepsTable act) :
    (toyfsTable apiMapMaxSize).Reachable x' := .step h ⟨hkeep, hn⟩

theorem create_reachable (h : (toyfsTable apiMapMaxSize).Reachable x)
    (hc : x.create apiMapMaxSize dir ioc addr name = some x') :
    (toyfsTable apiMapMaxSize).Reachable x' := by
  obtain ⟨x₁, h₁, ⟨-, rfl⟩ | ⟨a, n, x₂, hr, -, h₂, hend⟩⟩ := create_cases hc
  · exact toyfsTable_step h h₁ trivial
  have hx₁ : (toyfsTable apiMapMaxSize).Reachable x₁ := toyfsTable_step h h₁ trivial
  rcases hend with ⟨-, rfl⟩ | ⟨hfail, hev⟩
  · exact toyfsTable_step hx₁ h₂ trivial
  · obtain rfl := addDentry_failed h₂ hfail
    refine toyfsTable_step hx₁ hev fun _ info hinfo => ?_
    obtain ⟨hnone, -⟩ | ⟨a', n', hr', hmade⟩ := newInode_next (toyfs_sound h) h₁
    · rw [hr] at hnone
      cases hnone
    · obtain rfl : a' = a := by
        rw [hr'] at hr
        exact Option.some.inj hr
      obtain ⟨p, hnew⟩ := hmade.new
      obtain rfl := Option.some.inj (hnew.info.symm.trans hinfo)
      rfl

theorem linkNext_reachable {act : LinkAct} (h : (toyfsTable apiMapMaxSize).Reachable x)
    (hn : x.linkNext apiMapMaxSize act = some x') : (toyfsTable apiMapMaxSize).Reachable x' := by
  cases act with
  | create dir ioc addr name => exact create_reachable h hn
  | link dir n name =>
    rw [Sys.linkNext] at hn
    split at hn
    · cases hn
    · exact toyfsTable_step h hn trivial
  | remove dir n name => exact toyfsTable_step h hn trivial
  | rename oldDir newDir old oldName newName time flags =>
    rw [Sys.linkNext] at hn
    split at hn
    · exact toyfsTable_step h hn trivial
    · cases hn

namespace LinksOk

theorem create (h : LinksOk x) (hx : (toyfsTable apiMapMaxSize).Reachable x)
    (hkeep : x.KeepsLinks (.create dir ioc addr name))
    (hc : x.create apiMapMaxSize dir ioc addr name = some x') : LinksOk x' := by
  have hsound := toyfs_sound hx
  obtain ⟨x₁, h₁, hcases⟩ := create_cases hc
  have hx₁ := toyfs_sound (toyfsTable_step hx h₁ trivial)
  have hd := (Sys.next_cases h₁).1.1
  obtain ⟨hnone, hlive, hin, hresolve⟩ | ⟨a, n, hr, hmade⟩ := newInode_next hsound h₁
  · rcases hcases with ⟨-, rfl⟩ | ⟨a, n, x₂, hsome, -⟩
    · exact h.of_same hlive hin hresolve
    · rw [hnone] at hsome
      cases hsome
  rcases hcases with ⟨hnone, -⟩ | ⟨a', n', x₂, hsome, hti, h₂, hend⟩
  · rw [hr] at hnone
    cases hnone
  obtain rfl : a = a' := by
    rw [hr] at hsome
    exact Option.some.inj hsome
  obtain rfl : n = n' := by
    obtain ⟨p, hnew⟩ := hmade.new
    rw [hnew.info] at hti
    exact Option.some.inj hti
  by_cases hdir : ioc.iMode = .dir
  · obtain ⟨p, hnew, hafter⟩ := hmade.after hr
    obtain ⟨hroom, hlinks, hover⟩ := hkeep hdir p.pages hafter
    have hok := hmade.hasRoom hdir hd hx₁ hnew hroom
    rcases hend with ⟨-, rfl⟩ | ⟨hfail, -⟩
    · exact hmade.linksOk_dir h hsound hx₁ hdir hlinks hover h₂ hok
    · exact absurd hok hfail
  · have hok₁ := hmade.linksOk h hsound hdir
    have hzero : (x₁.sbi.inodes n).iNlink = 0 := by rw [hmade.nlink, if_neg hdir]
    rcases hend with ⟨-, rfl⟩ | ⟨hfail, hev⟩
    · refine hok₁.link hx₁ ?_ (fun _ => ?_) h₂
      · rw [Sys.IsDir, hmade.mode]
        exact hdir
      · rw [hzero]
        decide
    · obtain rfl := addDentry_failed h₂ hfail
      exact hmade.linksOk_evicted h hsound hdir hev

/-- **One request that the law stands.** -/
theorem next {act : LinkAct} (h : LinksOk x) (hx : (toyfsTable apiMapMaxSize).Reachable x)
    (hkeep : x.KeepsLinks act) (hn : x.linkNext apiMapMaxSize act = some x') : LinksOk x' := by
  cases act with
  | create dir ioc addr name => exact h.create hx hkeep hn
  | link dir n name =>
    rw [Sys.linkNext] at hn
    split at hn
    · cases hn
    next hfile => exact h.link (toyfs_sound hx) hfile hkeep hn
  | remove dir n name =>
    have hn' : x.next apiMapMaxSize (.removeDentry dir n name) = some x' := hn
    exact h.remove (toyfs_sound hx) hkeep hn'
  | rename oldDir newDir old oldName newName time flags =>
    rw [Sys.linkNext] at hn
    split at hn
    next hfree => exact h.rename (toyfs_sound hx) hkeep hfree hn
    · cases hn

end LinksOk

theorem mounted_linksOk {nblocks b : ℕ} (h : mounted nblocks b = some x) : LinksOk x := by
  obtain ⟨n, hmount⟩ := mounted_spec h
  have hself := hmount.root
  have hother := hmount.others
  have hlive := hmount.live
  have hresolve : ∀ p, x.sbi.resolve p = 0 := by
    rintro ⟨d, name⟩
    refine Inode.Empty.resolve ?_
    obtain rfl | hne := eq_or_ne d n
    · rw [hself]
      exact ⟨rfl, rfl, rfl⟩
    · rw [hother d hne]
      exact ⟨rfl, rfl, rfl⟩
  have hleads : ∀ p, x.leads p = none := fun p => leads_eq_none (mounted_table h) (hresolve p)
  have hroot : ∀ m, x.IsRoot m ↔ m = n := fun m => by simp [Sys.IsRoot, hlive]
  refine ⟨⟨fun p hp => absurd (hresolve p) hp, fun m hm => ?_, fun m hm => ?_⟩,
    .of_empty hleads (fun m hm => ?_) fun m hm => ?_⟩
  · obtain rfl | hne := eq_or_ne m n
    · rw [hself, hlive]
      exact List.mem_singleton.mpr rfl
    · rw [hother m hne] at hm
      exact absurd rfl hm
  · obtain rfl := (hroot m).mp hm
    rw [Sys.IsDir, hself]
  · obtain rfl := (hroot m).mp hm.2
    rw [Sys.nlink, hself]
    rfl
  · have hne : m ≠ n := by
      rintro rfl
      exact hm ⟨by rw [Sys.IsDir, hself], (hroot m).mpr rfl⟩
    rw [Sys.nlink, hother m hne]
    rfl

/-- A run of requests the law stands, from a device of `1024` blocks. -/
theorem exists_links_of_mounted (apiMapMaxSize : ℕ) (as : List LinkAct) {p : Sys → Bool}
    (hr : ((mounted 1024 1).bind (Lts.runAll (fun x act =>
      if x.KeepsLinks act then x.linkNext apiMapMaxSize act else none) as)).any p) :
    ∃ x, ((toyfsLinks apiMapMaxSize).restrict fun x act => x.KeepsLinks act).Reachable x ∧
      p x = true :=
  Lts.Reachable.exists_of_restrict (fun _ hm => ⟨1024, 1, Nat.le_refl _, hm⟩) as hr

/-! ## Directories one in the other -/

/-- A creation whose steps succeed. -/
theorem create_ok {x₂ : Sys}
    (h₁ : x.next apiMapMaxSize (.newInode dir ioc.unlinked addr) = some x₁)
    (hr : (x.sbi.newInode dir ioc.unlinked addr).1 = some a)
    (hti : (x₁.sbi.tiis a).bind InodeInfo.ti = some n)
    (h₂ : x₁.next apiMapMaxSize (.addDentry dir n name) = some x₂)
    (hres : (x₁.sbi.addDirent dir n name).1 = none) :
    x.create apiMapMaxSize dir ioc addr name = some x₂ := by
  unfold Sys.create
  simp only [h₁, hr, hti, h₂, hres, if_true]

theorem toyfsLinks_table (h : (toyfsLinks apiMapMaxSize).Reachable x) :
    (toyfsTable apiMapMaxSize).Reachable x := by
  refine h.invariant (I := fun x => (toyfsTable apiMapMaxSize).Reachable x) ?_ ?_
  · exact fun x hx => .init hx
  · exact fun x act x' hx hn => linkNext_reachable hx hn

/-- The live inodes are finitely many, and so are the infos. -/
theorem TableOk.exists_fresh {live : List (UInt64 × RecPtr)} (h : TableOk s live) :
    ∃ b, s.tiis b = none := by
  by_contra hall
  have hsome : ∀ b, ∃ info, s.tiis b = some info := fun b =>
    Option.ne_none_iff_exists'.mp fun hnone => hall ⟨b, hnone⟩
  choose info hinfo using hsome
  choose n hn hzi htrack hmapped using fun b => h.info b (info b) (hinfo b)
  have hinj : Function.Injective fun b => (info b).ino := fun b c hbc =>
    Option.some.inj (congrArg InodeRef.tii (h.chained.eq_of_key (htrack b) (htrack c) hbc))
  refine Set.infinite_range_of_injective hinj ((live.map Prod.fst).finite_toSet.subset ?_)
  rintro i ⟨b, rfl⟩
  obtain ⟨k, -, hk⟩ := h.entry _ (htrack b)
  exact List.mem_map.mpr ⟨_, hk, rfl⟩

/-- A new directory takes its record, and nothing else, from the pool. -/
theorem newInode_dir (hr : s.newInode dir ioc addr = (some a, s')) (hmode : ioc.iMode = .dir) :
    ∃ n, s.pool.popRec .inode = some (n, s'.pool) ∧ s'.fFavail = s.fFavail - 1 := by
  obtain ⟨-, s₁, n, p, s₃, ha, hpop, hsetup, rfl⟩ := newInode_some hr
  obtain ⟨-, rfl⟩ := Sbi.allocIi_some ha
  unfold Sbi.setupInode at hsetup
  rw [hmode] at hsetup
  obtain rfl := Option.some.inj hsetup
  exact ⟨n, hpop, rfl⟩

/-- The first entry of a directory takes a page. -/
theorem addDirent_first {N : Set ℕ} {j : ℕ} (hw : Within N j s) (hnil : (s.inodes dir).childs = [])
    (hpages : s.pool.pages ≠ []) : (s.addDirent dir n name).1 = none ∧
      s.pool.pages.length = (s.addDirent dir n name).2.pool.pages.length + 1 ∧
      (s.addDirent dir n name).2.pool.free = s.pool.free := by
  have hpool : ∀ t : Sbi, (t.stdAddDentry dir n).pool = t.pool := by
    intro t
    unfold Sbi.stdAddDentry
    simp only
    split
    · rfl
    · rfl
  rcases hpage : s.acquirePmemb with _ | ⟨bn, s₁⟩
  · exact absurd (acquirePmemb_none hw hpage) hpages
  rcases ha : s.acquireDirent dir name.length with _ | ⟨place, s₂⟩
  · simp [Sbi.acquireDirent, hnil, Sbi.searchChilds, hpage] at ha
  have hs₂ : s₂.pool = s₁.pool := by
    rcases acquireDirent_cases ha with ⟨hsearch, -⟩ | ⟨s₃, -, hc, -, rfl⟩
    · rw [hnil] at hsearch
      cases hsearch
    · obtain ⟨-, rfl⟩ := Prod.mk.inj (Option.some.inj (hpage.symm.trans hc))
      rfl
  have hlast : (s.addDirent dir n name).2.pool = s₂.pool := by
    unfold Sbi.addDirent
    rw [ha]
    exact hpool _
  rw [hlast, hs₂]
  refine ⟨?_, acquirePmemb_pool hpage⟩
  unfold Sbi.addDirent
  rw [ha]

/-- An empty directory, in a run, with what is left of the device: room for as many more inodes as
`left`, pages, and records of inodes. -/
structure Nested (left pages recs : ℕ) (dir : RecPtr) (x : Sys) : Prop where
  reach : (toyfsLinks 65536).Reachable x
  running : x.sbi.panicked = false
  mode : (x.sbi.inodes dir).iMode = .dir
  childs : (x.sbi.inodes dir).childs = []
  counts : left < x.sbi.fFfree ∧ left < x.sbi.fFavail
  top : x.sbi.sTopIno ≠ 0 ∧ x.sbi.sTopIno.toNat + left < 2 ^ 64
  pages : x.sbi.pool.pages.length = pages
  recs : (x.sbi.pool.free .inode).length = recs

/-- A directory, as `_new_inode` asks for one. -/
def iocDir : IocNewInode := ⟨.dir, 0, 0, [], fun _ => 0, false⟩

namespace Nested

variable {left pages recs p f : ℕ}

/-- The inode of a directory in an empty one, before it has its entry. -/
theorem made (h : Nested left pages recs dir x) (hpop : (x.sbi.pool.popRec .inode).isSome) :
    ∃ b n x₁, x.next 65536 (.newInode dir iocDir (some b)) = some x₁ ∧
      x.sbi.newInode dir iocDir (some b) = (some b, x₁.sbi) ∧ MadeIn x x₁ b n iocDir ∧ dir ≠ n ∧
      x₁.Sends (.addDentry dir n [97]) ∧ (x₁.sbi.inodes dir).childs = [] ∧
      x₁.sbi.panicked = false := by
  have hsound := toyfs_sound (toyfsLinks_table h.reach)
  obtain ⟨b, hb⟩ := hsound.table.exists_fresh
  have hroom : ¬ (x.sbi.fFfree = 0 ∨ x.sbi.fFavail = 0) := by
    have := h.counts
    omega
  have hmade := @newInode_made x.sbi dir iocDir b hroom hpop (.inr rfl) (by decide)
  rcases hr : x.sbi.newInode dir iocDir (some b) with ⟨res, s₁⟩
  rw [hr] at hmade
  obtain rfl : res = some b := hmade
  have hsend : x.Sends (.newInode dir iocDir (some b)) :=
    ⟨h.mode, fun c hc => Option.some.inj hc ▸ hb, h.top.1⟩
  have hserve : x.serve 65536 (.newInode dir iocDir (some b)) = some s₁ := by
    rw [Sys.serve, hr]
  obtain ⟨_, _, hspec⟩ := newInode_spec hr
  have hrun : s₁.panicked = false := hspec.panicked.trans h.running
  have h₁ := Sys.next_of_serve hsend hserve hrun
  obtain ⟨hnone, -⟩ | ⟨b', n, hr', hm⟩ := newInode_next hsound h₁
  · rw [hr] at hnone
    cases hnone
  obtain rfl : b = b' := by
    rw [hr] at hr'
    exact Option.some.inj (Prod.mk.inj hr').1
  have hne : dir ≠ n := by
    rintro rfl
    have hd := h.mode
    rw [hm.fresh] at hd
    cases hd
  have hsame : s₁.inodes dir = x.sbi.inodes dir := hm.others hne
  have hnil : (s₁.inodes dir).childs = [] := (congrArg Inode.childs hsame).trans h.childs
  have hset : (s₁.inodes n).iMode ≠ .unset := by
    rw [hm.mode]
    exact fun hc => by cases hc
  have hnolookup : s₁.lookupDirent dir [97] = none := by
    unfold Sbi.lookupDirent
    rw [hnil]
    rfl
  exact ⟨b, n, _, h₁, hr, hm, hne,
    ⟨(congrArg Inode.iMode hsame).trans h.mode, hset, by decide, hnolookup⟩, hnil, hrun⟩

/-- **A directory in an empty one** takes a record and a page, and is empty itself. -/
theorem step (h : Nested (left + 1) pages recs dir x)
    (hcut : Stock.cut .inode pages recs = some (p + 1, f)) :
    ∃ x' n, Nested left p f n x' := by
  have hstock : (x.sbi.pool.popRec .inode).map
      (fun r => (r.2.pages.length, (r.2.free .inode).length)) = some (p + 1, f) := by
    rw [← Pool.popRec_stock, h.pages, h.recs, hcut]
  have hpop : (x.sbi.pool.popRec .inode).isSome := by
    rcases hpop : x.sbi.pool.popRec .inode with _ | r
    · rw [hpop] at hstock
      cases hstock
    · rfl
  obtain ⟨b, n, x₁, h₁, hr, hm, hne, hsend, hnil, hrun⟩ := h.made hpop
  have hx₁ := toyfsTable_step (toyfsLinks_table h.reach) h₁ trivial
  have hsound := toyfs_sound hx₁
  obtain ⟨held, hat⟩ := hm.made
  obtain ⟨_, hnew⟩ := hm.new
  obtain ⟨r, hpool, havail⟩ := newInode_dir hr rfl
  rw [hpool] at hstock
  obtain ⟨hpages₁, hrecs₁⟩ :
      x₁.sbi.pool.pages.length = p + 1 ∧ (x₁.sbi.pool.free .inode).length = f :=
    Prod.mk.inj (Option.some.inj hstock)
  have hleft : x₁.sbi.pool.pages ≠ [] := List.ne_nil_of_length_eq_add_one hpages₁
  -- its entry
  obtain ⟨hd, hset, hvalid, hnolookup⟩ := hsend
  obtain ⟨hres, hpages₂, hfree₂⟩ := @addDirent_first _ dir n [97] _ _ hsound.within hnil hleft
  rcases hsound.dirs.addDirent hat.inv hd hset hvalid hnolookup with heq |
    ⟨-, -, -, ⟨grown, hstep⟩, -⟩
  · rw [heq] at hres
    cases hres
  have hkids : KeepsIds x₁.sbi (x₁.sbi.addDirent dir n [97]).2 := .addDirent hat.inv hd hset
  set s₂ := (x₁.sbi.addDirent dir n [97]).2
  have h₂ : x₁.next 65536 (.addDentry dir n [97]) = some ⟨s₂, x₁.live⟩ :=
    Sys.next_of_serve ⟨hd, hset, hvalid, hnolookup⟩ rfl (hstep.panicked.trans hrun)
  have hcreate : x.linkNext 65536 (.create dir iocDir (some b) [97]) = some ⟨s₂, x₁.live⟩ := by
    have hti : (x₁.sbi.tiis b).bind InodeInfo.ti = some n := by
      rw [hnew.info]
      rfl
    exact create_ok h₁ (congrArg Prod.fst hr) hti h₂ hres
  have htables := hkids.tables
  simp only [Sbi.tables, Prod.mk.injEq] at htables
  obtain ⟨-, -, -, htop, hffree, hfavail⟩ := htables
  obtain ⟨hchilds, -⟩ := hstep.others n hne.symm
  obtain ⟨hfree, hroom⟩ := h.counts
  have hone := hnew.ffree
  refine ⟨⟨s₂, x₁.live⟩, n, .step h.reach hcreate, hstep.panicked.trans hrun,
    (hstep.mode n).trans hm.mode, hchilds.trans hat.childs, ⟨?_, ?_⟩, ?_, ?_, ?_⟩
  · rw [hffree]
    omega
  · rw [hfavail, havail]
    omega
  · have hbefore := h.top.2
    have hsucc : (x.sbi.sTopIno + 1).toNat = x.sbi.sTopIno.toNat + 1 := by
      rw [UInt64.toNat_add, show (1 : UInt64).toNat = 1 from rfl]
      omega
    rw [htop, hat.top, hsucc]
    refine ⟨fun hz => ?_, by omega⟩
    rw [hz] at hsucc
    cases hsucc
  · exact Nat.succ.inj (hpages₂.symm.trans hpages₁)
  · rw [hfree₂]
    exact hrecs₁

end Nested

/-- The pages and records that directories take, one after the other. -/
def Stock.mkdirs : ℕ → ℕ → ℕ → Option (ℕ × ℕ)
  | 0, pages, recs => some (pages, recs)
  | m + 1, pages, recs =>
    match Stock.cut .inode pages recs with
    | some (p + 1, f) => mkdirs m p f
    | _ => none

/-- **Directories one in the other.** -/
theorem Nested.run {p f : ℕ} : ∀ {left pages recs : ℕ} {dir : RecPtr} {x : Sys},
    Nested left pages recs dir x → Stock.mkdirs left pages recs = some (p, f) →
    ∃ x' n, Nested 0 p f n x'
  | 0, _, _, dir, x, h, hrun => by
    obtain ⟨rfl, rfl⟩ := Prod.mk.inj (Option.some.inj hrun)
    exact ⟨x, dir, h⟩
  | left + 1, pages, recs, dir, x, h, hrun => by
    rw [Stock.mkdirs] at hrun
    split at hrun
    · next q g hcut =>
      obtain ⟨x', n, h'⟩ := h.step hcut
      exact h'.run hrun
    · cases hrun

/-- A device is brought to its last page by directories. -/
theorem exists_nested : ∃ x dir recs, Nested 0 0 (recs + 1) dir x := by
  obtain ⟨x, hx, hp⟩ := exists_links_of_mounted 65536
    [.create ⟨1023, 0⟩ iocDir (some 2) [97],
      .create ⟨1023, 0⟩ ⟨.reg, 0, 0, [], fun _ => 0, false⟩ (some 3) [98],
      .create ⟨1023, 0⟩ ⟨.reg, 0, 0, [], fun _ => 0, false⟩ (some 4) [99]]
    (p := fun x => !x.sbi.panicked && (x.sbi.inodes ⟨1023, 1⟩).iMode == .dir &&
      (x.sbi.inodes ⟨1023, 1⟩).childs.isEmpty && decide (989 < x.sbi.fFfree ∧ 989 < x.sbi.fFavail) &&
      decide (x.sbi.sTopIno ≠ 0 ∧ x.sbi.sTopIno.toNat + 989 < 2 ^ 64) &&
      x.sbi.pool.pages.length == 1020 && (x.sbi.pool.free .inode).length == 28)
    (by decide +kernel)
  simp only [Bool.and_eq_true, Bool.not_eq_true', beq_iff_eq, List.isEmpty_iff,
    decide_eq_true_eq] at hp
  obtain ⟨⟨⟨⟨⟨⟨hrun, hmode⟩, hchilds⟩, hcounts⟩, htop⟩, hpages⟩, hrecs⟩ := hp
  have hstart : Nested 989 1020 28 ⟨1023, 1⟩ x :=
    ⟨hx.of_restrict, hrun, hmode, hchilds, hcounts, htop, hpages, hrecs⟩
  have hmk : Stock.mkdirs 989 1020 28 = some (0, 31) := by decide +kernel
  obtain ⟨x', n, h⟩ := hstart.run hmk
  exact ⟨x', n, 30, h⟩

/-- A creation whose entry fails. -/
theorem create_failed
    (h₁ : x.next apiMapMaxSize (.newInode dir ioc.unlinked addr) = some x₁)
    (hr : (x.sbi.newInode dir ioc.unlinked addr).1 = some a)
    (hti : (x₁.sbi.tiis a).bind InodeInfo.ti = some n)
    (h₂ : x₁.next apiMapMaxSize (.addDentry dir n name) = some x₁)
    (hres : (x₁.sbi.addDirent dir n name).1 ≠ none) :
    x.create apiMapMaxSize dir ioc addr name = x₁.next apiMapMaxSize (.evict a) := by
  unfold Sys.create
  simp only [h₁, hr, hti, h₂, if_neg hres]

/-- **A directory without an entry** that has a link. -/
theorem exists_keptDir : ∃ x, (toyfsLinks 65536).Reachable x ∧
    ∃ ino n, (ino, n) ∈ x.live ∧ x.IsDir n ∧ x.nlink n = 1 := by
  obtain ⟨x, dir, recs, h⟩ := exists_nested
  have hpop : (x.sbi.pool.popRec .inode).isSome := by
    refine Option.isSome_iff_ne_none.mpr fun hnone => ?_
    exact List.ne_nil_of_length_eq_add_one h.recs (Pool.popRec_none hnone).1
  obtain ⟨b, n, x₁, h₁, hr, hm, hne, hsend, hnil, hrun⟩ := h.made hpop
  obtain ⟨held, hat⟩ := hm.made
  obtain ⟨_, hnew⟩ := hm.new
  obtain ⟨r, hpool, -⟩ := newInode_dir hr rfl
  have hpages : x₁.sbi.pool.pages = [] := by
    have hsub := Pool.popRec_pages hpool
    rw [List.length_eq_zero_iff.mp h.pages] at hsub
    exact List.sublist_nil.mp hsub
  have hfail : x₁.sbi.addDirent dir n [97] = (some .enospc, x₁.sbi) := addDirent_full hpages hnil
  have h₂ : x₁.next 65536 (.addDentry dir n [97]) = some x₁ := by
    have hserve : x₁.serve 65536 (.addDentry dir n [97]) = some x₁.sbi := by
      rw [Sys.serve, hfail]
    exact Sys.next_of_serve hsend hserve hrun
  -- the eviction that is to undo the creation
  have hlinks : (x₁.sbi.inodes n).iNlink = 1 := by
    rw [hnew.nlink, if_pos (.inl rfl)]
  obtain ⟨s₃, hev, -, hin, hpanic⟩ := evict_newDir hnew hat rfl
  have hheld : x₁.Sends (.evict b) := ⟨_, hnew.info, Int.one_pos⟩
  have hserve : x₁.serve 65536 (.evict b) = some s₃ := hev
  have h₃ := Sys.next_of_serve hheld hserve (hpanic.trans hrun)
  have hkept : x₁.evicted b = none := by
    rw [Sys.evicted_of_last hnew.info rfl rfl, hlinks, if_neg (by decide)]
  have hcreate : x.linkNext 65536 (.create dir iocDir (some b) [97]) =
      x₁.next 65536 (.evict b) := by
    have hti : (x₁.sbi.tiis b).bind InodeInfo.ti = some n := by
      rw [hnew.info]
      rfl
    exact create_failed h₁ (congrArg Prod.fst hr) hti h₂ (by simp [hfail])
  rw [h₃] at hcreate
  refine ⟨_, .step h.reach hcreate, x.sbi.sTopIno, n, ?_, ?_, ?_⟩
  · simp only [Sys.liveAfter, hkept]
    rw [hm.live]
    exact List.mem_cons_self
  · rw [Sys.IsDir, hin]
    exact hm.mode
  · rw [Sys.nlink, hin, hlinks]
    rfl

/-- **The link counts are those of the entries** in every run whose requests the law stands. -/
theorem toyfsLinks_exact (apiMapMaxSize : ℕ) (x : Sys)
    (h : ((toyfsLinks apiMapMaxSize).restrict fun x act => x.KeepsLinks act).Reachable x) :
    x.LinksExact := by
  have hinv := h.invariant (I := fun x => (toyfsTable apiMapMaxSize).Reachable x ∧ LinksOk x)
    ?_ ?_
  · exact hinv.2.exact (toyfs_sound hinv.1).table
  · rintro x ⟨nblocks, b, hle, hm⟩
    exact ⟨.init ⟨nblocks, b, hle, hm⟩, mounted_linksOk hm⟩
  · rintro x act x' ⟨hx, hok⟩ ⟨hkeep, hn⟩
    exact ⟨linkNext_reachable hx hn, hok.next hx hkeep hn⟩

/-- A directory with another one in it, moved to the root, and a file with two names of which one
is removed. -/
theorem toyfsLinks_exact_moved : ∃ x,
    ((toyfsLinks 65536).restrict fun x act => x.KeepsLinks act).Reachable x ∧
      (x.nlink ⟨1023, 0⟩ = 4 ∧ x.nlink ⟨1023, 2⟩ = 2 ∧ x.nlink ⟨1023, 3⟩ = 1) ∧ x.LinksExact := by
  obtain ⟨x, hx, hp⟩ := exists_links_of_mounted 65536
    [.create ⟨1023, 0⟩ iocDir (some 2) [97], .create ⟨1023, 1⟩ iocDir (some 3) [98],
      .create ⟨1023, 1⟩ ⟨.reg, 0, 0, [], fun _ => 0, false⟩ (some 4) [99],
      .link ⟨1023, 0⟩ ⟨1023, 3⟩ [100], .remove ⟨1023, 1⟩ ⟨1023, 3⟩ [99],
      .rename ⟨1023, 1⟩ ⟨1023, 0⟩ ⟨1023, 2⟩ [98] [101] 7 0]
    (p := fun x => x.nlink ⟨1023, 0⟩ == 4 && x.nlink ⟨1023, 2⟩ == 2 && x.nlink ⟨1023, 3⟩ == 1)
    (by decide +kernel)
  simp only [Bool.and_eq_true, beq_iff_eq, and_assoc] at hp
  exact ⟨x, hx, hp, toyfsLinks_exact 65536 x hx⟩

/-- A directory gets its record, and no page is left for its entry. -/
theorem toyfsLinks_keptDir : ¬ ∀ x, (toyfsLinks 65536).Reachable x → x.LinksExact := by
  intro hall
  obtain ⟨x, hx, ino, n, hlive, hdir, hone⟩ := exists_keptDir
  have hexact := hall x hx
  by_cases hl : ino = rootIno ∨ ∃ p, x.sbi.resolve p = ino
  · have htwo := hexact.dir ino n hlive hdir hl
    rw [hone] at htwo
    have hle : (2 : ℕ∞) ≤ ((1 : ℕ) : ℕ∞) := htwo ▸ le_add_self
    exact absurd hle (by decide)
  · rw [not_or] at hl
    have hzero := hexact.gone ino n hlive hl.1 fun p hp => hl.2 ⟨p, hp⟩
    rw [hone] at hzero
    cases hzero

end Zus.Toyfs
