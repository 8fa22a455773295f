import Zus.Toyfs.DirSystem
import Zus.Toyfs.FullDevice

/-!
# A creation that fails

When there is no place for the entry of a new inode, `_new_inode` evicts the inode it has made.
An eviction frees an inode without links: a new directory has one already and is kept, and the
release of a symlink misses the page of a target of `32` bytes. Any other inode leaves no trace.
-/

namespace Zus.Toyfs

open Zus.Lib

variable {s s' s₁ s₂ : Sbi} {x x' : Sys} {held : RecPtr → ℕ} {n dir : RecPtr} {ioc : IocNewInode}
  {addr : Option ℕ} {a : ℕ} {p : Pool} {info : InodeInfo} {ino : UInt64} {act : Act}
  {l : List InodeRef} {name : List UInt8} {apiMapMaxSize : ℕ}

/-! ## The next number is not in the table -/

/-- The numbers in the table are below the next one. -/
def Sbi.Numbered (s : Sbi) : Prop :=
  s.sTopIno = 0 ∨ ∀ slot, ∀ e ∈ s.imap slot, e.ino < s.sTopIno

theorem mem_setFirstTii {tii : Option ℕ} {e : InodeRef} (he : e ∈ setFirstTii ino tii l) :
    ∃ e' ∈ l, e'.ino = e.ino := by
  induction l with
  | nil => cases he
  | cons e₁ rest ih =>
    unfold setFirstTii at he
    split at he
    · rcases List.mem_cons.mp he with rfl | he
      · exact ⟨e₁, List.mem_cons_self, rfl⟩
      · exact ⟨e, List.mem_cons_of_mem _ he, rfl⟩
    · rcases List.mem_cons.mp he with rfl | he
      · exact ⟨e, List.mem_cons_self, rfl⟩
      · obtain ⟨e', he', hino⟩ := ih he
        exact ⟨e', List.mem_cons_of_mem _ he', hino⟩

namespace Sbi.Numbered

/-- The number of the next inode leads to nothing. -/
theorem itableFind_eq_none (h : s.Numbered) (htop : s.sTopIno ≠ 0) :
    s.itableFind s.sTopIno = none := by
  refine List.find?_eq_none.mpr fun e he heq => ?_
  have hlt := h.resolve_left htop _ e he
  rw [beq_iff_eq.mp heq] at hlt
  exact UInt64.lt_irrefl _ hlt

theorem keeps (h : s.Numbered) (htop : s'.sTopIno = s.sTopIno)
    (hsub : ∀ slot, ∀ e ∈ s'.imap slot, ∃ e' ∈ s.imap slot, e'.ino = e.ino) : s'.Numbered := by
  unfold Sbi.Numbered
  rw [htop]
  refine h.imp_right fun hall slot e he => ?_
  obtain ⟨e', he', hino⟩ := hsub slot e he
  rw [← hino]
  exact hall slot e' he'

theorem of_eq (h : s.Numbered) (htop : s'.sTopIno = s.sTopIno) (himap : s'.imap = s.imap) :
    s'.Numbered :=
  h.keeps htop fun slot e he => ⟨e, by rwa [← himap], rfl⟩

/-- A chain changes, and has no number it did not have. -/
theorem setSlot {slot : ℕ} (h : s.Numbered) (htop : s'.sTopIno = s.sTopIno)
    (himap : s'.imap = Function.update s.imap slot l)
    (hsub : ∀ e ∈ l, ∃ e' ∈ s.imap slot, e'.ino = e.ino) : s'.Numbered := by
  refine h.keeps htop fun slot' e he => ?_
  rw [himap] at he
  obtain rfl | hne := eq_or_ne slot' slot
  · rw [Function.update_self] at he
    exact hsub e he
  · rw [Function.update_of_ne hne] at he
    exact ⟨e, he, rfl⟩

theorem newInode {res : Option ℕ} (h : s.Numbered) (hinv : Inv held s) (htop : s.sTopIno ≠ 0)
    (hfresh : ∀ b ∈ addr, s.tiis b = none) (hr : s.newInode dir ioc addr = (res, s')) :
    s'.Numbered := by
  have hall := h.resolve_left htop
  rcases newInode_cases hinv hfresh hr with ⟨-, hnot⟩ | ⟨a, n, -, -, hmade⟩
  · rcases hnot.top with heq | heq
    · exact h.of_eq heq hnot.imap
    · unfold Sbi.Numbered
      rw [heq, hnot.imap]
      rcases lt_add_one_or_eq_zero (UInt64.le_refl s.sTopIno) with hz | hlt
      · exact .inl hz
      · exact .inr fun slot e he => UInt64.lt_trans (hall slot e he) hlt
  · unfold Sbi.Numbered
    rw [hmade.top]
    rcases lt_add_one_or_eq_zero (UInt64.le_refl s.sTopIno) with hz | hlt
    · exact .inl hz
    · refine .inr fun slot e he => ?_
      rw [hmade.imap] at he
      obtain rfl | hne := eq_or_ne slot (slotOf s.sTopIno)
      · rw [Function.update_self] at he
        rcases List.mem_cons.mp he with rfl | he
        · exact hlt
        · exact UInt64.lt_trans (hall _ e he) hlt
      · rw [Function.update_of_ne hne] at he
        exact UInt64.lt_trans (hall slot e he) hlt

theorem iget (h : s.Numbered) : (s.iget ino addr).2.Numbered := by
  unfold Sbi.iget
  split
  · exact h
  · split
    · split
      · exact h.of_eq rfl rfl
      · exact h
    · split
      · exact h
      · next a s₁ ha =>
        obtain ⟨-, rfl⟩ := Sbi.allocIi_some ha
        exact h.setSlot rfl rfl fun e he => mem_setFirstTii he

theorem evict (h : s.Numbered) (hinv : Inv held s) (he : s.evict a = some s') : s'.Numbered := by
  obtain ⟨info, ha, ⟨-, rfl⟩ | ⟨hone, n, -, hti, -, -, -⟩⟩ := evict_cases he
  · exact h.of_eq rfl rfl
  · obtain ⟨htop, himap⟩ := evict_table hinv ha hone hti he
    split at himap
    · refine h.setSlot htop himap fun e hmem => ?_
      split at hmem
      · exact ⟨e, List.mem_of_mem_eraseP hmem, rfl⟩
      · exact mem_setFirstTii hmem
    · exact h.of_eq htop himap

end Sbi.Numbered

theorem mounted_numbered {nblocks : ℕ} (h : mounted nblocks a = some x) : x.sbi.Numbered := by
  unfold mounted at h
  obtain ⟨⟨n, s⟩, hroot, rfl⟩ := Option.map_eq_some_iff.mp h
  unfold Sbi.newRootInode at hroot
  split at hroot
  · cases hroot
  next b s₁ ha =>
  obtain ⟨-, rfl⟩ := Sbi.allocIi_some ha
  split at hroot
  · cases hroot
  next r s₂ hr =>
  obtain ⟨_, -, rfl⟩ := Sbi.acquireInode_some hr
  obtain ⟨rfl, rfl⟩ := Prod.mk.inj (Option.some.inj hroot)
  refine .inr fun slot e he => ?_
  simp only [Sbi.itableInsert, Sbi.setSlot] at he
  obtain rfl | hne := eq_or_ne slot (slotOf rootIno)
  · rw [Function.update_self] at he
    rcases List.mem_cons.mp he with rfl | he
    · exact (by decide : rootIno < rootIno + 1)
    · cases he
  · rw [Function.update_of_ne hne] at he
    cases he

/-- **The numbers in the table are below the next one** in every state toyfs reaches. -/
theorem toyfs_numbered (h : (toyfs apiMapMaxSize).Reachable x) : x.sbi.Numbered := by
  refine (h.invariant (I := fun x => StoreOk x.sbi ∧ x.sbi.Numbered) ?_ ?_).2
  · rintro x ⟨nblocks, addr, -, hm⟩
    exact ⟨mounted_storeOk hm, mounted_numbered hm⟩
  · rintro x act x' ⟨hok, hnum⟩ hn
    obtain ⟨hsend, hs, -, -⟩ := Sys.next_cases hn
    obtain ⟨held, hinv⟩ := hok.store
    refine ⟨hok.serve hsend hs, ?_⟩
    rcases Sys.keepsIds hinv hsend hs with ⟨dir, ioc, addr, rfl⟩ | ⟨ino, addr, rfl⟩ | ⟨a, rfl⟩ |
      ⟨hkeep, -⟩
    · obtain heq := Option.some.inj hs
      exact hnum.newInode hinv hsend.2.2 hsend.2.1 (Prod.ext rfl heq)
    · obtain heq := Option.some.inj hs
      rw [← heq]
      exact hnum.iget
    · exact hnum.evict hinv hs
    · have htables := hkeep.tables
      simp only [Sbi.tables, Prod.mk.injEq] at htables
      exact hnum.of_eq htables.2.2.2.1 htables.1

/-! ## The eviction of a new inode -/

/-- The last reference to an info that is in the table goes. -/
theorem evict_last (ha : s.tiis a = some info) (hone : info.ref = 1) (hti : info.ti = some n)
    (hmap : info.mapped = true) :
    s.evict a = some ((Sbi.iUntrack (if (s.inodes n).iNlink = 0
      then (s.setTii a { info with ref := 0 }).freeInode n else s.setTii a { info with ref := 0 })
      a { info with ref := 0 } ((s.inodes n).iNlink == 0)).tiiFree a) := by
  have hzero : info.ref - 1 = 0 := by
    rw [hone]
    rfl
  unfold Sbi.evict
  simp only [ha, hti, hzero, hmap, ne_eq, not_true_eq_false, if_false, if_true]
  rfl

/-- What is left when the first entry of a chain is removed, and its info freed. -/
structure Untracked (a : ℕ) (ino : UInt64) (rest : List InodeRef) (s s' : Sbi) : Prop where
  step : TableStep s s'
  imap : s'.imap = Function.update s.imap (slotOf ino) rest
  tii : s'.tiis a = none
  ffree : s'.fFfree = s.fFfree + 1
  panicked : s'.panicked = s.panicked

theorem untrack_first {ti : Option RecPtr} (hcount : 0 < s.icount)
    (himap : s.imap (slotOf info.ino) = ⟨some a, ti, info.ino⟩ :: l) :
    Untracked a info.ino l s ((s.iUntrack a info true).tiiFree a) := by
  have hfind : (s.itableFind info.ino).isSome = true := by
    simp [Sbi.itableFind, himap]
  have hany : (s.imap (slotOf info.ino)).any (·.tii == some a) = true := by
    simp [himap]
  obtain ⟨⟨hp, hd, hi, hm, hb⟩, -⟩ := @iUntrack_spec s a info true
  have htable := (@iUntrack_table s a info true).2
  rw [if_pos rfl, himap, List.eraseP_cons_of_pos (by simp)] at htable
  obtain ⟨hffree, hpanic⟩ : (s.iUntrack a info true).fFfree = s.fFfree ∧
      (s.iUntrack a info true).panicked = ((s.panicked || !(s.itableFind info.ino).isSome) ||
        !(decide (0 < s.icount) && (s.imap (slotOf info.ino)).any (·.tii == some a))) := by
    unfold Sbi.iUntrack Sbi.itableRemove Sbi.setTii Sbi.setSlot Sbi.assert
    exact ⟨rfl, rfl⟩
  refine ⟨⟨hp, hd, hi, hm, hb⟩, htable, Function.update_self .., congrArg (· + 1) hffree,
    hpanic.trans ?_⟩
  simp [hfind, hany, hcount]

/-- The entry of an inode with links stays. -/
theorem untrack_linked {ti : Option RecPtr}
    (himap : s.imap (slotOf info.ino) = ⟨some a, ti, info.ino⟩ :: l) :
    ((s.iUntrack a info false).tiiFree a).itableFind info.ino ≠ none ∧
      ((s.iUntrack a info false).tiiFree a).inodes = s.inodes ∧
      ((s.iUntrack a info false).tiiFree a).panicked = s.panicked := by
  have htable := (@iUntrack_table s a info false).2
  rw [if_neg (by decide), himap, setFirstTii, if_pos rfl] at htable
  have hfind : (s.itableFind info.ino).isSome = true := by
    simp [Sbi.itableFind, himap]
  have hpanic : (s.iUntrack a info false).panicked =
      (s.panicked || !(s.itableFind info.ino).isSome) := by
    unfold Sbi.iUntrack Sbi.setEntryTii Sbi.setTii Sbi.setSlot Sbi.assert
    rfl
  refine ⟨?_, (@iUntrack_spec s a info false).1.inodes, hpanic.trans (by simp [hfind])⟩
  change ((s.iUntrack a info false).imap (slotOf info.ino)).find? (·.ino == info.ino) ≠ none
  rw [htable, Function.update_self, List.find?_cons_of_pos (by simp)]
  exact fun h => by cases h

/-! ## The creation -/

/-- What `_new_inode` asks for when an entry is to follow: an inode without links. -/
def IocNewInode.unlinked (ioc : IocNewInode) : IocNewInode :=
  { ioc with iNlink := 0, tmpfile := false }

theorem addDirent_failed {e : Errno} (h : s.addDirent dir n name = (some e, s')) : s' = s := by
  unfold Sbi.addDirent at h
  split at h
  · exact (Prod.mk.inj h).2.symm
  · cases (Prod.mk.inj h).1

/-- A creation in directory `dir` left nothing of the inode with record `n` and info `a`. -/
structure NoTrace (dir n : RecPtr) (a : ℕ) (s s' : Sbi) : Prop where
  /-- the number is not in the table -/
  entry : s'.itableFind s.sTopIno = none
  tii : s'.tiis a = none
  /-- the record is in the pool, zeroed -/
  record : n ∈ s'.pool.free .inode ∧ s'.inodes n = {}
  /-- the free pages are those that were left when the record was taken -/
  pages : ∃ p, s.pool.popRec .inode = some (n, p) ∧ s'.pool.pages = p.pages
  parent : s'.inodes dir = s.inodes dir
  dentries : ∀ bn ∈ (s.inodes dir).childs, s'.mem bn = s.mem bn
  names : ∀ name, s'.lookupDirent dir name = s.lookupDirent dir name ∧
    s'.lookup dir name = s.lookup dir name
  counts : s'.fFfree = s.fFfree ∧ s'.fBfree = s.fBfree
  safe : s'.panicked = s.panicked

/-- A directory with the same pages has the same names. -/
theorem lookup_congr (hin : s'.inodes dir = s.inodes dir)
    (hm : ∀ bn ∈ (s.inodes dir).childs, s'.mem bn = s.mem bn) :
    s'.lookupDirent dir name = s.lookupDirent dir name ∧
      s'.lookup dir name = s.lookup dir name := by
  have hfind : s'.lookupDirent dir name = s.lookupDirent dir name := by
    unfold Sbi.lookupDirent
    rw [hin]
    rw [← List.head?_filterMap, ← List.head?_filterMap]
    refine congrArg List.head? (List.filterMap_congr fun bn hbn => ?_)
    rw [hm bn hbn]
  refine ⟨hfind, ?_⟩
  unfold Sbi.lookup
  rw [hfind]
  split
  · next bn j hl => rw [hm bn (lookupDirent_mem hl)]
  · rfl

/-- A new directory has a link, and is kept. -/
theorem evict_newDir (hnew : NewInode a n ioc p s s₁) (hmade : Made held a n ioc.iMode s s₁)
    (hd : ioc.iMode = .dir) : ∃ s₂, s₁.evict a = some s₂ ∧ s₂.itableFind s.sTopIno ≠ none ∧
      s₂.inodes = s₁.inodes ∧ s₂.panicked = s₁.panicked := by
  have hlinks : (s₁.inodes n).iNlink ≠ 0 := by
    rw [hnew.nlink, if_pos (.inl hd)]
    decide
  have hlast := evict_last hnew.info rfl rfl rfl
  rw [if_neg hlinks, beq_eq_false_iff_ne.mpr hlinks] at hlast
  have hslot : s₁.imap (slotOf s.sTopIno) =
      ⟨some a, some n, s.sTopIno⟩ :: s.imap (slotOf s.sTopIno) := by
    rw [hmade.imap, Function.update_self]
  exact ⟨_, hlast, untrack_linked hslot⟩

/-- A new inode that is no directory has no link, and is freed; its entry goes. -/
theorem evict_newInode (hnew : NewInode a n ioc p s s₁) (hmade : Made held a n ioc.iMode s s₁)
    (hd : ioc.iMode ≠ .dir) (hzero : ioc.iNlink = 0) (htmp : ioc.tmpfile = false) :
    ∃ s₂ t, s₁.evict a = some s₂ ∧ Freed n s₁ t ∧ TableStep t s₂ ∧ s₂.imap = s.imap ∧
      s₂.tiis a = none ∧ s₂.fFfree = s.fFfree ∧ s₂.panicked = s.panicked := by
  have hlinks : (s₁.inodes n).iNlink = 0 := by
    rw [hnew.nlink, if_neg (not_or.mpr ⟨hd, fun h => by simp [htmp] at h⟩), hzero]
  have hlast := evict_last hnew.info rfl rfl rfl
  rw [if_pos hlinks, beq_iff_eq.mpr hlinks] at hlast
  set info : InodeInfo := { ti := some n, zi := some n, ino := s.sTopIno, mapped := true }
  have hinv : Inv held (s₁.setTii a info) := hmade.inv.congr rfl rfl rfl
  have htables := (inodeStep_freeInode hinv (n := n)).tables
  simp only [Sbi.tables, Prod.mk.injEq] at htables
  obtain ⟨himap, hicount, -, -, hffree, -⟩ := htables
  have hfreed : Freed n (s₁.setTii a info) ((s₁.setTii a info).freeInode n) :=
    freeInode_unused (fun h => hd (hnew.mode.symm.trans h)) hnew.xattr hnew.iblkrefs
  have hslot : ((s₁.setTii a info).freeInode n).imap (slotOf info.ino) =
      ⟨some a, some n, info.ino⟩ :: s.imap (slotOf s.sTopIno) := by
    rw [himap]
    change s₁.imap (slotOf s.sTopIno) = _
    rw [hmade.imap, Function.update_self]
  have hcount : 0 < ((s₁.setTii a info).freeInode n).icount := by
    rw [hicount]
    change 0 < s₁.icount
    rw [hnew.icount]
    exact Nat.succ_pos _
  obtain ⟨hstep, himap₂, htii, hffree₂, hpanic⟩ := untrack_first hcount hslot
  refine ⟨_, _, hlast, ⟨hfreed.inodes, hfreed.mem, hfreed.free, hfreed.pages, hfreed.bfree,
    hfreed.panicked⟩, hstep, ?_, htii, ?_, ?_⟩
  · rw [himap₂, himap]
    change Function.update s₁.imap (slotOf s.sTopIno) (s.imap (slotOf s.sTopIno)) = s.imap
    rw [hmade.imap, Function.update_idem, Function.update_eq_self]
  · rw [hffree₂, hffree]
    exact hnew.ffree.symm
  · exact hpanic.trans (hfreed.panicked.trans hnew.panicked)

/-- **A creation whose entry fails leaves no trace** unless it is of a directory, which is kept,
or of a symlink with a target of `32` bytes, whose page is lost. -/
theorem failedCreate_noTrace_iff (apiMapMaxSize : ℕ) (x : Sys)
    (h : (toyfs apiMapMaxSize).Reachable x) (dir n : RecPtr) (ioc : IocNewInode)
    (addr : Option ℕ) (a : ℕ) (name : List UInt8) (s₁ s₂ : Sbi)
    (hsend : x.Sends (.newInode dir ioc.unlinked addr))
    (hmade : x.sbi.newInode dir ioc.unlinked addr = (some a, s₁))
    (hti : (s₁.tiis a).bind InodeInfo.ti = some n)
    (hfail : s₁.addDirent dir n name = (some .enospc, s₂)) :
    ∃ s₃, s₂.evict a = some s₃ ∧ (NoTrace dir n a x.sbi s₃ ↔
      ioc.iMode ≠ .dir ∧ ¬ (ioc.iMode = .lnk ∧ ioc.iSize = 32)) := by
  obtain ⟨hd, hfresh, htop⟩ := hsend
  obtain ⟨held, hinv⟩ := (toyfs_storeOk h).store
  obtain rfl := addDirent_failed hfail
  obtain ⟨n', p, hnew⟩ := newInode_spec hmade
  obtain rfl : n' = n := by
    rw [hnew.info] at hti
    exact Option.some.inj hti
  obtain ⟨hres, -⟩ | ⟨a', m, hres, -, hat⟩ := newInode_cases hinv hfresh hmade
  · cases hres
  obtain rfl := Option.some.inj hres
  obtain rfl : n' = m := by
    have htii := hnew.info
    rw [hat.tiis, Function.update_self] at htii
    simpa [eq_comm] using htii
  by_cases hmode : ioc.iMode = .dir
  · obtain ⟨s₃, hev, hkept, -⟩ := evict_newDir hnew hat hmode
    exact ⟨s₃, hev, iff_of_false (fun hno => hkept hno.entry) fun hno => hno.1 hmode⟩
  obtain ⟨s₃, t, hev, hfreed, hstep, himap, htii, hffree, hpanic⟩ :=
    evict_newInode hnew hat hmode rfl rfl
  obtain ⟨hback, hlost⟩ := hfreed.restores hnew hmode
  have hbfree : s₃.fBfree = t.fBfree := (Prod.mk.inj hstep.bfree).1
  have hne : dir ≠ n' := by
    rintro rfl
    rw [hat.fresh] at hd
    cases hd
  have hparent : s₃.inodes dir = x.sbi.inodes dir := by
    rw [hstep.inodes, hfreed.inodes, Function.update_of_ne hne, hat.others dir hne]
  have hpages : ∀ bn ∈ (x.sbi.inodes dir).childs, s₃.mem bn = x.sbi.mem bn := by
    intro bn hbn
    rw [hstep.mem, hfreed.mem]
    exact hat.mem bn (KeepsDirs.inUse_of_childs hbn)
  refine ⟨s₃, hev, fun hno => ⟨hmode, fun hl => ?_⟩, fun hok => ?_⟩
  · have hcount := hno.counts.2
    have hless := hlost hl
    omega
  · obtain ⟨hcount, hfree⟩ := hback hok.2
    refine ⟨?_, htii, ⟨?_, ?_⟩, ⟨p, hnew.pop, ?_⟩, hparent, hpages,
      fun name => lookup_congr hparent hpages, ⟨hffree, hbfree.trans hcount⟩, hpanic⟩
    · unfold Sbi.itableFind
      rw [himap]
      exact (toyfs_numbered h).itableFind_eq_none htop
    · rw [hstep.pool]
      exact hfreed.free
    · rw [hstep.inodes, hfreed.inodes, Function.update_self]
    · rw [hstep.pool, hfree]

/-- A file is made on a full device, and its entry fails. -/
theorem failedCreate_noTrace_iff_file : ∃ x a n s₁ s₂ s₃, (toyfs 65536).Reachable x ∧
    x.sbi.newInode ⟨1023, 0⟩ ⟨.reg, 0, 0, [], fun _ => 0, false⟩ (some 3) = (some a, s₁) ∧
    s₁.addDirent ⟨1023, 0⟩ n [97] = (some .enospc, s₂) ∧ s₂.evict a = some s₃ ∧
    NoTrace ⟨1023, 0⟩ n a x.sbi s₃ := by
  obtain ⟨x, hx, hfull⟩ := exists_full
  obtain ⟨held, hinv⟩ := (toyfs_storeOk hx).store
  set ioc : IocNewInode := ⟨.reg, 0, 0, [], fun _ => 0, false⟩
  obtain ⟨n, s₁, hmade, hti, hfail⟩ := @Sbi.Full.newInode _ _ held ioc _ hfull hinv (.inl rfl)
    (by decide)
  obtain ⟨s₃, hev, hiff⟩ := failedCreate_noTrace_iff 65536 x hx ⟨1023, 0⟩ n ioc (some 3) 3 [97]
    s₁ s₁ hfull.sends hmade hti (hfail [97])
  exact ⟨x, 3, n, s₁, s₁, s₃, hx, hmade, hfail [97], hev, hiff.mpr (by decide)⟩

/-- A directory is made on a full device, and its entry fails. -/
theorem failedCreate_keeps_dir : ¬ ∀ x, (toyfs 65536).Reachable x →
    ∀ dir n (ioc : IocNewInode) addr a name s₁ s₂ s₃, x.Sends (.newInode dir ioc.unlinked addr) →
      x.sbi.newInode dir ioc.unlinked addr = (some a, s₁) →
      (s₁.tiis a).bind InodeInfo.ti = some n →
      s₁.addDirent dir n name = (some .enospc, s₂) → s₂.evict a = some s₃ →
      NoTrace dir n a x.sbi s₃ := by
  intro hall
  obtain ⟨x, hx, hfull⟩ := exists_full
  obtain ⟨held, hinv⟩ := (toyfs_storeOk hx).store
  set ioc : IocNewInode := ⟨.dir, 0, 0, [], fun _ => 0, false⟩
  have hsend : x.Sends (.newInode ⟨1023, 0⟩ ioc (some 3)) := hfull.sends
  obtain ⟨n, s₁, hmade, hti, hfail⟩ := @Sbi.Full.newInode _ _ held ioc _ hfull hinv (.inr rfl)
    (by decide)
  obtain ⟨m, p, hnew⟩ := newInode_spec hmade
  obtain ⟨hres, -⟩ | ⟨a, k, hres, -, hat⟩ := newInode_cases hinv hsend.2.1 hmade
  · cases hres
  obtain rfl := Option.some.inj hres
  obtain rfl : m = k := by
    have htii := hnew.info
    rw [hat.tiis, Function.update_self] at htii
    simpa [eq_comm] using htii
  obtain ⟨s₃, hev, hkept, -⟩ := evict_newDir hnew hat rfl
  exact hkept (hall x hx ⟨1023, 0⟩ n ioc (some 3) 3 [97] s₁ s₁ s₃ hsend hmade hti
    (hfail [97]) hev).entry

end Zus.Toyfs
