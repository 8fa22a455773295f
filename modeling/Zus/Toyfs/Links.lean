import Zus.Lib.Links
import Zus.Toyfs.FailedCreate
import Zus.Toyfs.Rename

/-!
# Link counts

`zus_std_new_dir`, `zus_std_add_dentry` and `zus_std_remove_dentry` count links, and two places of
toyfs correct the count: `_do_rename` adds one for a directory, and `toyfs_remove_dentry` sets the
count of a removed directory to zero. Together they count the entries that lead to a file, and two
for a directory with one for each directory in it.

This fails where a directory that got its record gets no entry: `_new_inode` evicts it, but
`zus_std_new_dir` has counted a link, so that it is kept.
-/

namespace Zus.Toyfs

open Zus.Lib Dirent

variable {s s' : Sbi} {x x' x₁ : Sys} {held : RecPtr → ℕ} {dir n m oldDir newDir old : RecPtr}
  {p : RecPtr × List UInt8} {ioc : IocNewInode} {addr : Option ℕ} {a : ℕ} {ino : UInt64}
  {name oldName newName : List UInt8} {time : UInt64} {flags : UInt32} {apiMapMaxSize : ℕ}

/-! ## The requests -/

/-- The requests that make and remove links. -/
inductive LinkAct
  /-- `_new_inode` without `ZI_TMPFILE` -/
  | create (dir : RecPtr) (ioc : IocNewInode) (addr : Option ℕ) (name : List UInt8)
  /-- `toyfs_add_dentry` of a file -/
  | link (dir n : RecPtr) (name : List UInt8)
  /-- `toyfs_remove_dentry` -/
  | remove (dir n : RecPtr) (name : List UInt8)
  /-- `toyfs_rename` onto a name that is not there -/
  | rename (oldDir newDir old : RecPtr) (oldName newName : List UInt8) (time : UInt64)
      (flags : UInt32)

namespace Sys

/-- `_new_inode`: an inode that gets no entry is evicted. -/
def create (x : Sys) (apiMapMaxSize : ℕ) (dir : RecPtr) (ioc : IocNewInode) (addr : Option ℕ)
    (name : List UInt8) : Option Sys :=
  match x.next apiMapMaxSize (.newInode dir ioc.unlinked addr) with
  | none => none
  | some x₁ =>
    match (x.sbi.newInode dir ioc.unlinked addr).1 with
    | none => some x₁
    | some a =>
      match (x₁.sbi.tiis a).bind InodeInfo.ti with
      | none => none
      | some n =>
        match x₁.next apiMapMaxSize (.addDentry dir n name) with
        | none => none
        | some x₂ =>
          if (x₁.sbi.addDirent dir n name).1 = none then some x₂
          else x₂.next apiMapMaxSize (.evict a)

/-- One request. -/
def linkNext (x : Sys) (apiMapMaxSize : ℕ) : LinkAct → Option Sys
  | .create dir ioc addr name => x.create apiMapMaxSize dir ioc addr name
  | .link dir n name =>
    if (x.sbi.inodes n).iMode = .dir then none else x.next apiMapMaxSize (.addDentry dir n name)
  | .remove dir n name => x.next apiMapMaxSize (.removeDentry dir n name)
  | .rename oldDir newDir old oldName newName time flags =>
    if x.sbi.lookupDirent newDir newName = none then
      x.next apiMapMaxSize (.rename oldDir newDir old oldName newName time flags)
    else none

end Sys

/-- toyfs under any sequence of requests that make and remove links. -/
def toyfsLinks (apiMapMaxSize : ℕ) : Lts Sys LinkAct :=
  .ofNext (fun x => ∃ nblocks addr, 1024 ≤ nblocks ∧ mounted nblocks addr = some x)
    fun x act => x.linkNext apiMapMaxSize act

/-! ## The law -/

namespace Sys

variable (x : Sys)

def IsDir (n : RecPtr) : Prop := (x.sbi.inodes n).iMode = .dir

instance : DecidablePred x.IsDir := fun _ => inferInstanceAs (Decidable (_ = FileType.dir))

def IsRoot (n : RecPtr) : Prop := (rootIno, n) ∈ x.live

/-- The live inode of a number. -/
def inodeOf (ino : UInt64) : Option RecPtr := (x.live.find? fun e => e.1 == ino).map Prod.snd

/-- The inode a directory and a name lead to. -/
def leads : RecPtr × List UInt8 → Option RecPtr := x.inodeOf ∘ x.sbi.resolve

def nlink (n : RecPtr) : ℕ := (x.sbi.inodes n).iNlink.toNat

/-- The link counts are those of the entries: of a file, how many carry its number; of a directory
that has one, or is the root, two and how many of its entries are directories; and of an inode
without an entry, zero. -/
structure LinksExact : Prop where
  file : ∀ ino n, (ino, n) ∈ x.live → ¬ x.IsDir n →
    { p | x.sbi.resolve p = ino }.encard = x.nlink n
  dir : ∀ ino n, (ino, n) ∈ x.live → x.IsDir n → (ino = rootIno ∨ ∃ p, x.sbi.resolve p = ino) →
    { p | p.1 = n ∧ ∃ m, (x.sbi.resolve p, m) ∈ x.live ∧ x.IsDir m }.encard + 2 = x.nlink n
  gone : ∀ ino n, (ino, n) ∈ x.live → ino ≠ rootIno → (∀ p, x.sbi.resolve p ≠ ino) → x.nlink n = 0

end Sys

/-- A directory has a place for the entry of a name, or there is a page for one. -/
def Sbi.HasRoom (s : Sbi) (pages : List ℕ) (dir : RecPtr) (name : List UInt8) : Prop :=
  (s.searchChilds (namelenToNde name.length) 2 (s.inodes dir).childs).isSome ∨ pages ≠ []

instance (s : Sbi) (pages : List ℕ) (dir : RecPtr) (name : List UInt8) :
    Decidable (s.HasRoom pages dir name) := inferInstanceAs (Decidable (_ ∨ _))

/-- The pages that are left when an inode is made that takes none itself. -/
def Sbi.pagesAfter (s : Sbi) (ioc : IocNewInode) (addr : Option ℕ) : Option (List ℕ) :=
  if (s.allocIi addr).isSome ∧ ioc.iSize < 4096 then
    (s.pool.popRec .inode).map fun r => r.2.pages
  else none

/-- The requests the law stands. A directory is made only where there is room for its entry; a
directory gets its place in one that still has a link; and no count, nor the size of a directory,
runs over. -/
def Sys.KeepsLinks (x : Sys) : LinkAct → Prop
  | .create dir ioc addr name => ioc.iMode = .dir → ∀ pages ∈ x.sbi.pagesAfter ioc addr,
      x.sbi.HasRoom pages dir name ∧ (x.sbi.inodes dir).iNlink ≠ 0 ∧
        (x.sbi.inodes dir).iNlink + 1 ≠ 0
  | .link dir n name => x.sbi.HasRoom x.sbi.pool.pages dir name → (x.sbi.inodes n).iNlink + 1 ≠ 0
  | .remove _ n _ => x.IsDir n → (x.sbi.inodes n).iSize = 0 → (x.sbi.inodes n).iNlink = 2
  | .rename oldDir newDir old _ newName _ flags => x.IsDir old → flags = 0 →
      x.sbi.HasRoom x.sbi.pool.pages newDir newName → (x.sbi.inodes newDir).iNlink ≠ 0 ∧
        (newDir ≠ oldDir → (x.sbi.inodes newDir).iNlink + 1 ≠ 0)

instance (x : Sys) : DecidablePred x.KeepsLinks
  | .create .. => inferInstanceAs (Decidable (_ → ∀ pages ∈ _, _))
  | .link .. => inferInstanceAs (Decidable (_ → _))
  | .remove .. => inferInstanceAs (Decidable (_ → _))
  | .rename .. => inferInstanceAs (Decidable (_ → _))

/-! ## Room for an entry -/

/-- **An entry is made** just when there is room. -/
theorem addDirent_ok_iff {N : Set ℕ} {j : ℕ} (hw : Within N j s) :
    (s.addDirent dir n name).1 = none ↔ s.HasRoom s.pool.pages dir name := by
  unfold Sbi.addDirent Sbi.acquireDirent Sbi.HasRoom
  rcases hsearch : s.searchChilds (namelenToNde name.length) 2 (s.inodes dir).childs with _ | place
  · rcases ha : s.acquirePmemb with _ | ⟨bn, s₁⟩
    · simp [acquirePmemb_none hw ha]
    · have hpages : s.pool.pages ≠ [] := by
        rintro hnil
        simpa [hnil] using (acquirePmemb_pool ha).1
      simp [hpages]
  · simp

/-! ## What names lead to -/

theorem inodeOf_eq_some_iff (h : TableOk x.sbi x.live) :
    x.inodeOf ino = some n ↔ (ino, n) ∈ x.live := by
  unfold Sys.inodeOf
  rw [Option.map_eq_some_iff]
  constructor
  · rintro ⟨⟨i, k⟩, hfind, rfl⟩
    have hkey : i = ino := by simpa using List.find?_some hfind
    rw [← hkey]
    exact List.mem_of_find?_eq_some hfind
  · intro hlive
    rcases hfind : x.live.find? (fun e => e.1 == ino) with _ | ⟨i, k⟩
    · simpa using List.find?_eq_none.mp hfind _ hlive
    · have hkey : i = ino := by simpa using List.find?_some hfind
      have hmem := List.mem_of_find?_eq_some hfind
      rw [hkey] at hmem
      exact ⟨(i, k), hfind, h.eq_of_number hlive hmem⟩

theorem leads_eq_some_iff (h : TableOk x.sbi x.live) :
    x.leads p = some n ↔ (x.sbi.resolve p, n) ∈ x.live := inodeOf_eq_some_iff h

theorem inodeOf_zero (h : TableOk x.sbi x.live) : x.inodeOf 0 = none := by
  rcases hl : x.inodeOf 0 with _ | n
  · rfl
  · exact absurd rfl (h.number 0 n ((inodeOf_eq_some_iff h).mp hl)).2.1

theorem leads_eq_none (h : TableOk x.sbi x.live) (hz : x.sbi.resolve p = 0) : x.leads p = none := by
  rw [Sys.leads, Function.comp_apply, hz, inodeOf_zero h]

theorem inodeOf_congr (hlive : x'.live = x.live) : x'.inodeOf = x.inodeOf := by
  funext ino
  rw [Sys.inodeOf, hlive, Sys.inodeOf]

/-- A name comes to lead to an inode. -/
theorem leads_add (h : TableOk x.sbi x.live) (hlive : x'.live = x.live)
    (hres : x'.sbi.resolve = Function.update x.sbi.resolve p ino) (hn : (ino, n) ∈ x.live) :
    x'.leads = Function.update x.leads p (some n) := by
  rw [Sys.leads, inodeOf_congr hlive, hres, Function.comp_update, (inodeOf_eq_some_iff h).mpr hn,
    Sys.leads]

/-- A name comes to lead to nothing. -/
theorem leads_clear (h : TableOk x.sbi x.live) (hlive : x'.live = x.live)
    (hres : x'.sbi.resolve = Function.update x.sbi.resolve p 0) :
    x'.leads = Function.update x.leads p none := by
  rw [Sys.leads, inodeOf_congr hlive, hres, Function.comp_update, inodeOf_zero h, Sys.leads]

/-! ## The invariant -/

/-- Every name leads to a live inode, and every record in use is one. -/
structure NamesOk (x : Sys) : Prop where
  known : ∀ p, x.sbi.resolve p ≠ 0 → x.leads p ≠ none
  used : ∀ n, (x.sbi.inodes n).iMode ≠ .unset → ((x.sbi.inodes n).iIno, n) ∈ x.live
  root : ∀ n, x.IsRoot n → x.IsDir n

/-- **The counts are those of the name space.** -/
structure LinksOk (x : Sys) : Prop extends NamesOk x where
  tree : LinkTree Prod.fst x.IsDir x.IsRoot x.leads x.nlink

/-- What is known of all names is known when one changes. -/
theorem known_update {r : RecPtr × List UInt8 → UInt64} {l : RecPtr × List UInt8 → Option RecPtr}
    {o : Option RecPtr} (h : ∀ q, r q ≠ 0 → l q ≠ none) (ho : ino ≠ 0 → o ≠ none)
    (q : RecPtr × List UInt8) (hq : Function.update r p ino q ≠ 0) :
    Function.update l p o q ≠ none := by
  obtain rfl | hne := eq_or_ne q p
  · rw [Function.update_self] at hq ⊢
    exact ho hq
  · rw [Function.update_of_ne hne] at hq ⊢
    exact h q hq

/-- Modes and numbers stay; the tree is given for the names afterwards. -/
theorem NamesOk.linksOk {l : RecPtr × List UInt8 → Option RecPtr} (h : NamesOk x)
    (hlive : x'.live = x.live) (hmode : ∀ m, (x'.sbi.inodes m).iMode = (x.sbi.inodes m).iMode)
    (hino : ∀ m, (x'.sbi.inodes m).iIno = (x.sbi.inodes m).iIno) (hl : x'.leads = l)
    (hknown : ∀ p, x'.sbi.resolve p ≠ 0 → l p ≠ none)
    (htree : LinkTree Prod.fst x.IsDir x.IsRoot l x'.nlink) : LinksOk x' := by
  have hdir : ∀ m, x'.IsDir m ↔ x.IsDir m := fun m => by
    rw [Sys.IsDir, hmode, Sys.IsDir]
  have hroot : ∀ m, x'.IsRoot m ↔ x.IsRoot m := fun m => by
    rw [Sys.IsRoot, hlive, Sys.IsRoot]
  refine ⟨⟨fun p hp => ?_, fun m hm => ?_, fun m hm => ?_⟩, htree.congr hdir hroot hl rfl⟩
  · rw [hl]
    exact hknown p hp
  · rw [hino, hlive]
    exact h.used m (by rwa [← hmode])
  · exact (hdir m).mpr (h.root m ((hroot m).mp hm))

namespace LinksOk

/-- **The invariant is the law.** -/
theorem exact (h : LinksOk x) (htab : TableOk x.sbi x.live) : x.LinksExact := by
  have hleads : ∀ {ino n}, (ino, n) ∈ x.live → ∀ p, x.leads p = some n ↔ x.sbi.resolve p = ino := by
    intro ino n hn p
    rw [leads_eq_some_iff htab]
    constructor
    · exact fun hp => htab.ino_eq hp hn
    · rintro rfl
      exact hn
  refine ⟨fun ino n hn hd => ?_, fun ino n hn hd hl => ?_, fun ino n hn hr hno => ?_⟩
  · rw [← (h.tree.exact n).1 hd]
    simp only [hleads hn]
  · have hlinked : Linked x.IsRoot x.leads n := by
      rcases hl with rfl | ⟨p, hp⟩
      · exact .inl hn
      · exact .inr ⟨p, (hleads hn p).mpr hp⟩
    rw [← (h.tree.exact n).2.1 hd hlinked]
    simp only [leads_eq_some_iff htab]
  · refine (h.tree.exact n).2.2 ?_
    rintro (hroot | ⟨p, hp⟩)
    · exact hr (htab.ino_eq hn hroot)
    · exact hno p ((hleads hn p).mp hp)

/-- Neither the inodes nor the names change. -/
theorem of_same (h : LinksOk x)
    (hlive : x'.live = x.live) (hin : x'.sbi.inodes = x.sbi.inodes)
    (hres : x'.sbi.resolve = x.sbi.resolve) : LinksOk x' := by
  have hcnt : x'.nlink = x.nlink := by
    funext m
    rw [Sys.nlink, hin, Sys.nlink]
  refine h.linksOk hlive (fun m => by rw [hin]) (fun m => by rw [hin])
    (by unfold Sys.leads; rw [inodeOf_congr hlive, hres]) (fun p hp => ?_)
    (by rw [hcnt]; exact h.tree)
  rw [hres] at hp
  exact h.known p hp

theorem of_eq (h : LinksOk x) (hlive : x'.live = x.live) (hs : x'.sbi = x.sbi) : LinksOk x' :=
  h.of_same hlive (by rw [hs]) (by rw [hs])

end LinksOk

/-! ## The state under a run -/

/-- What is known of every state toyfs reaches. -/
structure Sys.Sound (x : Sys) : Prop where
  store : StoreOk x.sbi
  within : Within Set.univ 1 x.sbi
  table : TableOk x.sbi x.live
  dirs : DirsOk x.sbi

theorem toyfs_sound
    (h : ((toyfs apiMapMaxSize).restrict fun x act => x.KeepsTable act).Reachable x) : x.Sound :=
  ⟨toyfs_storeOk h.of_restrict, toyfs_within h.of_restrict, toyfs_tableOk h, toyfs_dirsOk h.of_restrict⟩

/-! ## A link -/

theorem toNat_add_one {k : UInt32} (h : k + 1 ≠ 0) : (k + 1).toNat = k.toNat + 1 := by
  have hk := k.toNat_lt
  have hne : (k + 1).toNat ≠ 0 := fun hz => h (UInt32.toNat_inj.mp hz)
  rw [UInt32.toNat_add] at hne ⊢
  have hone : (1 : UInt32).toNat = 1 := rfl
  omega

namespace LinksOk

theorem link (h : LinksOk x) (hx : x.Sound) (hn : ¬ x.IsDir n)
    (hkeep : x.KeepsLinks (.link dir n name))
    (hnext : x.next apiMapMaxSize (.addDentry dir n name) = some x') : LinksOk x' := by
  obtain ⟨hsend, hs, -, hlive⟩ := Sys.next_cases hnext
  obtain ⟨hd, hset, hvalid, hnew⟩ := hsend
  obtain ⟨held, hinv⟩ := hx.store.store
  replace hs : (x.sbi.addDirent dir n name).2 = x'.sbi := Option.some.inj hs
  replace hlive : x'.live = x.live := hlive
  rcases hx.dirs.addDirent hinv hd hset hvalid hnew with
    heq | ⟨hres, -, hresolve, ⟨grown, hstep⟩, -⟩
  · rw [heq] at hs
    exact h.of_eq hlive hs.symm
  · have hlinks := fun m => nlink_addDirent hinv hd hres (m := m)
    have hroom := hkeep ((addDirent_ok_iff hx.within).mp hres)
    rw [hs] at hresolve hstep hlinks
    have hleads := leads_add hx.table hlive hresolve (h.used n hset)
    have hp : x.leads (dir, name) = none :=
      leads_eq_none hx.table ((hx.dirs.resolve_eq_zero_iff hd hvalid).mpr hnew)
    have htree := h.tree.addLeaf hp hd hn fun hr => hn (h.root n hr)
    have hcnt : x'.nlink = bump x.nlink n := by
      funext m
      have hfile : ¬ ((x.sbi.inodes n).iMode = .dir ∧ m = dir) := fun hc => hn hc.1
      rw [Sys.nlink, hlinks, if_neg hfile, UInt32.add_zero]
      obtain rfl | hne := eq_or_ne m n
      · rw [if_pos rfl, toNat_add_one hroom, bump_self, Sys.nlink]
      · rw [if_neg hne, UInt32.add_zero, bump_of_ne _ hne, Sys.nlink]
    refine h.linksOk hlive hstep.mode hstep.ino hleads ?_ (by rw [hcnt]; exact htree)
    rw [hresolve]
    exact known_update h.known fun _ => by simp

end LinksOk

/-! ## A removal -/

theorem toNat_sub_one {k : UInt32} (h : 0 < k.toNat) : (k - 1).toNat = k.toNat - 1 := by
  have hk := k.toNat_lt
  have hone : (1 : UInt32).toNat = 1 := rfl
  rw [UInt32.toNat_sub, hone]
  omega

/-- What a removal does when it does not find a directory full, and leaves none with one link. -/
theorem removeDentry_ok {bn j : ℕ} (hl : s.lookupDirent dir name = some (bn, j))
    (hsize : ¬ ((s.inodes n).iMode = .dir ∧ (s.inodes n).iSize ≠ 0))
    (hone : ¬ (((s.removeDirent dir n bn j).inodes n).iMode = .dir ∧
      ((s.removeDirent dir n bn j).inodes n).iNlink = 1)) :
    s.removeDentry dir n name = (none, s.removeDirent dir n bn j) := by
  unfold Sbi.removeDentry
  rw [hl]
  simp only [if_neg hsize]
  exact if_neg fun hc => hone ⟨hc.1, hc.2.1⟩

namespace LinksOk

/-- The name of an inode leads to it. -/
theorem leads_of_leadsTo (h : LinksOk x) (hx : x.Sound) (hd : (x.sbi.inodes dir).iMode = .dir)
    (hset : (x.sbi.inodes n).iMode ≠ .unset) (hvalid : ValidName name) (hto : x.LeadsTo dir name n) :
    x.leads (dir, name) = some n := by
  rw [leads_eq_some_iff hx.table]
  have hres : x.sbi.resolve (dir, name) = (x.sbi.inodes n).iIno := by
    refine UInt64.toNat_inj.mp ?_
    rw [← hx.dirs.lookup_eq hd hvalid]
    exact hto.2
  rw [hres]
  exact h.used n hset

/-- The counts after `toyfs_remove_dirent` of an empty directory, of which none is left. -/
theorem removedDir {bn j : ℕ} (h : LinksOk x) (hp : x.leads (dir, name) = some n)
    (hparent : x.IsDir dir) (hdir : x.IsDir n) (htwo : (x.sbi.inodes n).iNlink = 2) :
    LinkTree Prod.fst x.IsDir x.IsRoot (Function.update x.leads (dir, name) none)
      (fun m => ((x.sbi.removeDirent dir n bn j).inodes m).iNlink.toNat) ∧
    ((x.sbi.removeDirent dir n bn j).inodes n).iNlink.toNat = 0 := by
  have hcount : x.nlink n = 2 := congrArg UInt32.toNat htwo
  have hempty := h.tree.linkRefs_eq_empty hdir (.inr ⟨_, hp⟩) hcount
  have hmem : (dir, name) ∈ linkRefs Prod.fst x.IsDir x.leads dir :=
    (mem_linkRefs_of_inner hparent).mpr ⟨rfl, n, hp, hdir⟩
  have hne : n ≠ dir := by
    rintro rfl
    exact Set.notMem_empty _ (hempty ▸ hmem)
  have hpos : 0 < x.nlink dir := h.tree.counted.pos hmem
  have hmode : (x.sbi.inodes n).iMode = .dir := hdir
  have hcnt : (fun m => ((x.sbi.removeDirent dir n bn j).inodes m).iNlink.toNat) =
      Function.update (Function.update x.nlink dir (x.nlink dir - 1)) n (x.nlink n - 2) := by
    funext m
    rw [nlink_removeDirent, if_pos hmode]
    obtain rfl | hmn := eq_or_ne m n
    · rw [if_pos rfl, if_neg hne, Function.update_self, hcount, htwo]
      rfl
    · rw [if_neg hmn, Function.update_of_ne hmn]
      obtain rfl | hmd := eq_or_ne m dir
      · rw [Function.update_self, if_pos rfl, UInt32.sub_zero, UInt32.zero_add,
          toNat_sub_one hpos, Sys.nlink]
      · rw [Function.update_of_ne hmd, if_neg hmd]
        simp [Sys.nlink]
  refine ⟨hcnt ▸ h.tree.removeInner hp hdir hempty, ?_⟩
  have hzero := congrFun hcnt n
  rwa [Function.update_self, hcount] at hzero

/-- The counts after `toyfs_remove_dirent` of an inode that is no directory. -/
theorem removedFile {bn j : ℕ} (h : LinksOk x) (hp : x.leads (dir, name) = some n)
    (hfile : ¬ x.IsDir n) :
    LinkTree Prod.fst x.IsDir x.IsRoot (Function.update x.leads (dir, name) none)
      (fun m => ((x.sbi.removeDirent dir n bn j).inodes m).iNlink.toNat) := by
  have hmode : ¬ (x.sbi.inodes n).iMode = .dir := hfile
  have hmem : (dir, name) ∈ linkRefs Prod.fst x.IsDir x.leads n :=
    (mem_linkRefs_of_not_inner hfile h.tree.placed).mpr hp
  have hpos : 0 < x.nlink n := h.tree.counted.pos hmem
  have hcnt : (fun m => ((x.sbi.removeDirent dir n bn j).inodes m).iNlink.toNat) =
      Function.update x.nlink n (x.nlink n - 1) := by
    funext m
    rw [nlink_removeDirent, if_neg hmode, UInt32.sub_zero]
    obtain rfl | hmn := eq_or_ne m n
    · rw [if_pos rfl, Function.update_self, toNat_sub_one hpos, Sys.nlink]
    · rw [if_neg hmn, UInt32.sub_zero, Function.update_of_ne hmn, Sys.nlink]
  exact hcnt ▸ h.tree.removeLeaf hp hfile

theorem remove (h : LinksOk x) (hx : x.Sound)
    (hkeep : x.KeepsLinks (.remove dir n name))
    (hnext : x.next apiMapMaxSize (.removeDentry dir n name) = some x') : LinksOk x' := by
  obtain ⟨hsend, hs, -, hlive⟩ := Sys.next_cases hnext
  obtain ⟨hd, hset, hvalid, hto⟩ := hsend
  obtain ⟨held, hinv⟩ := hx.store.store
  replace hs : (x.sbi.removeDentry dir n name).2 = x'.sbi := Option.some.inj hs
  replace hlive : x'.live = x.live := hlive
  obtain ⟨⟨bn, j⟩, hl⟩ := Option.isSome_iff_exists.mp hto.1
  by_cases hfull : (x.sbi.inodes n).iMode = .dir ∧ (x.sbi.inodes n).iSize ≠ 0
  · refine h.of_eq hlive ?_
    rw [← hs, Sbi.removeDentry, hl]
    simp only [if_pos hfull]
  obtain ⟨-, hresolve, hstep⟩ := hx.dirs.removeDirent hinv hd hvalid hl (n := n)
  have hp := h.leads_of_leadsTo hx hd hset hvalid hto
  -- the tree with the entry gone, with the counts the code has then
  obtain ⟨htree, hzero⟩ : LinkTree Prod.fst x.IsDir x.IsRoot
      (Function.update x.leads (dir, name) none)
      (fun m => ((x.sbi.removeDirent dir n bn j).inodes m).iNlink.toNat) ∧
      (x.IsDir n → ((x.sbi.removeDirent dir n bn j).inodes n).iNlink.toNat = 0) := by
    by_cases hdir : x.IsDir n
    · have htwo : (x.sbi.inodes n).iNlink = 2 := hkeep hdir (by
        by_contra hne
        exact hfull ⟨hdir, hne⟩)
      obtain ⟨htree, hzero⟩ := h.removedDir hp hd hdir htwo
      exact ⟨htree, fun _ => hzero⟩
    · exact ⟨h.removedFile hp hdir, fun hc => absurd hc hdir⟩
  have hok : x.sbi.removeDentry dir n name = (none, x.sbi.removeDirent dir n bn j) := by
    refine removeDentry_ok hl hfull ?_
    rintro ⟨hmode, hone⟩
    rw [hstep.mode] at hmode
    have hlast := hzero hmode
    rw [hone] at hlast
    cases hlast
  rw [hok] at hs
  have heq : x.sbi.removeDirent dir n bn j = x'.sbi := hs
  rw [heq] at hresolve hstep htree
  have hleads := leads_clear hx.table hlive hresolve
  refine h.linksOk hlive hstep.mode hstep.ino hleads ?_ htree
  rw [hresolve]
  exact known_update h.known fun hc => absurd rfl hc

end LinksOk

/-! ## A rename -/

theorem mode_rename (hinv : Inv held s) (ho : (s.inodes oldDir).iMode = .dir)
    (hw : (s.inodes newDir).iMode = .dir) (hn : (s.inodes old).iMode ≠ .unset) (m : RecPtr) :
    ((s.rename oldDir newDir old oldName newName time flags).2.inodes m).iMode =
      (s.inodes m).iMode := (hinv.rename ho hw hn).2 m

/-- A rename onto a name that is not there makes an entry. -/
theorem rename_ok {N : Set ℕ} {j : ℕ} (hw : Within N j s)
    (hnew : s.lookupDirent newDir newName = none)
    (hres : (s.rename oldDir newDir old oldName newName time flags).1 = none) :
    flags = 0 ∧ s.HasRoom s.pool.pages newDir newName := by
  rcases hr : s.rename oldDir newDir old oldName newName time flags with ⟨res, s'⟩
  rw [hr] at hres
  obtain rfl : res = none := hres
  cases Sbi.rename_ends hr with
  | onto _ _ hplace => cases hnew.symm.trans hplace
  | moved hflags _ _ hadd => exact ⟨hflags, (addDirent_ok_iff (n := old) hw).mp (by rw [hadd])⟩

namespace LinksOk

/-- A directory that has a link has a place. -/
theorem linked_of_nlink (h : LinksOk x) (hne : (x.sbi.inodes n).iNlink ≠ 0) :
    Linked x.IsRoot x.leads n := by
  by_contra hno
  exact hne (UInt32.toNat_inj.mp ((h.tree.exact n).2.2 hno))

/-- The count after a rename, of an inode with the link `p` before and `q` after. -/
theorem nlink_moved (h : LinksOk x) {q : RecPtr × List UInt8} {i : UInt32}
    (hp : x.leads p = some old)
    (hover : x.IsDir old → q.1 ≠ p.1 → (x.sbi.inodes q.1).iNlink + 1 ≠ 0)
    (hi : i = (x.sbi.inodes m).iNlink +
      (if (x.sbi.inodes old).iMode = .dir ∧ m = q.1 then 1 else 0) -
      if (x.sbi.inodes old).iMode = .dir ∧ m = p.1 then 1 else 0) :
    i.toNat = bump x.nlink (linkOwner Prod.fst x.IsDir q old) m -
      if m = linkOwner Prod.fst x.IsDir p old then 1 else 0 := by
  subst hi
  by_cases hdir : x.IsDir old
  · have hmode : (x.sbi.inodes old).iMode = .dir := hdir
    have howner : ∀ r : RecPtr × List UInt8, linkOwner Prod.fst x.IsDir r old = r.1 :=
      fun r => if_pos hdir
    have hpos : 0 < x.nlink p.1 := h.tree.counted.pos (p := p) ⟨old, hp, howner p⟩
    simp only [hmode, true_and, howner]
    obtain rfl | hmq := eq_or_ne m q.1
    · rw [bump_self, if_pos rfl]
      by_cases hqp : q.1 = p.1
      · rw [if_pos hqp, if_pos hqp, UInt32.add_sub_cancel, Sys.nlink, Nat.add_sub_cancel]
      · rw [if_neg hqp, if_neg hqp, UInt32.sub_zero, toNat_add_one (hover hdir hqp), Sys.nlink,
          Nat.sub_zero]
    · rw [bump_of_ne _ hmq, if_neg hmq, UInt32.add_zero]
      obtain rfl | hmp := eq_or_ne m p.1
      · rw [if_pos rfl, if_pos rfl, toNat_sub_one hpos, Sys.nlink]
      · rw [if_neg hmp, if_neg hmp, UInt32.sub_zero, Nat.sub_zero, Sys.nlink]
  · have hmode : ¬ (x.sbi.inodes old).iMode = .dir := hdir
    have howner : ∀ r : RecPtr × List UInt8, linkOwner Prod.fst x.IsDir r old = old :=
      fun r => if_neg hdir
    simp only [hmode, false_and, if_false, howner, UInt32.add_zero, UInt32.sub_zero]
    obtain rfl | hmo := eq_or_ne m old
    · rw [bump_self, if_pos rfl, Nat.add_sub_cancel, Sys.nlink]
    · rw [bump_of_ne _ hmo, if_neg hmo, Nat.sub_zero, Sys.nlink]

theorem rename (h : LinksOk x) (hx : x.Sound)
    (hkeep : x.KeepsLinks (.rename oldDir newDir old oldName newName time flags))
    (hfree : x.sbi.lookupDirent newDir newName = none)
    (hnext : x.next apiMapMaxSize (.rename oldDir newDir old oldName newName time flags) = some x') :
    LinksOk x' := by
  obtain ⟨hsend, hs, -, hlive⟩ := Sys.next_cases hnext
  obtain ⟨ho, hw, hset, hold, hnew, hto, hne⟩ := hsend
  obtain ⟨held, hinv⟩ := hx.store.store
  replace hs : (x.sbi.rename oldDir newDir old oldName newName time flags).2 = x'.sbi :=
    Option.some.inj hs
  replace hlive : x'.live = x.live := hlive
  rcases hx.dirs.rename time flags hinv ho hw hset hold hnew hne with ⟨e, heq⟩ | ⟨hres, -, hresolve⟩
  · rw [heq] at hs
    exact h.of_eq hlive hs.symm
  have hlinks := fun m => (rename_inodes hx.dirs hinv ho hw hset hold hnew hne hres m).2
  have hmode := fun m => @mode_rename x.sbi held oldDir newDir old oldName newName time flags hinv
    ho hw hset m
  have hids : KeepsIds x.sbi (x.sbi.rename oldDir newDir old oldName newName time flags).2 :=
    .rename hinv ho hw hset
  obtain ⟨hflags, hroom⟩ := rename_ok hx.within hfree hres
  have hparent : x.IsDir newDir := hw
  rw [hs] at hresolve hlinks hmode hids
  rw [if_pos hfree] at hresolve
  simp only [if_pos hfree] at hlinks
  set p : RecPtr × List UInt8 := (oldDir, oldName)
  set q : RecPtr × List UInt8 := (newDir, newName)
  have hpq : p ≠ q := fun heq => hne (Prod.mk.inj heq)
  have hp : x.leads p = some old := h.leads_of_leadsTo hx ho hset hold hto
  have hq : x.leads q = none :=
    leads_eq_none hx.table ((hx.dirs.resolve_eq_zero_iff hw hnew).mpr hfree)
  have htree := h.tree.move hp hq hparent fun hdir =>
    h.linked_of_nlink (hkeep hdir hflags hroom).1
  have hcnt : x'.nlink = fun m => bump x.nlink (linkOwner Prod.fst x.IsDir q old) m -
      if m = linkOwner Prod.fst x.IsDir p old then 1 else 0 := funext fun m =>
    h.nlink_moved hp (fun hdir => (hkeep hdir hflags hroom).2) (hlinks m)
  have hleads : x'.leads = Function.update (Function.update x.leads q (some old)) p none := by
    rw [Sys.leads, inodeOf_congr hlive, hresolve, Function.comp_update, Function.comp_update,
      inodeOf_zero hx.table, (inodeOf_eq_some_iff hx.table).mpr (h.used old hset), Sys.leads]
  refine h.linksOk hlive hmode hids.ids hleads ?_ (by rw [hcnt]; exact htree)
  rw [hresolve]
  exact known_update (known_update h.known fun _ => by simp) fun hc => absurd rfl hc

end LinksOk

/-! ## A creation -/

/-- What a creation consists of. -/
theorem create_cases (hc : x.create apiMapMaxSize dir ioc addr name = some x') :
    ∃ x₁, x.next apiMapMaxSize (.newInode dir ioc.unlinked addr) = some x₁ ∧
      (((x.sbi.newInode dir ioc.unlinked addr).1 = none ∧ x' = x₁) ∨
        ∃ a n x₂, (x.sbi.newInode dir ioc.unlinked addr).1 = some a ∧
          (x₁.sbi.tiis a).bind InodeInfo.ti = some n ∧
          x₁.next apiMapMaxSize (.addDentry dir n name) = some x₂ ∧
          (((x₁.sbi.addDirent dir n name).1 = none ∧ x' = x₂) ∨
            ((x₁.sbi.addDirent dir n name).1 ≠ none ∧
              x₂.next apiMapMaxSize (.evict a) = some x'))) := by
  unfold Sys.create at hc
  split at hc
  · cases hc
  next x₁ h₁ =>
  refine ⟨x₁, h₁, ?_⟩
  split at hc
  · next hnone => exact .inl ⟨hnone, (Option.some.inj hc).symm⟩
  next a ha =>
  split at hc
  · cases hc
  next n hn =>
  split at hc
  · cases hc
  next x₂ h₂ =>
  refine .inr ⟨a, n, x₂, ha, hn, h₂, ?_⟩
  split at hc
  · next hok => exact .inl ⟨hok, (Option.some.inj hc).symm⟩
  · next hfail => exact .inr ⟨hfail, hc⟩

/-- An inode was made. -/
structure MadeIn (x x₁ : Sys) (a : ℕ) (n : RecPtr) (ioc : IocNewInode) : Prop where
  made : ∃ held, Made held a n ioc.iMode x.sbi x₁.sbi
  new : ∃ p, NewInode a n ioc p x.sbi x₁.sbi
  live : x₁.live = (x.sbi.sTopIno, n) :: x.live
  resolve : x₁.sbi.resolve = x.sbi.resolve
  top : x.sbi.sTopIno ≠ 0

/-- An inode that is made is in memory, or nothing changes. -/
theorem newInode_next (hx : x.Sound)
    (hnext : x.next apiMapMaxSize (.newInode dir ioc addr) = some x₁) :
    ((x.sbi.newInode dir ioc addr).1 = none ∧ x₁.live = x.live ∧
        x₁.sbi.inodes = x.sbi.inodes ∧ x₁.sbi.resolve = x.sbi.resolve) ∨
      ∃ a n, x.sbi.newInode dir ioc addr = (some a, x₁.sbi) ∧ MadeIn x x₁ a n ioc := by
  obtain ⟨⟨hd, hfresh, htop⟩, hs, -, hlive⟩ := Sys.next_cases hnext
  obtain ⟨held, hinv⟩ := hx.store.store
  replace hs : (x.sbi.newInode dir ioc addr).2 = x₁.sbi := Option.some.inj hs
  have hresolve : (x.sbi.newInode dir ioc addr).2.resolve = x.sbi.resolve :=
    (hx.dirs.newInode hinv hfresh htop).2
  rw [hs] at hresolve
  rcases hr : x.sbi.newInode dir ioc addr with ⟨res, s'⟩
  rw [hr] at hs
  obtain rfl : s' = x₁.sbi := hs
  rcases newInode_cases hinv hfresh hr with ⟨rfl, hnot⟩ | ⟨a, n, rfl, -, hmade⟩
  · simp only [Sys.liveAfter, hr, Option.bind_none] at hlive
    exact .inl ⟨rfl, hlive, hnot.inodes, hresolve⟩
  · obtain ⟨k, p, hnew⟩ := newInode_spec hr
    obtain rfl : n = k := by
      have htii := hnew.info
      rw [hmade.tiis, Function.update_self] at htii
      simpa using htii
    rw [Sys.liveAfter_newInode hr hmade] at hlive
    exact .inr ⟨a, n, rfl, ⟨held, hmade⟩, ⟨p, hnew⟩, hlive, hresolve, htop⟩

/-- An entry that fails changes nothing. -/
theorem addDentry_failed (hnext : x.next apiMapMaxSize (.addDentry dir n name) = some x')
    (hfail : (x.sbi.addDirent dir n name).1 ≠ none) : x' = x := by
  obtain ⟨-, hs, -, hlive⟩ := Sys.next_cases hnext
  replace hs : (x.sbi.addDirent dir n name).2 = x'.sbi := Option.some.inj hs
  replace hlive : x'.live = x.live := hlive
  rcases hadd : x.sbi.addDirent dir n name with ⟨_ | e, s'⟩
  · rw [hadd] at hfail
    exact absurd rfl hfail
  · rw [hadd, addDirent_failed hadd] at hs
    cases x'
    cases x
    cases hs
    cases hlive
    rfl

namespace MadeIn

theorem fresh (h : MadeIn x x₁ a n ioc) : x.sbi.inodes n = {} := by
  obtain ⟨held, hmade⟩ := h.made
  exact hmade.fresh

theorem others (h : MadeIn x x₁ a n ioc) (hm : m ≠ n) : x₁.sbi.inodes m = x.sbi.inodes m := by
  obtain ⟨held, hmade⟩ := h.made
  exact hmade.others m hm

theorem mode (h : MadeIn x x₁ a n ioc) : (x₁.sbi.inodes n).iMode = ioc.iMode := by
  obtain ⟨held, hmade⟩ := h.made
  exact hmade.mode

theorem not_live (h : MadeIn x x₁ a n ioc) (hx : x.Sound) : (ino, n) ∉ x.live := by
  intro hlive
  obtain ⟨hino, hne, -⟩ := hx.table.number ino n hlive
  rw [h.fresh] at hino
  exact hne hino.symm

theorem below (h : MadeIn x x₁ a n ioc) (hx : x.Sound) (hlive : (ino, m) ∈ x.live) :
    ino ≠ x.sbi.sTopIno := by
  rintro rfl
  exact UInt64.lt_irrefl _ ((hx.table.number _ m hlive).2.2.resolve_left h.top)

theorem isRoot_iff (h : MadeIn x x₁ a n ioc) (hx : x.Sound) : x₁.IsRoot m ↔ x.IsRoot m := by
  unfold Sys.IsRoot
  rw [h.live, List.mem_cons, Prod.mk.injEq]
  refine or_iff_right ?_
  rintro ⟨htop, -⟩
  obtain ⟨e, -, he, hino, -⟩ := hx.table.root_entry
  obtain ⟨k, -, hk⟩ := hx.table.entry e he
  exact h.below hx hk (hino.trans htop)

theorem leads (h : MadeIn x x₁ a n ioc) (hl : LinksOk x) (hx : x.Sound) : x₁.leads = x.leads := by
  funext q
  unfold Sys.leads
  rw [Function.comp_apply, Function.comp_apply, h.resolve]
  have hne : x.sbi.sTopIno ≠ x.sbi.resolve q := by
    intro htop
    obtain ⟨k, hk⟩ := Option.ne_none_iff_exists'.mp (hl.known q (htop ▸ h.top))
    exact h.below hx ((leads_eq_some_iff hx.table).mp hk) htop.symm
  rw [Sys.inodeOf, h.live, List.find?_cons_of_neg (by simpa using hne), Sys.inodeOf]

theorem not_linked (h : MadeIn x x₁ a n ioc) (hx : x.Sound) : ¬ Linked x.IsRoot x.leads n := by
  rintro (hroot | ⟨q, hq⟩)
  · exact h.not_live hx hroot
  · exact h.not_live hx ((leads_eq_some_iff hx.table).mp hq)

/-- The tree with the new inode in it, which has no entry yet. -/
theorem tree (h : MadeIn x x₁ a n ioc) (hl : LinksOk x) (hx : x.Sound) :
    LinkTree Prod.fst x₁.IsDir x₁.IsRoot x₁.leads x.nlink := by
  have hother : ∀ k, k ≠ n → (x₁.IsDir k ↔ x.IsDir k) := fun k hk => by
    rw [Sys.IsDir, h.others hk, Sys.IsDir]
  have hold : ¬ x.IsDir n := by
    rw [Sys.IsDir, h.fresh]
    exact fun hc => by cases hc
  by_cases hdir : ioc.iMode = .dir
  · have hin : ∀ k, x₁.IsDir k ↔ x.IsDir k ∨ k = n := by
      intro k
      obtain rfl | hk := eq_or_ne k n
      · exact iff_of_true (h.mode.trans hdir) (.inr rfl)
      · rw [hother k hk, or_iff_left hk]
    exact (hl.tree.setInner hin hold (h.not_linked hx)).congr (fun _ => Iff.rfl)
      (fun _ => h.isRoot_iff hx) (h.leads hl hx) rfl
  · refine hl.tree.congr (fun k => ?_) (fun _ => h.isRoot_iff hx) (h.leads hl hx) rfl
    obtain rfl | hk := eq_or_ne k n
    · exact iff_of_false (fun hc => hdir (h.mode.symm.trans hc)) hold
    · exact hother k hk

theorem namesOk (h : MadeIn x x₁ a n ioc) (hl : LinksOk x) (hx : x.Sound) : NamesOk x₁ := by
  refine ⟨fun q hq => ?_, fun m hm => ?_, fun m hm => ?_⟩
  · rw [h.leads hl hx]
    rw [h.resolve] at hq
    exact hl.known q hq
  · rw [h.live]
    obtain rfl | hne := eq_or_ne m n
    · obtain ⟨held, hmade⟩ := h.made
      rw [hmade.ino]
      exact List.mem_cons_self
    · rw [h.others hne] at hm ⊢
      exact List.mem_cons_of_mem _ (hl.used m hm)
  · have hroot := (h.isRoot_iff hx).mp hm
    obtain rfl | hne := eq_or_ne m n
    · exact absurd hroot (h.not_live hx)
    · rw [Sys.IsDir, h.others hne]
      exact hl.root m hroot

/-- The links of the new inode: none, but one for a directory. -/
theorem nlink (h : MadeIn x x₁ a n ioc.unlinked) :
    (x₁.sbi.inodes n).iNlink = if ioc.iMode = .dir then 1 else 0 := by
  obtain ⟨p, hnew⟩ := h.new
  rw [hnew.nlink]
  simp [IocNewInode.unlinked]

/-- A new file keeps the law. -/
theorem linksOk (h : MadeIn x x₁ a n ioc.unlinked) (hl : LinksOk x) (hx : x.Sound)
    (hfile : ioc.iMode ≠ .dir) : LinksOk x₁ := by
  have hcnt : x₁.nlink = x.nlink := by
    funext m
    obtain rfl | hne := eq_or_ne m n
    · rw [Sys.nlink, h.nlink, if_neg hfile, Sys.nlink, h.fresh]
    · rw [Sys.nlink, h.others hne, Sys.nlink]
  refine ⟨h.namesOk hl hx, ?_⟩
  rw [hcnt]
  exact h.tree hl hx

/-- A new directory with its entry keeps the law. -/
theorem linksOk_dir (h : MadeIn x x₁ a n ioc.unlinked) (hl : LinksOk x) (hx : x.Sound)
    (hx₁ : x₁.Sound) (hdir : ioc.iMode = .dir) (hlinks : (x.sbi.inodes dir).iNlink ≠ 0)
    (hover : (x.sbi.inodes dir).iNlink + 1 ≠ 0)
    (hnext : x₁.next apiMapMaxSize (.addDentry dir n name) = some x')
    (hres : (x₁.sbi.addDirent dir n name).1 = none) : LinksOk x' := by
  obtain ⟨⟨hd, hset, hvalid, hnew⟩, hs, -, hlive⟩ := Sys.next_cases hnext
  obtain ⟨held, hinv⟩ := hx₁.store.store
  replace hs : (x₁.sbi.addDirent dir n name).2 = x'.sbi := Option.some.inj hs
  replace hlive : x'.live = x₁.live := hlive
  rcases hx₁.dirs.addDirent hinv hd hset hvalid hnew with heq | ⟨-, -, hresolve, ⟨grown, hstep⟩, -⟩
  · rw [heq] at hres
    cases hres
  have hcounts := fun m => nlink_addDirent hinv hd hres (m := m)
  rw [hs] at hresolve hstep hcounts
  have hmode : (x₁.sbi.inodes n).iMode = .dir := h.mode.trans hdir
  have hnames := h.namesOk hl hx
  have hleads := leads_add hx₁.table hlive hresolve (hnames.used n hset)
  have hp : x₁.leads (dir, name) = none :=
    leads_eq_none hx₁.table ((hx₁.dirs.resolve_eq_zero_iff hd hvalid).mpr hnew)
  -- the new directory is not the one it is made in
  have hne : dir ≠ n := by
    rintro rfl
    rw [h.fresh] at hlinks
    exact hlinks rfl
  have hparent : Linked x₁.IsRoot x₁.leads dir := by
    rw [h.leads hl hx]
    exact (hl.linked_of_nlink hlinks).imp_left (h.isRoot_iff hx).mpr
  have hbare : ¬ Linked x₁.IsRoot x₁.leads n := by
    rw [h.leads hl hx]
    exact fun hc => h.not_linked hx (hc.imp_left (h.isRoot_iff hx).mp)
  have htree := (h.tree hl hx).addInner hp hd hparent hmode hbare
  have hcnt : x'.nlink = bump (bump (bump x.nlink dir) n) n := by
    funext m
    rw [Sys.nlink, hcounts]
    simp only [hmode, true_and]
    obtain rfl | hmn := eq_or_ne m n
    · rw [if_pos rfl, if_neg hne.symm, h.nlink, if_pos hdir, bump_self, bump_self,
        bump_of_ne _ hne.symm, Sys.nlink, h.fresh]
      rfl
    · rw [if_neg hmn, h.others hmn, bump_of_ne _ hmn, bump_of_ne _ hmn, UInt32.add_zero]
      obtain rfl | hmd := eq_or_ne m dir
      · rw [if_pos rfl, toNat_add_one hover, bump_self, Sys.nlink]
      · rw [if_neg hmd, UInt32.add_zero, bump_of_ne _ hmd, Sys.nlink]
  refine hnames.linksOk hlive hstep.mode hstep.ino hleads ?_ (by rw [hcnt]; exact htree)
  rw [hresolve]
  exact known_update hnames.known fun _ => by simp

/-- A new file that gets no entry is gone again. -/
theorem linksOk_evicted (h : MadeIn x x₁ a n ioc.unlinked) (hl : LinksOk x) (hx : x.Sound)
    (hfile : ioc.iMode ≠ .dir) (hnext : x₁.next apiMapMaxSize (.evict a) = some x') :
    LinksOk x' := by
  obtain ⟨-, hs, -, hlive⟩ := Sys.next_cases hnext
  obtain ⟨held, hmade⟩ := h.made
  obtain ⟨p, hnew⟩ := h.new
  obtain ⟨s₂, t, hev, hfreed, hstep, -⟩ := evict_newInode hnew hmade hfile rfl rfl
  obtain rfl : s₂ = x'.sbi := Option.some.inj (hev.symm.trans hs)
  have hin : x'.sbi.inodes = x.sbi.inodes := by
    funext m
    rw [hstep.inodes, hfreed.inodes]
    obtain rfl | hne := eq_or_ne m n
    · rw [Function.update_self, h.fresh]
    · rw [Function.update_of_ne hne, h.others hne]
  have hkeep : KeepsDirs x.sbi x'.sbi := .of_inodes hin fun d b hb => by
    rw [hstep.mem, hfreed.mem]
    exact hmade.mem b (KeepsDirs.inUse_of_childs hb)
  have hevicted : x₁.evicted a = some n := by
    rw [Sys.evicted_of_last hnew.info rfl rfl, h.nlink, if_neg hfile]
    rfl
  refine hl.of_same ?_ hin (hkeep.resolve hx.dirs)
  have hkept : ∀ e ∈ x.live, decide (e.2 ≠ n) = true := by
    rintro ⟨ino, m⟩ he
    refine decide_eq_true ?_
    rintro rfl
    exact h.not_live hx he
  simp only [Sys.liveAfter, hevicted] at hlive
  rw [hlive, h.live, List.filter_cons_of_neg (by simp), List.filter_eq_self.mpr hkept]

end MadeIn

/-- The search for a place reads the pages of the directory. -/
theorem searchChilds_congr {required : ℕ} : ∀ {l : List ℕ} {off : ℕ},
    (∀ b ∈ l, s'.mem b = s.mem b) → s'.searchChilds required off l = s.searchChilds required off l
  | [], _, _ => rfl
  | b :: l, off, h => by
    rw [Sbi.searchChilds, Sbi.searchChilds, h b List.mem_cons_self,
      searchChilds_congr fun c hc => h c (List.mem_cons_of_mem b hc)]

/-- The pages that are left for the entry. -/
theorem MadeIn.after (h : MadeIn x x₁ a n ioc.unlinked)
    (hr : x.sbi.newInode dir ioc.unlinked addr = (some a, x₁.sbi)) :
    ∃ p, NewInode a n ioc.unlinked p x.sbi x₁.sbi ∧ x.sbi.pagesAfter ioc addr = some p.pages := by
  obtain ⟨p, hnew⟩ := h.new
  obtain ⟨hsize, s₁, -, -, -, halloc, -⟩ := newInode_some hr
  refine ⟨p, hnew, ?_⟩
  rw [Sbi.pagesAfter, if_pos ⟨by rw [halloc]; rfl, hsize⟩, hnew.pop]
  rfl

/-- A directory that has room for its entry gets it. -/
theorem MadeIn.hasRoom {p : Pool} (h : MadeIn x x₁ a n ioc.unlinked) (hdir : ioc.iMode = .dir)
    (hd : (x.sbi.inodes dir).iMode = .dir) (hx₁ : x₁.Sound)
    (hnew : NewInode a n ioc.unlinked p x.sbi x₁.sbi) (hroom : x.sbi.HasRoom p.pages dir name) :
    (x₁.sbi.addDirent dir n name).1 = none := by
  rw [addDirent_ok_iff hx₁.within]
  obtain ⟨held, hmade⟩ := h.made
  have hshort : ¬ ioc.unlinked.LongSymlink := by
    rintro ⟨hlnk, -⟩
    cases hdir.symm.trans hlnk
  have hne : dir ≠ n := by
    rintro rfl
    rw [h.fresh] at hd
    cases hd
  refine hroom.imp (fun hsome => ?_) fun hpages => ?_
  · rw [h.others hne, searchChilds_congr fun b hb => hmade.mem b (KeepsDirs.inUse_of_childs hb)]
    exact hsome
  · rwa [(hnew.short hshort).1]

end Zus.Toyfs
