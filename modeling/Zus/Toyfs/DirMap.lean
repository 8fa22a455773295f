import Mathlib.Data.Finmap
import Zus.Toyfs.Dentries
import Zus.Toyfs.InodeStorage

/-!
# A directory as a finite map

What `toyfs_lookup_dirent` finds is what was added last under the name and not removed
since. The specification is a finite map from names to inode numbers and types.
-/

namespace Zus.Toyfs

open Zus.Lib Dirent

variable {s s' s₁ s₂ : Sbi} {dir n m : RecPtr} {ds : List Dentries} {name : List UInt8}

/-! ## Directories -/

/-- The directory consists of the pages. -/
structure DirAt (s : Sbi) (dir : RecPtr) (ds : List Dentries) : Prop where
  childs : (s.inodes dir).childs = ds.map Dentries.bn
  nodup : (ds.map Dentries.bn).Nodup
  pages : PagesAt s.mem 2 ds
  names : ((dirents 2 ds).map fun x => x.entry.name).Nodup
  blocks : (s.inodes dir).iBlocks = ds.length
  size : (s.inodes dir).iSize = .ofNat (4096 * (dirents 2 ds).length)

/-- What an operation on a directory leaves alone; `grown` are the pages it takes. -/
structure DirStep (dir : RecPtr) (grown : List ℕ) (s s' : Sbi) : Prop where
  pool : s.pool.pages = grown ++ s'.pool.pages
  panicked : s'.panicked = s.panicked
  childs : (s'.inodes dir).childs = (s.inodes dir).childs ++ grown
  mem : ∀ b ∉ (s'.inodes dir).childs, s'.mem b = s.mem b
  ino : ∀ m, (s'.inodes m).iIno = (s.inodes m).iIno
  mode : ∀ m, (s'.inodes m).iMode = (s.inodes m).iMode
  parent : ∀ m, (s'.inodes m).iDirParent = (s.inodes m).iDirParent
  others : ∀ m ≠ dir, (s'.inodes m).childs = (s.inodes m).childs ∧
    (s'.inodes m).iBlocks = (s.inodes m).iBlocks ∧ (s'.inodes m).iSize = (s.inodes m).iSize

theorem DirStep.refl (s : Sbi) : DirStep dir [] s s :=
  ⟨rfl, rfl, (List.append_nil _).symm, fun _ _ => rfl, fun _ => rfl, fun _ => rfl, fun _ => rfl,
    fun _ _ => ⟨rfl, rfl, rfl⟩⟩

theorem DirStep.trans {g g' : List ℕ} (h : DirStep dir g s s₁) (h₁ : DirStep dir g' s₁ s₂) :
    DirStep dir (g ++ g') s s₂ where
  pool := by rw [h.pool, h₁.pool, List.append_assoc]
  panicked := h₁.panicked.trans h.panicked
  childs := by rw [h₁.childs, h.childs, List.append_assoc]
  mem b hb := by
    rw [h₁.mem b hb, h.mem b fun hin => hb ?_]
    rw [h₁.childs]
    exact List.mem_append_left _ hin
  ino m := (h₁.ino m).trans (h.ino m)
  mode m := (h₁.mode m).trans (h.mode m)
  parent m := (h₁.parent m).trans (h.parent m)
  others m hm := by
    obtain ⟨hc, hb, hs⟩ := h.others m hm
    obtain ⟨hc₁, hb₁, hs₁⟩ := h₁.others m hm
    exact ⟨hc₁.trans hc, hb₁.trans hb, hs₁.trans hs⟩

theorem DirAt.congr (h : DirAt s dir ds) (hchilds : (s'.inodes dir).childs = (s.inodes dir).childs)
    (hblocks : (s'.inodes dir).iBlocks = (s.inodes dir).iBlocks)
    (hsize : (s'.inodes dir).iSize = (s.inodes dir).iSize)
    (hmem : ∀ b ∈ (s.inodes dir).childs, s'.mem b = s.mem b) : DirAt s' dir ds where
  childs := hchilds.trans h.childs
  nodup := h.nodup
  pages := h.pages.congr fun d hd => hmem d.bn (by
    rw [h.childs]
    exact List.mem_map_of_mem hd)
  names := h.names
  blocks := hblocks.trans h.blocks
  size := hsize.trans h.size

/-! ## Link counts -/

/-- Only link counts differ. -/
structure NlinkEq (s s' : Sbi) : Prop where
  mem : s'.mem = s.mem
  pool : s'.pool = s.pool
  panicked : s'.panicked = s.panicked
  inodes : ∀ m, s'.inodes m = { s.inodes m with iNlink := (s'.inodes m).iNlink }

theorem NlinkEq.trans (h : NlinkEq s s₁) (h₁ : NlinkEq s₁ s₂) : NlinkEq s s₂ :=
  ⟨h₁.mem.trans h.mem, h₁.pool.trans h.pool, h₁.panicked.trans h.panicked, fun m => by
    rw [h₁.inodes m, h.inodes m]⟩

theorem nlinkEq_setInode {i : Inode} (hi : ∃ k, i = { s.inodes n with iNlink := k }) :
    NlinkEq s (s.setInode n i) := by
  refine ⟨rfl, rfl, rfl,
    forall_setInode (P := fun m j => j = { s.inodes m with iNlink := j.iNlink }) ?_ fun _ _ => rfl⟩
  obtain ⟨k, rfl⟩ := hi
  rfl

theorem nlinkEq_assert {c : Bool} (hc : c = true) : NlinkEq s (s.assert c) := by
  subst hc
  exact ⟨rfl, rfl, Bool.or_false _, fun _ => rfl⟩

theorem nlinkEq_addNlink (add : UInt32) : NlinkEq s (s.addNlink n add) :=
  nlinkEq_setInode ⟨_, rfl⟩

theorem nlinkEq_stdAddDentry : NlinkEq s (s.stdAddDentry dir n) := by
  unfold Sbi.stdAddDentry
  dsimp only
  split
  · exact (nlinkEq_addNlink 1).trans (nlinkEq_addNlink 1)
  · exact nlinkEq_addNlink 1

theorem nlinkEq_stdRemoveDentry : NlinkEq s (s.stdRemoveDentry dir n) := by
  unfold Sbi.stdRemoveDentry
  dsimp only
  split
  · exact ((nlinkEq_addNlink _).trans (nlinkEq_addNlink _)).trans (nlinkEq_addNlink _)
  · exact nlinkEq_addNlink _

theorem NlinkEq.dirStep (h : NlinkEq s s') : DirStep dir [] s s' where
  pool := by rw [h.pool, List.nil_append]
  panicked := h.panicked
  childs := by rw [h.inodes, List.append_nil]
  mem b _ := by rw [h.mem]
  ino m := by rw [h.inodes]
  mode m := by rw [h.inodes]
  parent m := by rw [h.inodes]
  others m _ := by
    rw [h.inodes]
    exact ⟨rfl, rfl, rfl⟩

theorem NlinkEq.dirAt (h : NlinkEq s s') (hd : DirAt s dir ds) : DirAt s' dir ds := by
  refine hd.congr ?_ ?_ ?_ fun b _ => congrFun h.mem b <;> rw [h.inodes]

/-! ## A place for an entry -/

theorem acquirePmemb_eq {bn : ℕ} (h : s.acquirePmemb = some (bn, s')) :
    s.pool.pages = bn :: s'.pool.pages ∧ s'.mem = Function.update s.mem bn (fun _ => 0) ∧
      s'.inodes = s.inodes ∧ s'.panicked = s.panicked := by
  obtain ⟨-, -, p, hpop, rfl⟩ := Sbi.acquirePmemb_some h
  obtain ⟨rest, hpages, rfl⟩ := Pool.popPmemb_eq hpop
  exact ⟨hpages, rfl, rfl, rfl⟩

/-- An empty page. -/
def Dentries.empty (bn : ℕ) : Dentries where
  bn := bn
  cells := List.replicate dentriesPerPage .free
  full := by simp

theorem namelenToNde_le {nlen : ℕ} (h : nlen ≤ 255) : namelenToNde nlen ≤ dentriesPerPage := by
  unfold namelenToNde dentriesPerPage
  split <;> omega

theorem dirents_empty (base bn : ℕ) : dirents base [.empty bn] = [] := by
  simp [dirents, Dentries.empty]

/-- The directory gets a zeroed page. -/
theorem DirAt.grow {bn : ℕ} (h : DirAt s dir ds) (hpage : s.acquirePmemb = some (bn, s₁))
    (hnew : bn ∉ ds.map Dentries.bn)
    (hs' : s' = s₁.setInode dir { s₁.inodes dir with
      iBlocks := (s₁.inodes dir).iBlocks + 1, childs := (s₁.inodes dir).childs ++ [bn] }) :
    DirAt s' dir (ds ++ [.empty bn]) ∧ dirents 2 (ds ++ [.empty bn]) = dirents 2 ds ∧
      DirStep dir [bn] s s' := by
  obtain ⟨hpages, hmem, hinodes, hpanicked⟩ := acquirePmemb_eq hpage
  have hsame : dirents 2 (ds ++ [.empty bn]) = dirents 2 ds := by
    rw [dirents_append, dirents_empty, List.append_nil]
  have hdir : s'.inodes dir = { s.inodes dir with
      iBlocks := (s.inodes dir).iBlocks + 1, childs := (s.inodes dir).childs ++ [bn] } := by
    rw [hs', setInode_inodes_self, hinodes]
  have hother : ∀ m ≠ dir, s'.inodes m = s.inodes m := fun m hm => by
    rw [hs', setInode_inodes_ne hm, hinodes]
  have hmem' : s'.mem = Function.update s.mem bn fun _ => 0 := by
    rw [hs', ← hmem]
    rfl
  have hfield : ∀ {α : Type} (f : Inode → α), f (s'.inodes dir) = f (s.inodes dir) →
      ∀ m, f (s'.inodes m) = f (s.inodes m) := fun f hf m => by
    obtain rfl | hm := eq_or_ne m dir
    · exact hf
    · rw [hother m hm]
  refine ⟨⟨?_, ?_, ?_, ?_, ?_, ?_⟩, hsame, ⟨?_, ?_, ?_, fun b hb => ?_, hfield _ ?_, hfield _ ?_,
    hfield _ ?_, fun m hm => ?_⟩⟩
  · rw [hdir, h.childs, List.map_append]
    rfl
  · rw [List.map_append, List.map_cons, List.perm_middle.nodup_iff, List.map_nil, List.append_nil]
    exact List.nodup_cons.mpr ⟨hnew, h.nodup⟩
  · refine pagesAt_append.mpr ⟨h.pages.congr fun d hd => ?_, ?_, trivial⟩
    · rw [hmem', Function.update_of_ne]
      exact fun heq => hnew (List.mem_map.mpr ⟨d, hd, heq⟩)
    · refine cellsAt_zero fun j _ _ => ?_
      rw [hmem', Dentries.empty, Function.update_self]
  · rw [hsame]
    exact h.names
  · rw [hdir, List.length_append, h.blocks]
    rfl
  · rw [hdir, hsame]
    exact h.size
  · rw [hpages, hs']
    rfl
  · rw [hs', ← hpanicked]
    rfl
  · rw [hdir]
  · rw [hdir] at hb
    rw [hmem', Function.update_of_ne]
    exact fun heq => hb (List.mem_append_right _ (List.mem_singleton.mpr heq))
  · rw [hdir]
  · rw [hdir]
  · rw [hdir]
  · rw [hother m hm]
    exact ⟨rfl, rfl, rfl⟩

/-- **`_acquire_dirent`** finds free cells in a page of the directory, or in a new one. -/
theorem DirAt.acquireDirent {nlen : ℕ} {place : ℕ × ℕ × ℕ} (h : DirAt s dir ds)
    (hfree : ∀ b ∈ s.pool.pages, b ∉ (s.inodes dir).childs) (hlen : nlen ≤ 255)
    (ha : s.acquireDirent dir nlen = some (place, s')) :
    ∃ ds₁ d ds₂ xs ys grown, DirAt s' dir (ds₁ ++ d :: ds₂) ∧
      dirents 2 (ds₁ ++ d :: ds₂) = dirents 2 ds ∧
      d.cells = xs ++ List.replicate (namelenToNde nlen) .free ++ ys ∧
      place = (d.bn, total Cell.size xs, 2 + dentriesPerPage * ds₁.length + total Cell.size xs) ∧
      DirStep dir grown s s' := by
  obtain ⟨hfound, rfl⟩ | ⟨s₁, hnone, hpage, hidx, hs'⟩ := acquireDirent_cases ha
  · rw [h.childs] at hfound
    obtain ⟨ds₁, d, ds₂, xs, ys, rfl, hcells, hplace⟩ := h.pages.searchChilds hfound
    exact ⟨ds₁, d, ds₂, xs, ys, [], h, rfl, hcells, hplace, .refl _⟩
  · obtain ⟨bn, i, off⟩ := place
    obtain ⟨hpages, -, hinodes, -⟩ := acquirePmemb_eq hpage
    have hnew : bn ∉ ds.map Dentries.bn := by
      rw [← h.childs]
      exact hfree bn (by simp [hpages])
    have hplace : (bn, i, off) = (bn, 0, 2 + dentriesPerPage * ds.length) := by
      unfold Sbi.acquireDirent at ha
      rw [hnone] at ha
      dsimp only at ha
      rw [hpage] at ha
      obtain ⟨hplace, -⟩ := Prod.mk.inj (Option.some.inj ha)
      rw [← hplace, hinodes, h.childs, List.length_map]
    obtain ⟨hat, hsame, hstep⟩ := h.grow hpage hnew hs'
    refine ⟨ds, .empty bn, [], [], List.replicate (dentriesPerPage - namelenToNde nlen) .free, [bn],
      hat, hsame, ?_, hplace, hstep⟩
    rw [List.nil_append, ← List.replicate_add, Nat.add_sub_cancel' (namelenToNde_le hlen)]
    rfl

/-! ## Entries come and go -/

/-- The entry `toyfs_add_dirent` stores. -/
def Sbi.entryFor (s : Sbi) (n : RecPtr) (hvalid : ValidName name) (hino : (s.inodes n).iIno ≠ 0) :
    Entry where
  name := name
  ino := (s.inodes n).iIno
  type := (s.inodes n).iMode.iftodt
  valid := hvalid
  ino_ne := hino

theorem dirSize_succ (k : ℕ) : UInt64.ofNat (4096 * (k + 1)) = .ofNat (4096 * k) + 4096 := by
  rw [Nat.mul_succ, UInt64.ofNat_add]
  rfl

/-- One page of a directory is stored anew, and its size is set. -/
theorem DirAt.store {d d' : Dentries} {ds₁ ds₂ : List Dentries} {pg : Bytes} {size : UInt64}
    (h : DirAt s dir (ds₁ ++ d :: ds₂)) (hbn : d'.bn = d.bn)
    (hcells : CellsAt pg (2 + dentriesPerPage * ds₁.length) 0 d'.cells)
    (hnames : ((dirents 2 (ds₁ ++ d' :: ds₂)).map fun x => x.entry.name).Nodup)
    (hsize : size = .ofNat (4096 * (dirents 2 (ds₁ ++ d' :: ds₂)).length)) :
    DirAt ((s.setPage d.bn pg).setDirSize dir size) dir (ds₁ ++ d' :: ds₂) ∧
      DirStep dir [] s ((s.setPage d.bn pg).setDirSize dir size) := by
  have hmap : (ds₁ ++ d' :: ds₂).map Dentries.bn = (ds₁ ++ d :: ds₂).map Dentries.bn := by
    simp [hbn]
  have hdir : ((s.setPage d.bn pg).setDirSize dir size).inodes dir =
      { s.inodes dir with iSize := size } := setInode_inodes_self ..
  have hfield : ∀ {α : Type} (f : Inode → α), f { s.inodes dir with iSize := size } =
      f (s.inodes dir) → ∀ m, f (((s.setPage d.bn pg).setDirSize dir size).inodes m) =
        f (s.inodes m) := fun f hf m => apply_setInode f hf m
  refine ⟨⟨?_, ?_, h.pages.update h.nodup hbn hcells, hnames, ?_, ?_⟩,
    ⟨rfl, rfl, ?_, fun b hb => ?_, hfield _ rfl, hfield _ rfl, hfield _ rfl, fun m hm => ?_⟩⟩
  · rw [hdir, hmap]
    exact h.childs
  · rw [hmap]
    exact h.nodup
  · rw [hdir]
    refine h.blocks.trans ?_
    simp
  · rw [hdir]
    exact hsize
  · rw [hdir, List.append_nil]
  · refine Function.update_of_ne (fun heq => hb ?_) ..
    rw [hdir]
    change b ∈ (s.inodes dir).childs
    rw [h.childs, heq]
    simp
  · have hsame : ((s.setPage d.bn pg).setDirSize dir size).inodes m = s.inodes m :=
      setInode_inodes_ne hm
    rw [hsame]
    exact ⟨rfl, rfl, rfl⟩

/-- **`toyfs_add_dirent`** puts an entry among those there are. -/
theorem DirAt.addDirent (h : DirAt s dir ds)
    (hfree : ∀ b ∈ s.pool.pages, b ∉ (s.inodes dir).childs) (hvalid : ValidName name)
    (hino : (s.inodes n).iIno ≠ 0) (hnew : ∀ x ∈ dirents 2 ds, x.entry.name ≠ name) :
    s.addDirent dir n name = (some .enospc, s) ∨
      ∃ ds' ls x rs grown, (s.addDirent dir n name).1 = none ∧
        DirAt (s.addDirent dir n name).2 dir ds' ∧ dirents 2 ds = ls ++ rs ∧
        dirents 2 ds' = ls ++ x :: rs ∧ x.entry = s.entryFor n hvalid hino ∧
        DirStep dir grown s (s.addDirent dir n name).2 := by
  unfold Sbi.addDirent
  split
  · exact .inl rfl
  · next bn i off s₁ ha =>
    right
    obtain ⟨ds₁, d, ds₂, xs, ys, grown, hat, hsame, hcells, hplace, hstep⟩ :=
      h.acquireDirent hfree hvalid.2.1 ha
    obtain ⟨rfl, rfl, rfl⟩ : bn = d.bn ∧ i = total Cell.size xs ∧
        off = 2 + dentriesPerPage * ds₁.length + total Cell.size xs := by
      simpa only [Prod.mk.injEq] using hplace
    set e := s.entryFor n hvalid hino
    replace hcells : d.cells = xs ++ List.replicate (namelenToNde e.name.length) .free ++ ys := hcells
    have hfull := d.full
    rw [hcells, total_append, total_append, total_replicate, Cell.size_free, Nat.mul_one] at hfull
    let d' : Dentries := ⟨d.bn, xs ++ .live e :: ys, by
      rw [total_append, total_cons, Cell.size_live]
      omega⟩
    obtain ⟨ls, rs, hbefore, hafter⟩ := @dirents_insert 2 d d' ds₁ ds₂ xs ys e rfl hcells rfl
    rw [hsame] at hbefore
    have hcellsAt : CellsAt (s₁.mem d.bn) (2 + dentriesPerPage * ds₁.length) 0
        (xs ++ List.replicate (namelenToNde e.name.length) .free ++ ys) := by
      rw [← hcells]
      exact (pagesAt_append.mp hat.pages).2.1
    have hsize : (s₁.inodes dir).iSize + 4096 =
        .ofNat (4096 * (dirents 2 (ds₁ ++ d' :: ds₂)).length) := by
      rw [hat.size, hsame, hbefore, hafter, List.length_append, List.length_append,
        List.length_cons, ← Nat.add_assoc, dirSize_succ]
    have hnames : ((dirents 2 (ds₁ ++ d' :: ds₂)).map fun x => x.entry.name).Nodup := by
      have hold := h.names
      rw [hbefore, List.map_append] at hold
      rw [hafter, List.map_append, List.map_cons, List.perm_middle.nodup_iff, List.nodup_cons,
        ← List.map_append]
      refine ⟨fun hin => ?_, by rwa [List.map_append]⟩
      obtain ⟨x, hx, hname⟩ := List.mem_map.mp hin
      exact hnew x (hbefore ▸ hx) hname
    have hbn : d'.bn = d.bn := rfl
    obtain ⟨hat', hstep'⟩ := hat.store hbn hcellsAt.setDirent hnames hsize
    have hend := hstep.trans (hstep'.trans (@nlinkEq_stdAddDentry _ dir n).dirStep)
    rw [List.append_nil, List.append_nil] at hend
    dsimp only
    rw [hstep.ino, hstep.mode]
    exact ⟨_, ls, _, rs, grown, rfl, nlinkEq_stdAddDentry.dirAt hat', hbefore, hafter, rfl, hend⟩

/-- **`toyfs_lookup_dirent`** finds the entry of the name. -/
theorem DirAt.lookupDirent (h : DirAt s dir ds) (hname : name ≠ []) :
    s.lookupDirent dir name =
      ((dirents 2 ds).find? fun x => x.entry.name == name).map fun x => (x.bn, x.idx) := by
  rw [Sbi.lookupDirent, h.childs, h.pages.lookup hname]

theorem DirAt.mem_of_lookupDirent {bn i : ℕ} (h : DirAt s dir ds) (hname : name ≠ [])
    (hl : s.lookupDirent dir name = some (bn, i)) :
    ∃ x ∈ dirents 2 ds, x.entry.name = name ∧ x.bn = bn ∧ x.idx = i := by
  rw [h.lookupDirent hname] at hl
  obtain ⟨x, hx, hplace⟩ := Option.map_eq_some_iff.mp hl
  obtain ⟨rfl, rfl⟩ := Prod.mk.inj hplace
  have hnamed := List.find?_some hx
  exact ⟨x, List.mem_of_find?_eq_some hx, eq_of_beq hnamed, rfl, rfl⟩

/-- An entry is found by its name. -/
theorem DirAt.lookupDirent_of_mem {x : LiveDirent} (h : DirAt s dir ds) (hx : x ∈ dirents 2 ds) :
    s.lookupDirent dir x.entry.name = some (x.bn, x.idx) := by
  rw [h.lookupDirent x.entry.valid.1]
  obtain ⟨y, hy⟩ : ∃ y, (dirents 2 ds).find? (fun y => y.entry.name == x.entry.name) = some y := by
    rw [← Option.isSome_iff_exists, List.find?_isSome]
    exact ⟨x, hx, beq_self_eq_true _⟩
  have hnamed := List.find?_some hy
  have hname : y.entry.name = x.entry.name := eq_of_beq hnamed
  have heq := List.inj_on_of_nodup_map h.names (List.mem_of_find?_eq_some hy) hx hname
  rw [hy, heq]
  rfl

/-- **`toyfs_remove_dirent`** takes an entry out. -/
theorem DirAt.removeDirent {x : LiveDirent} (h : DirAt s dir ds) (hx : x ∈ dirents 2 ds) :
    ∃ ds' ls rs, DirAt (s.removeDirent dir n x.bn x.idx) dir ds' ∧
      dirents 2 ds = ls ++ x :: rs ∧ dirents 2 ds' = ls ++ rs ∧
      DirStep dir [] s (s.removeDirent dir n x.bn x.idx) := by
  obtain ⟨ds₁, d, ds₂, xs, ys, rfl, hcells, hx⟩ := exists_of_mem_dirents hx
  have hfull := d.full
  rw [hcells, total_append, total_cons, Cell.size_live] at hfull
  let d' : Dentries :=
    ⟨d.bn, xs ++ List.replicate (namelenToNde x.entry.name.length) .free ++ ys, by
      rw [total_append, total_append, total_replicate, Cell.size_free]
      omega⟩
  obtain ⟨ls, rs, hafter, hbefore⟩ := @dirents_insert 2 d' d ds₁ ds₂ xs ys x.entry rfl rfl hcells
  rw [← hx] at hbefore
  have hcellsAt : CellsAt (s.mem d.bn) (2 + dentriesPerPage * ds₁.length) 0
      (xs ++ .live x.entry :: ys) := by
    rw [← hcells]
    exact (pagesAt_append.mp h.pages).2.1
  have hentry : decide (0 < dNlen (s.mem d.bn) (total Cell.size xs)) = true := by
    have hat := (cellsAt_cons.mp (cellsAt_append.mp hcellsAt).2).1
    rw [Nat.zero_add] at hat
    rw [hat.nlen]
    exact decide_eq_true x.entry.name_pos
  have hsize : (s.inodes dir).iSize - 4096 =
      .ofNat (4096 * (dirents 2 (ds₁ ++ d' :: ds₂)).length) := by
    rw [h.size, hbefore, hafter, List.length_append, List.length_append,
      List.length_cons, ← Nat.add_assoc, dirSize_succ, UInt64.add_sub_cancel]
  have hnames : ((dirents 2 (ds₁ ++ d' :: ds₂)).map fun x => x.entry.name).Nodup := by
    have hold := h.names
    rw [hbefore, List.map_append, List.map_cons, List.perm_middle.nodup_iff, List.nodup_cons] at hold
    rw [hafter, List.map_append]
    exact hold.2
  have hassert : NlinkEq s _ := nlinkEq_assert hentry
  have hbn' : d'.bn = d.bn := rfl
  obtain ⟨hat, hstep⟩ := (hassert.dirAt h).store hbn' hcellsAt.resetDirent hnames hsize
  have hend := hassert.dirStep.trans (hstep.trans (@nlinkEq_stdRemoveDentry _ dir n).dirStep)
  have hbn : x.bn = d.bn := congrArg LiveDirent.bn hx
  have hidx : x.idx = total Cell.size xs := congrArg LiveDirent.idx hx
  rw [hbn, hidx]
  exact ⟨_, ls, rs, nlinkEq_stdRemoveDentry.dirAt hat, hbefore, hafter, hend⟩

/-! ## Runs of calls -/

/-- What the file system is with the map the directory should be: inode number and type of
each name. -/
structure DirRun where
  sbi : Sbi
  spec : Finmap fun _ : List UInt8 => UInt64 × UInt8

/-- The calls on a directory. -/
inductive DirCall
  /-- `toyfs_add_dirent` -/
  | add (n : RecPtr) (name : List UInt8)
  /-- `toyfs_remove_dirent` of the entry `toyfs_lookup_dirent` finds -/
  | remove (n : RecPtr) (name : List UInt8)

/-- The name a call is about. -/
def DirCall.about : DirCall → List UInt8
  | add _ name => name
  | remove _ name => name

/-- One call: the names added are not there, and inodes have numbers. -/
def DirRun.next (dir : RecPtr) (x : DirRun) : DirCall → Option DirRun
  | .add n name =>
    if ValidName name ∧ name ∉ x.spec ∧ (x.sbi.inodes n).iIno ≠ 0 then
      match x.sbi.addDirent dir n name with
      | (none, s) => some ⟨s, x.spec.insert name
          ((x.sbi.inodes n).iIno, (x.sbi.inodes n).iMode.iftodt)⟩
      | (some _, s) => some { x with sbi := s }
    else none
  | .remove n name =>
    if ValidName name then
      (x.sbi.lookupDirent dir name).map fun place =>
        ⟨x.sbi.removeDirent dir n place.1 place.2, x.spec.erase name⟩
    else none

/-- A new directory, and a pool without a page on it twice. All pages are mapped: a page
has an address of at most `56` bits. -/
structure DirRun.Start (dir : RecPtr) (x : DirRun) : Prop where
  childs : (x.sbi.inodes dir).childs = []
  blocks : (x.sbi.inodes dir).iBlocks = 0
  size : (x.sbi.inodes dir).iSize = 0
  nodup : x.sbi.pool.pages.Nodup
  mapped : ∀ bn ∈ x.sbi.pool.pages, bn < 2 ^ 44
  spec : x.spec = ∅

/-- The runs of calls on one directory. -/
def dirRuns (dir : RecPtr) : Lts DirRun DirCall := .ofNext (DirRun.Start dir) (DirRun.next dir)

/-- The directory is what the map says. -/
structure DirRun.Refines (dir : RecPtr) (x : DirRun) : Prop where
  /-- an entry is found exactly for the names of the map -/
  found : ∀ name, ValidName name → ((x.sbi.lookupDirent dir name).isSome ↔ name ∈ x.spec)
  /-- it has the number and the type it was added with -/
  carries : ∀ name bn i, ValidName name → x.sbi.lookupDirent dir name = some (bn, i) →
    ∃ ino type, x.spec.lookup name = some (ino, type) ∧
      dIno (x.sbi.mem bn) i = ino.toNat ∧ dType (x.sbi.mem bn) i = type
  /-- its slots are in a page of the directory -/
  inside : ∀ name bn i, ValidName name → x.sbi.lookupDirent dir name = some (bn, i) →
    bn ∈ (x.sbi.inodes dir).childs ∧ i + namelenToNde name.length ≤ dentriesPerPage
  /-- the slots of two entries are different ones -/
  disjoint : ∀ name name' bn i i', ValidName name → ValidName name' →
    x.sbi.lookupDirent dir name = some (bn, i) → x.sbi.lookupDirent dir name' = some (bn, i') →
    name ≠ name' → i + namelenToNde name.length ≤ i' ∨ i' + namelenToNde name'.length ≤ i
  /-- all other slots are free -/
  free : ∀ bn ∈ (x.sbi.inodes dir).childs, ∀ j < dentriesPerPage,
    (∀ name i, ValidName name → x.sbi.lookupDirent dir name = some (bn, i) →
      ¬ (i ≤ j ∧ j < i + namelenToNde name.length)) → dNlen (x.sbi.mem bn) j = 0
  size : (x.sbi.inodes dir).iSize.toNat = 4096 * x.spec.keys.card
  blocks : (x.sbi.inodes dir).childs.Nodup ∧
    (x.sbi.inodes dir).iBlocks = (x.sbi.inodes dir).childs.length
  /-- the entry of a directory is not removed while there are entries in it -/
  notEmpty : (x.sbi.inodes dir).iMode = .dir → ∀ parent name,
    (x.sbi.lookupDirent parent name).isSome →
    ((x.sbi.removeDentry parent dir name).1 = some .enotempty ↔ x.spec ≠ ∅)

/-! ## The invariant -/

/-- The pages of the directory and of the pool are different ones, and the entries are
those of the map. -/
structure DirRun.Inv (dir : RecPtr) (x : DirRun) (ds : List Dentries) : Prop where
  dirAt : DirAt x.sbi dir ds
  apart : (ds.map Dentries.bn ++ x.sbi.pool.pages).Nodup
  mapped : ∀ bn ∈ ds.map Dentries.bn ++ x.sbi.pool.pages, bn < 2 ^ 44
  entries : ∀ name v, x.spec.lookup name = some v ↔
    ∃ y ∈ dirents 2 ds, y.entry.name = name ∧ (y.entry.ino, y.entry.type) = v

namespace DirRun

variable {x x' : DirRun}

theorem Start.inv (h : Start dir x) : Inv dir x [] where
  dirAt := ⟨h.childs, .nil, trivial, .nil, h.blocks, h.size⟩
  apart := h.nodup
  mapped := h.mapped
  entries name v := by
    rw [h.spec]
    simp [dirents]

theorem Inv.free (h : Inv dir x ds) : ∀ b ∈ x.sbi.pool.pages, b ∉ (x.sbi.inodes dir).childs := by
  intro b hb hin
  rw [h.dirAt.childs] at hin
  exact (List.nodup_append.mp h.apart).2.2 b hin b hb rfl

/-- The names of the map are those of the entries. -/
theorem Inv.mem_spec (h : Inv dir x ds) : name ∈ x.spec ↔
    ∃ y ∈ dirents 2 ds, y.entry.name = name := by
  rw [Finmap.mem_iff]
  constructor
  · rintro ⟨v, hv⟩
    obtain ⟨y, hy, hname, -⟩ := (h.entries name v).mp hv
    exact ⟨y, hy, hname⟩
  · rintro ⟨y, hy, hname⟩
    exact ⟨_, (h.entries name _).mpr ⟨y, hy, hname, rfl⟩⟩

/-- The pages a call takes are taken from the pool. -/
theorem Inv.pages {s' : Sbi} {ds' : List Dentries} {grown : List ℕ} (h : Inv dir x ds)
    (hat : DirAt s' dir ds') (hstep : DirStep dir grown x.sbi s') :
    ds'.map Dentries.bn ++ s'.pool.pages = ds.map Dentries.bn ++ x.sbi.pool.pages := by
  rw [hstep.pool, ← hat.childs, hstep.childs, h.dirAt.childs, List.append_assoc]

theorem Inv.add (h : Inv dir x ds) (hvalid : ValidName name) (hnew : name ∉ x.spec)
    (hino : (x.sbi.inodes n).iIno ≠ 0) :
    x.sbi.addDirent dir n name = (some .enospc, x.sbi) ∨
      ∃ ds', (x.sbi.addDirent dir n name).1 = none ∧
        Inv dir ⟨(x.sbi.addDirent dir n name).2, x.spec.insert name
          ((x.sbi.inodes n).iIno, (x.sbi.inodes n).iMode.iftodt)⟩ ds' ∧
        ∀ y, y.entry.name ≠ name → (y ∈ dirents 2 ds' ↔ y ∈ dirents 2 ds) := by
  have hnames : ∀ y ∈ dirents 2 ds, y.entry.name ≠ name := fun y hy hname =>
    hnew (h.mem_spec.mpr ⟨y, hy, hname⟩)
  obtain heq | ⟨ds', ls, y, rs, grown, hok, hat, hbefore, hafter, hentry, hstep⟩ :=
    h.dirAt.addDirent h.free hvalid hino hnames
  · exact .inl heq
  · have hpages := h.pages hat hstep
    have hmem : ∀ z, z ∈ dirents 2 ds' ↔ z = y ∨ z ∈ dirents 2 ds := fun z => by
      simp only [hafter, hbefore, List.mem_append, List.mem_cons]
      tauto
    have hy : y.entry.name = name ∧ (y.entry.ino, y.entry.type) =
        ((x.sbi.inodes n).iIno, (x.sbi.inodes n).iMode.iftodt) := by
      rw [hentry]
      exact ⟨rfl, rfl⟩
    refine .inr ⟨ds', hok, ⟨hat, ?_, ?_, fun name' v => ?_⟩, fun z hz => ?_⟩
    · exact hpages ▸ h.apart
    · exact hpages ▸ h.mapped
    · have hold := h.entries name' v
      simp only [hmem, or_and_right, exists_or, exists_eq_left]
      obtain rfl | hne := eq_or_ne name' name
      · rw [Finmap.lookup_insert, hy.1, hy.2, ← hold,
          Finmap.lookup_eq_none.mpr hnew]
        simp
      · rw [Finmap.lookup_insert_of_ne _ hne, hold, hy.1]
        simp [hne.symm]
    · rw [hmem]
      exact or_iff_right fun heq => hz (heq ▸ hy.1)

theorem Inv.remove {bn i : ℕ} (h : Inv dir x ds) (hvalid : ValidName name)
    (hl : x.sbi.lookupDirent dir name = some (bn, i)) :
    ∃ ds', Inv dir ⟨x.sbi.removeDirent dir n bn i, x.spec.erase name⟩ ds' ∧
      (∀ y, y.entry.name ≠ name → (y ∈ dirents 2 ds' ↔ y ∈ dirents 2 ds)) ∧
      ∀ y ∈ dirents 2 ds', y.entry.name ≠ name := by
  obtain ⟨y, hy, rfl, rfl, rfl⟩ := h.dirAt.mem_of_lookupDirent hvalid.1 hl
  obtain ⟨ds', ls, rs, hat, hbefore, hafter, hstep⟩ := h.dirAt.removeDirent (n := n) hy
  have hpages := h.pages hat hstep
  have hnames := h.dirAt.names
  rw [hbefore, List.map_append, List.map_cons, List.perm_middle.nodup_iff, List.nodup_cons,
    ← List.map_append, ← hafter] at hnames
  have hmem : ∀ z, z ∈ dirents 2 ds ↔ z = y ∨ z ∈ dirents 2 ds' := fun z => by
    simp only [hafter, hbefore, List.mem_append, List.mem_cons]
    tauto
  refine ⟨ds', ⟨hat, hpages ▸ h.apart, hpages ▸ h.mapped, fun name v => ?_⟩, fun z hz => ?_,
    fun z hz hname => hnames.1 (List.mem_map.mpr ⟨z, hz, hname⟩)⟩
  rotate_left
  · rw [hmem]
    exact (or_iff_right fun heq => hz (congrArg (·.entry.name) heq)).symm
  have hold := h.entries name v
  obtain rfl | hne := eq_or_ne name y.entry.name
  · rw [Finmap.lookup_erase]
    constructor
    · intro hv
      cases hv
    · rintro ⟨z, hz, hname, -⟩
      exact absurd (List.mem_map.mpr ⟨z, hz, hname⟩) hnames.1
  · rw [Finmap.lookup_erase_ne hne, hold]
    simp only [hmem, or_and_right, exists_or, exists_eq_left]
    simp [hne.symm]

/-- What a call does to the entries: those of other names stay, and a removed one goes. -/
structure Edit (spec : Finmap fun _ : List UInt8 => UInt64 × UInt8) (c : DirCall)
    (ds ds' : List Dentries) : Prop where
  others : ∀ y, y.entry.name ≠ c.about → (y ∈ dirents 2 ds' ↔ y ∈ dirents 2 ds)
  added : ∀ n name, c = .add n name → name ∉ spec
  removed : ∀ n name, c = .remove n name → ∀ y ∈ dirents 2 ds', y.entry.name ≠ name

/-- **One call keeps the invariant.** -/
theorem Inv.next {c : DirCall} (h : Inv dir x ds) (hn : x.next dir c = some x') :
    ∃ ds', Inv dir x' ds' ∧ Edit x.spec c ds ds' := by
  cases c with
  | add n name =>
    rw [DirRun.next] at hn
    split at hn
    · next hok =>
      obtain ⟨hvalid, hnew, hino⟩ := hok
      have hadded : ∀ n' name', DirCall.add n name = .add n' name' → name' ∉ x.spec := by
        rintro _ _ ⟨⟩
        exact hnew
      obtain heq | ⟨ds', hok, hinv, hothers⟩ := h.add hvalid hnew hino
      · rw [heq] at hn
        obtain rfl := Option.some.inj hn
        exact ⟨ds, h, fun _ _ => Iff.rfl, hadded, fun _ _ hc => by cases hc⟩
      · rcases hadd : x.sbi.addDirent dir n name with ⟨res, s⟩
        rw [hadd] at hn hok hinv
        dsimp only at hok
        subst hok
        obtain rfl := Option.some.inj hn
        exact ⟨ds', hinv, hothers, hadded, fun _ _ hc => by cases hc⟩
    · cases hn
  | remove n name =>
    rw [DirRun.next] at hn
    split at hn
    · next hvalid =>
      obtain ⟨⟨bn, i⟩, hl, rfl⟩ := Option.map_eq_some_iff.mp hn
      obtain ⟨ds', hinv, hothers, hgone⟩ := h.remove hvalid hl
      refine ⟨ds', hinv, hothers, fun _ _ hc => (by cases hc), ?_⟩
      rintro _ _ ⟨⟩
      exact hgone
    · cases hn

/-! ## The refinement -/

/-- The names of the map, counted. -/
theorem Inv.card (h : Inv dir x ds) : x.spec.keys.card = (dirents 2 ds).length := by
  have hkeys : x.spec.keys = ((dirents 2 ds).map fun y => y.entry.name).toFinset := by
    ext name
    rw [Finmap.mem_keys, h.mem_spec, List.mem_toFinset, List.mem_map]
  rw [hkeys, List.toFinset_card_of_nodup h.dirAt.names, List.length_map]

/-- All entries are mapped, so their sizes do not overflow. -/
theorem Inv.short (h : Inv dir x ds) : ds.length ≤ 2 ^ 44 := by
  have hnodup := (List.nodup_append.mp h.apart).1
  have hsub : (ds.map Dentries.bn).toFinset ⊆ Finset.range (2 ^ 44) := fun bn hbn => by
    rw [List.mem_toFinset] at hbn
    exact Finset.mem_range.mpr (h.mapped bn (List.mem_append_left _ hbn))
  have hcard := Finset.card_le_card hsub
  rwa [List.toFinset_card_of_nodup hnodup, List.length_map, Finset.card_range] at hcard

theorem Inv.offs_lt (h : Inv dir x ds) : 2 + dentriesPerPage * ds.length ≤ 2 ^ 63 := by
  have := h.short
  unfold dentriesPerPage
  omega

end DirRun

/-- The bytes of an entry, found by its name. -/
theorem DirAt.entryAt {x : LiveDirent} (h : DirAt s dir ds) (hx : x ∈ dirents 2 ds) :
    EntryAt (s.mem x.bn) x.idx x.off x.entry ∧ x.bn ∈ (s.inodes dir).childs ∧
      x.idx + namelenToNde x.entry.name.length ≤ dentriesPerPage := by
  obtain ⟨ds₁, d, ds₂, xs, ys, rfl, hcells, hx⟩ := exists_of_mem_dirents hx
  have hfull := d.full
  have hat := (pagesAt_append.mp h.pages).2.1
  rw [hcells, total_append, total_cons, Cell.size_live] at hfull
  rw [hcells, cellsAt_append, cellsAt_cons, Nat.zero_add] at hat
  rw [hx, h.childs]
  exact ⟨hat.2.1, by simp, by simp only; omega⟩

/-- Two entries of a page do not overlap. -/
theorem DirAt.disjoint {x y : LiveDirent} (h : DirAt s dir ds) (hx : x ∈ dirents 2 ds)
    (hy : y ∈ dirents 2 ds) (hbn : x.bn = y.bn) (hne : x ≠ y) :
    x.idx + namelenToNde x.entry.name.length ≤ y.idx ∨
      y.idx + namelenToNde y.entry.name.length ≤ x.idx := by
  have hapart : (dirents 2 ds).Pairwise fun x y =>
      x.off + namelenToNde x.entry.name.length ≤ y.off ∨
        y.off + namelenToNde y.entry.name.length ≤ x.off := dirents_pairwise.imp .inl
  have : Std.Symm fun x y : LiveDirent => x.off + namelenToNde x.entry.name.length ≤ y.off ∨
      y.off + namelenToNde y.entry.name.length ≤ x.off := ⟨fun _ _ h => h.symm⟩
  have hoff := off_eq h.nodup hx
  have hoff' := off_eq h.nodup hy
  rw [hbn] at hoff
  obtain hle | hle := hapart.forall hx hy hne
  · exact .inl (by omega)
  · exact .inr (by omega)

/-- A slot without an entry is free. -/
theorem DirAt.slot_free {bn j : ℕ} (h : DirAt s dir ds) (hbn : bn ∈ (s.inodes dir).childs)
    (hj : j < dentriesPerPage)
    (hno : ∀ x ∈ dirents 2 ds, x.bn = bn →
      ¬ (x.idx ≤ j ∧ j < x.idx + namelenToNde x.entry.name.length)) :
    dNlen (s.mem bn) j = 0 := by
  rw [h.childs] at hbn
  obtain ⟨d, hd, rfl⟩ := List.mem_map.mp hbn
  obtain ⟨ds₁, ds₂, rfl⟩ := List.append_of_mem hd
  have hcells := (pagesAt_append.mp h.pages).2.1
  obtain ⟨⟨i, c⟩, hp, hlo, hhi⟩ := exists_placed_of_lt (Nat.zero_le j)
    (by rwa [Nat.zero_add, d.full])
  cases c with
  | free =>
    obtain rfl : i = j := by
      simp only [Cell.size_free] at hlo hhi
      omega
    exact hcells _ hp
  | live e =>
    refine absurd ⟨hlo, hhi⟩ (hno ⟨d.bn, i, 2 + dentriesPerPage * ds₁.length + i, e⟩ ?_ rfl)
    rw [dirents_append]
    exact List.mem_append_right _ (List.mem_append_left _
      (List.mem_filterMap.mpr ⟨(i, .live e), hp, rfl⟩))

/-- A map without names is empty. -/
theorem keys_card_eq_zero {α : Type*} [DecidableEq α] {β : α → Type*} {m : Finmap β} :
    m.keys.card = 0 ↔ m = ∅ := by
  constructor
  · intro h
    refine Finmap.ext_lookup fun a => ?_
    rw [Finmap.lookup_empty, Finmap.lookup_eq_none, ← Finmap.mem_keys, Finset.card_eq_zero.mp h]
    exact Finset.notMem_empty a
  · rintro rfl
    rfl

/-- **The invariant is the refinement.** -/
theorem DirRun.Inv.refines {x : DirRun} (h : DirRun.Inv dir x ds) : x.Refines dir := by
  have hat := h.dirAt
  have hsize : (x.sbi.inodes dir).iSize.toNat = 4096 * x.spec.keys.card := by
    have hshort := h.short
    have hle := length_dirents_le 2 ds
    rw [hat.size, h.card, UInt64.toNat_ofNat']
    refine Nat.mod_eq_of_lt ?_
    unfold dentriesPerPage at hle
    omega
  refine ⟨fun name hvalid => ?_, fun name bn i hvalid hl => ?_, fun name bn i hvalid hl => ?_,
    fun name name' bn i i' hvalid hvalid' hl hl' hne => ?_, fun bn hbn j hj hno => ?_, hsize,
    ⟨?_, ?_⟩, fun hdir parent name hfound => ?_⟩
  · rw [h.mem_spec]
    constructor
    · intro hsome
      obtain ⟨⟨bn, i⟩, hl⟩ := Option.isSome_iff_exists.mp hsome
      obtain ⟨y, hy, hname, -⟩ := hat.mem_of_lookupDirent hvalid.1 hl
      exact ⟨y, hy, hname⟩
    · rintro ⟨y, hy, rfl⟩
      rw [hat.lookupDirent_of_mem hy]
      rfl
  · obtain ⟨y, hy, hname, rfl, rfl⟩ := hat.mem_of_lookupDirent hvalid.1 hl
    have hentry := (hat.entryAt hy).1
    exact ⟨_, _, (h.entries name _).mpr ⟨y, hy, hname, rfl⟩, hentry.ino, hentry.type⟩
  · obtain ⟨y, hy, rfl, rfl, rfl⟩ := hat.mem_of_lookupDirent hvalid.1 hl
    exact (hat.entryAt hy).2
  · obtain ⟨y, hy, rfl, rfl, rfl⟩ := hat.mem_of_lookupDirent hvalid.1 hl
    obtain ⟨y', hy', rfl, hbn, rfl⟩ := hat.mem_of_lookupDirent hvalid'.1 hl'
    exact hat.disjoint hy hy' hbn.symm fun heq => hne (congrArg (·.entry.name) heq)
  · refine hat.slot_free hbn hj fun y hy hbn' => hno y.entry.name y.idx y.entry.valid ?_
    rw [hat.lookupDirent_of_mem hy, hbn']
  · rw [hat.childs]
    exact hat.nodup
  · rw [hat.blocks, hat.childs, List.length_map]
  · obtain ⟨⟨bn, i⟩, hl⟩ := Option.isSome_iff_exists.mp hfound
    have hzero : (x.sbi.inodes dir).iSize ≠ 0 ↔ x.spec ≠ ∅ := by
      rw [ne_eq, ← UInt64.toNat_inj, hsize, ne_eq, ← keys_card_eq_zero]
      exact not_congr (by simp)
    unfold Sbi.removeDentry
    rw [hl]
    dsimp only
    rw [← hzero]
    split
    · next hcond => simp [hcond.2]
    · next hcond =>
      have hempty : (x.sbi.inodes dir).iSize = 0 := by
        by_contra hne
        exact hcond ⟨hdir, hne⟩
      split <;> simp [hempty]

theorem dirRuns_inv {x : DirRun} (hreach : (dirRuns dir).Reachable x) :
    ∃ ds, DirRun.Inv dir x ds := by
  refine hreach.invariant (I := fun x => ∃ ds, DirRun.Inv dir x ds) ?_ ?_
  · exact fun x hx => ⟨[], DirRun.Start.inv hx⟩
  · rintro x c x' ⟨ds, h⟩ hn
    obtain ⟨ds', h', -⟩ := h.next hn
    exact ⟨ds', h'⟩

/-- **A directory refines a finite map** in every run of calls. -/
theorem dirRuns_refines (dir : RecPtr) (x : DirRun) (hreach : (dirRuns dir).Reachable x) :
    x.Refines dir := by
  obtain ⟨ds, h⟩ := dirRuns_inv hreach
  exact h.refines

/-- A directory and a file on a file system with one free page. -/
def oneFreePage : Sbi where
  mem _ _ := 0
  dblkrefs _ := {}
  inodes n := if n.idx = 0 then { iMode := .dir, iIno := 1 } else { iMode := .reg, iIno := 2 }
  pool := ⟨[5], fun _ => []⟩
  fBlocks := 1
  fBfree := 1
  fBavail := 1
  fFiles := 0
  fFfree := 0
  fFavail := 0
  imap _ := []
  icount := 0
  tiis _ := none
  sTopIno := 2
  panicked := false

/-- The file is added as `a` and `bb`, and `a` is removed. -/
theorem dirRuns_refines_add : ∃ x, (dirRuns ⟨9, 0⟩).Reachable x ∧
    x.spec.lookup [97] = none ∧ x.spec.lookup [98, 98] = some (2, 8) ∧ x.Refines ⟨9, 0⟩ := by
  have h₀ : (dirRuns ⟨9, 0⟩).Reachable ⟨oneFreePage, ∅⟩ :=
    .init ⟨rfl, rfl, rfl, by decide, by decide, rfl⟩
  obtain ⟨x, hx, hp⟩ := h₀.exists_of_runAll
    [.add ⟨9, 1⟩ [97], .add ⟨9, 1⟩ [98, 98], .remove ⟨9, 1⟩ [97]]
    (p := fun x => x.spec.lookup [97] == none && x.spec.lookup [98, 98] == some (2, 8))
    (by decide +kernel)
  rw [Bool.and_eq_true, beq_iff_eq, beq_iff_eq] at hp
  exact ⟨x, hx, hp.1, hp.2, dirRuns_refines ⟨9, 0⟩ x hx⟩

end Zus.Toyfs
