import Zus.Toyfs.Storage

/-!
# File operations and the store

Each operation of `file.c` keeps the invariant of the store, and touches nothing but the
file it is applied to, the pool and pages that are not in use. `Quiet` is the frame of the
allocations, `FileStep` that of a whole operation. The operations that store into a block
in place are the exception this module leaves open: `KeepsFile` says that the data of
another file stays, and the lemmas about in-place stores ask that the block is not one of
that file.

The invariant is kept in two kinds of steps. An allocation has a `_spec` lemma: what is taken was
owned by no one, and the reference to a new block is held in hand (`bump held d`) until it is put on
a list. An operation has a `_cases` lemma that says all it can do: `requireIblkref_cases`, for
instance, tells the failure, the block that is there, the new block and the copy apart, with the
state each of them leaves. The modules on contents and on counts start from these.
-/

namespace Zus.Toyfs

open Zus.Lib

variable {s s' s₁ s₂ : Sbi} {held : RecPtr → ℕ} {n m d : RecPtr} {ib : Iblkref}

/-! ## Frames -/

/-- The part of the state no file operation looks at. -/
def Sbi.tables (s : Sbi) : (ℕ → List InodeRef) × ℕ × (ℕ → Option InodeInfo) × UInt64 × ℕ × ℕ :=
  (s.imap, s.icount, s.tiis, s.sTopIno, s.fFfree, s.fFavail)

section Frames

variable {i : Inode} {c : Bool} {p : RecPtr}

@[simp] theorem setInode_tables : (s.setInode n i).tables = s.tables := rfl
@[simp] theorem setInode_mem : (s.setInode n i).mem = s.mem := rfl
@[simp] theorem assert_tables : (s.assert c).tables = s.tables := rfl
@[simp] theorem assert_mem : (s.assert c).mem = s.mem := rfl
@[simp] theorem assert_inodes : (s.assert c).inodes = s.inodes := rfl
@[simp] theorem releaseIblkref_tables : (s.releaseIblkref p).tables = s.tables := rfl
@[simp] theorem releaseIblkref_mem : (s.releaseIblkref p).mem = s.mem := rfl
@[simp] theorem releaseIblkref_inodes : (s.releaseIblkref p).inodes = s.inodes := rfl

end Frames

/-- The page is in use by a block or by an inode. -/
def InUse (s : Sbi) (bn : ℕ) : Prop :=
  (∃ d, Owns s bn (.data d)) ∨ ∃ use m, Owns s bn (.inode use m)

/-- Only the pool, unused records and unused pages change. -/
structure Quiet (s s' : Sbi) : Prop where
  inodes : s'.inodes = s.inodes
  tables : s'.tables = s.tables
  dblkrefs : ∀ d, 0 < counts s d → s'.dblkrefs d = s.dblkrefs d
  mem : ∀ bn, InUse s bn → s'.mem bn = s.mem bn

theorem Quiet.refl (s : Sbi) : Quiet s s := ⟨rfl, rfl, fun _ _ => rfl, fun _ _ => rfl⟩

/-- A count above zero stays. -/
theorem Quiet.counts_eq (h : Quiet s s') (hd : 0 < counts s d) : counts s' d = counts s d :=
  congrArg Dblkref.refcnt (h.dblkrefs d hd)

/-- A page in use stays in use. -/
theorem Quiet.inUse (h : Quiet s s') {bn : ℕ} (hu : InUse s bn) : InUse s' bn := by
  rcases hu with ⟨d, hpos, hpage⟩ | ⟨use, m, hm⟩
  · refine .inl ⟨d, ?_, ?_⟩
    · rw [h.dblkrefs d hpos]
      exact hpos
    · rw [Sbi.pageOf, h.dblkrefs d hpos]
      exact hpage
  · refine .inr ⟨use, m, ?_⟩
    simp only [Owns, h.inodes]
    exact hm

theorem Quiet.trans (h : Quiet s s₁) (h₁ : Quiet s₁ s₂) : Quiet s s₂ where
  inodes := h₁.inodes.trans h.inodes
  tables := h₁.tables.trans h.tables
  dblkrefs d hd := by
    rw [h₁.dblkrefs d (by rwa [h.counts_eq hd]), h.dblkrefs d hd]
  mem bn hu := (h₁.mem bn (h.inUse hu)).trans (h.mem bn hu)

/-- The data of a block stays: its page, and the bytes of the page. -/
def KeepsBlock (s s' : Sbi) (d : RecPtr) : Prop :=
  s'.pageOf d = s.pageOf d ∧ s'.mem (s.pageOf d) = s.mem (s.pageOf d)

theorem KeepsBlock.trans (h : KeepsBlock s s₁ d) (h₁ : KeepsBlock s₁ s₂ d) : KeepsBlock s s₂ d := by
  obtain ⟨hp, hm⟩ := h
  obtain ⟨hp₁, hm₁⟩ := h₁
  rw [hp] at hp₁ hm₁
  exact ⟨hp₁, hm₁.trans hm⟩

/-- A block in use keeps its page, and this its bytes. -/
theorem Quiet.keepsBlock (h : Quiet s s') (hd : 0 < counts s d) : KeepsBlock s s' d :=
  ⟨congrArg Dblkref.bn (h.dblkrefs d hd), h.mem _ (.inl ⟨d, hd, rfl⟩)⟩

/-- The data of all blocks of a file stays. -/
def KeepsFile (m : RecPtr) (s s' : Sbi) : Prop :=
  s'.inodes m = s.inodes m ∧ ∀ k ∈ (s.inodes m).keys, KeepsBlock s s' k.2

/-- A file keeps what nothing changes. -/
theorem KeepsFile.refl (m : RecPtr) (s : Sbi) : KeepsFile m s s :=
  ⟨rfl, fun _ _ => ⟨rfl, rfl⟩⟩

/-- One after the other: the blocks of the file are the same in between. -/
theorem KeepsFile.trans (h : KeepsFile m s s₁) (h₁ : KeepsFile m s₁ s₂) : KeepsFile m s s₂ := by
  refine ⟨h₁.1.trans h.1, fun k hk => (h.2 k hk).trans (h₁.2 k ?_)⟩
  rwa [h.1]

/-- A block on a list is counted. -/
theorem Inv.counts_pos (h : Inv held s) {k : RecPtr × RecPtr} (hk : k ∈ (s.inodes m).keys) :
    0 < counts s k.2 := h.used_of_mem ⟨m, hk⟩

/-- What takes pages and records from the pool leaves all files alone. -/
theorem Inv.keepsFile_of_quiet (h : Inv held s) (hq : Quiet s s') (m : RecPtr) :
    KeepsFile m s s' :=
  ⟨by rw [hq.inodes], fun _ hk => hq.keepsBlock (h.counts_pos hk)⟩

/-- An operation on the regular file `n`: the other inodes stay, of `n` only the block
list, the size and the block count change, and pages of inodes are not written. -/
structure FileStep (n : RecPtr) (s s' : Sbi) : Prop where
  reg : (s.inodes n).iMode = .reg
  others : ∀ m, m ≠ n → s'.inodes m = s.inodes m
  self : ∃ l size blocks,
    s'.inodes n = { s.inodes n with iblkrefs := l, iSize := size, iBlocks := blocks }
  tables : s'.tables = s.tables
  mem : ∀ bn use m, (s.inodes m).Holds bn use → s'.mem bn = s.mem bn

/-- A regular file uses a page for its attributes only. -/
theorem sameHold_of_reg {i i' : Inode} (hreg : i.iMode = .reg) (hreg' : i'.iMode = .reg)
    (hchilds : i'.childs = i.childs) (hxattr : i'.iXattr = i.iXattr) : SameHold i i' where
  mode := hreg'.trans hreg.symm
  notUnset := by
    rw [hreg]
    exact fun h => by cases h
  holds bn use := by
    cases use with
    | entries => simp only [Inode.Holds, hchilds]
    | xattr => simp only [Inode.Holds, hxattr]
    | symlink => simp [Inode.Holds, hreg, hreg']
  childs := hchilds

/-- A regular file keeps its type and pages when its list, size and block count change. -/
theorem sameHold_reg {i : Inode} (hreg : i.iMode = .reg) (l : List Iblkref) (size : UInt64)
    (blocks : ℕ) : SameHold i { i with iblkrefs := l, iSize := size, iBlocks := blocks } :=
  sameHold_of_reg hreg hreg rfl rfl

namespace FileStep

theorem refl (hreg : (s.inodes n).iMode = .reg) : FileStep n s s :=
  ⟨hreg, fun _ _ => rfl, ⟨_, _, _, rfl⟩, rfl, fun _ _ _ _ => rfl⟩

theorem mode (h : FileStep n s s') : (s'.inodes n).iMode = .reg := by
  obtain ⟨l, size, blocks, hself⟩ := h.self
  rw [hself]
  exact h.reg

/-- The pages inodes use for themselves stay theirs. -/
theorem holds (h : FileStep n s s') {bn : ℕ} {use : PageUse} (m : RecPtr) :
    (s'.inodes m).Holds bn use ↔ (s.inodes m).Holds bn use := by
  by_cases hmn : m = n
  · subst hmn
    obtain ⟨l, size, blocks, hself⟩ := h.self
    rw [hself]
    exact (sameHold_reg h.reg l size blocks).holds bn use
  · rw [h.others m hmn]

theorem trans (h : FileStep n s s₁) (h₁ : FileStep n s₁ s₂) : FileStep n s s₂ := by
  obtain ⟨l, size, blocks, hself⟩ := h.self
  obtain ⟨l', size', blocks', hself'⟩ := h₁.self
  refine ⟨h.reg, fun m hm => (h₁.others m hm).trans (h.others m hm), ⟨l', size', blocks', ?_⟩,
    h₁.tables.trans h.tables, fun bn use m hm => ?_⟩
  · rw [hself', hself]
  · rw [h₁.mem bn use m ((h.holds m).mpr hm), h.mem bn use m hm]

end FileStep

/-- Taking pages and records from the pool is a step on any file. -/
theorem Quiet.fileStep (h : Quiet s s') (hreg : (s.inodes n).iMode = .reg) : FileStep n s s' := by
  refine ⟨hreg, fun m _ => by rw [h.inodes], ?_, h.tables, fun bn use m hm => ?_⟩
  · exact ⟨(s.inodes n).iblkrefs, (s.inodes n).iSize, (s.inodes n).iBlocks, by rw [h.inodes]⟩
  · exact h.mem bn (.inr ⟨use, m, hm⟩)

/-- A change of the block list, the size and the block count alone. -/
theorem fileStep_setInode (hreg : (s.inodes n).iMode = .reg) (l : List Iblkref) (size : UInt64)
    (blocks : ℕ) : FileStep n s
      (s.setInode n { s.inodes n with iblkrefs := l, iSize := size, iBlocks := blocks }) :=
  ⟨hreg, fun _ hm => setInode_inodes_ne hm, ⟨l, size, blocks, setInode_inodes_self⟩, rfl,
    fun _ _ _ _ => rfl⟩

/-- Another file does not see a new content of the record. -/
theorem keepsFile_setInode {i : Inode} (hm : m ≠ n) : KeepsFile m s (s.setInode n i) :=
  ⟨setInode_inodes_ne hm, fun _ _ => ⟨rfl, rfl⟩⟩

/-! ## Taking from the pool -/

/-- **A page from the pool** is zeroed and no one's. -/
theorem acquirePmemb_spec {bn : ℕ} (h : Inv held s) (ha : s.acquirePmemb = some (bn, s')) :
    Inv held s' ∧ Unowned s' bn ∧ Quiet s s' ∧ s'.dblkrefs = s.dblkrefs ∧
      s'.mem bn = fun _ => 0 := by
  obtain ⟨-, -, p, hpop, rfl⟩ := Sbi.acquirePmemb_some ha
  obtain ⟨hinv, hun⟩ := h.popPmemb hpop
  obtain ⟨rest, hpages, -⟩ := Pool.popPmemb_eq hpop
  have hpool : Owns s bn .pool := by
    change bn ∈ s.pool.pages
    rw [hpages]
    exact List.mem_cons_self
  refine ⟨hinv.congr rfl rfl rfl, hun.congr rfl rfl rfl,
    ⟨rfl, rfl, fun _ _ => rfl, fun c hu => ?_⟩, rfl, ?_⟩
  · -- the page popped was not in use
    have hne : c ≠ bn := by
      rintro rfl
      rcases hu with ⟨d, hd⟩ | ⟨use, m, hm⟩
      · cases h.exclusive _ _ _ hpool hd
      · cases h.exclusive _ _ _ hpool hm
    simp [Sbi.setPage, hne]
  · simp [Sbi.setPage]

/-- A page that is no one's may go back. -/
theorem Inv.releasePmemb {bn : ℕ} (h : Inv held s) (hu : Unowned s bn) :
    Inv held (s.releasePmemb bn) := (h.pushPmemb hu).congr rfl rfl rfl

/-- **A block record from the pool** is not counted. -/
theorem acquireDblkref_spec (h : Inv held s) (ha : s.acquireDblkref = some (d, s')) :
    Inv held s' ∧ Spare s' .dblkref d ∧ Quiet s s' ∧ s'.mem = s.mem ∧ counts s d = 0 ∧
      ∀ b, Unowned s b → Unowned s' b ∧ b ≠ d.bn := by
  obtain ⟨p, hpop, rfl⟩ := Sbi.acquireDblkref_some ha
  obtain ⟨hinv, hspare, hun⟩ := h.popRec hpop
  have hzero : counts s d = 0 := Nat.eq_zero_of_not_pos hspare.notUsed
  -- the record was not in use, so clearing it changes no owner and no count
  have hback : ∀ b o, Owns ((s.withPool p).setDblkref d ⟨0, 0⟩) b o → Owns (s.withPool p) b o := by
    intro b o ho
    rcases owns_setDblkref ho with ⟨ho, -⟩ | ⟨hp, -⟩ | ⟨hp, -⟩
    · exact ho
    · cases hp
    · cases hp
  have hc : counts ((s.withPool p).setDblkref d ⟨0, 0⟩) = counts (s.withPool p) := by
    funext d'
    by_cases hd : d' = d
    · subst hd
      rw [counts_setDblkref_self]
      exact hzero.symm
    · exact counts_setDblkref_ne hd
  have hinv' : Inv held ((s.withPool p).setDblkref d ⟨0, 0⟩) := by
    refine hinv.setDblkref (fun hp => by cases hp) (fun hp => by cases hp)
      (fun hp => by cases hp) ?_
    rw [hc]
    exact hinv.counted
  refine ⟨hinv'.congr rfl rfl rfl, ⟨hspare.notFree, ?_, fun o ho => ?_, hspare.pos⟩,
    ⟨rfl, rfl, fun d' hd' => ?_, fun _ _ => rfl⟩, rfl, hzero, fun b hb => ?_⟩
  · simp [Used, Sbi.setDblkref]
  · exact hspare.page o (hback _ o ((Owns.congr rfl rfl rfl).mp ho))
  · have hne : d' ≠ d := by
      rintro rfl
      rw [hzero] at hd'
      cases hd'
    simp [Sbi.setDblkref, hne]
  · obtain ⟨hb', hne⟩ := hun b hb
    exact ⟨⟨hb'.1, fun o ho => hb'.2 o (hback b o ((Owns.congr rfl rfl rfl).mp ho))⟩, hne⟩

/-- The same for an `iblkref`. -/
theorem acquireIblkref_spec {r : RecPtr} (h : Inv held s) (ha : s.acquireIblkref = some (r, s')) :
    Inv held s' ∧ Spare s' .iblkref r ∧ Quiet s s' ∧ s'.mem = s.mem ∧ s'.dblkrefs = s.dblkrefs := by
  obtain ⟨p, hpop, rfl⟩ := Sbi.acquireIblkref_some ha
  obtain ⟨hinv, hspare, -⟩ := h.popRec hpop
  exact ⟨hinv.congr rfl rfl rfl, hspare.congr rfl rfl rfl,
    ⟨rfl, rfl, fun _ _ => rfl, fun _ _ => rfl⟩, rfl, rfl⟩

/-! ## Blocks -/

/-- `_new_dblkref` fails: nothing in use has changed. -/
theorem newDblkref_none (h : Inv held s) (hn : s.newDblkref = (none, s')) :
    Inv held s' ∧ Quiet s s' := by
  unfold Sbi.newDblkref at hn
  split at hn
  · obtain ⟨-, rfl⟩ := Prod.mk.inj hn
    exact ⟨h, .refl s⟩
  · next bn s₁ ha =>
    obtain ⟨h₁, hu, hq, -⟩ := acquirePmemb_spec h ha
    split at hn
    · obtain ⟨-, rfl⟩ := Prod.mk.inj hn
      exact ⟨h₁.releasePmemb hu, ⟨hq.inodes, hq.tables, hq.dblkrefs, hq.mem⟩⟩
    · cases (Prod.mk.inj hn).1

/-- `_new_dblkref` gives a zeroed block that was not in use, with a reference in hand. -/
theorem newDblkref_some (h : Inv held s) (hn : s.newDblkref = (some d, s')) :
    Inv (bump held d) s' ∧ Quiet s s' ∧ counts s d = 0 ∧ counts s' d = 1 ∧
      s'.mem (s'.pageOf d) = fun _ => 0 := by
  unfold Sbi.newDblkref at hn
  split at hn
  · cases (Prod.mk.inj hn).1
  · next bn s₁ ha =>
    obtain ⟨h₁, hu, hq, hdb, hmem⟩ := acquirePmemb_spec h ha
    split at hn
    · cases (Prod.mk.inj hn).1
    · next d₀ s₂ hd =>
      obtain ⟨hd₀, rfl⟩ := Prod.mk.inj hn
      obtain rfl := Option.some.inj hd₀
      obtain ⟨h₂, hspare, hq₂, hmem₂, hzero, hun⟩ := acquireDblkref_spec h₁ hd
      obtain ⟨hu₂, hne⟩ := hun bn hu
      have hzero' : counts s d₀ = 0 := by
        rw [← hzero, counts, counts, hdb]
      have hqs := hq.trans hq₂
      refine ⟨h₂.startDblkref hspare hu₂ hne,
        ⟨hqs.inodes, hqs.tables, fun d' hd' => ?_, fun b hb => ?_⟩, hzero', ?_, ?_⟩
      · have hne' : d' ≠ d₀ := by
          rintro rfl
          rw [hzero'] at hd'
          cases hd'
        rw [← hqs.dblkrefs d' hd']
        simp [Sbi.setDblkref, hne']
      · exact hqs.mem b hb
      · exact counts_setDblkref_self
      · simp only [Sbi.setDblkref, Sbi.pageOf, Function.update_self]
        rw [hmem₂, hmem]

@[simp] theorem putDblkref_inodes : (s.putDblkref d).inodes = s.inodes := by
  unfold Sbi.putDblkref
  split <;> rfl

@[simp] theorem putDblkref_tables : (s.putDblkref d).tables = s.tables := by
  unfold Sbi.putDblkref
  split <;> rfl

@[simp] theorem putDblkref_mem : (s.putDblkref d).mem = s.mem := by
  unfold Sbi.putDblkref
  split <;> rfl

/-- Other blocks are as before. -/
theorem putDblkref_dblkrefs_ne {d' : RecPtr} (h : d' ≠ d) :
    (s.putDblkref d).dblkrefs d' = s.dblkrefs d' := by
  unfold Sbi.putDblkref
  split
  · simp [Sbi.freeDblkref, Sbi.releasePmemb, Sbi.releaseDblkref, Sbi.decRefcnt, Sbi.setDblkref, h]
  · simp [Sbi.decRefcnt, Sbi.setDblkref, h]

/-- The count goes down, to zero when the block goes. -/
theorem putDblkref_counts_self : counts (s.putDblkref d) d = counts s d - 1 := by
  unfold Sbi.putDblkref
  split
  · next hone =>
    simp [counts, Sbi.freeDblkref, Sbi.releasePmemb, Sbi.releaseDblkref, Sbi.decRefcnt,
      Sbi.setDblkref]
  · simp [counts, Sbi.decRefcnt, Sbi.setDblkref]

/-- A block that stays in use when a reference is put keeps its data. -/
theorem putDblkref_keepsBlock {d' : RecPtr} (hpos : 0 < counts (s.putDblkref d) d') :
    KeepsBlock s (s.putDblkref d) d' := by
  refine ⟨?_, by rw [putDblkref_mem]⟩
  by_cases hd : d' = d
  · subst hd
    rw [putDblkref_counts_self] at hpos
    have hne : ¬ (s.dblkrefs d').refcnt - 1 = 0 := by
      unfold counts at hpos
      omega
    rw [Sbi.putDblkref, if_neg hne]
    simp [Sbi.pageOf, Sbi.decRefcnt, Sbi.setDblkref]
  · rw [Sbi.pageOf, putDblkref_dblkrefs_ne hd, Sbi.pageOf]

/-- Putting the one reference to a block that was not in use before is quiet. -/
theorem Quiet.putDblkref (h : Quiet s s₁) (hzero : counts s d = 0) : Quiet s (s₁.putDblkref d) where
  inodes := by rw [putDblkref_inodes, h.inodes]
  tables := by rw [putDblkref_tables, h.tables]
  dblkrefs d' hd' := by
    have hne : d' ≠ d := by
      rintro rfl
      rw [hzero] at hd'
      cases hd'
    rw [putDblkref_dblkrefs_ne hne, h.dblkrefs d' hd']
  mem bn hu := by rw [putDblkref_mem, h.mem bn hu]

/-- **`_decref_dblkref`** gives back the reference in hand. -/
theorem Inv.decrefDblkref (h : Inv (bump held d) s) : Inv held (s.decrefDblkref d) := by
  have h' : Inv (bump held d) (s.assert (0 < (s.dblkrefs d).refcnt)) := h.congr rfl rfl rfl
  exact h'.putDblkref

/-! ## Block lists -/

section Lists

variable {l : List Iblkref}

/-- The list of a file with one block more. -/
theorem insertIblkref_perm (ib : Iblkref) (l : List Iblkref) :
    (insertIblkref ib l).Perm (ib :: l) := by
  induction l with
  | nil => exact .refl _
  | cons x rest ih =>
    unfold insertIblkref
    split
    · exact .refl _
    · exact (ih.cons x).trans (.swap ib x rest)

/-- A list without one of its blocks. -/
theorem filter_perm (hnd : (l.map Iblkref.ptr).Nodup) (hm : ib ∈ l) :
    l.Perm (ib :: l.filter fun x => x.ptr ≠ ib.ptr) := by
  induction l with
  | nil => cases hm
  | cons x rest ih =>
    rw [List.map_cons, List.nodup_cons] at hnd
    rcases List.mem_cons.mp hm with rfl | hm
    · -- no other element has the same record
      have hrest : rest.filter (fun x => x.ptr ≠ ib.ptr) = rest := by
        refine List.filter_eq_self.mpr fun y hy => ?_
        rw [decide_eq_true_eq]
        exact fun he => hnd.1 (he ▸ List.mem_map_of_mem hy)
      rw [List.filter_cons_of_neg (by simp), hrest]
    · have hne : x.ptr ≠ ib.ptr := fun he => hnd.1 (he ▸ List.mem_map_of_mem hm)
      rw [List.filter_cons_of_pos (by simpa using hne)]
      exact ((ih hnd.2 hm).cons x).trans (.swap ib x _)

/-- A list on which one block names another page. -/
theorem retargetIblkref_perm (hnd : (l.map Iblkref.ptr).Nodup) (hm : ib ∈ l) (d : RecPtr) :
    (retargetIblkref ib.ptr d l).Perm
      ({ ib with dblkref := d } :: l.filter fun x => x.ptr ≠ ib.ptr) := by
  have hperm := (filter_perm hnd hm).map
    fun x => if x.ptr = ib.ptr then { x with dblkref := d } else x
  rw [List.map_cons, if_pos rfl] at hperm
  have hrest : (l.filter fun x => x.ptr ≠ ib.ptr).map
      (fun x => if x.ptr = ib.ptr then { x with dblkref := d } else x) =
      l.filter fun x => x.ptr ≠ ib.ptr := by
    refine (List.map_congr_left fun x hx => ?_).trans (List.map_id _)
    exact if_neg (by simpa using (List.mem_filter.mp hx).2)
  rw [hrest] at hperm
  exact hperm

/-- The block that is found is on the list, at the offset. -/
theorem scanIblkref_some {boff : ℤ} (h : scanIblkref boff l = some ib) : ib ∈ l ∧ ib.off = boff := by
  induction l with
  | nil => cases h
  | cons x rest ih =>
    unfold scanIblkref at h
    split at h
    · next hoff =>
      obtain rfl := Option.some.inj h
      exact ⟨List.mem_cons_self, hoff⟩
    · split at h
      · cases h
      · obtain ⟨hm, hoff⟩ := ih h
        exact ⟨List.mem_cons_of_mem _ hm, hoff⟩

/-- A block is known by its `iblkref` and the block record that names. -/
theorem mem_keys_of_mem {i : Inode} (h : ib ∈ i.iblkrefs) : (ib.ptr, ib.dblkref) ∈ i.keys :=
  List.mem_map.mpr ⟨ib, h, rfl⟩

/-- No `iblkref` is twice on a list. -/
theorem Inv.ptrNodup (h : Inv held s) (n : RecPtr) : ((s.blocksOf n).map Iblkref.ptr).Nodup := by
  have := h.keysNodup n
  rwa [Inode.keys, List.map_map] at this

end Lists

/-- `_new_iblkref` that fails leaves nothing behind. -/
theorem newIblkref_none {off : ℤ} (h : Inv held s) (hn : s.newIblkref n off = (none, s')) :
    Inv held s' ∧ Quiet s s' := by
  unfold Sbi.newIblkref at hn
  split at hn
  · next s₁ hd =>
    obtain ⟨-, rfl⟩ := Prod.mk.inj hn
    exact newDblkref_none h hd
  · next d s₁ hd =>
    obtain ⟨h₁, hq, hzero, -⟩ := newDblkref_some h hd
    split at hn
    · obtain ⟨-, rfl⟩ := Prod.mk.inj hn
      refine ⟨h₁.decrefDblkref, ?_⟩
      have hq' : Quiet s (s₁.assert (0 < (s₁.dblkrefs d).refcnt)) :=
        ⟨hq.inodes, hq.tables, hq.dblkrefs, hq.mem⟩
      exact hq'.putDblkref hzero
    · cases (Prod.mk.inj hn).1

/-- `_new_iblkref` gives an `iblkref` in hand that names a fresh zeroed block. -/
theorem newIblkref_some {off : ℤ} (h : Inv held s) (hn : s.newIblkref n off = (some ib, s')) :
    ∃ s₁, Inv (bump held ib.dblkref) s₁ ∧ Spare s₁ .iblkref ib.ptr ∧ Quiet s s₁ ∧
      counts s ib.dblkref = 0 ∧ counts s₁ ib.dblkref = 1 ∧
      s₁.mem (s₁.pageOf ib.dblkref) = (fun _ => 0) ∧ ib.off = off ∧
      s' = s₁.setInode n { s.inodes n with iBlocks := (s.inodes n).iBlocks + 1 } := by
  unfold Sbi.newIblkref at hn
  split at hn
  · cases (Prod.mk.inj hn).1
  · next d s₁ hd =>
    obtain ⟨h₁, hq, hzero, hone, hmem⟩ := newDblkref_some h hd
    split at hn
    · cases (Prod.mk.inj hn).1
    · next r s₂ hr =>
      obtain ⟨hib, rfl⟩ := Prod.mk.inj hn
      obtain rfl := Option.some.inj hib
      obtain ⟨h₂, hspare, hq₂, hmem₂, hdb₂⟩ := acquireIblkref_spec h₁ hr
      have hqs := hq.trans hq₂
      refine ⟨s₂, h₂, hspare, hqs, hzero, ?_, ?_, rfl, by rw [hqs.inodes]⟩
      · simp only
        rw [counts, hdb₂]
        exact hone
      · simp only
        rw [Sbi.pageOf, hdb₂, hmem₂]
        exact hmem

/-- Storing into a block that was not in use before is quiet. -/
theorem Quiet.storeAt {held' : RecPtr → ℕ} (hq : Quiet s s₁) (h₁ : Inv held' s₁)
    (hd : counts s d = 0) (hd₁ : 0 < counts s₁ d) (off : ℤ) (len : UInt64) (src : Bytes) :
    Quiet s (s₁.storeAt (s₁.pageOf d) off len src) := by
  refine ⟨hq.inodes, hq.tables, hq.dblkrefs, fun bn hu => ?_⟩
  have hown : Owns s₁ (s₁.pageOf d) (.data d) := ⟨hd₁, rfl⟩
  have hne : bn ≠ s₁.pageOf d := by
    rintro rfl
    rcases hu with ⟨d', hpos, hpage⟩ | ⟨use, m, hm⟩
    · have hown' : Owns s₁ (s₁.pageOf d) (.data d') := by
        refine ⟨?_, ?_⟩
        · rw [hq.dblkrefs d' hpos]
          exact hpos
        · rw [Sbi.pageOf, hq.dblkrefs d' hpos]
          exact hpage
      obtain rfl : d' = d := by simpa using h₁.exclusive _ _ _ hown' hown
      rw [counts] at hd
      omega
    · have hown' : Owns s₁ (s₁.pageOf d) (.inode use m) := by
        simp only [Owns, hq.inodes]
        exact hm
      cases h₁.exclusive _ _ _ hown hown'
  rw [← hq.mem bn hu]
  simp [Sbi.storeAt, Sbi.setPage, Sbi.assert, hne]

/-- A store reads back inside its range. -/
theorem storeAt_mem {bn : ℕ} {off : ℤ} {len : UInt64} {src : Bytes} {i : ℕ} (h₁ : off.toNat ≤ i)
    (h₂ : i < off.toNat + len.toNat) :
    (s.storeAt bn off len src).mem bn i = src (i - off.toNat) := by
  simp only [Sbi.storeAt, Sbi.setPage, Function.update_self]
  exact Bytes.store_of_mem _ _ h₁ h₂

/-- A block of a file is made to name another block. -/
theorem Inv.retargetBlock (h : Inv (bump held d) s) (hreg : (s.inodes n).iMode = .reg)
    (hm : ib ∈ s.blocksOf n) :
    Inv (bump held ib.dblkref) (s.setBlocks n (retargetIblkref ib.ptr d (s.blocksOf n))) := by
  have hnd := h.ptrNodup n
  have hold := (filter_perm hnd hm).map fun x => (x.ptr, x.dblkref)
  have hnew := (retargetIblkref_perm hnd hm d).map fun x => (x.ptr, x.dblkref)
  exact h.retarget (sameHold_reg hreg _ _ _) hold hnew

/-- **A copy of a block** of a file is a fresh block that has its bytes. -/
theorem cloneData_spec (h : Inv held s) (hm : ib ∈ s.blocksOf n)
    (hn : s.newDblkref = (some d, s₁)) :
    Inv (bump held d) (s₁.cloneData d ib.dblkref) ∧ Quiet s (s₁.cloneData d ib.dblkref) ∧
      counts s d = 0 ∧ counts s₁ d = 1 ∧ ∀ i < pageSize,
        (s₁.cloneData d ib.dblkref).mem (s₁.pageOf d) i = s.mem (s.pageOf ib.dblkref) i := by
  obtain ⟨h₁, hq, hzero, hone, -⟩ := newDblkref_some h hn
  refine ⟨h₁.congr rfl rfl rfl, hq.storeAt h₁ hzero (by omega) _ _ _, hzero, hone, fun i hi => ?_⟩
  obtain ⟨hpage, hdata⟩ := hq.keepsBlock (h.counts_pos (mem_keys_of_mem hm))
  have hread : (s₁.cloneData d ib.dblkref).mem (s₁.pageOf d) i =
      s₁.mem (s₁.pageOf ib.dblkref) (i - (0 : ℤ).toNat) :=
    storeAt_mem (Nat.zero_le i) (by simpa [pageSize] using hi)
  rw [hread, hpage]
  exact congrFun hdata i

/-- **What `_require_iblkref` does**: it fails and changes nothing in use; finds a block
that is not shared; adds a fresh zeroed block; or gives the `iblkref` it found a fresh copy
of a shared block. In the last case the reference to the shared block is lost. -/
theorem requireIblkref_cases {off : ℤ} {res : Option Iblkref} (h : Inv held s)
    (hreg : (s.inodes n).iMode = .reg) (hr : s.requireIblkref n off = (res, s')) :
    (res = none ∧ Inv held s' ∧ Quiet s s') ∨
    (∃ ib, res = some ib ∧ scanIblkref (offToBoff off) (s.blocksOf n) = some ib ∧
      counts s ib.dblkref ≤ 1 ∧ s' = s) ∨
    (∃ ib s₁, res = some ib ∧ scanIblkref (offToBoff off) (s.blocksOf n) = none ∧
      ib.off = offToBoff off ∧ Quiet s s₁ ∧ counts s ib.dblkref = 0 ∧ counts s₁ ib.dblkref = 1 ∧
      s₁.mem (s₁.pageOf ib.dblkref) = (fun _ => 0) ∧ Inv held s' ∧
      s' = s₁.setInode n { s.inodes n with
        iblkrefs := insertIblkref ib (s.blocksOf n), iBlocks := (s.inodes n).iBlocks + 1 }) ∨
    (∃ ib d s₁, res = some { ib with dblkref := d } ∧
      scanIblkref (offToBoff off) (s.blocksOf n) = some ib ∧ 1 < counts s ib.dblkref ∧
      Quiet s s₁ ∧ counts s d = 0 ∧ counts s₁ d = 1 ∧
      (∀ i < pageSize, s₁.mem (s₁.pageOf d) i = s.mem (s.pageOf ib.dblkref) i) ∧
      Inv (bump held ib.dblkref) s' ∧
      s' = s₁.setInode n { s.inodes n with
        iblkrefs := retargetIblkref ib.ptr d (s.blocksOf n) }) := by
  unfold Sbi.requireIblkref at hr
  split at hr
  · next hscan =>
    split at hr
    · next s₁ hn =>
      obtain ⟨rfl, rfl⟩ := Prod.mk.inj hr
      exact .inl ⟨rfl, newIblkref_none h hn⟩
    · next ib s₁ hn =>
      obtain ⟨rfl, rfl⟩ := Prod.mk.inj hr
      obtain ⟨s₂, h₂, hspare, hq, hzero, hone, hmem, hoff, rfl⟩ := newIblkref_some h hn
      refine .inr (.inr (.inl ⟨ib, s₂, rfl, hscan, hoff, hq, hzero, hone, hmem, ?_, ?_⟩))
      · rw [Sbi.setBlocks, setInode_setInode]
        refine h₂.attach hspare ?_ ?_
        · rw [setInode_inodes_self, hq.inodes]
          exact sameHold_reg hreg _ _ _
        · have hperm := (insertIblkref_perm ib (s.blocksOf n)).map
            fun x => (x.ptr, x.dblkref)
          rw [hq.inodes]
          simpa [Inode.keys, Sbi.blocksOf] using hperm
      · simp [Sbi.setBlocks, Sbi.blocksOf]
  · next ib hscan =>
    split at hr
    · next hshared =>
      split at hr
      · next s₁ hn =>
        obtain ⟨rfl, rfl⟩ := Prod.mk.inj hr
        exact .inl ⟨rfl, newDblkref_none h hn⟩
      · next d s₁ hn =>
        obtain ⟨rfl, rfl⟩ := Prod.mk.inj hr
        have hmemb := (scanIblkref_some hscan).1
        obtain ⟨h₂, hq, hzero, hone, hmem⟩ := cloneData_spec h hmemb hn
        have hin : (s₁.cloneData d ib.dblkref).inodes = s.inodes := hq.inodes
        refine .inr (.inr (.inr ⟨ib, d, s₁.cloneData d ib.dblkref, rfl, hscan, hshared, hq, hzero,
          hone, hmem, ?_, ?_⟩))
        · refine h₂.retargetBlock ?_ ?_
          · rw [hin]
            exact hreg
          · rw [Sbi.blocksOf, hin]
            exact hmemb
        · simp only [Sbi.setBlocks, Sbi.blocksOf, hin]
    · next hone =>
      obtain ⟨rfl, rfl⟩ := Prod.mk.inj hr
      exact .inr (.inl ⟨ib, rfl, hscan, Nat.not_lt.mp hone, rfl⟩)

end Zus.Toyfs
