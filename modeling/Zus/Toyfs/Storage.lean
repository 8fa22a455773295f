import Zus.Lib.Sharing
import Zus.Toyfs.Inode

/-!
# What the pages of toyfs are used for

Every page has at most one use: it is in the pool, holds the data of one block, belongs to
one inode, or is cut into records of one kind. Every record is free or in use, not both.
And the count of a data block is the number of `iblkref`s that name it, plus the references
a running operation holds (or that were lost): `held` in `Inv`.

`Inv` is the invariant of the store. This module proves it for the primitive changes: a
page or a record taken from the pool or given back, a count changed, the block list of an
inode changed, the pages of an inode changed. The operations on files, directories and
inodes are made of these.
-/

namespace Zus.Toyfs

open Zus.Lib

/-! ## Ownership -/

/-- What an inode uses a page for. -/
inductive PageUse
  | entries
  | xattr
  | symlink
  deriving DecidableEq

/-- The inode uses the page. -/
def Inode.Holds (i : Inode) (bn : ℕ) : PageUse → Prop
  | .entries => bn ∈ i.childs
  | .xattr => i.iXattr ≠ 0 ∧ i.iXattr = bn
  | .symlink => i.iMode = .lnk ∧ symlinkSize ≤ i.iSize ∧ Sbi.dppToBn i.iSymDpp = bn

/-- The owners of pages. -/
inductive Owner
  /-- the free pages of the pool -/
  | pool
  /-- a data block -/
  | data (d : RecPtr)
  /-- an inode -/
  | inode (use : PageUse) (n : RecPtr)
  /-- the records of one kind -/
  | recs (kind : RecKind)
  deriving DecidableEq

/-- The `iblkref`s of an inode and the blocks they name, without the offsets. -/
def Inode.keys (i : Inode) : List (RecPtr × RecPtr) :=
  i.iblkrefs.map fun ib => (ib.ptr, ib.dblkref)

/-- A record is in use. -/
def Used (s : Sbi) : RecKind → RecPtr → Prop
  | .inode, n => (s.inodes n).iMode ≠ .unset
  | .dblkref, d => 0 < (s.dblkrefs d).refcnt
  | .iblkref, r => ∃ n d, (r, d) ∈ (s.inodes n).keys

/-- The owner uses the page. -/
def Owns (s : Sbi) (bn : ℕ) : Owner → Prop
  | .pool => bn ∈ s.pool.pages
  | .data d => 0 < (s.dblkrefs d).refcnt ∧ s.pageOf d = bn
  | .inode use n => (s.inodes n).Holds bn use
  | .recs kind => ∃ r : RecPtr, r.bn = bn ∧ (r ∈ s.pool.free kind ∨ Used s kind r)

/-- The `iblkref`s, over the block lists of all inodes, that name a data block. -/
def refs (s : Sbi) (d : RecPtr) : Set RecPtr := { p | ∃ n, (p, d) ∈ (s.inodes n).keys }

/-- The reference counts. -/
def counts (s : Sbi) (d : RecPtr) : ℕ := (s.dblkrefs d).refcnt

/-- No one owns the page: an operation has it in hand. -/
def Unowned (s : Sbi) (bn : ℕ) : Prop := bn ≠ 0 ∧ ∀ o, ¬ Owns s bn o

/-- The record is neither free nor in use: an operation has it in hand. -/
structure Spare (s : Sbi) (kind : RecKind) (r : RecPtr) : Prop where
  notFree : r ∉ s.pool.free kind
  notUsed : ¬ Used s kind r
  page : ∀ o, Owns s r.bn o → o = .recs kind
  pos : r.bn ≠ 0

/-- The invariant of the store, while `held` counts the references in no block list. -/
structure Inv (held : RecPtr → ℕ) (s : Sbi) : Prop where
  /-- a page has one use -/
  exclusive : Exclusive (Owns s)
  nonzero : ∀ bn o, Owns s bn o → bn ≠ 0
  pagesNodup : s.pool.pages.Nodup
  freeNodup : ∀ kind, (s.pool.free kind).Nodup
  /-- a free record is not in use -/
  freeUnused : ∀ kind, ∀ r ∈ s.pool.free kind, ¬ Used s kind r
  /-- an `iblkref` is on one list, once -/
  keysNodup : ∀ n, ((s.inodes n).keys.map Prod.fst).Nodup
  keysInj : ∀ n n' p d d', (p, d) ∈ (s.inodes n).keys → (p, d') ∈ (s.inodes n').keys → n = n'
  childsNodup : ∀ n, (s.inodes n).childs.Nodup
  /-- a record that is no inode is zeroed -/
  blank : ∀ n, (s.inodes n).iMode = .unset → s.inodes n = {}
  counted : Counted (refs s) held (counts s)

variable {s s' : Sbi} {held : RecPtr → ℕ} {n d r : RecPtr} {bn : ℕ} {kind : RecKind}

/-- The invariant is about the pool and the records, not about the bytes of pages. -/
theorem Inv.congr (h : Inv held s) (hp : s'.pool = s.pool) (hd : s'.dblkrefs = s.dblkrefs)
    (hi : s'.inodes = s.inodes) : Inv held s' := by
  obtain ⟨mem, dblkrefs, inodes, pool⟩ := s
  obtain ⟨mem', dblkrefs', inodes', pool'⟩ := s'
  subst hp hd hi
  exact ⟨h.exclusive, h.nonzero, h.pagesNodup, h.freeNodup, h.freeUnused, h.keysNodup,
    h.keysInj, h.childsNodup, h.blank, h.counted⟩

theorem Owns.congr (hp : s'.pool = s.pool) (hd : s'.dblkrefs = s.dblkrefs)
    (hi : s'.inodes = s.inodes) {o : Owner} : Owns s' bn o ↔ Owns s bn o := by
  obtain ⟨mem, dblkrefs, inodes, pool⟩ := s
  obtain ⟨mem', dblkrefs', inodes', pool'⟩ := s'
  subst hp hd hi
  exact Iff.rfl

theorem Unowned.congr (h : Unowned s bn) (hp : s'.pool = s.pool) (hd : s'.dblkrefs = s.dblkrefs)
    (hi : s'.inodes = s.inodes) : Unowned s' bn :=
  ⟨h.1, fun o ho => h.2 o ((Owns.congr hp hd hi).mp ho)⟩

theorem Spare.congr (h : Spare s kind r) (hp : s'.pool = s.pool) (hd : s'.dblkrefs = s.dblkrefs)
    (hi : s'.inodes = s.inodes) : Spare s' kind r := by
  obtain ⟨mem, dblkrefs, inodes, pool⟩ := s
  obtain ⟨mem', dblkrefs', inodes', pool'⟩ := s'
  subst hp hd hi
  exact ⟨h.notFree, h.notUsed, h.page, h.pos⟩

theorem Inv.used_of_mem (h : Inv held s) {p : RecPtr} (hp : p ∈ refs s d) :
    0 < (s.dblkrefs d).refcnt := h.counted.pos hp

/-- A record in use is not free. -/
theorem Inv.notFree (h : Inv held s) (hu : Used s kind r) : r ∉ s.pool.free kind :=
  fun hf => h.freeUnused kind r hf hu

/-! ## Pages of the pool -/

/-- The state with another pool. -/
def Sbi.withPool (s : Sbi) (p : Pool) : Sbi := { s with pool := p }

theorem Pool.popPmemb_eq {p q : Pool} (h : p.popPmemb = some (bn, q)) :
    ∃ rest, p.pages = bn :: rest ∧ q = { p with pages := rest } := by
  unfold Pool.popPmemb at h
  split at h
  · cases h
  · next b rest hpages =>
    obtain ⟨rfl, rfl⟩ := Prod.mk.inj (Option.some.inj h)
    exact ⟨rest, hpages, rfl⟩

/-- Taking a page from the pool gives no one a page. -/
theorem owns_popPmemb {p : Pool} (hp : s.pool.popPmemb = some (bn, p)) {b : ℕ} {o : Owner}
    (ho : Owns (s.withPool p) b o) : Owns s b o := by
  obtain ⟨rest, hpages, rfl⟩ := Pool.popPmemb_eq hp
  cases o with
  | pool =>
    change b ∈ s.pool.pages
    rw [hpages]
    exact List.mem_cons_of_mem _ ho
  | data d => exact ho
  | inode use n => exact ho
  | recs kind =>
    obtain ⟨r, hr, hf⟩ := ho
    cases kind <;> exact ⟨r, hr, hf⟩

theorem Inv.popPmemb {p : Pool} (h : Inv held s) (hp : s.pool.popPmemb = some (bn, p)) :
    Inv held (s.withPool p) ∧ Unowned (s.withPool p) bn := by
  obtain ⟨rest, hpages, rfl⟩ := Pool.popPmemb_eq hp
  have hmem : bn ∈ s.pool.pages := by
    rw [hpages]
    exact List.mem_cons_self
  have hnd : bn ∉ rest ∧ rest.Nodup := by
    have := h.pagesNodup
    rw [hpages] at this
    exact List.nodup_cons.mp this
  refine ⟨⟨h.exclusive.mono fun b o ho => owns_popPmemb hp ho,
    fun b o ho => h.nonzero b o (owns_popPmemb hp ho), hnd.2,
    h.freeNodup, fun kind => ?_, h.keysNodup, h.keysInj, h.childsNodup, h.blank, h.counted⟩,
    h.nonzero bn .pool hmem, fun o ho => ?_⟩
  · cases kind <;> exact h.freeUnused _
  · have ho' := h.exclusive bn o .pool (owns_popPmemb hp ho) hmem
    subst ho'
    exact hnd.1 ho

theorem Inv.pushPmemb (h : Inv held s) (hu : Unowned s bn) :
    Inv held (s.withPool (s.pool.pushPmemb bn)) := by
  have hsub : ∀ b o, Owns (s.withPool (s.pool.pushPmemb bn)) b o →
      Owns s b o ∨ (b = bn ∧ o = .pool) := by
    intro b o ho
    cases o with
    | pool =>
      rcases List.mem_cons.mp ho with rfl | ho
      · exact .inr ⟨rfl, rfl⟩
      · exact .inl ho
    | data d => exact .inl ho
    | inode use n => exact .inl ho
    | recs kind =>
      obtain ⟨r, hr, hf⟩ := ho
      cases kind <;> exact .inl ⟨r, hr, hf⟩
  refine ⟨h.exclusive.insert (fun o ho => absurd ho (hu.2 o)) hsub, fun b o ho => ?_,
    List.nodup_cons.mpr ⟨hu.2 .pool, h.pagesNodup⟩, h.freeNodup, fun kind => ?_, h.keysNodup,
    h.keysInj, h.childsNodup, h.blank, h.counted⟩
  · rcases hsub b o ho with ho | ⟨rfl, -⟩
    · exact h.nonzero b o ho
    · exact hu.1
  · cases kind <;> exact h.freeUnused _

/-! ## Records of the pool -/

theorem Used.withPool_iff {p : Pool} : Used (s.withPool p) kind r ↔ Used s kind r := by
  cases kind <;> exact Iff.rfl

/-- The owners after a change of one free list. -/
theorem owns_setFree {l : List RecPtr} {b : ℕ} {o : Owner}
    (ho : Owns (s.withPool (s.pool.setFree kind l)) b o) :
    Owns s b o ∨ (o = .recs kind ∧ ∃ r ∈ l, r.bn = b) := by
  cases o with
  | pool => exact .inl ho
  | data d => exact .inl ho
  | inode use n => exact .inl ho
  | recs kind' =>
    obtain ⟨r, hr, hf⟩ := ho
    by_cases hk : kind' = kind
    · subst hk
      rcases hf with hf | hf
      · refine .inr ⟨rfl, r, ?_, hr⟩
        simpa [Sbi.withPool, Pool.setFree] using hf
      · exact .inl ⟨r, hr, .inr (Used.withPool_iff.mp hf)⟩
    · refine .inl ⟨r, hr, ?_⟩
      rcases hf with hf | hf
      · exact .inl (by simpa [Sbi.withPool, Pool.setFree, hk] using hf)
      · exact .inr (Used.withPool_iff.mp hf)

/-- A free list may be replaced by one of records that are not in use, on pages that are
cut into such records or that no one owns. -/
theorem Inv.setFree {l : List RecPtr} (h : Inv held s) (hnd : l.Nodup)
    (hunused : ∀ r ∈ l, ¬ Used s kind r) (hpage : ∀ r ∈ l, r.bn ≠ 0 ∧
      ∀ o, Owns s r.bn o → o = .recs kind) : Inv held (s.withPool (s.pool.setFree kind l)) := by
  refine ⟨?_, ?_, h.pagesNodup, ?_, ?_, h.keysNodup, h.keysInj, h.childsNodup, h.blank, h.counted⟩
  · intro b o o' ho ho'
    rcases owns_setFree ho with h₁ | ⟨rfl, r, hr, rfl⟩
    · rcases owns_setFree ho' with h₂ | ⟨rfl, r, hr, rfl⟩
      · exact h.exclusive b o o' h₁ h₂
      · exact (hpage r hr).2 o h₁
    · rcases owns_setFree ho' with h₂ | ⟨rfl, -⟩
      · exact ((hpage r hr).2 o' h₂).symm
      · rfl
  · intro b o ho
    rcases owns_setFree ho with ho | ⟨-, r, hr, rfl⟩
    · exact h.nonzero b o ho
    · exact (hpage r hr).1
  · intro kind'
    by_cases hk : kind' = kind
    · subst hk
      simpa [Sbi.withPool, Pool.setFree] using hnd
    · simpa [Sbi.withPool, Pool.setFree, hk] using h.freeNodup kind'
  · intro kind' r hr hu
    rw [Used.withPool_iff] at hu
    by_cases hk : kind' = kind
    · subst hk
      exact hunused r (by simpa [Sbi.withPool, Pool.setFree] using hr) hu
    · exact h.freeUnused kind' r (by simpa [Sbi.withPool, Pool.setFree, hk] using hr) hu

/-- A record in hand goes to its free list. -/
theorem Inv.pushRec (h : Inv held s) (hs : Spare s kind r) :
    Inv held (s.withPool (s.pool.pushRec kind r)) := by
  refine h.setFree ?_ ?_ ?_
  · refine (h.freeNodup kind).append (List.nodup_singleton r) ?_
    intro x hx hx'
    rw [List.mem_singleton] at hx'
    exact hs.notFree (hx' ▸ hx)
  · intro x hx
    rcases List.mem_append.mp hx with hx | hx
    · exact h.freeUnused kind x hx
    · rw [List.mem_singleton] at hx
      exact hx ▸ hs.notUsed
  · intro x hx
    rcases List.mem_append.mp hx with hx | hx
    · have hown : Owns s x.bn (.recs kind) := ⟨x, rfl, .inl hx⟩
      exact ⟨h.nonzero _ _ hown, fun o ho => h.exclusive _ _ _ ho hown⟩
    · rw [List.mem_singleton] at hx
      exact hx ▸ ⟨hs.pos, hs.page⟩

/-- What is in hand stays in hand while a record goes back, unless it is its page. -/
theorem Unowned.pushRec {b : ℕ} (hu : Unowned s b) (hne : b ≠ r.bn) :
    Unowned (s.withPool (s.pool.pushRec kind r)) b := by
  refine ⟨hu.1, fun o ho => ?_⟩
  rcases owns_setFree ho with ho | ⟨rfl, x, hx, rfl⟩
  · exact hu.2 o ho
  · rcases List.mem_append.mp hx with hx | hx
    · exact hu.2 (.recs kind) ⟨x, rfl, .inl hx⟩
    · rw [List.mem_singleton] at hx
      exact hne (hx ▸ rfl)

/-- A record popped from its free list is in hand. -/
theorem Inv.popFree {p : Pool} (h : Inv held s) (hp : s.pool.popFree kind = some (r, p)) :
    Inv held (s.withPool p) ∧ Spare (s.withPool p) kind r ∧
      ∀ b, Unowned s b → Unowned (s.withPool p) b ∧ b ≠ r.bn := by
  unfold Pool.popFree at hp
  split at hp
  · cases hp
  · next x rest hfree =>
    obtain ⟨rfl, rfl⟩ := Prod.mk.inj (Option.some.inj hp)
    have hmem : x ∈ s.pool.free kind := by
      rw [hfree]
      exact List.mem_cons_self
    have hnd : x ∉ rest ∧ rest.Nodup := by
      have := h.freeNodup kind
      rw [hfree] at this
      exact List.nodup_cons.mp this
    have hrest : ∀ y ∈ rest, y ∈ s.pool.free kind := by
      intro y hy
      rw [hfree]
      exact List.mem_cons_of_mem _ hy
    have hown : Owns s x.bn (.recs kind) := ⟨x, rfl, .inl hmem⟩
    have hback : ∀ b o, Owns (s.withPool (s.pool.setFree kind rest)) b o → Owns s b o := by
      intro b o ho
      rcases owns_setFree ho with ho | ⟨rfl, y, hy, rfl⟩
      · exact ho
      · exact ⟨y, rfl, .inl (hrest y hy)⟩
    refine ⟨h.setFree hnd.2 (fun y hy => h.freeUnused kind y (hrest y hy)) (fun y hy => ?_),
      ⟨?_, ?_, fun o ho => h.exclusive _ _ _ (hback _ o ho) hown, h.nonzero _ _ hown⟩,
      fun b hb => ⟨⟨hb.1, fun o ho => hb.2 o (hback b o ho)⟩, ?_⟩⟩
    · have hy' : Owns s y.bn (.recs kind) := ⟨y, rfl, .inl (hrest y hy)⟩
      exact ⟨h.nonzero _ _ hy', fun o ho => h.exclusive _ _ _ ho hy'⟩
    · simpa [Sbi.withPool, Pool.setFree] using hnd.1
    · rw [Used.withPool_iff]
      exact h.freeUnused kind x hmem
    · rintro rfl
      exact hb.2 _ hown

/-- A page of the pool is cut into free records. -/
theorem Inv.addFree {p : Pool} (h : Inv held s) (hp : s.pool.addFree kind = some p) :
    Inv held (s.withPool p) ∧ ∀ b, Unowned s b → Unowned (s.withPool p) b := by
  unfold Pool.addFree at hp
  split at hp
  · cases hp
  · next b₀ p₀ hpop =>
    obtain rfl := Option.some.inj hp
    obtain ⟨h₀, hu₀⟩ := h.popPmemb hpop
    obtain ⟨rest, hpages, hp₀⟩ := Pool.popPmemb_eq hpop
    have hrecs : ∀ x ∈ Pool.recsOf kind b₀, x.bn = b₀ := by
      intro x hx
      obtain ⟨i, -, rfl⟩ := List.mem_map.mp hx
      rfl
    have hfresh : ∀ x, x.bn = b₀ → x ∉ p₀.free kind ∧ ¬ Used (s.withPool p₀) kind x := by
      rintro x rfl
      exact ⟨fun hf => hu₀.2 (.recs kind) ⟨x, rfl, .inl hf⟩,
        fun hu => hu₀.2 (.recs kind) ⟨x, rfl, .inr hu⟩⟩
    constructor
    · refine @Inv.setFree _ _ kind _ h₀ ?_ ?_ ?_
      · refine (h₀.freeNodup kind).append ?_ ?_
        · refine List.Nodup.map ?_ List.nodup_range
          intro i j hij
          exact (RecPtr.mk.inj hij).2
        · intro x hx hx'
          exact (hfresh x (hrecs x hx')).1 hx
      · intro x hx
        rcases List.mem_append.mp hx with hx | hx
        · exact h₀.freeUnused kind x hx
        · exact (hfresh x (hrecs x hx)).2
      · intro x hx
        rcases List.mem_append.mp hx with hx | hx
        · have hown : Owns (s.withPool p₀) x.bn (.recs kind) := ⟨x, rfl, .inl hx⟩
          exact ⟨h₀.nonzero _ _ hown, fun o ho => h₀.exclusive _ _ _ ho hown⟩
        · rw [hrecs x hx]
          exact ⟨hu₀.1, fun o ho => absurd ho (hu₀.2 o)⟩
    · intro b hb
      refine ⟨hb.1, fun o ho => ?_⟩
      rcases owns_setFree (s := s.withPool p₀) ho with ho | ⟨rfl, x, hx, rfl⟩
      · exact hb.2 o (owns_popPmemb hpop ho)
      · rcases List.mem_append.mp hx with hx | hx
        · exact hb.2 (.recs kind) (owns_popPmemb hpop ⟨x, rfl, .inl hx⟩)
        · refine hb.2 .pool ?_
          change x.bn ∈ s.pool.pages
          rw [hrecs x hx, hpages]
          exact List.mem_cons_self

/-- **A record from the pool**: cut from a fresh page if need be. -/
theorem Inv.popRec {p : Pool} (h : Inv held s) (hp : s.pool.popRec kind = some (r, p)) :
    Inv held (s.withPool p) ∧ Spare (s.withPool p) kind r ∧
      ∀ b, Unowned s b → Unowned (s.withPool p) b ∧ b ≠ r.bn := by
  unfold Pool.popRec at hp
  split at hp
  · next x hx =>
    obtain rfl := Option.some.inj hp
    exact h.popFree hx
  · split at hp
    · cases hp
    · next p₀ hadd =>
      obtain ⟨h₀, hu₀⟩ := h.addFree hadd
      obtain ⟨h₁, hs₁, hu₁⟩ := Inv.popFree (s := s.withPool p₀) h₀ hp
      exact ⟨h₁, hs₁, fun b hb => hu₁ b (hu₀ b hb)⟩

/-! ## Counts -/

/-- The owners after a change of one data-block reference. -/
theorem owns_setDblkref {x : Dblkref} {b : ℕ} {o : Owner} (ho : Owns (s.setDblkref d x) b o) :
    (Owns s b o ∧ o ≠ .data d) ∨ (0 < x.refcnt ∧ b = x.bn ∧ o = .data d) ∨
      (0 < x.refcnt ∧ b = d.bn ∧ o = .recs .dblkref) := by
  cases o with
  | pool => exact .inl ⟨ho, by simp⟩
  | data d' =>
    by_cases hd : d' = d
    · subst hd
      obtain ⟨hpos, hpage⟩ := ho
      simp only [Sbi.setDblkref, Sbi.pageOf, Function.update_self] at hpos hpage
      exact .inr (.inl ⟨hpos, hpage.symm, rfl⟩)
    · refine .inl ⟨?_, by simpa using hd⟩
      obtain ⟨hpos, hpage⟩ := ho
      simp only [Sbi.setDblkref, Sbi.pageOf, Function.update_of_ne hd] at hpos hpage
      exact ⟨hpos, hpage⟩
  | inode use n => exact .inl ⟨ho, by simp⟩
  | recs kind =>
    obtain ⟨r, hr, hf⟩ := ho
    rcases hf with hf | hf
    · exact .inl ⟨⟨r, hr, .inl hf⟩, by simp⟩
    · cases kind with
      | inode => exact .inl ⟨⟨r, hr, .inr hf⟩, by simp⟩
      | iblkref => exact .inl ⟨⟨r, hr, .inr hf⟩, by simp⟩
      | dblkref =>
        by_cases hd : r = d
        · subst hd
          simp only [Used, Sbi.setDblkref, Function.update_self] at hf
          exact .inr (.inr ⟨hf, hr.symm, rfl⟩)
        · refine .inl ⟨⟨r, hr, .inr ?_⟩, by simp⟩
          simpa [Used, Sbi.setDblkref, hd] using hf

theorem counts_setDblkref_self {x : Dblkref} : counts (s.setDblkref d x) d = x.refcnt := by
  simp [counts, Sbi.setDblkref]

theorem counts_setDblkref_ne {x : Dblkref} {d' : RecPtr} (h : d' ≠ d) :
    counts (s.setDblkref d x) d' = counts s d' := by
  simp [counts, Sbi.setDblkref, h]

/-- Other records are used as before. -/
theorem used_setDblkref {x : Dblkref} (hne : ¬ (kind = .dblkref ∧ r = d)) :
    Used (s.setDblkref d x) kind r ↔ Used s kind r := by
  cases kind with
  | inode => exact Iff.rfl
  | iblkref => exact Iff.rfl
  | dblkref =>
    have hd : r ≠ d := fun h => hne ⟨rfl, h⟩
    simp [Used, Sbi.setDblkref, hd]

/-- The record of a data block changes: the block stays in use with its page, or goes
out of use, or comes into use with a page in hand. -/
theorem Inv.setDblkref {held' : RecPtr → ℕ} {x : Dblkref} (h : Inv held s)
    (hpage : 0 < x.refcnt → x.bn ≠ 0 ∧ ∀ o, Owns s x.bn o → o = .data d)
    (hrec : 0 < x.refcnt → d ∉ s.pool.free .dblkref ∧ d.bn ≠ 0 ∧
      ∀ o, Owns s d.bn o → o = .recs .dblkref)
    (hne : 0 < x.refcnt → x.bn ≠ d.bn)
    (hc : Counted (refs s) held' (counts (s.setDblkref d x))) : Inv held' (s.setDblkref d x) := by
  refine ⟨?_, ?_, h.pagesNodup, h.freeNodup, ?_, h.keysNodup, h.keysInj, h.childsNodup, h.blank, hc⟩
  · intro b o o' ho ho'
    rcases owns_setDblkref ho with ⟨h₁, -⟩ | ⟨hp, rfl, rfl⟩ | ⟨hp, rfl, rfl⟩ <;>
      rcases owns_setDblkref ho' with ⟨h₂, -⟩ | ⟨hp', hb, rfl⟩ | ⟨hp', hb, rfl⟩
    · exact h.exclusive b o o' h₁ h₂
    · exact (hpage hp').2 o (hb ▸ h₁)
    · exact (hrec hp').2.2 o (hb ▸ h₁)
    · exact ((hpage hp).2 o' h₂).symm
    · rfl
    · exact absurd hb (hne hp)
    · exact ((hrec hp).2.2 o' h₂).symm
    · exact absurd hb.symm (hne hp)
    · rfl
  · intro b o ho
    rcases owns_setDblkref ho with ⟨ho, -⟩ | ⟨hp, rfl, -⟩ | ⟨hp, rfl, -⟩
    · exact h.nonzero b o ho
    · exact (hpage hp).1
    · exact (hrec hp).2.1
  · intro kind r hr hu
    by_cases hk : kind = .dblkref ∧ r = d
    · obtain ⟨rfl, rfl⟩ := hk
      have hp : 0 < x.refcnt := by simpa [Used, Sbi.setDblkref] using hu
      exact (hrec hp).1 hr
    · exact h.freeUnused kind r hr ((used_setDblkref hk).mp hu)

/-- A block that stays in use keeps its page. -/
theorem Inv.setRefcnt {held' : RecPtr → ℕ} {c : ℕ} (h : Inv held s)
    (huse : 0 < (s.dblkrefs d).refcnt)
    (hc : Counted (refs s) held' (counts (s.setDblkref d { s.dblkrefs d with refcnt := c }))) :
    Inv held' (s.setDblkref d { s.dblkrefs d with refcnt := c }) := by
  have hdata : Owns s (s.pageOf d) (.data d) := ⟨huse, rfl⟩
  have hrecs : Owns s d.bn (.recs .dblkref) := ⟨d, rfl, .inr huse⟩
  refine h.setDblkref (fun _ => ⟨h.nonzero _ _ hdata, fun o ho => h.exclusive _ _ _ ho hdata⟩)
    (fun _ => ⟨h.notFree huse, h.nonzero _ _ hrecs, fun o ho => h.exclusive _ _ _ ho hrecs⟩)
    (fun _ hne => ?_) hc
  have := h.exclusive _ _ _ hdata (hne ▸ hrecs)
  cases this

/-- One more reference is in hand. -/
theorem Inv.incRefcnt (h : Inv held s) (huse : 0 < (s.dblkrefs d).refcnt) :
    Inv (bump held d) (s.incRefcnt d) :=
  h.setRefcnt huse (h.counted.take counts_setDblkref_self fun _ hd => counts_setDblkref_ne hd)

/-- A block a reference to which is in hand is in use. -/
theorem Inv.used_of_held (h : Inv (bump held d) s) : 0 < (s.dblkrefs d).refcnt := by
  have hd := h.counted d
  rw [bump_self] at hd
  by_contra hz
  have hz' : counts s d = 0 := Nat.eq_zero_of_not_pos hz
  rw [hz', Nat.cast_zero, add_eq_zero] at hd
  simp at hd

/-- A reference in hand is given up. -/
theorem Inv.decRefcnt (h : Inv (bump held d) s) : Inv held (s.decRefcnt d) :=
  h.setRefcnt h.used_of_held
    (h.counted.give counts_setDblkref_self fun _ hd => counts_setDblkref_ne hd)

/-- The page and the record of a block whose last reference is given up are in hand. -/
theorem Inv.decRefcnt_last (h : Inv (bump held d) s) (hone : (s.dblkrefs d).refcnt - 1 = 0) :
    Spare (s.decRefcnt d) .dblkref d ∧ Unowned (s.decRefcnt d) (s.pageOf d) ∧
      s.pageOf d ≠ d.bn := by
  have huse := h.used_of_held
  have hdata : Owns s (s.pageOf d) (.data d) := ⟨huse, rfl⟩
  have hrecs : Owns s d.bn (.recs .dblkref) := ⟨d, rfl, .inr huse⟩
  have hne : s.pageOf d ≠ d.bn := by
    intro heq
    have := h.exclusive _ _ _ hdata (heq ▸ hrecs)
    cases this
  have hback : ∀ b o, Owns (s.decRefcnt d) b o → Owns s b o ∧ o ≠ .data d := by
    intro b o ho
    rcases owns_setDblkref ho with ho | ⟨hp, -⟩ | ⟨hp, -⟩
    · exact ho
    · rw [hone] at hp
      cases hp
    · rw [hone] at hp
      cases hp
  refine ⟨⟨h.notFree huse, ?_, fun o ho => ?_, h.nonzero _ _ hrecs⟩,
    ⟨h.nonzero _ _ hdata, fun o ho => ?_⟩, hne⟩
  · simp [Used, Sbi.decRefcnt, Sbi.setDblkref, hone]
  · exact h.exclusive _ _ _ (hback _ o ho).1 hrecs
  · obtain ⟨ho, hd⟩ := hback _ o ho
    exact hd (h.exclusive _ _ _ ho hdata)

/-- **A reference in hand is put**, and the block goes back with the last one. -/
theorem Inv.putDblkref (h : Inv (bump held d) s) : Inv held (s.putDblkref d) := by
  unfold Sbi.putDblkref
  split
  · next hone =>
    have h₁ := h.decRefcnt
    obtain ⟨hspare, hu, hne⟩ := h.decRefcnt_last hone
    set s₁ := s.decRefcnt d with hs₁
    have hzero : (s₁.dblkrefs d).refcnt = 0 := by
      simp [hs₁, Sbi.decRefcnt, Sbi.setDblkref, hone]
    have hpage : s₁.pageOf d = s.pageOf d := by
      simp [hs₁, Sbi.decRefcnt, Sbi.setDblkref, Sbi.pageOf]
    -- the record forgets its page, and is put on the free list; then the page is
    set s₂ := s₁.setDblkref d { s₁.dblkrefs d with bn := 0 } with hs₂
    have hback : ∀ b o, Owns s₂ b o → Owns s₁ b o := by
      intro b o ho
      rcases owns_setDblkref ho with ⟨ho, -⟩ | ⟨hp, -⟩ | ⟨hp, -⟩
      · exact ho
      · exact absurd hp (by simp [hzero])
      · exact absurd hp (by simp [hzero])
    have hc : Counted (refs s₁) held (counts s₂) := by
      have : counts s₂ = counts s₁ := by
        funext d'
        by_cases hd : d' = d
        · subst hd
          exact counts_setDblkref_self
        · exact counts_setDblkref_ne hd
      rw [this]
      exact h₁.counted
    have h₂ : Inv held s₂ := h₁.setDblkref (fun hp => absurd hp (by simp [hzero]))
      (fun hp => absurd hp (by simp [hzero])) (fun hp => absurd hp (by simp [hzero])) hc
    have hspare₂ : Spare s₂ .dblkref d := by
      refine ⟨hspare.notFree, ?_, fun o ho => hspare.page o (hback _ o ho), hspare.pos⟩
      simp [Used, hs₂, Sbi.setDblkref, hzero]
    have hu₂ : Unowned s₂ (s.pageOf d) := ⟨hu.1, fun o ho => hu.2 o (hback _ o ho)⟩
    have h₃ := h₂.pushRec hspare₂
    have h₄ := h₃.pushPmemb (hu₂.pushRec hne)
    refine h₄.congr ?_ rfl rfl
    rw [← hpage]
    rfl
  · exact h.decRefcnt

/-- A block with a page in hand comes into use, with one reference in hand. -/
theorem Inv.startDblkref (h : Inv held s) (hs : Spare s .dblkref d) (hu : Unowned s bn)
    (hne : bn ≠ d.bn) : Inv (bump held d) (s.setDblkref d ⟨1, bn⟩) := by
  have hzero : counts s d = 0 := Nat.eq_zero_of_not_pos hs.notUsed
  refine h.setDblkref (fun _ => ⟨hu.1, fun o ho => absurd ho (hu.2 o)⟩)
    (fun _ => ⟨hs.notFree, hs.pos, hs.page⟩) (fun _ => hne) ?_
  refine h.counted.take ?_ fun _ hd => counts_setDblkref_ne hd
  rw [hzero, counts_setDblkref_self]

/-! ## Block lists -/

/-- The inode changes neither its type nor the pages it uses. -/
structure SameHold (i i' : Inode) : Prop where
  mode : i'.iMode = i.iMode
  notUnset : i.iMode ≠ .unset
  holds : ∀ bn use, i'.Holds bn use ↔ i.Holds bn use
  childs : i'.childs = i.childs

section SetInode

variable {i : Inode}

@[simp] theorem setInode_inodes_self : (s.setInode n i).inodes n = i := by
  simp [Sbi.setInode]

theorem setInode_inodes_ne {m : RecPtr} (h : m ≠ n) : (s.setInode n i).inodes m = s.inodes m := by
  simp [Sbi.setInode, h]

@[simp] theorem setInode_setInode {i' : Inode} :
    (s.setInode n i).setInode n i' = s.setInode n i' := by
  simp [Sbi.setInode]

/-- What holds of the inode that is stored, and of each other one before, holds of all. -/
theorem forall_setInode {P : RecPtr → Inode → Prop} (hn : P n i)
    (hne : ∀ m, m ≠ n → P m (s.inodes m)) (m : RecPtr) : P m ((s.setInode n i).inodes m) := by
  by_cases hmn : m = n
  · subst hmn
    rwa [setInode_inodes_self]
  · rw [setInode_inodes_ne hmn]
    exact hne m hmn

/-- What the stored inode has as the old one had it is as before for every inode. -/
theorem apply_setInode {α : Type*} (f : Inode → α) (h : f i = f (s.inodes n)) (m : RecPtr) :
    f ((s.setInode n i).inodes m) = f (s.inodes m) :=
  forall_setInode (P := fun m i => f i = f (s.inodes m)) h (fun _ _ => rfl) m

/-- What is on a block list is on the stored one, or was on that of another inode. -/
theorem mem_keys_setInode {m : RecPtr} {key : RecPtr × RecPtr} :
    key ∈ ((s.setInode n i).inodes m).keys →
      (m = n ∧ key ∈ i.keys) ∨ (m ≠ n ∧ key ∈ (s.inodes m).keys) :=
  forall_setInode
    (P := fun m j => key ∈ j.keys → (m = n ∧ key ∈ i.keys) ∨ (m ≠ n ∧ key ∈ (s.inodes m).keys))
    (fun hk => .inl ⟨rfl, hk⟩) (fun _ hmn hk => .inr ⟨hmn, hk⟩) m

/-- A record in use as an inode is the stored one, or was in use. -/
theorem used_inode_setInode {r : RecPtr} :
    Used (s.setInode n i) .inode r → (r = n ∧ i.iMode ≠ .unset) ∨ (r ≠ n ∧ Used s .inode r) :=
  forall_setInode
    (P := fun r j => j.iMode ≠ .unset → (r = n ∧ i.iMode ≠ .unset) ∨ (r ≠ n ∧ Used s .inode r))
    (fun hu => .inl ⟨rfl, hu⟩) (fun _ hrn hu => .inr ⟨hrn, hu⟩) r

theorem mem_refs_setInode {p : RecPtr} :
    p ∈ refs (s.setInode n i) d ↔ (p, d) ∈ i.keys ∨ ∃ m, m ≠ n ∧ (p, d) ∈ (s.inodes m).keys := by
  constructor
  · rintro ⟨m, hm⟩
    rcases mem_keys_setInode hm with ⟨-, hm⟩ | ⟨hmn, hm⟩
    · exact .inl hm
    · exact .inr ⟨m, hmn, hm⟩
  · rintro (hm | ⟨m, hmn, hm⟩)
    · exact ⟨n, by rwa [setInode_inodes_self]⟩
    · exact ⟨m, by rwa [setInode_inodes_ne hmn]⟩

theorem mem_refs_iff {p : RecPtr} (n : RecPtr) :
    p ∈ refs s d ↔ (p, d) ∈ (s.inodes n).keys ∨ ∃ m, m ≠ n ∧ (p, d) ∈ (s.inodes m).keys := by
  constructor
  · rintro ⟨m, hm⟩
    by_cases hmn : m = n
    · subst hmn
      exact .inl hm
    · exact .inr ⟨m, hmn, hm⟩
  · rintro (hm | ⟨m, -, hm⟩)
    · exact ⟨n, hm⟩
    · exact ⟨m, hm⟩

/-- The owners after a change of an inode that keeps its type and pages. -/
theorem owns_setInode_same (hsame : SameHold (s.inodes n) i) {b : ℕ} {o : Owner}
    (ho : Owns (s.setInode n i) b o) :
    Owns s b o ∨ (o = .recs .iblkref ∧ ∃ p d, (p, d) ∈ i.keys ∧ p.bn = b) := by
  cases o with
  | pool => exact .inl ho
  | data d => exact .inl ho
  | inode use m =>
    refine .inl ?_
    by_cases hmn : m = n
    · subst hmn
      simp only [Owns, setInode_inodes_self] at ho
      exact (hsame.holds b use).mp ho
    · simpa only [Owns, setInode_inodes_ne hmn] using ho
  | recs kind =>
    obtain ⟨r, hr, hf⟩ := ho
    rcases hf with hf | hf
    · exact .inl ⟨r, hr, .inl hf⟩
    · cases kind with
      | dblkref => exact .inl ⟨r, hr, .inr hf⟩
      | inode =>
        refine .inl ⟨r, hr, .inr ?_⟩
        rcases used_inode_setInode hf with ⟨rfl, -⟩ | ⟨-, hf⟩
        · exact hsame.notUnset
        · exact hf
      | iblkref =>
        obtain ⟨m, d, hm⟩ := hf
        rcases mem_keys_setInode hm with ⟨-, hm⟩ | ⟨-, hm⟩
        · exact .inr ⟨rfl, r, d, hm, hr⟩
        · exact .inl ⟨r, hr, .inr ⟨m, d, hm⟩⟩

/-- The block list of an inode changes; what is new on it was in hand. -/
theorem Inv.setKeys {held' : RecPtr → ℕ} (h : Inv held s) (hsame : SameHold (s.inodes n) i)
    (hnd : (i.keys.map Prod.fst).Nodup)
    (hnew : ∀ p d, (p, d) ∈ i.keys → (∃ d', (p, d') ∈ (s.inodes n).keys) ∨ Spare s .iblkref p)
    (hc : Counted (refs (s.setInode n i)) held' (counts s)) : Inv held' (s.setInode n i) := by
  have hpage : ∀ p d, (p, d) ∈ i.keys → p.bn ≠ 0 ∧ ∀ o, Owns s p.bn o → o = .recs .iblkref := by
    intro p d hp
    rcases hnew p d hp with ⟨d', hd'⟩ | hs
    · have hown : Owns s p.bn (.recs .iblkref) := ⟨p, rfl, .inr ⟨n, d', hd'⟩⟩
      exact ⟨h.nonzero _ _ hown, fun o ho => h.exclusive _ _ _ ho hown⟩
    · exact ⟨hs.pos, hs.page⟩
  refine ⟨?_, ?_, h.pagesNodup, h.freeNodup, ?_, ?_, ?_, ?_, ?_, hc⟩
  · intro b o o' ho ho'
    rcases owns_setInode_same hsame ho with h₁ | ⟨rfl, p, d, hp, rfl⟩
    · rcases owns_setInode_same hsame ho' with h₂ | ⟨rfl, p, d, hp, rfl⟩
      · exact h.exclusive b o o' h₁ h₂
      · exact (hpage p d hp).2 o h₁
    · rcases owns_setInode_same hsame ho' with h₂ | ⟨rfl, -⟩
      · exact ((hpage p d hp).2 o' h₂).symm
      · rfl
  · intro b o ho
    rcases owns_setInode_same hsame ho with ho | ⟨-, p, d, hp, rfl⟩
    · exact h.nonzero b o ho
    · exact (hpage p d hp).1
  · intro kind r hr hu
    cases kind with
    | dblkref => exact h.freeUnused _ r hr hu
    | inode =>
      refine h.freeUnused .inode r hr ?_
      rcases used_inode_setInode hu with ⟨rfl, -⟩ | ⟨-, hu⟩
      · exact hsame.notUnset
      · exact hu
    | iblkref =>
      obtain ⟨m, d, hm⟩ := hu
      rcases mem_keys_setInode hm with ⟨-, hm⟩ | ⟨-, hm⟩
      · rcases hnew r d hm with ⟨d', hd'⟩ | hs
        · exact h.freeUnused .iblkref r hr ⟨n, d', hd'⟩
        · exact hs.notFree hr
      · exact h.freeUnused .iblkref r hr ⟨m, d, hm⟩
  · exact forall_setInode (P := fun _ j => (j.keys.map Prod.fst).Nodup) hnd fun m _ =>
      h.keysNodup m
  · intro m m' p d d' hm hm'
    -- a record on the changed list was on it before, or on none
    have hold : ∀ {m₁ d₁}, m₁ ≠ n → (p, d₁) ∈ (s.inodes m₁).keys → ∀ {d₂}, (p, d₂) ∈ i.keys →
        False := by
      intro m₁ d₁ hmn hm₁ d₂ hm₂
      rcases hnew p d₂ hm₂ with ⟨d₃, hd₃⟩ | hs
      · exact hmn (h.keysInj m₁ n p d₁ d₃ hm₁ hd₃)
      · exact hs.notUsed ⟨m₁, d₁, hm₁⟩
    rcases mem_keys_setInode hm with ⟨hmn, hm⟩ | ⟨hmn, hm⟩ <;>
      rcases mem_keys_setInode hm' with ⟨hmn', hm'⟩ | ⟨hmn', hm'⟩
    · rw [hmn, hmn']
    · exact (hold hmn' hm' hm).elim
    · exact (hold hmn hm hm').elim
    · exact h.keysInj m m' p d d' hm hm'
  · refine forall_setInode (P := fun _ j => j.childs.Nodup) ?_ fun m _ => h.childsNodup m
    rw [hsame.childs]
    exact h.childsNodup n
  · refine forall_setInode (P := fun _ j => j.iMode = .unset → j = {}) ?_ fun m _ => h.blank m
    rw [hsame.mode]
    exact fun hm => absurd hm hsame.notUnset

/-- The block list keeps its `iblkref`s and the blocks they name. -/
theorem Inv.sameKeys (h : Inv held s) (hsame : SameHold (s.inodes n) i)
    (hkeys : i.keys = (s.inodes n).keys) : Inv held (s.setInode n i) := by
  refine h.setKeys hsame ?_ ?_ ?_
  · rw [hkeys]
    exact h.keysNodup n
  · intro p d hp
    rw [hkeys] at hp
    exact .inl ⟨d, hp⟩
  · have hrefs : refs (s.setInode n i) = refs s := by
      funext d
      ext p
      rw [mem_refs_setInode, mem_refs_iff n, hkeys]
    rw [hrefs]
    exact h.counted

/-- **An `iblkref` in hand is put on a block list**, with a reference in hand. -/
theorem Inv.attach {p : RecPtr} (h : Inv (bump held d) s) (hs : Spare s .iblkref p)
    (hsame : SameHold (s.inodes n) i) (hkeys : i.keys.Perm ((p, d) :: (s.inodes n).keys)) :
    Inv held (s.setInode n i) := by
  have hnotin : ∀ m d', (p, d') ∉ (s.inodes m).keys := fun m d' hm => hs.notUsed ⟨m, d', hm⟩
  refine h.setKeys hsame ?_ ?_ ?_
  · rw [(hkeys.map Prod.fst).nodup_iff, List.map_cons, List.nodup_cons]
    refine ⟨fun hp => ?_, h.keysNodup n⟩
    obtain ⟨⟨p', d'⟩, hm, rfl⟩ := List.mem_map.mp hp
    exact hnotin n d' hm
  · intro p' d' hp
    rcases List.mem_cons.mp (hkeys.mem_iff.mp hp) with heq | hp
    · obtain ⟨rfl, rfl⟩ := Prod.mk.inj heq
      exact .inr hs
    · exact .inl ⟨d', hp⟩
  · refine h.counted.attach (p := p) (fun hp => ?_) ?_ ?_
    · obtain ⟨m, hm⟩ := hp
      exact hnotin m d hm
    · ext p'
      rw [mem_refs_setInode, Set.mem_insert_iff, mem_refs_iff n, hkeys.mem_iff, List.mem_cons,
        Prod.mk.injEq, or_assoc]
      simp
    · intro d' hd'
      ext p'
      rw [mem_refs_setInode, mem_refs_iff n, hkeys.mem_iff, List.mem_cons, Prod.mk.injEq]
      simp [hd']

/-- **An `iblkref` is taken off a block list**: it is in hand with its reference. -/
theorem Inv.detach {p : RecPtr} (h : Inv held s) (hsame : SameHold (s.inodes n) i)
    (hkeys : (s.inodes n).keys.Perm ((p, d) :: i.keys)) :
    Inv (bump held d) (s.setInode n i) ∧ Spare (s.setInode n i) .iblkref p := by
  have hnd := h.keysNodup n
  rw [(hkeys.map Prod.fst).nodup_iff, List.map_cons, List.nodup_cons] at hnd
  have hin : (p, d) ∈ (s.inodes n).keys := hkeys.mem_iff.mpr List.mem_cons_self
  have hsub : ∀ {p' d'}, (p', d') ∈ i.keys → (p', d') ∈ (s.inodes n).keys :=
    fun hm => hkeys.mem_iff.mpr (List.mem_cons_of_mem _ hm)
  have hnotin : ∀ d', (p, d') ∉ i.keys := fun d' hm =>
    hnd.1 (List.mem_map.mpr ⟨(p, d'), hm, rfl⟩)
  have hother : ∀ m d', m ≠ n → (p, d') ∉ (s.inodes m).keys :=
    fun m d' hmn hm => hmn (h.keysInj m n p d' d hm hin)
  have hown : Owns s p.bn (.recs .iblkref) := ⟨p, rfl, .inr ⟨n, d, hin⟩⟩
  have hunused : ¬ Used (s.setInode n i) .iblkref p := by
    rintro ⟨m, d', hm⟩
    by_cases hmn : m = n
    · subst hmn
      rw [setInode_inodes_self] at hm
      exact hnotin d' hm
    · rw [setInode_inodes_ne hmn] at hm
      exact hother m d' hmn hm
  refine ⟨h.setKeys hsame hnd.2 (fun p' d' hm => .inl ⟨d', hsub hm⟩) ?_, ⟨?_, hunused, ?_, ?_⟩⟩
  · refine h.counted.detach (p := p) (fun hp => ?_) ?_ ?_
    · obtain ⟨m, hm⟩ := hp
      exact hunused ⟨m, d, hm⟩
    · ext p'
      rw [mem_refs_iff n, Set.mem_insert_iff, mem_refs_setInode, hkeys.mem_iff, List.mem_cons,
        Prod.mk.injEq, or_assoc]
      simp
    · intro d' hd'
      ext p'
      rw [mem_refs_setInode, mem_refs_iff n, hkeys.mem_iff, List.mem_cons, Prod.mk.injEq]
      simp [hd']
  · exact h.notFree ⟨n, d, hin⟩
  · intro o ho
    rcases owns_setInode_same hsame ho with ho | ⟨rfl, -⟩
    · exact h.exclusive _ _ _ ho hown
    · rfl
  · exact h.nonzero _ _ hown

/-- **An `iblkref` is made to name another block**: the reference in hand to the new one
is exchanged for that to the old one. -/
theorem Inv.retarget {p d' : RecPtr} {l : List (RecPtr × RecPtr)} (h : Inv (bump held d') s)
    (hsame : SameHold (s.inodes n) i) (hold : (s.inodes n).keys.Perm ((p, d) :: l))
    (hkeys : i.keys.Perm ((p, d') :: l)) : Inv (bump held d) (s.setInode n i) := by
  have hnd := h.keysNodup n
  rw [(hold.map Prod.fst).nodup_iff] at hnd
  have hnd' := List.nodup_cons.mp hnd
  have hin : (p, d) ∈ (s.inodes n).keys := hold.mem_iff.mpr List.mem_cons_self
  have hl : ∀ e, (p, e) ∉ l := fun e hm => hnd'.1 (List.mem_map.mpr ⟨(p, e), hm, rfl⟩)
  have hother : ∀ m e, m ≠ n → (p, e) ∉ (s.inodes m).keys :=
    fun m e hmn hm => hmn (h.keysInj m n p e d hm hin)
  have hmem : ∀ p' e, p' ∈ refs s e ↔ (p' = p ∧ e = d) ∨ (p', e) ∈ l ∨
      ∃ m, m ≠ n ∧ (p', e) ∈ (s.inodes m).keys := by
    intro p' e
    rw [mem_refs_iff n, hold.mem_iff, List.mem_cons, Prod.mk.injEq, or_assoc]
  have hmem' : ∀ p' e, p' ∈ refs (s.setInode n i) e ↔ (p' = p ∧ e = d') ∨ (p', e) ∈ l ∨
      ∃ m, m ≠ n ∧ (p', e) ∈ (s.inodes m).keys := by
    intro p' e
    rw [mem_refs_setInode, hkeys.mem_iff, List.mem_cons, Prod.mk.injEq, or_assoc]
  have hout : ∀ e, ¬ ((p, e) ∈ l ∨ ∃ m, m ≠ n ∧ (p, e) ∈ (s.inodes m).keys) := by
    rintro e (hm | ⟨m, hmn, hm⟩)
    · exact hl e hm
    · exact hother m e hmn hm
  refine h.setKeys hsame ?_ ?_ ?_
  · rw [(hkeys.map Prod.fst).nodup_iff]
    exact hnd
  · intro p' e hm
    rcases List.mem_cons.mp (hkeys.mem_iff.mp hm) with heq | hm
    · obtain ⟨rfl, rfl⟩ := Prod.mk.inj heq
      exact .inl ⟨d, hin⟩
    · exact .inl ⟨e, hold.mem_iff.mpr (List.mem_cons_of_mem _ hm)⟩
  · by_cases hd : d = d'
    · subst hd
      have hrefs : refs (s.setInode n i) = refs s := by
        funext e
        ext p'
        rw [hmem, hmem']
      rw [hrefs]
      exact h.counted
    · refine h.counted.move (p := p) hd ?_ ?_ ?_ ?_ ?_
      · rw [hmem]
        rintro (⟨-, he⟩ | hm)
        · exact hd he.symm
        · exact hout _ hm
      · ext p'
        rw [Set.mem_insert_iff, hmem, hmem']
        simp [Ne.symm hd]
      · rw [hmem']
        rintro (⟨-, he⟩ | hm)
        · exact hd he
        · exact hout _ hm
      · ext p'
        rw [Set.mem_insert_iff, hmem, hmem']
        simp [hd]
      · intro e he he'
        ext p'
        rw [hmem, hmem']
        simp [he, he']

/-! ## Pages of an inode -/

/-- No block list grows if the stored one does not. -/
theorem mem_keys_of_setInode (hkeys : ∀ k ∈ i.keys, k ∈ (s.inodes n).keys) {m : RecPtr}
    {key : RecPtr × RecPtr} (hk : key ∈ ((s.setInode n i).inodes m).keys) :
    key ∈ (s.inodes m).keys := by
  rcases mem_keys_setInode hk with ⟨rfl, hkey⟩ | ⟨-, hkey⟩
  · exact hkeys key hkey
  · exact hkey

/-- The owners after a change of the type and the pages of an inode. -/
theorem owns_setInode_keys (hkeys : ∀ k ∈ i.keys, k ∈ (s.inodes n).keys) {b : ℕ} {o : Owner}
    (ho : Owns (s.setInode n i) b o) :
    (Owns s b o ∧ (∀ use, o ≠ .inode use n)) ∨ (∃ use, o = .inode use n ∧ i.Holds b use) ∨
      (o = .recs .inode ∧ b = n.bn ∧ i.iMode ≠ .unset) := by
  cases o with
  | pool => exact .inl ⟨ho, by simp⟩
  | data d => exact .inl ⟨ho, by simp⟩
  | inode use m =>
    by_cases hmn : m = n
    · subst hmn
      simp only [Owns, setInode_inodes_self] at ho
      exact .inr (.inl ⟨use, rfl, ho⟩)
    · refine .inl ⟨?_, by simp [hmn]⟩
      simpa only [Owns, setInode_inodes_ne hmn] using ho
  | recs kind =>
    obtain ⟨r, hr, hf⟩ := ho
    rcases hf with hf | hf
    · exact .inl ⟨⟨r, hr, .inl hf⟩, by simp⟩
    · cases kind with
      | dblkref => exact .inl ⟨⟨r, hr, .inr hf⟩, by simp⟩
      | inode =>
        rcases used_inode_setInode hf with ⟨rfl, hi⟩ | ⟨-, hold⟩
        · exact .inr (.inr ⟨rfl, hr.symm, hi⟩)
        · exact .inl ⟨⟨r, hr, .inr hold⟩, by simp⟩
      | iblkref =>
        obtain ⟨m, d, hm⟩ := hf
        refine .inl ⟨⟨r, hr, .inr ⟨m, d, ?_⟩⟩, by simp⟩
        exact mem_keys_of_setInode hkeys hm

/-- The type and the pages of an inode change: a page it gets was in hand, a record that
becomes an inode was in hand, and one that is no inode any more is zeroed. -/
theorem Inv.setPages {held' : RecPtr → ℕ} (h : Inv held s) (use₀ : PageUse)
    (hsub : i.keys = (s.inodes n).keys ∨ i.keys = [])
    (hchilds : i.childs.Nodup) (hblank : i.iMode = .unset → i = {})
    (hmode : i.iMode ≠ .unset → (s.inodes n).iMode ≠ .unset ∨ Spare s .inode n)
    (hpage : ∀ b use, i.Holds b use → (s.inodes n).Holds b use ∨
      (use = use₀ ∧ Unowned s b ∧ b ≠ n.bn))
    (hc : Counted (refs (s.setInode n i)) held' (counts s)) : Inv held' (s.setInode n i) := by
  have hkeys : ∀ k ∈ i.keys, k ∈ (s.inodes n).keys := by
    intro k hk
    rcases hsub with hsub | hsub
    · rwa [hsub] at hk
    · rw [hsub] at hk
      cases hk
  have hrecs : i.iMode ≠ .unset → n ∉ s.pool.free .inode ∧ n.bn ≠ 0 ∧
      ∀ o, Owns s n.bn o → o = .recs .inode := by
    intro hm
    rcases hmode hm with hm | hs
    · have hown : Owns s n.bn (.recs .inode) := ⟨n, rfl, .inr hm⟩
      exact ⟨h.notFree hm, h.nonzero _ _ hown, fun o ho => h.exclusive _ _ _ ho hown⟩
    · exact ⟨hs.notFree, hs.pos, hs.page⟩
  -- a page is owned as before, or it is the new one, or it holds the new inode
  have hcases : ∀ b o, Owns (s.setInode n i) b o → Owns s b o ∨
      (o = .inode use₀ n ∧ Unowned s b ∧ b ≠ n.bn) ∨
      (o = .recs .inode ∧ b = n.bn ∧ i.iMode ≠ .unset) := by
    intro b o ho
    rcases owns_setInode_keys hkeys ho with ⟨ho, -⟩ | ⟨use, rfl, hh⟩ | ho
    · exact .inl ho
    · rcases hpage b use hh with hh | ⟨rfl, hu⟩
      · exact .inl hh
      · exact .inr (.inl ⟨rfl, hu⟩)
    · exact .inr (.inr ho)
  refine ⟨?_, ?_, h.pagesNodup, h.freeNodup, ?_, ?_, ?_, ?_, ?_, hc⟩
  · intro b o o' ho ho'
    rcases hcases b o ho with h₁ | ⟨rfl, hu, hne⟩ | ⟨rfl, hb, hm⟩ <;>
      rcases hcases b o' ho' with h₂ | ⟨rfl, hu', hne'⟩ | ⟨rfl, hb', hm'⟩
    · exact h.exclusive b o o' h₁ h₂
    · exact absurd h₁ (hu'.2 o)
    · exact (hrecs hm').2.2 o (hb' ▸ h₁)
    · exact absurd h₂ (hu.2 o')
    · rfl
    · exact absurd hb' hne
    · exact ((hrecs hm).2.2 o' (hb ▸ h₂)).symm
    · exact absurd hb hne'
    · rfl
  · intro b o ho
    rcases hcases b o ho with ho | ⟨-, hu, -⟩ | ⟨-, rfl, hm⟩
    · exact h.nonzero b o ho
    · exact hu.1
    · exact (hrecs hm).2.1
  · intro kind r hr hu
    cases kind with
    | dblkref => exact h.freeUnused _ r hr hu
    | inode =>
      rcases used_inode_setInode hu with ⟨rfl, hi⟩ | ⟨-, hold⟩
      · exact (hrecs hi).1 hr
      · exact h.freeUnused .inode r hr hold
    | iblkref =>
      obtain ⟨m, d, hm⟩ := hu
      exact h.freeUnused .iblkref r hr ⟨m, d, mem_keys_of_setInode hkeys hm⟩
  · refine forall_setInode (P := fun _ j => (j.keys.map Prod.fst).Nodup) ?_ fun m _ => h.keysNodup m
    rcases hsub with hsub | hsub
    · rw [hsub]
      exact h.keysNodup n
    · rw [hsub]
      exact List.nodup_nil
  · intro m m' p d d' hm hm'
    exact h.keysInj m m' p d d' (mem_keys_of_setInode hkeys hm) (mem_keys_of_setInode hkeys hm')
  · exact forall_setInode (P := fun _ j => j.childs.Nodup) hchilds fun m _ => h.childsNodup m
  · exact forall_setInode (P := fun _ j => j.iMode = .unset → j = {}) hblank fun m _ => h.blank m

/-- The references do not change when a block list does not. -/
theorem refs_setInode (hkeys : i.keys = (s.inodes n).keys) : refs (s.setInode n i) = refs s := by
  funext d
  ext p
  rw [mem_refs_setInode, mem_refs_iff n, hkeys]

/-- A page an inode gives up is in hand. -/
theorem Inv.unowned_of_lost {use : PageUse} {b : ℕ} (h : Inv held s)
    (hold : (s.inodes n).Holds b use) (hkeys : ∀ k ∈ i.keys, k ∈ (s.inodes n).keys)
    (hmode : i.iMode ≠ .unset → (s.inodes n).iMode ≠ .unset) (hnot : ∀ use', ¬ i.Holds b use') :
    Unowned (s.setInode n i) b := by
  have hown : Owns s b (.inode use n) := hold
  refine ⟨h.nonzero _ _ hown, fun o ho => ?_⟩
  rcases owns_setInode_keys hkeys ho with ⟨ho, hne⟩ | ⟨use', rfl, hh⟩ | ⟨rfl, rfl, hm⟩
  · exact hne use (h.exclusive _ _ _ ho hown)
  · exact hnot use' hh
  · have hrecs : Owns s n.bn (.recs .inode) := ⟨n, rfl, .inr (hmode hm)⟩
    have := h.exclusive _ _ _ hrecs hown
    cases this

/-- An inode that is zeroed is in hand; the references of its block list are lost. -/
theorem Inv.zeroInode (h : Inv held s) (hmode : (s.inodes n).iMode ≠ .unset) :
    (∃ held', Inv held' (s.setInode n {}) ∧ ((s.inodes n).keys = [] → held' = held)) ∧
      Spare (s.setInode n {}) .inode n := by
  have hkeys : ∀ k ∈ (({} : Inode)).keys, k ∈ (s.inodes n).keys := fun k hk => by cases hk
  have hholds : ∀ b use, ¬ ({} : Inode).Holds b use := by
    intro b use hh
    cases use with
    | entries => cases hh
    | xattr => exact hh.1 rfl
    | symlink => cases hh.1
  have hown : Owns s n.bn (.recs .inode) := ⟨n, rfl, .inr hmode⟩
  refine ⟨?_, ⟨h.notFree hmode, ?_, fun o ho => ?_, h.nonzero _ _ hown⟩⟩
  · have hset : ∀ held', Counted (refs (s.setInode n {})) held' (counts s) →
        Inv held' (s.setInode n {}) := fun held' hc =>
      h.setPages .entries (.inr rfl) List.nodup_nil (fun _ => rfl) (fun hm => absurd rfl hm)
        (fun b use hh => absurd hh (hholds b use)) hc
    by_cases hnil : (s.inodes n).keys = []
    · refine ⟨held, hset held ?_, fun _ => rfl⟩
      rw [refs_setInode (by rw [hnil]; rfl)]
      exact h.counted
    · obtain ⟨held', hc⟩ := @Counted.lose _ _ _ (refs (s.setInode n {})) _ _ h.counted fun d p hp => by
        rw [mem_refs_setInode] at hp
        rw [mem_refs_iff n]
        exact hp.imp (fun hk => hkeys _ hk) id
      exact ⟨held', hset held' hc, fun hk => absurd hk hnil⟩
  · simp [Used]
  · rcases owns_setInode_keys hkeys ho with ⟨ho, -⟩ | ⟨use, -, hh⟩ | ⟨-, -, hm⟩
    · exact h.exclusive _ _ _ ho hown
    · exact absurd hh (hholds _ use)
    · exact absurd rfl hm

end SetInode

end Zus.Toyfs
