import Zus.Toyfs.CloneRoom
import Zus.Toyfs.Falloc

/-!
# References to blocks

A count is lost when a file whose blocks are shared is stored into: `_require_iblkref` gives
the file a copy and leaves the count of the block it had as it was. And an inode is freed by
a `toyfs_truncate` to size `0`, which drops no block of a file that has that size already. All
other changes keep the counts what they are: the number of `iblkref`s that name the block.
-/

namespace Zus.Toyfs

open Zus.Lib

variable {s s' s₁ : Sbi} {held held' : RecPtr → ℕ} {n m d src dst : RecPtr} {ib : Iblkref}
  {off last : ℤ} {N : Set ℕ} {k : ℕ}

/-! ## What the end of an inode gives back -/

/-- All that a file has is given back: the records of its blocks, and the references they hold. -/
structure Releases (n : RecPtr) (s s' : Sbi) : Prop where
  iblkrefs : ∀ ib ∈ s.blocksOf n, ib.ptr ∈ s'.pool.free .iblkref
  dblkrefs : ∀ d, ((s.blocksOf n).map Iblkref.dblkref).count d + counts s' d = counts s d

theorem free_dropIblkref : (s.dropIblkref n ib).pool.free .iblkref =
    s.pool.free .iblkref ++ [ib.ptr] := by
  obtain ⟨c₁, c₂, heq⟩ := @dropIblkref_eq s n ib
  set s₁ := s.setBlocks n ((s.blocksOf n).filter fun x => x.ptr ≠ ib.ptr)
  have hput : (s₁.putDblkref ib.dblkref).pool.free .iblkref = s.pool.free .iblkref := by
    unfold Sbi.putDblkref
    split <;> rfl
  rw [heq]
  simp [Sbi.releaseIblkref, Sbi.assert, Sbi.setInode, Pool.pushRec, Pool.setFree, hput]

theorem free_dropBlocks (l : List Iblkref) :
    (l.foldl (fun s ib => s.dropIblkref n ib) s).pool.free .iblkref =
      s.pool.free .iblkref ++ l.map Iblkref.ptr := by
  induction l generalizing s with
  | nil => simp
  | cons ib rest ih => simp [ih, free_dropIblkref]

/-- A truncate to size `0` drops all blocks, or does not look at them. -/
theorem truncate_zero (h : OnFile n s) :
    (s.truncate n 0).2 = if (s.inodes n).iSize = 0 then s.setSize n 0
      else ((s.blocksOf n).foldl (fun s ib => s.dropIblkref n ib) s).setSize n 0 := by
  have hdir : (s.inodes n).iMode ≠ .dir := by simp [h.reg]
  have hdrop : s.dropRange n 0 = (s.blocksOf n).foldl (fun s ib => s.dropIblkref n ib) s := by
    have hall : s.dropped n 0 = s.blocksOf n := by
      rw [Sbi.dropped, List.filter_eq_self]
      exact fun ib hm => decide_eq_true (h.offsets.nonneg ib hm)
    rw [← hall, Sbi.dropRange, Sbi.dropped, List.foldl_filter]
    simp only [decide_eq_true_eq]
    rfl
  rw [Sbi.truncate, if_neg hdir, if_neg (not_not.mpr h.reg)]
  by_cases hsize : (s.inodes n).iSize = 0
  · rw [if_neg (by rw [hsize]; decide), if_pos hsize]
  · have hzero : toLoff 0 = 0 := by decide
    rw [if_pos (UInt64.pos_iff_ne_zero.mpr hsize), if_neg hsize, hzero, hdrop]
    rfl

/-- The end of `toyfs_free_inode` leaves the records of blocks alone. -/
theorem zeroInode_keeps :
    ((s.dropXattr n).releaseInode n).pool.free .iblkref = s.pool.free .iblkref ∧
      counts ((s.dropXattr n).releaseInode n) = counts s := by
  unfold Sbi.dropXattr
  split <;> exact ⟨rfl, rfl⟩

theorem freeInode_reg (hreg : (s.inodes n).iMode = .reg) :
    s.freeInode n = ((s.truncate n 0).2.dropXattr n).releaseInode n := by
  simp [Sbi.freeInode, hreg]

/-- **`toyfs_free_inode`** releases a file just when it has a size or no blocks. -/
theorem releases_freeInode_iff (h : OnFile n s) : Releases n s (s.freeInode n) ↔
    s.blocksOf n = [] ∨ (s.inodes n).iSize ≠ 0 := by
  obtain ⟨held, hinv⟩ := h.inv
  obtain ⟨hrecs, hcounts⟩ := @zeroInode_keeps (s.truncate n 0).2 n
  have hstate := truncate_zero h
  rw [← freeInode_reg h.reg] at hrecs hcounts
  by_cases hsize : (s.inodes n).iSize = 0
  · rw [if_pos hsize] at hstate
    rw [hstate] at hrecs hcounts
    constructor
    · intro hall
      left
      rw [List.eq_nil_iff_forall_not_mem]
      intro ib hm
      -- the record would be free and in use
      have hin := hall.iblkrefs ib hm
      rw [hrecs] at hin
      exact hinv.freeUnused .iblkref ib.ptr hin ⟨n, ib.dblkref, mem_keys_of_mem hm⟩
    · intro hor
      have hnil := hor.resolve_right (not_not.mpr hsize)
      refine ⟨?_, fun d => ?_⟩
      · simp [hnil]
      · rw [hnil, hcounts]
        exact Nat.zero_add _
  · rw [if_neg hsize] at hstate
    rw [hstate] at hrecs hcounts
    refine iff_of_true ⟨fun ib hm => ?_, fun d => ?_⟩ (.inr hsize)
    · rw [hrecs]
      change ib.ptr ∈ ((s.blocksOf n).foldl (fun s ib => s.dropIblkref n ib) s).pool.free .iblkref
      rw [free_dropBlocks]
      exact List.mem_append_right _ (List.mem_map_of_mem hm)
    · rw [hcounts]
      exact (regains_dropBlocks _ hinv h.reg (hinv.ptrNodup n) fun _ hm => hm).2 d

/-- An eviction drops a reference to an info, or it frees the inode it was of. -/
theorem evict_evicted {x : Sys} {a : ℕ} (hs : x.sbi.evict a = some s') :
    (x.evicted a = none ∧ TableStep x.sbi s') ∨
      ∃ n info, x.evicted a = some n ∧ TableStep ((x.sbi.setTii a info).freeInode n) s' := by
  obtain ⟨info, ha, ⟨hne, rfl⟩ | ⟨hone, n, s₂, hti, hs₂, hstep, -⟩⟩ := evict_cases hs
  · exact .inl ⟨Sys.evicted_of_ref_ne ha hne, ⟨rfl, rfl, rfl, rfl, rfl⟩⟩
  · have hev := Sys.evicted_of_last ha hone hti
    by_cases hlinks : (x.sbi.inodes n).iNlink = 0
    · rw [if_pos hlinks] at hev hs₂
      rw [hs₂] at hstep
      exact .inr ⟨n, _, hev, hstep⟩
    · rw [if_neg hlinks] at hev hs₂
      rw [hs₂] at hstep
      obtain ⟨hp, hd, hi, hm, hb⟩ := hstep
      exact .inl ⟨hev, ⟨hp, hd, hi, hm, hb⟩⟩

theorem evicted_info {x : Sys} {a : ℕ} (h : x.evicted a = some n) :
    ∃ info, x.sbi.tiis a = some info ∧ info.ti = some n := by
  unfold Sys.evicted at h
  split at h
  · next hinfo =>
    split at h
    · obtain rfl := Option.some.inj h
      exact ⟨_, hinfo, rfl⟩
    · cases h
  · cases h

/-- **An eviction that frees a file gives back all it has just when** the file has a size, or no
blocks. -/
theorem evict_releases_iff (apiMapMaxSize : ℕ) (x : Sys)
    (h : ((toyfs apiMapMaxSize).restrict fun _ a => a.InFile).Reachable x) (a : ℕ) (n : RecPtr)
    (hreg : (x.sbi.inodes n).iMode = .reg) (hev : x.evicted a = some n) (s' : Sbi)
    (hs : x.serve apiMapMaxSize (.evict a) = some s') :
    Releases n x.sbi s' ↔ x.sbi.blocksOf n = [] ∨ (x.sbi.inodes n).iSize ≠ 0 := by
  have hon : OnFile n x.sbi := (toyfs_filesOk h).onFile hreg
  rcases evict_evicted hs with ⟨hnone, -⟩ | ⟨m, info, hsome, hstep⟩
  · rw [hnone] at hev
    cases hev
  obtain rfl : n = m := Option.some.inj (hev.symm.trans hsome)
  -- the info is no part of what the inode has
  obtain ⟨held, hinv⟩ := hon.inv
  have hon₁ : OnFile n (x.sbi.setTii a info) := ⟨⟨held, hinv.congr rfl rfl rfl⟩, hreg, hon.file.list,
    hon.file.running⟩
  have hfreed : Releases n (x.sbi.setTii a info) ((x.sbi.setTii a info).freeInode n) ↔
      x.sbi.blocksOf n = [] ∨ (x.sbi.inodes n).iSize ≠ 0 := releases_freeInode_iff hon₁
  refine Iff.trans ?_ hfreed
  constructor
  · rintro ⟨hrecs, hcounts⟩
    refine ⟨fun ib hm => ?_, fun d => ?_⟩
    · rw [← hstep.pool]
      exact hrecs ib hm
    · have hd := hcounts d
      rwa [counts, hstep.dblkrefs] at hd
  · rintro ⟨hrecs, hcounts⟩
    refine ⟨fun ib hm => ?_, fun d => ?_⟩
    · rw [hstep.pool]
      exact hrecs ib hm
    · rw [counts, hstep.dblkrefs]
      exact hcounts d

/-- A file of one page is freed. -/
theorem evict_releases_iff_written : ∃ (x : Sys) (s' : Sbi),
    ((toyfs 65536).restrict fun _ a => a.InFile).Reachable x ∧
      (x.sbi.blocksOf ⟨1023, 1⟩).length = 1 ∧ Releases ⟨1023, 1⟩ x.sbi s' := by
  obtain ⟨x, hx, hp⟩ := exists_restrict_of_mounted 65536 (fun _ a => a.InFile)
    [.newInode ⟨1023, 0⟩ ⟨.reg, 0, 0, [], fun _ => 0, false⟩ (some 2),
      .write ⟨1023, 1⟩ (fun _ => 7) 0 5]
    (p := fun x => (x.sbi.inodes ⟨1023, 1⟩).iMode == .reg &&
      (x.sbi.inodes ⟨1023, 1⟩).iSize == 5 && x.evicted 2 == some ⟨1023, 1⟩ &&
      (x.sbi.blocksOf ⟨1023, 1⟩).length == 1 && (x.serve 65536 (.evict 2)).isSome)
    (by decide +kernel)
  simp only [Bool.and_eq_true, beq_iff_eq] at hp
  obtain ⟨⟨⟨⟨hreg, hsize⟩, hev⟩, hlen⟩, hok⟩ := hp
  obtain ⟨s', hs⟩ := Option.isSome_iff_exists.mp hok
  exact ⟨x, s', hx, hlen, (evict_releases_iff 65536 x hx 2 ⟨1023, 1⟩ hreg hev s' hs).mpr
    (.inr (by rw [hsize]; decide))⟩

/-- A block that was mapped and stored to past the end of an empty file is not given back. -/
theorem mapped_block_leaks : ¬ ∀ x,
    ((toyfs 65536).restrict fun _ a => a.InFile).Reachable x → ∀ a n,
      (x.sbi.inodes n).iMode = .reg → x.evicted a = some n →
      ∀ s', x.serve 65536 (.evict a) = some s' → Releases n x.sbi s' := by
  intro hall
  obtain ⟨x, hx, hp⟩ := exists_restrict_of_mounted 65536 (fun _ a => a.InFile)
    [.newInode ⟨1023, 0⟩ ⟨.reg, 0, 0, [], fun _ => 0, false⟩ (some 2),
      .mmapStore ⟨1023, 1⟩ 0 0 1 fun _ => 7]
    (p := fun x => (x.sbi.inodes ⟨1023, 1⟩).iMode == .reg && x.evicted 2 == some ⟨1023, 1⟩ &&
      (x.serve 65536 (.evict 2)).any fun s' : Sbi => (x.sbi.blocksOf ⟨1023, 1⟩).any fun ib =>
        !decide (ib.ptr ∈ s'.pool.free .iblkref))
    (by decide +kernel)
  simp only [Bool.and_eq_true, beq_iff_eq, Option.any_eq_true, List.any_eq_true,
    Bool.not_eq_true', decide_eq_false_iff_not] at hp
  obtain ⟨⟨hreg, hev⟩, s', hs, ib, hm, hnot⟩ := hp
  exact hnot ((hall x hx 2 ⟨1023, 1⟩ hreg hev s' hs).iblkrefs ib hm)

/-! ## Lost references -/

/-- References go out of the block lists without their counts, unless the condition holds. -/
def Loses (keeps : Prop) (held : RecPtr → ℕ) (s' : Sbi) : Prop :=
  ∃ held', Inv held' s' ∧ held ≤ held' ∧ (held' = held ↔ keeps)

namespace Loses

variable {c c' : Prop}

theorem of_inv (h : Inv held s') (hc : c) : Loses c held s' := ⟨held, h, le_refl held, by simp [hc]⟩

theorem congr (h : Loses c held s') (hc : c ↔ c') : Loses c' held s' := by
  obtain ⟨held', hinv, hle, hkeep⟩ := h
  exact ⟨held', hinv, hle, hkeep.trans hc⟩

theorem trans (h : Loses c held s₁) (h₁ : ∀ held₁, Inv held₁ s₁ → Loses c' held₁ s') :
    Loses (c ∧ c') held s' := by
  obtain ⟨held₁, hinv₁, hle₁, hkeep₁⟩ := h
  obtain ⟨held₂, hinv₂, hle₂, hkeep₂⟩ := h₁ held₁ hinv₁
  refine ⟨held₂, hinv₂, hle₁.trans hle₂, ?_⟩
  constructor
  · rintro rfl
    obtain rfl := le_antisymm hle₂ hle₁
    exact ⟨hkeep₁.mp rfl, hkeep₂.mp rfl⟩
  · rintro ⟨hc, hc'⟩
    rw [hkeep₂.mpr hc', hkeep₁.mpr hc]

/-- What keeps the counts may come after. -/
theorem andThen (h : Loses c held s₁) (h₁ : ∀ held₁, Inv held₁ s₁ → Inv held₁ s') :
    Loses c held s' := by
  obtain ⟨held₁, hinv₁, hle₁, hkeep₁⟩ := h
  exact ⟨held₁, h₁ held₁ hinv₁, hle₁, hkeep₁⟩

end Loses

theorem Serves.inv_of_clean {dirty : Set RecPtr} (h : Serves n dirty True held s s') : Inv held s' := by
  obtain ⟨held', hinv, hheld⟩ := h.inv
  rwa [hheld trivial] at hinv

theorem bump_ne (held : RecPtr → ℕ) (d : RecPtr) : bump held d ≠ held := by
  intro heq
  have hself := congrFun heq d
  rw [bump_self] at hself
  omega

theorem le_bump (held : RecPtr → ℕ) (d : RecPtr) : held ≤ bump held d :=
  fun _ => Nat.le_add_right _ _

/-- **`_require_iblkref`** loses the reference to a block it copies. -/
theorem requireIblkref_loses {res : Option Iblkref} (h : Inv held s)
    (hreg : (s.inodes n).iMode = .reg) (hoffs : OffsetsOk (s.blocksOf n))
    (hr : s.requireIblkref n off = (res, s')) :
    Loses (res.isSome → ¬ s.SharedAt n (offToBoff off)) held s' := by
  rcases requireIblkref_cases h hreg hr with ⟨rfl, h', -⟩ | ⟨ib, rfl, hscan, hle, rfl⟩ |
    ⟨ib, s₁, rfl, hscan, -, -, -, -, -, h', -⟩ | ⟨ib, d, s₁, rfl, hscan, hmany, -, -, -, -, h', -⟩
  · exact .of_inv h' (by simp)
  · refine .of_inv h fun _ => ?_
    rintro ⟨x, hx, hoff, hmany⟩
    obtain ⟨hm, hib⟩ := scanIblkref_some hscan
    obtain rfl := hoffs.eq_of_off hx hm (hoff.trans hib.symm)
    exact absurd hle (Nat.not_le.mpr hmany)
  · refine .of_inv h' fun _ => ?_
    rintro ⟨x, hx, hoff, -⟩
    exact scanIblkref_none hoffs hscan x hx hoff
  · obtain ⟨hm, hib⟩ := scanIblkref_some hscan
    refine ⟨_, h', le_bump held _, iff_of_false (bump_ne held _) ?_⟩
    simp only [Option.isSome_some, true_imp_iff, not_not]
    exact ⟨ib, hm, hib, hmany⟩

/-! ### Stores -/

/-- No page of the range that a store comes to is shared. -/
def Sbi.StoreKeepsRefs (s : Sbi) (n : RecPtr) (off last : ℤ) : Prop :=
  ∀ b ∈ pagesIn off last, s.Fits n off (b + pageSize) → ¬ s.SharedAt n b

instance (s : Sbi) (n : RecPtr) (off last : ℤ) : Decidable (s.StoreKeepsRefs n off last) :=
  inferInstanceAs (Decidable (∀ b ∈ pagesIn off last, _ → _))

/-- A block of another page is shared after a block is required just when it was before. -/
theorem sharedAt_requireIblkref {res : Option Iblkref} {b : ℤ} (h : OnFile n s)
    (hr : s.requireIblkref n off = (res, s')) (hne : b ≠ offToBoff off) :
    s'.SharedAt n b ↔ s.SharedAt n b := by
  obtain ⟨held, hinv⟩ := h.inv
  have hcount : ∀ x ∈ s.blocksOf n, s'.dblkrefs x.dblkref = s.dblkrefs x.dblkref :=
    fun x hx => requireIblkref_dblkrefs hinv h.reg hr (h.counts_pos hx)
  constructor
  · rintro ⟨x, hx, rfl, hmany⟩
    have hx₀ := (mem_requireIblkref hinv h.reg hr hne).mp hx
    rw [hcount x hx₀] at hmany
    exact ⟨x, hx₀, rfl, hmany⟩
  · rintro ⟨x, hx, rfl, hmany⟩
    rw [← hcount x hx] at hmany
    exact ⟨x, (mem_requireIblkref hinv h.reg hr hne).mpr hx, rfl, hmany⟩

/-- A store comes to its first page, and to the others when it found room for that. -/
theorem storeKeepsRefs_iff {res : Option Iblkref} (hoff : 0 ≤ off) (hlt : off < last)
    (h : OnFile n s) (hw : Within N k s) (hr : s.requireIblkref n off = (res, s₁)) :
    s.StoreKeepsRefs n off last ↔ (res.isSome → ¬ s.SharedAt n (offToBoff off)) ∧
      (res.isSome → s₁.StoreKeepsRefs n (nextPage off) last) := by
  obtain ⟨held, hinv⟩ := h.inv
  have hnext : offToBoff off + pageSize = nextPage off := by
    rw [offToBoff_eq hoff, nextPage_eq hoff]
  have hhead : s.Fits n off (offToBoff off + pageSize) ↔ res.isSome := by
    rw [hnext, requireIblkref_fits hoff (lt_nextPage off) hinv h.offsets hw h.reg hr]
    simp [fits_of_ge]
  rw [Sbi.StoreKeepsRefs, pagesIn_of_lt hlt, List.forall_mem_cons, hhead]
  refine and_congr_right fun _ => ?_
  have hpage : ∀ b ∈ pagesIn (nextPage off) last, (s.Fits n off (b + pageSize) → ¬ s.SharedAt n b) ↔
      (res.isSome → s₁.Fits n (nextPage off) (b + pageSize) → ¬ s₁.SharedAt n b) := by
    intro b hb
    have hle := le_of_mem_pagesIn (nextPage_nonneg hoff) hb
    rw [offToBoff_of_aligned (nextPage_emod hoff)] at hle
    have hpos : (0 : ℤ) < pageSize := by decide
    have hlt' := lt_nextPage off
    rw [requireIblkref_fits hoff (by omega) hinv h.offsets hw h.reg hr,
      sharedAt_requireIblkref h hr (ne_of_mem_pagesIn_next hoff hb), and_imp]
  exact ⟨fun hall hsome b hb => (hpage b hb).mp (hall b hb) hsome,
    fun hall b hb => (hpage b hb).mpr fun hsome => hall hsome b hb⟩

/-- **The loop of `_write`** loses a reference with every copy. -/
theorem writeLoop_loses {buf : Bytes} {cnt : UInt64} (hoff : 0 ≤ off) (h : OnFile n s)
    (hw : Within N k s) (hinv : Inv held s) :
    Loses (s.StoreKeepsRefs n off last) held (s.writeLoop n buf off last cnt).2 := by
  fun_induction Sbi.writeLoop s n buf off last cnt generalizing held with
  | case1 s buf off cnt hlt s₁ hreq =>
    apply (requireIblkref_loses hinv h.reg h.offsets hreq).congr
    simp [storeKeepsRefs_iff hoff hlt h hw hreq]
  | case2 s buf off cnt hlt ib s₁ hreq len s₂ =>
    rename_i ih
    have h₁ : OnFile n s₁ := h.requireIblkref hoff hreq
    have hw₁ : Within N k (s.requireIblkref n off).2 := hw.requireIblkref
    rw [hreq] at hw₁
    have h₂ : OnFile n s₂ := h₁.storeAt (offInPage_nonneg hoff) (piece_fits hoff hlt)
    have hpage := requireIblkref_loses hinv h.reg h.offsets hreq
    have hrest := hpage.trans fun held₁ hinv₁ =>
      ih (nextPage_nonneg hoff) h₂ hw₁.storeAt (hinv₁.storeAt _ _ _ _)
    apply hrest.congr
    rw [storeKeepsRefs_iff hoff hlt h hw hreq]
    have hsame : s₂.StoreKeepsRefs n (nextPage off) last ↔ s₁.StoreKeepsRefs n (nextPage off) last :=
      Iff.rfl
    simp [hsame]
  | case3 s buf off cnt hlt =>
    apply Loses.of_inv hinv
    intro b hb
    rw [pagesIn_of_ge (Int.not_lt.mp hlt)] at hb
    cases hb

/-- **The loop of `_falloc_range`** does too. -/
theorem fallocRangeLoop_loses {cnt : UInt64} (hoff : 0 ≤ off) (h : OnFile n s) (hw : Within N k s)
    (hinv : Inv held s) :
    Loses (s.StoreKeepsRefs n off last) held (s.fallocRangeLoop n off last cnt).2 := by
  fun_induction Sbi.fallocRangeLoop s n off last cnt generalizing held with
  | case1 s off cnt hlt s₁ hreq =>
    apply (requireIblkref_loses hinv h.reg h.offsets hreq).congr
    simp [storeKeepsRefs_iff hoff hlt h hw hreq]
  | case2 s off cnt hlt ib s₁ hreq =>
    rename_i ih
    have h₁ : OnFile n s₁ := h.requireIblkref hoff hreq
    have hw₁ : Within N k (s.requireIblkref n off).2 := hw.requireIblkref
    rw [hreq] at hw₁
    have hpage := requireIblkref_loses hinv h.reg h.offsets hreq
    apply (hpage.trans fun held₁ hinv₁ => ih (nextPage_nonneg hoff) h₁ hw₁ hinv₁).congr
    simp [storeKeepsRefs_iff hoff hlt h hw hreq]
  | case3 s off cnt hlt =>
    apply Loses.of_inv hinv
    intro b hb
    rw [pagesIn_of_ge (Int.not_lt.mp hlt)] at hb
    cases hb

theorem Inv.setSize {size : UInt64} (h : Inv held s) (hreg : (s.inodes n).iMode = .reg) :
    Inv held (s.setSize n size) := by
  have hserve : Serves n ∅ True held s (s.setSize n size) := serves_setSize h hreg size
  exact hserve.inv_of_clean

/-- **`_write`.** -/
theorem write_loses {apiMapMaxSize : ℕ} {buf : Bytes} {len : UInt64} (h : OnFile n s)
    (hw : Within N k s) (hinv : Inv held s) :
    Loses (checkRw apiMapMaxSize off len = none → s.StoreKeepsRefs n off (off + toLoff len)) held
      (s.write apiMapMaxSize n buf off len).2 := by
  rw [Sbi.write]
  split
  · next err hcheck => exact .of_inv hinv (by simp [hcheck])
  · next hcheck =>
    have hoff := checkRw_nonneg hcheck
    have hloop : Loses (s.StoreKeepsRefs n off (off + toLoff len)) held
        (s.writeLoop n buf off (off + toLoff len) 0).2 := writeLoop_loses hoff h hw hinv
    have hserve := fun s₁ res hr => @writeLoop_serves s s₁ held n ∅ buf off (off + toLoff len) 0 res
      hoff hinv h.reg hr
    simp only [hcheck, true_imp_iff]
    split
    · next err s₁ hr => rwa [hr] at hloop
    · next cnt s₁ hr =>
      rw [hr] at hloop
      exact hloop.andThen fun held₁ hinv₁ => hinv₁.setSize (hserve s₁ _ hr).reg

/-- **`_fallocate`** loses references when it allocates. -/
theorem fallocate_loses {mode : UInt32} {len : UInt64} (h : OnFile n s) (hw : Within N k s)
    (hinv : Inv held s) :
    Loses (checkIo off len = none → checkFalloc mode off len = none → PlainMode mode →
      s.StoreKeepsRefs n off (off + toLoff len)) held (s.fallocate n mode off len).2 := by
  rw [Sbi.fallocate]
  split
  · next err hio => exact .of_inv hinv (by simp [hio])
  next hio =>
  have hoff := checkIo_nonneg hio
  split
  · next err hcheck => exact .of_inv hinv (by simp [hcheck])
  next hcheck =>
  split
  · next hpunch =>
    have hserve : Serves n Set.univ True held s (s.punchHoleLoop n off (off + toLoff len)) :=
      punchHoleLoop_serves hoff hinv h.reg fun _ _ _ => Set.mem_univ _
    exact .of_inv hserve.inv_of_clean fun _ _ hplain => absurd hplain.1 hpunch
  next hpunch =>
  split
  · next hzero =>
    have hserve : Serves n Set.univ True held s (s.zeroRangeLoop off (off + toLoff len)
        (fetchIblkrefFrom (s.blocksOf n) off)) :=
      zeroRangeLoop_serves _ hinv h.reg (fun _ hm => mem_of_mem_fetchFrom hm)
        fun _ _ _ => Set.mem_univ _
    exact .of_inv hserve.inv_of_clean fun _ _ hplain => absurd hplain.2.1 hzero
  next hzero =>
  split
  · next hcollapse =>
    have hserve : Serves n ∅ True held s (s.collapseRange n off len) :=
      collapseRange_serves hoff (checkFalloc_aligned hcheck hcollapse) hinv h.reg
    exact .of_inv hserve.inv_of_clean fun _ _ hplain => absurd hplain.2.2 hcollapse
  next hcollapse =>
  have hplain : PlainMode mode := ⟨not_not.mp hpunch, not_not.mp hzero, not_not.mp hcollapse⟩
  simp only [hio, hcheck, hplain, true_imp_iff]
  have hloop : Loses (s.StoreKeepsRefs n off (off + toLoff len)) held
      (s.fallocRangeLoop n off (off + toLoff len) 0).2 := fallocRangeLoop_loses hoff h hw hinv
  have hserve := fun s₁ res hr => @fallocRangeLoop_serves s s₁ held n ∅ off (off + toLoff len) 0 res
    hoff hinv h.reg hr
  rw [Sbi.fallocRange]
  split
  · next err s₁ hr => rwa [hr] at hloop
  · next cnt s₁ hr =>
    rw [hr] at hloop
    exact hloop.andThen fun held₁ hinv₁ => hinv₁.setSize (hserve s₁ _ hr).reg

/-! ### Clones -/

theorem sharedAt_iff_fetch (hoffs : OffsetsOk (s.blocksOf n)) (hal : off % pageSize = 0) :
    s.SharedAt n off ↔ ∃ ib ∈ fetchIblkref (s.blocksOf n) off, 1 < counts s ib.dblkref := by
  have hboff := offToBoff_of_aligned hal
  constructor
  · rintro ⟨x, hx, hoff, hmany⟩
    exact ⟨x, fetchIblkref_of_mem hoffs hx (hoff.trans hboff.symm), hmany⟩
  · rintro ⟨x, hf, hmany⟩
    obtain ⟨hx, hoff⟩ := fetchIblkref_some hf
    exact ⟨x, hx, hoff.trans hboff, hmany⟩

theorem Inv.growTo {size : UInt64} (h : Inv held s) (hreg : (s.inodes n).iMode = .reg) :
    Inv held (s.growTo n size) := by
  have hserve : Serves n ∅ True held s (s.growTo n size) := growTo_serves h hreg
  exact hserve.inv_of_clean

/-- **One page of a clone** loses the reference to a block that it puts one of the source for. -/
theorem cloneRange_loses {srcOff dstOff : ℤ} {len : UInt64} {res : Option Errno} (hne : src ≠ dst)
    (h : OnFile dst s) (hinv : Inv held s) (hlen : len = 4096) (hsal : srcOff % pageSize = 0)
    (hdal : dstOff % pageSize = 0) (hr : s.cloneRange src dst srcOff dstOff len = (res, s')) :
    Loses (res = none → (fetchIblkref (s.blocksOf src) srcOff).isSome → ¬ s.SharedAt dst dstOff)
      held s' := by
  have hboff := offToBoff_of_aligned hdal
  rcases cloneRange_cases hlen hsal hdal hr with ⟨srcIb, dstIb, s₁, hf, hreq, rfl, rfl⟩ |
    ⟨srcIb, hf, hreq, rfl⟩ | ⟨hf, -, rfl, rfl⟩ | ⟨dstIb, bn, s₁, hf, hf', huniq, rfl, rfl⟩ |
    ⟨dstIb, hf, hf', huniq, rfl⟩
  · have hpage := requireIblkref_loses hinv h.reg h.offsets hreq
    rw [hboff] at hpage
    have hserve : Serves dst ∅ _ held s s₁ := requireIblkref_serves hinv h.reg hreq
    obtain ⟨hm, -, hle⟩ := requireIblkref_block hinv h.reg hreq
    have hsrc : srcIb ∈ s₁.blocksOf src := by
      rw [Sbi.blocksOf, hserve.op.step.others src hne]
      exact (fetchIblkref_some hf).1
    have hshare := hpage.andThen fun held₁ hinv₁ => hinv₁.sharePage hserve.reg hm
      (hinv₁.counts_pos (mem_keys_of_mem hsrc)) (hinv₁.dblkref_ne hne hsrc hm hle)
    have hreg : ((s₁.sharePage dst srcIb dstIb).inodes dst).iMode = .reg := by
      obtain ⟨held₁, hinv₁, -⟩ := hserve.inv
      have hserve₁ : Serves dst ∅ True held₁ s₁ (s₁.sharePage dst srcIb dstIb) :=
        sharePage_serves hinv₁ hserve.reg hm (hinv₁.counts_pos (mem_keys_of_mem hsrc))
          (hinv₁.dblkref_ne hne hsrc hm hle)
      exact hserve₁.reg
    apply (hshare.andThen fun held₂ hinv₂ => hinv₂.growTo hreg).congr
    simp [hf]
  · apply (requireIblkref_loses hinv h.reg h.offsets hreq).congr
    simp
  · exact .of_inv hinv (by simp [hf])
  · have hstore : Serves dst ∅ True held s (s₁.storeAt bn (offInPage dstOff) len fun _ => 0) :=
      uniquePmemb_store_serves hinv h.reg (fetchIblkref_some hf').1 huniq _ _ _
    exact .of_inv (hstore.inv_of_clean.growTo hstore.reg) (by simp [hf])
  · have hserve : Serves dst ∅ True held s s' :=
      uniquePmemb_serves hinv h.reg (fetchIblkref_some hf').1 huniq
    exact .of_inv hserve.inv_of_clean (by simp)

/-- No page of the ranges that a clone comes to puts a block for a shared one. -/
def Stock.clonesInPlace (k : Stock) (refs : RecPtr → ℕ) (srcBlocks dstBlocks : List Iblkref)
    (srcOff dstOff : ℤ) : ℕ → Bool
  | 0 => true
  | pages + 1 =>
    match k.clonePage refs (fetchIblkref srcBlocks srcOff) (fetchIblkref dstBlocks dstOff) with
    | none => true
    | some (k', refs') =>
      ((fetchIblkref srcBlocks srcOff).isNone ||
        (fetchIblkref dstBlocks dstOff).all fun b => refs b.dblkref ≤ 1) &&
        k'.clonesInPlace refs' srcBlocks dstBlocks (srcOff + pageSize) (dstOff + pageSize) pages

/-- **The loop of `_clone_sub_file_range`.** -/
theorem cloneSubLoop_loses {l : List Iblkref} {refs : RecPtr → ℕ} {pages : ℕ} {srcOff dstOff : ℤ}
    {res : Option Errno} (ha : KnownFrom dst l refs dstOff s) (hl : OffsetsOk l)
    (hw : Within N k s) (hne : src ≠ dst) (h : OnFile dst s) (hinv : Inv held s)
    (hsal : srcOff % pageSize = 0) (hd : 0 ≤ dstOff) (hdal : dstOff % pageSize = 0)
    (hr : s.cloneSubLoop src dst srcOff (srcOff + pages * pageSize) dstOff
      (dstOff + pages * pageSize) = (res, s')) :
    Loses (s.pool.stock.clonesInPlace refs (s.blocksOf src) l srcOff dstOff pages = true)
      held s' := by
  induction pages generalizing s srcOff dstOff refs held with
  | zero =>
    rw [Sbi.cloneSubLoop, if_neg (by simp)] at hr
    obtain ⟨rfl, rfl⟩ := Prod.mk.inj hr
    exact .of_inv hinv rfl
  | succ pages ih =>
    have hpos : (0 : ℤ) < pageSize := by decide
    rw [cloneSubLoop_succ rfl hsal hdal] at hr
    rw [Stock.clonesInPlace]
    split at hr
    · next err s₁ hstep =>
      obtain ⟨rfl, rfl⟩ := Prod.mk.inj hr
      rw [(cloneRange_room ha h hw hl rfl hsal hd hdal hstep).1 nofun]
      apply (cloneRange_loses hne h hinv rfl hsal hdal hstep).congr
      simp
    · next s₁ hstep =>
      obtain ⟨h₁, hkeep⟩ := h.cloneRange hne rfl hsal hd hdal hstep
      obtain ⟨refs', hstock, ha₁⟩ := (cloneRange_room ha h hw hl rfl hsal hd hdal hstep).2 rfl
      have hw₁ : Within N k (s.cloneRange src dst srcOff dstOff 4096).2 := hw.cloneRange hinv
      rw [hstep] at hw₁
      have hsrc : s₁.blocksOf src = s.blocksOf src := by
        rw [Sbi.blocksOf, hkeep.1, Sbi.blocksOf]
      have hrest := (cloneRange_loses hne h hinv rfl hsal hdal hstep).trans fun held₁ hinv₁ =>
        ih ha₁ hw₁ h₁ hinv₁ (by rwa [Int.add_emod_right]) (by omega) (by rwa [Int.add_emod_right]) hr
      rw [hsrc] at hrest
      rw [hstock]
      apply hrest.congr
      -- the block of the destination is shared by the counts that are known
      have hshared : s.SharedAt dst dstOff ↔ ∃ b ∈ fetchIblkref l dstOff, 1 < refs b.dblkref := by
        rw [sharedAt_iff_fetch h.offsets hdal, ha.fetch hl hdal]
        refine exists_congr fun b => and_congr_right fun hb => ?_
        obtain ⟨hm, hoff⟩ := fetchIblkref_some hb
        rw [offToBoff_of_aligned hdal] at hoff
        rw [ha.refs b hm (by omega)]
      simp only [true_imp_iff, Bool.and_eq_true, Bool.or_eq_true, hshared]
      refine and_congr_left fun _ => ?_
      cases fetchIblkref (s.blocksOf src) srcOff with
      | none => simp
      | some a => cases fetchIblkref l dstOff <;> simp

/-- The clone of a range puts no block for a shared one; that of a whole file drops them. -/
def Sbi.CloneKeepsRefs (s : Sbi) (src dst : RecPtr) (srcPos dstPos : ℤ) (len : UInt64) : Prop :=
  src ≠ dst → ¬ (srcPos = 0 ∧ len = 0 ∧ dstPos = 0) → ispagealigned srcPos len = true →
    ispagealigned dstPos len = true →
    s.pool.stock.clonesInPlace (counts s) (s.blocksOf src) (s.blocksOf dst) srcPos dstPos
      (toLoff len / pageSize).toNat = true

instance (s : Sbi) (src dst : RecPtr) (srcPos dstPos : ℤ) (len : UInt64) :
    Decidable (s.CloneKeepsRefs src dst srcPos dstPos len) :=
  inferInstanceAs (Decidable (_ → _ → _ → _ → _))

/-- **`_clone`.** -/
theorem clone_loses {srcPos dstPos : ℤ} {len : UInt64} (hsrc : (s.inodes src).iMode = .reg)
    (h : OnFile dst s) (hw : Within N k s) (hinv : Inv held s) (hd : 0 ≤ dstPos) :
    Loses (s.CloneKeepsRefs src dst srcPos dstPos len) held (s.clone src dst srcPos dstPos len).2 := by
  have hreg : ¬ ((s.inodes src).iMode ≠ .reg ∨ (s.inodes dst).iMode ≠ .reg) := by
    simp [hsrc, h.reg]
  rw [Sbi.clone, if_neg hreg]
  by_cases hne : src = dst
  · rw [if_pos hne]
    exact .of_inv hinv fun hne' => absurd hne hne'
  rw [if_neg hne]
  by_cases hwhole : srcPos = 0 ∧ len = 0 ∧ dstPos = 0
  · rw [if_pos hwhole]
    have hserve : Serves dst ∅ True held s (s.cloneEntireFileRange src dst).2 :=
      cloneEntireFileRange_serves hne hinv h.reg
    exact .of_inv hserve.inv_of_clean fun _ hnot => absurd hwhole hnot
  rw [if_neg hwhole]
  by_cases hal : ispagealigned srcPos len = true ∧ ispagealigned dstPos len = true
  swap
  · rw [if_pos (by simpa only [Bool.not_eq_true, not_and_or] using hal)]
    exact .of_inv hinv fun _ _ hsal hdal => absurd ⟨hsal, hdal⟩ hal
  obtain ⟨hsal, hdal⟩ := hal
  rw [if_neg (by simp [hsal, hdal])]
  have hkeeps : s.CloneKeepsRefs src dst srcPos dstPos len ↔
      s.pool.stock.clonesInPlace (counts s) (s.blocksOf src) (s.blocksOf dst) srcPos dstPos
        (toLoff len / pageSize).toNat = true := by
    simp [Sbi.CloneKeepsRefs, hne, hwhole, hsal, hdal]
  simp only [ispagealigned, Bool.and_eq_true, beq_iff_eq] at hsal hdal
  have hlenal := toLoff_emod hsal.2
  rw [Sbi.cloneSubFileRange]
  rcases Int.lt_or_le 0 (toLoff len) with hpos | hneg
  swap
  · -- the loop has nothing to do
    have hpages : (toLoff len / pageSize).toNat = 0 := by
      unfold pageSize
      omega
    rw [hpages] at hkeeps
    rw [Sbi.cloneSubLoop, if_neg (by omega)]
    exact .of_inv hinv (hkeeps.mpr rfl)
  have hpages : toLoff len = ((toLoff len / pageSize).toNat : ℕ) * pageSize := by
    unfold pageSize at *
    omega
  rcases hloop : s.cloneSubLoop src dst srcPos (srcPos + toLoff len) dstPos (dstPos + toLoff len)
    with ⟨res, s₁⟩
  rw [hpages] at hloop
  have hknown : KnownFrom dst (s.blocksOf dst) (counts s) dstPos s :=
    ⟨fun _ _ => Iff.rfl, fun _ _ _ => rfl⟩
  exact (cloneSubLoop_loses hknown h.offsets hw hne h hinv hsal.1 hd hdal.1 hloop).congr hkeeps.symm

/-! ### Evictions -/

/-- Freeing an inode keeps the references to blocks but those of its own list. -/
theorem freeInode_loses (h : OnFile n s) (hinv : Inv held s) :
    Loses (s.blocksOf n = [] ∨ (s.inodes n).iSize ≠ 0) held (s.freeInode n) := by
  have hset : (s.inodes n).iMode ≠ .unset := by simp [h.reg]
  obtain ⟨held', hinv', hkeep⟩ := hinv.freeInode hset fun hne => absurd h.reg hne
  by_cases hall : s.blocksOf n = [] ∨ (s.inodes n).iSize ≠ 0
  · rw [hkeep fun _ => hall.imp_right fun hsize => ⟨hsize, h.offsets.nonneg⟩] at hinv'
    exact .of_inv hinv' hall
  obtain ⟨hnil, hsize⟩ := not_or.mp hall
  rw [not_not] at hsize
  have hcounts : counts (s.freeInode n) = counts s := by
    rw [freeInode_reg h.reg, zeroInode_keeps.2, truncate_zero h, if_pos hsize]
    rfl
  have hself : (s.freeInode n).inodes n = {} := by
    rw [freeInode_reg h.reg]
    exact setInode_inodes_self
  have hothers := (@inodeStep_freeInode s held n hinv).others
  have hcounted := hinv'.counted
  rw [hcounts] at hcounted
  -- the references of the other inodes are what is left
  have hold : ∀ d p, p ∈ refs (s.freeInode n) d → ∃ m, m ≠ n ∧ (p, d) ∈ (s.inodes m).keys := by
    rintro d p ⟨m, hm⟩
    obtain rfl | hne := eq_or_ne m n
    · rw [hself] at hm
      cases hm
    · rw [hothers m hne] at hm
      exact ⟨m, hne, hm⟩
  obtain ⟨hle, hiff⟩ := hinv.counted.held_of_subset hcounted fun d p hp => by
    obtain ⟨m, -, hm⟩ := hold d p hp
    exact ⟨m, hm⟩
  refine ⟨held', hinv', hle, iff_of_false (fun heq => ?_) hall⟩
  obtain ⟨ib, hm⟩ := List.exists_mem_of_ne_nil _ hnil
  have hkey := mem_keys_of_mem hm
  have hin : ib.ptr ∈ refs (s.freeInode n) ib.dblkref := by
    rw [hiff.mp heq]
    exact ⟨n, hkey⟩
  obtain ⟨m, hne, hm'⟩ := hold _ _ hin
  exact hne (hinv.keysInj m n _ _ _ hm' hkey)

/-! ## Requests -/

/-- The counts are exact: those of all blocks are the numbers of the `iblkref`s that name them, and
a block goes with the last of these. -/
structure RefsExact (s : Sbi) : Prop where
  counts : ∀ d, (refs s d).encard = counts s d
  last : ∀ n, ∀ ib ∈ s.blocksOf n, s.pageOf ib.dblkref ∈ (s.dropIblkref n ib).pool.pages ↔
    refs s ib.dblkref = {ib.ptr}

theorem pages_dropIblkref : (s.dropIblkref n ib).pool.pages =
    if counts s ib.dblkref ≤ 1 then s.pageOf ib.dblkref :: s.pool.pages else s.pool.pages := by
  obtain ⟨c₁, c₂, heq⟩ := @dropIblkref_eq s n ib
  set s₁ := s.setBlocks n ((s.blocksOf n).filter fun x => x.ptr ≠ ib.ptr)
  have hput : (s.dropIblkref n ib).pool.pages = (s₁.putDblkref ib.dblkref).pool.pages := by
    rw [heq]
    rfl
  have hcount : (s₁.dblkrefs ib.dblkref).refcnt - 1 = 0 ↔ counts s ib.dblkref ≤ 1 :=
    Nat.sub_eq_zero_iff_le
  rw [hput, Sbi.putDblkref]
  simp only [hcount]
  split
  · simp [Sbi.freeDblkref, Sbi.releasePmemb, Sbi.releaseDblkref, Sbi.decRefcnt, Sbi.setDblkref,
      Sbi.pageOf, Pool.pushRec, Pool.pushPmemb, Pool.setFree, s₁, Sbi.setBlocks, Sbi.setInode]
  · rfl

/-- The counts are exact when no reference is lost. -/
theorem refsExact_iff (hinv : Inv held s) : RefsExact s ↔ held = fun _ => 0 := by
  constructor
  · intro hexact
    funext d
    have hd := hinv.counted d
    rw [hexact.counts d] at hd
    have hsum : counts s d + held d = counts s d := by exact_mod_cast hd
    omega
  · rintro rfl
    have hcounts := Counted.exact_iff.mp hinv.counted
    refine ⟨hcounts, fun n ib hm => ?_⟩
    have hkey := mem_keys_of_mem hm
    have hpos := hinv.counts_pos hkey
    rw [pages_dropIblkref]
    by_cases hone : counts s ib.dblkref ≤ 1
    · rw [if_pos hone]
      refine iff_of_true List.mem_cons_self ?_
      apply Set.eq_singleton_iff_unique_mem.mpr
      exact ⟨⟨n, hkey⟩, fun p hp => hinv.counted.eq_of_le_one hone hp ⟨n, hkey⟩⟩
    · rw [if_neg hone]
      refine iff_of_false (fun hin => ?_) fun heq => ?_
      · have hown : Owns s (s.pageOf ib.dblkref) (.data ib.dblkref) := ⟨hpos, rfl⟩
        have hpool : Owns s (s.pageOf ib.dblkref) .pool := hin
        cases hinv.exclusive _ _ _ hown hpool
      · have hd := hcounts ib.dblkref
        rw [heq, Set.encard_singleton] at hd
        have hd' : 1 = counts s ib.dblkref := by exact_mod_cast hd
        omega

/-- A request that loses no reference. -/
def Sys.KeepsRefs (x : Sys) (apiMapMaxSize : ℕ) : Act → Prop
  | .write n _ filepos len => checkRw apiMapMaxSize (toLoff filepos) len = none →
      x.sbi.StoreKeepsRefs n (toLoff filepos) (toLoff filepos + toLoff len)
  | .fallocate n mode filepos lastPos =>
      let len := toSize (toLoff lastPos - toLoff filepos)
      checkIo (toLoff filepos) len = none → checkFalloc mode (toLoff filepos) len = none →
        PlainMode mode → x.sbi.StoreKeepsRefs n (toLoff filepos) (toLoff filepos + toLoff len)
  | .clone src dst posIn posOut len =>
      x.sbi.CloneKeepsRefs src dst (toLoff posIn) (toLoff posOut) len
  | .evict a => ∀ n ∈ x.evicted a, (x.sbi.inodes n).iMode = .reg →
      x.sbi.blocksOf n = [] ∨ (x.sbi.inodes n).iSize ≠ 0
  | _ => True

instance (mode : UInt32) : Decidable (PlainMode mode) := inferInstanceAs (Decidable (_ ∧ _ ∧ _))

instance (x : Sys) (apiMapMaxSize : ℕ) : (a : Act) → Decidable (x.KeepsRefs apiMapMaxSize a)
  | .write .. => inferInstanceAs (Decidable (_ → _))
  | .fallocate .. => inferInstanceAs (Decidable (_ → _ → _ → _))
  | .clone .. => inferInstanceAs (Decidable (Sbi.CloneKeepsRefs ..))
  | .evict a => inferInstanceAs (Decidable (∀ n ∈ x.evicted a, _ → _))
  | .newInode .. | .iget .. | .addDentry .. | .removeDentry .. | .rename .. | .truncate ..
  | .mmapStore .. | .setxattr .. => inferInstanceAs (Decidable True)

theorem tableStep_iget {ino : UInt64} {addr : Option ℕ} : TableStep s (s.iget ino addr).2 := by
  unfold Sbi.iget
  split
  · exact ⟨rfl, rfl, rfl, rfl, rfl⟩
  split
  · split <;> exact ⟨rfl, rfl, rfl, rfl, rfl⟩
  split
  · exact ⟨rfl, rfl, rfl, rfl, rfl⟩
  · next a s₁ ha =>
    obtain ⟨-, rfl⟩ := Sbi.allocIi_some ha
    exact ⟨rfl, rfl, rfl, rfl, rfl⟩

section Run

variable {x x' : Sys} {a : Act} {apiMapMaxSize : ℕ}

/-- **One request** loses a reference just when it does not keep them. -/
theorem serve_loses (hok : FilesOk x.sbi) (hw : Within N k x.sbi) (hinv : Inv held x.sbi)
    (hsend : x.Sends a) (hfile : a.InFile) (hs : x.serve apiMapMaxSize a = some s') :
    Loses (x.KeepsRefs apiMapMaxSize a) held s' := by
  cases a with
  | newInode dir ioc addr =>
    obtain rfl := Option.some.inj hs
    rcases newInode_cases hinv hsend.2.1 rfl with ⟨-, hnot⟩ | ⟨a, n, -, -, hmade⟩
    · exact .of_inv hnot.inv trivial
    · exact .of_inv hmade.inv trivial
  | iget ino addr =>
    obtain rfl := Option.some.inj hs
    obtain ⟨hp, hd, hi, -, -⟩ := @tableStep_iget x.sbi ino addr
    exact .of_inv (hinv.congr hp hd hi) trivial
  | evict a =>
    rcases evict_evicted hs with ⟨hnone, hstep⟩ | ⟨n, info, hsome, hstep⟩
    · exact .of_inv (hinv.congr hstep.pool hstep.dblkrefs hstep.inodes) (by simp [Sys.KeepsRefs, hnone])
    have hinv₁ : Inv held (x.sbi.setTii a info) := hinv.congr rfl rfl rfl
    by_cases hreg : (x.sbi.inodes n).iMode = .reg
    · have hon := hok.onFile hreg
      have hon₁ : OnFile n (x.sbi.setTii a info) :=
        ⟨⟨held, hinv₁⟩, hreg, hon.file.list, hon.file.running⟩
      have hfree := (freeInode_loses hon₁ hinv₁).andThen fun held₁ h₁ =>
        h₁.congr hstep.pool hstep.dblkrefs hstep.inodes
      apply hfree.congr
      simp only [Sys.KeepsRefs, hsome, Option.mem_some_iff, forall_eq', hreg, true_imp_iff]
      exact Iff.rfl
    · -- what is no file has no blocks
      obtain ⟨info₀, hinfo, hti⟩ := evicted_info hsome
      obtain ⟨held', hinv', hkeep⟩ := hinv₁.freeInode (hok.store.infoSet a info₀ n hinfo hti)
        (hok.store.plain n)
      rw [hkeep fun h => absurd h hreg] at hinv'
      refine .of_inv (hinv'.congr hstep.pool hstep.dblkrefs hstep.inodes) ?_
      simp [Sys.KeepsRefs, hsome, hreg]
  | addDentry dir n name =>
    obtain rfl := Option.some.inj hs
    exact .of_inv (hinv.addDirent hsend.1 hsend.2.1).1 trivial
  | removeDentry dir n name =>
    obtain rfl := Option.some.inj hs
    exact .of_inv (hinv.metaStep (metaStep_removeDentry hsend.1 hsend.2.1)) trivial
  | rename oldDir newDir old oldName newName time flags =>
    obtain rfl := Option.some.inj hs
    exact .of_inv (hinv.rename hsend.1 hsend.2.1 hsend.2.2.1).1 trivial
  | write n buf filepos len =>
    obtain rfl := Option.some.inj hs
    exact write_loses (hok.onFile hsend) hw hinv
  | fallocate n mode filepos lastPos =>
    obtain rfl := Option.some.inj hs
    exact fallocate_loses (hok.onFile hsend) hw hinv
  | truncate n size =>
    obtain rfl := Option.some.inj hs
    have hserve : Serves n ∅ True held x.sbi (x.sbi.truncate n size).2 := truncate_serves hinv hsend
    exact .of_inv hserve.inv_of_clean trivial
  | clone src dst posIn posOut len =>
    obtain rfl := Option.some.inj hs
    exact clone_loses hsend.1 (hok.onFile hsend.2) hw hinv hfile
  | mmapStore n filepos poff len data =>
    obtain rfl := Option.some.inj hs
    have hserve : Serves n Set.univ True held x.sbi
        (x.sbi.mmapStore n (toLoff filepos) poff len data) :=
      mmapStore_serves hinv hsend.1 fun _ _ => Set.mem_univ _
    exact .of_inv hserve.inv_of_clean trivial
  | setxattr n ioc =>
    obtain ⟨⟨res, s₁⟩, hr, rfl⟩ := Option.map_eq_some_iff.mp hs
    exact .of_inv (hinv.setxattr hsend.1 hr) trivial

/-- **A request on exact counts** leaves them exact just when it loses no reference. -/
theorem refsExact_next_iff (hreach : ((toyfs apiMapMaxSize).restrict fun _ a => a.InFile).Reachable x)
    (hinv : Inv (fun _ => 0) x.sbi) (hfile : a.InFile) (hn : x.next apiMapMaxSize a = some x') :
    (RefsExact x'.sbi ↔ x.KeepsRefs apiMapMaxSize a) ∧
      (x.KeepsRefs apiMapMaxSize a → Inv (fun _ => 0) x'.sbi) := by
  obtain ⟨hsend, hs, -, -⟩ := Sys.next_cases hn
  obtain ⟨held', hinv', -, hiff⟩ := serve_loses (toyfs_filesOk hreach)
    (toyfs_within hreach.of_restrict) hinv hsend hfile hs
  refine ⟨(refsExact_iff hinv').trans hiff, fun hkeep => ?_⟩
  rwa [hiff.mpr hkeep] at hinv'

/-- A run whose requests lose no reference. -/
theorem toyfs_keepsRefs (h : ((toyfs apiMapMaxSize).restrict fun x a =>
      a.InFile ∧ x.KeepsRefs apiMapMaxSize a).Reachable x) :
    ((toyfs apiMapMaxSize).restrict fun _ a => a.InFile).Reachable x ∧
      Inv (fun _ => 0) x.sbi := by
  refine h.invariant (I := fun x =>
    ((toyfs apiMapMaxSize).restrict fun _ a => a.InFile).Reachable x ∧ Inv (fun _ => 0) x.sbi) ?_ ?_
  · intro x hinit
    obtain ⟨nblocks, addr, -, hm⟩ := id hinit
    obtain ⟨n, hmount⟩ := mounted_spec hm
    exact ⟨.init hinit, hmount.inv⟩
  · rintro x a x' ⟨hreach, hinv⟩ ⟨⟨hfile, hkeep⟩, hn⟩
    exact ⟨hreach.step ⟨hfile, hn⟩, (refsExact_next_iff hreach hinv hfile hn).2 hkeep⟩

/-- **The counts are exact** in every run whose requests lose no reference, and a request that
loses one ends this. -/
theorem refcounts_exact (apiMapMaxSize : ℕ) (x : Sys)
    (h : ((toyfs apiMapMaxSize).restrict fun x a =>
      a.InFile ∧ x.KeepsRefs apiMapMaxSize a).Reachable x) :
    RefsExact x.sbi ∧ ∀ a x', a.InFile → x.next apiMapMaxSize a = some x' →
      (RefsExact x'.sbi ↔ x.KeepsRefs apiMapMaxSize a) := by
  obtain ⟨hreach, hinv⟩ := toyfs_keepsRefs h
  exact ⟨(refsExact_iff hinv).mpr rfl,
    fun a x' hfile hn => (refsExact_next_iff hreach hinv hfile hn).1⟩

/-- Two files share a block. -/
theorem refcounts_exact_shared : ∃ x, ((toyfs 65536).restrict fun x a =>
    a.InFile ∧ x.KeepsRefs 65536 a).Reachable x ∧
      (∃ ib ∈ x.sbi.blocksOf ⟨1023, 2⟩, counts x.sbi ib.dblkref = 2) ∧ RefsExact x.sbi := by
  obtain ⟨x, hx, hp⟩ := exists_restrict_of_mounted 65536
    (fun x a => a.InFile ∧ x.KeepsRefs 65536 a)
    [.newInode ⟨1023, 0⟩ ⟨.reg, 0, 0, [], fun _ => 0, false⟩ (some 2),
      .newInode ⟨1023, 0⟩ ⟨.reg, 0, 0, [], fun _ => 0, false⟩ (some 3),
      .write ⟨1023, 1⟩ (fun _ => 7) 0 5, .clone ⟨1023, 1⟩ ⟨1023, 2⟩ 0 0 0]
    (p := fun x => (x.sbi.blocksOf ⟨1023, 2⟩).any fun ib => (x.sbi.dblkrefs ib.dblkref).refcnt == 2)
    (by decide +kernel)
  simp only [List.any_eq_true, beq_iff_eq] at hp
  exact ⟨x, hx, hp, (refcounts_exact 65536 x hx).1⟩

/-- A store to a file that shares its block leaves the count of the block as it was. -/
theorem copied_block_stays_counted : ¬ ∀ x,
    ((toyfs 65536).restrict fun _ a => a.InFile).Reachable x → RefsExact x.sbi := by
  intro hall
  obtain ⟨x, hx, hp⟩ := exists_restrict_of_mounted 65536
    (fun x a => a.InFile ∧ x.KeepsRefs 65536 a)
    [.newInode ⟨1023, 0⟩ ⟨.reg, 0, 0, [], fun _ => 0, false⟩ (some 2),
      .newInode ⟨1023, 0⟩ ⟨.reg, 0, 0, [], fun _ => 0, false⟩ (some 3),
      .write ⟨1023, 1⟩ (fun _ => 7) 0 5, .clone ⟨1023, 1⟩ ⟨1023, 2⟩ 0 0 0]
    (p := fun x => (x.next 65536 (.write ⟨1023, 2⟩ (fun _ => 8) 0 5)).isSome &&
      !decide (x.KeepsRefs 65536 (.write ⟨1023, 2⟩ (fun _ => 8) 0 5)))
    (by decide +kernel)
  simp only [Bool.and_eq_true, Bool.not_eq_true', decide_eq_false_iff_not,
    Option.isSome_iff_exists] at hp
  obtain ⟨⟨x', hn⟩, hlost⟩ := hp
  obtain ⟨hreach, hinv⟩ := toyfs_keepsRefs hx
  have hfile : Act.InFile (.write ⟨1023, 2⟩ (fun _ => 8) 0 5) := trivial
  exact hlost ((refsExact_next_iff hreach hinv hfile hn).1.mp
    (hall x' (hreach.step ⟨hfile, hn⟩)))

end Run

end Zus.Toyfs
