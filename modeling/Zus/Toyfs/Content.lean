import Zus.Toyfs.BlockList

/-!
# The content of files

What a reader sees of a file is its size and the byte at each position (`byteAt`): the byte
of the block of its page, or zero in a hole. `_read` copies these bytes
(`readLoop_eq`). Below, what each step of `file.c` makes of the content of the file it is
applied to; the other files are a matter of the frames of `Zus.Toyfs.FileOps`.
-/

namespace Zus.Toyfs

open Zus.Lib

variable {s s' s₁ : Sbi} {held : RecPtr → ℕ} {n m d : RecPtr} {ib : Iblkref} {l : List Iblkref}
  {off last p : ℤ}

/-- The byte of a file at a position. -/
def Sbi.byteAt (s : Sbi) (n : RecPtr) (p : ℤ) : UInt8 :=
  match fetchIblkref (s.blocksOf n) p with
  | some ib => s.mem (s.pageOf ib.dblkref) (offInPage p).toNat
  | none => 0

/-- The page of a position has a block. -/
def Sbi.HasBlock (s : Sbi) (n : RecPtr) (p : ℤ) : Prop := ∃ ib ∈ s.blocksOf n, ib.off = offToBoff p

instance (s : Sbi) (n : RecPtr) (p : ℤ) : Decidable (s.HasBlock n p) :=
  inferInstanceAs (Decidable (∃ ib ∈ s.blocksOf n, _))

theorem not_hasBlock_of_fetch (h : fetchIblkref (s.blocksOf n) p = none) : ¬ s.HasBlock n p := by
  rintro ⟨ib, hm, hoff⟩
  exact fetchIblkref_none h ib hm hoff

theorem fetchIblkref_of_mem (h : OffsetsOk l) (hm : ib ∈ l) (hoff : ib.off = offToBoff p) :
    fetchIblkref l p = some ib := by
  rcases hf : fetchIblkref l p with _ | x
  · exact absurd hoff (fetchIblkref_none hf ib hm)
  · obtain ⟨hx, hxoff⟩ := fetchIblkref_some hf
    rw [h.eq_of_off hx hm (hxoff.trans hoff.symm)]

theorem byteAt_of_mem (h : OffsetsOk (s.blocksOf n)) (hm : ib ∈ s.blocksOf n)
    (hoff : ib.off = offToBoff p) :
    s.byteAt n p = s.mem (s.pageOf ib.dblkref) (offInPage p).toNat := by
  simp only [Sbi.byteAt, fetchIblkref_of_mem h hm hoff]

theorem byteAt_of_missing (h : ∀ ib ∈ s.blocksOf n, ib.off ≠ offToBoff p) : s.byteAt n p = 0 := by
  unfold Sbi.byteAt
  split
  · next ib hf =>
    obtain ⟨hm, hoff⟩ := fetchIblkref_some hf
    exact absurd hoff (h ib hm)
  · rfl

/-- A position has a block, or is in a hole. -/
theorem byteAt_cases (s : Sbi) (n : RecPtr) (p : ℤ) :
    (∃ ib ∈ s.blocksOf n, ib.off = offToBoff p) ∨ ∀ ib ∈ s.blocksOf n, ib.off ≠ offToBoff p := by
  by_cases h : ∃ ib ∈ s.blocksOf n, ib.off = offToBoff p
  · exact .inl h
  · exact .inr fun ib hm hoff => h ⟨ib, hm, hoff⟩

theorem mem_of_mem_fetchFrom (hm : ib ∈ fetchIblkrefFrom l off) : ib ∈ l :=
  (List.dropWhile_sublist _).subset hm

/-- The blocks at or after the page of an offset. -/
theorem mem_fetchIblkrefFrom (h : OffsetsOk l) :
    ib ∈ fetchIblkrefFrom l off ↔ ib ∈ l ∧ offToBoff off ≤ ib.off := by
  refine ⟨fun hm => ⟨mem_of_mem_fetchFrom hm, offToBoff_le_of_mem_fetchFrom h hm⟩, ?_⟩
  rintro ⟨hm, hle⟩
  rw [← List.takeWhile_append_dropWhile (p := fun x : Iblkref => x.off < offToBoff off) (l := l)] at hm
  rcases List.mem_append.mp hm with hm | hm
  · have hlt := List.mem_takeWhile_imp hm
    rw [decide_eq_true_eq] at hlt
    omega
  · exact hm

/-- The blocks at the page of a position are what counts. -/
theorem byteAt_congr (h : OffsetsOk (s.blocksOf n)) (h' : OffsetsOk (s'.blocksOf m)) {p' : ℤ}
    (hin : offInPage p' = offInPage p)
    (hnew : ∀ ib ∈ s'.blocksOf m, ib.off = offToBoff p' → ∃ x ∈ s.blocksOf n, x.off = offToBoff p ∧
      s'.mem (s'.pageOf ib.dblkref) (offInPage p).toNat =
        s.mem (s.pageOf x.dblkref) (offInPage p).toNat)
    (hold : ∀ x ∈ s.blocksOf n, x.off = offToBoff p → ∃ ib ∈ s'.blocksOf m, ib.off = offToBoff p') :
    s'.byteAt m p' = s.byteAt n p := by
  rcases byteAt_cases s' m p' with ⟨ib, hm, hoff⟩ | hmiss
  · obtain ⟨x, hx, hxoff, hbyte⟩ := hnew ib hm hoff
    rw [byteAt_of_mem h' hm hoff, byteAt_of_mem h hx hxoff, hin, hbyte]
  · rw [byteAt_of_missing hmiss, byteAt_of_missing]
    intro x hx hxoff
    obtain ⟨ib, hm, hoff⟩ := hold x hx hxoff
    exact hmiss ib hm hoff

/-- A file that keeps its blocks and their bytes keeps its content. -/
theorem KeepsFile.byteAt (h : KeepsFile n s s') : s'.byteAt n p = s.byteAt n p := by
  have hb : s'.blocksOf n = s.blocksOf n := by
    rw [Sbi.blocksOf, h.1, Sbi.blocksOf]
  unfold Sbi.byteAt
  rw [hb]
  split
  · next ib hf =>
    obtain ⟨hpage, hmem⟩ := h.2 _ (mem_keys_of_mem (fetchIblkref_some hf).1)
    rw [hpage, hmem]
  · rfl

theorem byteAt_setInode {i : Inode} (hi : i.iblkrefs = s.blocksOf n) :
    (s.setInode n i).byteAt n p = s.byteAt n p := by
  unfold Sbi.byteAt
  rw [blocksOf_setInode, hi]
  rfl

theorem byteAt_setSize {size : UInt64} : (s.setSize n size).byteAt n p = s.byteAt n p :=
  byteAt_setInode rfl

/-! ## Reading -/

/-- The page of the positions of a piece. -/
theorem offToBoff_add {i : ℕ} (hoff : 0 ≤ off) (hi : offInPage off + i < pageSize) :
    offToBoff (off + i) = offToBoff off ∧ offInPage (off + i) = offInPage off + i := by
  have hpage := offToBoff_add_offInPage hoff
  have hnn := offInPage_nonneg hoff
  have hboff : offToBoff (off + i) = offToBoff off :=
    (offToBoff_eq_iff (by omega) (offToBoff_emod off)).mpr ⟨by omega, by omega⟩
  have hpage' := @offToBoff_add_offInPage (off + i) (by omega)
  exact ⟨hboff, by omega⟩

/-- **`_read` copies the bytes of the file.** -/
theorem readLoop_eq (hoff : 0 ≤ off) : s.readLoop n off last =
    (List.range (last - off).toNat).map fun i : ℕ => s.byteAt n (off + i) := by
  fun_induction Sbi.readLoop s n off last with
  | case1 off hlt nxt len piece ih =>
    have hnext := lt_nextPage off
    have hlen : (len.toNat : ℤ) = min nxt last - off := toNat_nbytesInRange hlt
    have hfit : offInPage off + len.toNat ≤ pageSize := piece_fits hoff hlt
    have hnn := offInPage_nonneg hoff
    have hat : ∀ i < len.toNat, s.byteAt n (off + i) =
        (s.fetchPmemb n off).elim 0 fun pg => pg ((offInPage off).toNat + i) := by
      intro i hi
      obtain ⟨hboff, hin⟩ := offToBoff_add (i := i) hoff (by omega)
      have hto : (offInPage off + i).toNat = (offInPage off).toNat + i := by omega
      unfold Sbi.byteAt Sbi.fetchPmemb fetchIblkref
      rw [hboff, hin, hto]
      cases List.find? (fun ib => ib.off == offToBoff off) (s.blocksOf n) <;> rfl
    have hpiece : piece = (List.range len.toNat).map fun i : ℕ => s.byteAt n (off + i) := by
      simp only [piece]
      split
      · next pg hf =>
        refine List.map_congr_left fun i hi => ?_
        rw [hat i (List.mem_range.mp hi), hf]
        rfl
      · next hf =>
        refine (List.eq_replicate_iff.mpr ⟨?_, fun b hb => ?_⟩).symm
        · simp
        · obtain ⟨i, hi, rfl⟩ := List.mem_map.mp hb
          rw [hat i (List.mem_range.mp hi), hf]
          rfl
    have hsum : (last - off).toNat = len.toNat + (last - nxt).toNat := by omega
    rw [hpiece, ih (nextPage_nonneg hoff), hsum, List.range_add, List.map_append, List.map_map]
    congr 1
    -- past the first piece there is nothing, or the piece ends with the page
    rcases le_or_gt last nxt with hle | hgt
    · have hzero : (last - nxt).toNat = 0 := by omega
      rw [hzero]
      rfl
    · refine List.map_congr_left fun i _ => congrArg (s.byteAt n) ?_
      push_cast
      omega
  | case2 off hlt =>
    have hzero : (last - off).toNat = 0 := by omega
    rw [hzero]
    rfl

/-! ## Files in order -/

/-- A regular file of a state whose store is in order. -/
structure OnFile (n : RecPtr) (s : Sbi) : Prop where
  inv : ∃ held, Inv held s
  reg : (s.inodes n).iMode = .reg
  file : FileOk n s

theorem FilesOk.onFile (h : FilesOk s) (hreg : (s.inodes n).iMode = .reg) : OnFile n s :=
  ⟨h.store.store, hreg, h.lists n hreg, h.running⟩

namespace OnFile

theorem offsets (h : OnFile n s) : OffsetsOk (s.blocksOf n) := h.file.list.offsets

theorem counts_pos (h : OnFile n s) (hm : ib ∈ s.blocksOf n) : 0 < counts s ib.dblkref := by
  obtain ⟨held, hinv⟩ := h.inv
  exact hinv.counts_pos (mem_keys_of_mem hm)

theorem storeAt {bn : ℕ} {poff : ℤ} {len : UInt64} {src : Bytes} (h : OnFile n s) (h₀ : 0 ≤ poff)
    (h₁ : poff + len.toNat ≤ pageSize) : OnFile n (s.storeAt bn poff len src) := by
  obtain ⟨held, hinv⟩ := h.inv
  exact ⟨⟨held, hinv.storeAt _ _ _ _⟩, h.reg, h.file.storeAt h₀ h₁⟩

theorem requireIblkref {res : Option Iblkref} (h : OnFile n s) (hoff : 0 ≤ off)
    (hr : s.requireIblkref n off = (res, s')) : OnFile n s' := by
  obtain ⟨held, hinv⟩ := h.inv
  have hserve : Serves n ∅ _ held s s' := requireIblkref_serves hinv h.reg hr
  obtain ⟨held₁, hinv₁, -⟩ := hserve.inv
  exact ⟨⟨held₁, hinv₁⟩, hserve.reg, h.file.requireIblkref hinv h.reg hoff hr⟩

theorem uniquePmemb {res : Option ℕ} (h : OnFile n s) (hm : ib ∈ s.blocksOf n)
    (hr : s.uniquePmemb n ib = (res, s')) : OnFile n s' := by
  obtain ⟨held, hinv⟩ := h.inv
  have hserve : Serves n ∅ True held s s' := uniquePmemb_serves hinv h.reg hm hr
  obtain ⟨held₁, hinv₁, -⟩ := hserve.inv
  exact ⟨⟨held₁, hinv₁⟩, hserve.reg, h.file.uniquePmemb hinv h.reg hm hr⟩

theorem dropIblkref (h : OnFile n s) (hm : ib ∈ s.blocksOf n) : OnFile n (s.dropIblkref n ib) := by
  obtain ⟨held, hinv⟩ := h.inv
  have hserve : Serves n ∅ True held s (s.dropIblkref n ib) := dropIblkref_serves hinv h.reg hm
  obtain ⟨held₁, hinv₁, -⟩ := hserve.inv
  exact ⟨⟨held₁, hinv₁⟩, hserve.reg, h.file.dropIblkref hinv hm⟩

theorem dropRange {pos : ℤ} (h : OnFile n s) : OnFile n (s.dropRange n pos) := by
  obtain ⟨held, hinv⟩ := h.inv
  have hserve : Serves n ∅ True held s (s.dropRange n pos) := dropRange_serves hinv h.reg
  obtain ⟨held₁, hinv₁, -⟩ := hserve.inv
  exact ⟨⟨held₁, hinv₁⟩, hserve.reg, h.file.dropRange hinv h.reg⟩

end OnFile

/-! ## Steps -/

theorem pageOf_setRefcnt {e : RecPtr} {c : ℕ} :
    (s.setDblkref e { s.dblkrefs e with refcnt := c }).pageOf d = s.pageOf d := by
  by_cases hd : d = e
  · simp [Sbi.pageOf, Sbi.setDblkref, hd]
  · simp [Sbi.pageOf, Sbi.setDblkref, hd]

/-- Of the blocks of the file, no other one has the page of this one. Other files may have it. -/
def Sbi.PageAlone (s : Sbi) (n : RecPtr) (ib : Iblkref) : Prop :=
  ∀ x ∈ s.blocksOf n, x.dblkref = ib.dblkref → x = ib

instance (s : Sbi) (n : RecPtr) (ib : Iblkref) : Decidable (s.PageAlone n ib) :=
  inferInstanceAs (Decidable (∀ x ∈ s.blocksOf n, _ → _))

theorem OnFile.pageAlone (h : OnFile n s) (hm : ib ∈ s.blocksOf n)
    (hle : counts s ib.dblkref ≤ 1) : s.PageAlone n ib := by
  obtain ⟨held, hinv⟩ := h.inv
  exact fun x hx hd => (hinv.block_unique hm hle hx (by rw [hd])).2

/-- **A store into a block** that is the only one of the file with its page. -/
theorem byteAt_storeAt {poff : ℤ} {len : UInt64} {src : Bytes} (h : OnFile n s)
    (hm : ib ∈ s.blocksOf n) (halone : s.PageAlone n ib) (h₀ : 0 ≤ poff)
    (h₁ : poff + len.toNat ≤ pageSize) (hp : 0 ≤ p) :
    (s.storeAt (s.pageOf ib.dblkref) poff len src).byteAt n p =
      if ib.off + poff ≤ p ∧ p < ib.off + poff + len.toNat then src (p - ib.off - poff).toNat
      else s.byteAt n p := by
  obtain ⟨held, hinv⟩ := h.inv
  set s' := s.storeAt (s.pageOf ib.dblkref) poff len src
  have hoffs' : OffsetsOk (s'.blocksOf n) := h.offsets
  have hpage := offToBoff_add_offInPage hp
  have hnn := offInPage_nonneg hp
  have hpos := h.offsets.nonneg ib hm
  have hat := @offToBoff_eq_iff p hp ib.off (h.offsets.aligned ib hm)
  have hmem : s'.mem = Function.update s.mem (s.pageOf ib.dblkref)
    ((s.mem (s.pageOf ib.dblkref)).store poff.toNat len.toNat src) := rfl
  have hpages : ∀ e, s'.pageOf e = s.pageOf e := fun _ => rfl
  by_cases hib : ib.off = offToBoff p
  · rw [byteAt_of_mem hoffs' hm hib, byteAt_of_mem h.offsets hm hib, hpages, hmem,
      Function.update_self]
    split
    · next hin =>
      have hto : (offInPage p).toNat - poff.toNat = (p - ib.off - poff).toNat := by omega
      rw [Bytes.store_of_mem _ _ (by omega) (by omega), hto]
    · next hout =>
      rcases not_and_or.mp hout with hlt | hge
      · exact Bytes.store_of_lt _ _ (by omega)
      · exact Bytes.store_of_ge _ _ (by omega)
  · rw [if_neg (by omega)]
    refine byteAt_congr h.offsets hoffs' rfl (fun x hx hoff => ⟨x, hx, hoff, ?_⟩)
      fun x hx hoff => ⟨x, hx, hoff⟩
    -- no other block of the file has this page
    have hne : s.pageOf x.dblkref ≠ s.pageOf ib.dblkref := by
      refine hinv.page_ne (h.counts_pos hm) (h.counts_pos hx) fun hd => ?_
      obtain rfl := halone x hx hd
      exact hib hoff
    rw [hpages, hmem, Function.update_of_ne hne]

/-- The blocks that stay in use keep their bytes; one of them is another one now. -/
theorem byteAt_retarget_if (h : OnFile n s) (hm : ib ∈ s.blocksOf n)
    (hl : s'.blocksOf n = retargetIblkref ib.ptr d (s.blocksOf n))
    (hkeep : ∀ x ∈ s.blocksOf n, x ≠ ib → KeepsBlock s s' x.dblkref) :
    s'.byteAt n p = if ib.off = offToBoff p then s'.mem (s'.pageOf d) (offInPage p).toNat
      else s.byteAt n p := by
  obtain ⟨held, hinv⟩ := h.inv
  have hoffs' : OffsetsOk (s'.blocksOf n) := hl ▸ h.offsets.retarget ib.ptr
  split
  · next hat =>
    have hnew : { ib with dblkref := d } ∈ s'.blocksOf n := by
      rw [hl]
      exact (retargetIblkref_perm (hinv.ptrNodup n) hm d).mem_iff.mpr List.mem_cons_self
    exact byteAt_of_mem hoffs' hnew hat
  · next hout =>
    refine byteAt_congr h.offsets hoffs' rfl (fun x hx hoff => ?_) fun x hx hoff => ?_
    · rw [hl] at hx
      rcases mem_retargetIblkref hx with ⟨-, -, y, hy, hyptr, hyoff⟩ | ⟨hptr, hx⟩
      · obtain rfl := List.inj_on_of_nodup_map (hinv.ptrNodup n) hy hm hyptr
        exact absurd (hyoff.trans hoff) hout
      · obtain ⟨hpage, hmem⟩ := hkeep x hx fun heq => hptr (by rw [heq])
        exact ⟨x, hx, hoff, by rw [hpage, hmem]⟩
    · rw [hl]
      exact ⟨_, List.mem_map_of_mem hx, by split <;> exact hoff⟩

/-- The same when the other one is a copy. -/
theorem byteAt_retarget (h : OnFile n s) (hm : ib ∈ s.blocksOf n)
    (hl : s'.blocksOf n = retargetIblkref ib.ptr d (s.blocksOf n))
    (hkeep : ∀ x ∈ s.blocksOf n, x ≠ ib → KeepsBlock s s' x.dblkref)
    (hcopy : ∀ i < pageSize, s'.mem (s'.pageOf d) i = s.mem (s.pageOf ib.dblkref) i) (hp : 0 ≤ p) :
    s'.byteAt n p = s.byteAt n p := by
  have hin : (offInPage p).toNat < pageSize := by
    have hlt := offInPage_lt hp
    have hpos : 0 < pageSize := by decide
    omega
  rw [byteAt_retarget_if h hm hl hkeep]
  split
  · next hat => rw [hcopy _ hin, byteAt_of_mem h.offsets hm hat]
  · rfl

/-- **`_require_iblkref`** changes no byte. -/
theorem byteAt_requireIblkref {res : Option Iblkref} (h : OnFile n s) (hoff : 0 ≤ off)
    (hr : s.requireIblkref n off = (res, s')) (hp : 0 ≤ p) : s'.byteAt n p = s.byteAt n p := by
  obtain ⟨held, hinv⟩ := h.inv
  have h' := h.requireIblkref hoff hr
  have hkeep : ∀ {t}, Quiet s t → ∀ x ∈ s.blocksOf n, KeepsBlock s t x.dblkref :=
    fun hq x hx => hq.keepsBlock (h.counts_pos hx)
  rcases requireIblkref_cases hinv h.reg hr with ⟨-, -, hq⟩ | ⟨ib, -, -, -, rfl⟩ |
    ⟨ib, s₁, -, hscan, hib, hq, -, -, hzero, -, rfl⟩ | ⟨ib, d, s₁, -, hscan, -, hq, -, -, hcopy, -, rfl⟩
  · exact (hinv.keepsFile_of_quiet hq n).byteAt
  · rfl
  · -- a zeroed block where there was a hole
    have hmiss := scanIblkref_none h.offsets hscan
    have hl : ∀ x, x ∈ (s₁.setInode n { s.inodes n with
        iblkrefs := insertIblkref ib (s.blocksOf n),
        iBlocks := (s.inodes n).iBlocks + 1 }).blocksOf n ↔ x = ib ∨ x ∈ s.blocksOf n := by
      intro x
      rw [blocksOf_setInode, (insertIblkref_perm ib _).mem_iff, List.mem_cons]
    by_cases hat : ib.off = offToBoff p
    · rw [byteAt_of_mem h'.offsets ((hl ib).mpr (.inl rfl)) hat, byteAt_of_missing]
      · exact congrFun hzero _
      · rw [← hat, hib]
        exact hmiss
    · refine byteAt_congr h.offsets h'.offsets rfl (fun x hx hoff => ?_) fun x hx hoff =>
        ⟨x, (hl x).mpr (.inr hx), hoff⟩
      rcases (hl x).mp hx with rfl | hx
      · exact absurd hoff hat
      · obtain ⟨hpage, hmem⟩ := hkeep hq x hx
        refine ⟨x, hx, hoff, ?_⟩
        change s₁.mem (s₁.pageOf x.dblkref) _ = _
        rw [hpage, hmem]
  · exact byteAt_retarget h (scanIblkref_some hscan).1 blocksOf_setInode
      (fun x hx _ => ⟨(hkeep hq x hx).1, (hkeep hq x hx).2⟩) hcopy hp

theorem size_requireIblkref {res : Option Iblkref} (h : OnFile n s)
    (hr : s.requireIblkref n off = (res, s')) : (s'.inodes n).iSize = (s.inodes n).iSize := by
  obtain ⟨held, hinv⟩ := h.inv
  rcases requireIblkref_cases hinv h.reg hr with ⟨-, -, hq⟩ | ⟨ib, -, -, -, rfl⟩ |
    ⟨ib, s₁, -, -, -, -, -, -, -, -, rfl⟩ | ⟨ib, d, s₁, -, -, -, -, -, -, -, -, rfl⟩
  · rw [hq.inodes]
  · rfl
  · rw [setInode_inodes_self]
  · rw [setInode_inodes_self]

/-- **`_unique_pmemb`** changes no byte. -/
theorem byteAt_uniquePmemb {res : Option ℕ} (h : OnFile n s) (hm : ib ∈ s.blocksOf n)
    (hr : s.uniquePmemb n ib = (res, s')) (hp : 0 ≤ p) : s'.byteAt n p = s.byteAt n p := by
  obtain ⟨held, hinv⟩ := h.inv
  rcases uniquePmemb_cases hinv h.reg hm hr with ⟨-, -, hq⟩ | ⟨-, -, rfl⟩ |
    ⟨d, s₁, -, -, hq, -, -, hcopy, -, rfl⟩
  · exact (hinv.keepsFile_of_quiet hq n).byteAt
  · rfl
  · have hpage : ∀ e, ((s₁.decRefcnt ib.dblkref).setInode n { s.inodes n with
        iblkrefs := retargetIblkref ib.ptr d (s.blocksOf n) }).pageOf e = s₁.pageOf e :=
      fun e => pageOf_setRefcnt
    refine byteAt_retarget h hm blocksOf_setInode (fun x hx _ => ?_) (fun i hi => ?_) hp
    · obtain ⟨hp, hmem⟩ := hq.keepsBlock (h.counts_pos hx)
      exact ⟨(hpage _).trans hp, hmem⟩
    · rw [hpage]
      exact hcopy i hi

theorem size_uniquePmemb {res : Option ℕ} (h : OnFile n s) (hm : ib ∈ s.blocksOf n)
    (hr : s.uniquePmemb n ib = (res, s')) : (s'.inodes n).iSize = (s.inodes n).iSize := by
  obtain ⟨held, hinv⟩ := h.inv
  rcases uniquePmemb_cases hinv h.reg hm hr with ⟨-, -, hq⟩ | ⟨-, -, rfl⟩ |
    ⟨d, s₁, -, -, -, -, -, -, -, rfl⟩
  · rw [hq.inodes]
  · rfl
  · rw [setInode_inodes_self]

theorem size_dropIblkref : ((s.dropIblkref n ib).inodes n).iSize = (s.inodes n).iSize := by
  obtain ⟨c₁, c₂, heq⟩ := @dropIblkref_eq s n ib
  rw [heq, setInode_inodes_self]

/-- The blocks that stay when one is dropped. -/
theorem mem_dropIblkref (h : OnFile n s) (hm : ib ∈ s.blocksOf n) {x : Iblkref} :
    x ∈ (s.dropIblkref n ib).blocksOf n ↔ x ∈ s.blocksOf n ∧ x ≠ ib := by
  obtain ⟨held, hinv⟩ := h.inv
  rw [blocksOf_dropIblkref, List.mem_filter, decide_eq_true_eq]
  refine and_congr_right fun hx => not_congr ⟨fun hptr => ?_, fun heq => by rw [heq]⟩
  exact List.inj_on_of_nodup_map (hinv.ptrNodup n) hx hm hptr

/-- A block that is still in use after a drop keeps its page. -/
theorem dropIblkref_keepsBlock (hpos : 0 < counts (s.dropIblkref n ib) d) :
    KeepsBlock s (s.dropIblkref n ib) d := by
  obtain ⟨c₁, c₂, heq⟩ := @dropIblkref_eq s n ib
  set t := s.setBlocks n ((s.blocksOf n).filter fun x => x.ptr ≠ ib.ptr)
  rw [heq] at hpos ⊢
  have hkeep : KeepsBlock t (t.putDblkref ib.dblkref) d := putDblkref_keepsBlock hpos
  exact ⟨hkeep.1, hkeep.2⟩

/-- **`_drop_iblkref`** makes a hole. -/
theorem byteAt_dropIblkref (h : OnFile n s) (hm : ib ∈ s.blocksOf n) (hp : 0 ≤ p) :
    (s.dropIblkref n ib).byteAt n p =
      if ib.off ≤ p ∧ p < ib.off + pageSize then 0 else s.byteAt n p := by
  have h' := h.dropIblkref hm
  have hat := @offToBoff_eq_iff p hp ib.off (h.offsets.aligned ib hm)
  split
  · next hin =>
    refine byteAt_of_missing fun x hx hoff => ?_
    obtain ⟨hx, hne⟩ := (mem_dropIblkref h hm).mp hx
    exact hne (h.offsets.eq_of_off hx hm (hoff.trans (hat.mpr hin)))
  · next hout =>
    refine byteAt_congr h.offsets h'.offsets rfl (fun x hx hoff => ?_) fun x hx hoff => ?_
    · obtain ⟨hpage, hmem⟩ : KeepsBlock s (s.dropIblkref n ib) x.dblkref :=
        dropIblkref_keepsBlock (h'.counts_pos hx)
      exact ⟨x, ((mem_dropIblkref h hm).mp hx).1, hoff, by rw [hpage, hmem]⟩
    · refine ⟨x, (mem_dropIblkref h hm).mpr ⟨hx, ?_⟩, hoff⟩
      rintro rfl
      exact hout (hat.mp hoff.symm)

end Zus.Toyfs
