import Zus.Toyfs.FileOps

/-!
# Clone and mmap keep the store

`toyfs_clone` shares the blocks of one file with another, a whole file at a time or page by
page; the other steps are those of `_require_iblkref` and `_unique_pmemb`. The requests for
blocks of `mmap.c` are here too: a block that exists is handed out as it is.
-/

namespace Zus.Toyfs

open Zus.Lib

variable {s s' s₁ s₂ : Sbi} {held held' : RecPtr → ℕ} {n m d src dst : RecPtr} {ib : Iblkref}
  {dirty : Set RecPtr} {clean : Prop}

/-! ## Whole files -/

/-- One turn of `_clone_entire_file_range`: an `iblkref` that names a block in use is put
at the end of the list. -/
theorem shareTail_serves {r : RecPtr} (h : Inv held s) (hreg : (s.inodes n).iMode = .reg)
    (ha : s.acquireIblkref = some (r, s₁)) (huse : 0 < counts s ib.dblkref) :
    Serves n dirty clean held s ((s₁.incRefcnt ib.dblkref).setInode n { s.inodes n with
      iblkrefs := (s.inodes n).iblkrefs ++ [⟨r, ib.dblkref, ib.off⟩]
      iBlocks := (s.inodes n).iBlocks + 1 }) := by
  obtain ⟨h₁, hspare, hq, -, hdb⟩ := acquireIblkref_spec h ha
  have huse₁ : 0 < (s₁.dblkrefs ib.dblkref).refcnt := by
    rw [hdb]
    exact huse
  have h₂ := h₁.incRefcnt huse₁
  have hin : (s₁.incRefcnt ib.dblkref).inodes = s.inodes := hq.inodes
  have hspare₂ : Spare (s₁.incRefcnt ib.dblkref) .iblkref r := by
    refine ⟨hspare.notFree, hspare.notUsed, fun o ho => hspare.page o ?_, hspare.pos⟩
    rcases owns_setDblkref ho with ⟨ho, -⟩ | ⟨-, hb, rfl⟩ | ⟨-, hb, rfl⟩
    · exact ho
    · exact ⟨huse₁, hb.symm⟩
    · exact ⟨ib.dblkref, hb.symm, .inr huse₁⟩
  have h₃ : Inv held ((s₁.incRefcnt ib.dblkref).setInode n { s.inodes n with
      iblkrefs := (s.inodes n).iblkrefs ++ [⟨r, ib.dblkref, ib.off⟩]
      iBlocks := (s.inodes n).iBlocks + 1 }) := by
    refine h₂.attach hspare₂ ?_ ?_
    · rw [hin]
      exact sameHold_of_reg hreg hreg rfl rfl
    · rw [hin]
      simp only [Inode.keys, List.map_append, List.map_cons, List.map_nil]
      exact List.perm_append_singleton _ _
  have hop : FileOp n dirty s (s₁.incRefcnt ib.dblkref) :=
    (hq.fileOp h hreg).trans (fileOp_setRefcnt (by rw [hq.inodes]; exact hreg) _ _)
  refine ⟨hop.trans ?_, held, h₃, fun _ => rfl⟩
  rw [← hin] at hreg ⊢
  exact fileOp_setInode hreg _ _ _

/-- **The loop of `_clone_entire_file_range`.** -/
theorem cloneEntireLoop_serves (hne : src ≠ dst) (l : List Iblkref)
    (h : Inv held s) (hreg : (s.inodes dst).iMode = .reg) (hl : ∀ ib ∈ l, ib ∈ s.blocksOf src) :
    Serves dst dirty clean held s (s.cloneEntireLoop dst l).2 := by
  induction l generalizing s held with
  | nil => exact .refl h hreg
  | cons ib rest ih =>
    unfold Sbi.cloneEntireLoop
    split
    · exact .refl h hreg
    · next r s₁ ha =>
      have huse := h.counts_pos (mem_keys_of_mem (hl ib List.mem_cons_self))
      have hserve : Serves dst dirty clean held s _ := shareTail_serves h hreg ha huse
      obtain ⟨-, -, hq, -⟩ := acquireIblkref_spec h ha
      have hin : (s₁.incRefcnt ib.dblkref).inodes = s.inodes := hq.inodes
      simp only [hin]
      refine hserve.trans (fun held₁ h₁ => ih h₁ hserve.reg fun x hx => ?_) fun hc => hc
      have hsrc := hserve.op.step.others src hne
      rw [Sbi.blocksOf, hsrc]
      exact hl x (List.mem_cons_of_mem _ hx)

theorem cloneEntireFileRange_serves (hne : src ≠ dst) (h : Inv held s)
    (hreg : (s.inodes dst).iMode = .reg) :
    Serves dst dirty clean held s (s.cloneEntireFileRange src dst).2 := by
  have hdrop : Serves dst dirty clean held s (s.dropRange dst 0) := dropRange_serves h hreg
  have hloop : Serves dst dirty clean held s
      ((s.dropRange dst 0).cloneEntireLoop dst ((s.dropRange dst 0).blocksOf src)).2 :=
    hdrop.trans (fun held₁ h₁ => cloneEntireLoop_serves hne _ h₁ hdrop.reg fun _ hm => hm)
      fun hc => hc
  unfold Sbi.cloneEntireFileRange
  simp only
  split
  · next s₂ heq =>
    rw [heq] at hloop
    exact hloop
  · next s₂ heq =>
    rw [heq] at hloop
    exact hloop.trans (fun held₂ h₂ => serves_setSize h₂ hloop.reg _) fun hc => hc

/-! ## Ranges -/

/-- What `putDblkref` does depends on the pool and on the record of the block. -/
theorem putDblkref_congr (hp : s'.pool = s.pool) (hd : s'.dblkrefs d = s.dblkrefs d) :
    (s'.putDblkref d).pool = (s.putDblkref d).pool ∧
      (s'.putDblkref d).dblkrefs d = (s.putDblkref d).dblkrefs d := by
  by_cases hone : (s.dblkrefs d).refcnt - 1 = 0
  · have hone' : (s'.dblkrefs d).refcnt - 1 = 0 := by rwa [hd]
    rw [Sbi.putDblkref, Sbi.putDblkref, if_pos hone, if_pos hone']
    simp [Sbi.freeDblkref, Sbi.releasePmemb, Sbi.releaseDblkref, Sbi.decRefcnt, Sbi.setDblkref,
      Sbi.pageOf, hp, hd]
  · have hone' : ¬ (s'.dblkrefs d).refcnt - 1 = 0 := by rwa [hd]
    rw [Sbi.putDblkref, Sbi.putDblkref, if_neg hone, if_neg hone']
    simp [Sbi.decRefcnt, Sbi.setDblkref, hp, hd]

theorem Inv.sharePage {srcIb dstIb : Iblkref} (h : Inv held s) (hreg : (s.inodes n).iMode = .reg)
    (hm : dstIb ∈ s.blocksOf n) (huse : 0 < counts s srcIb.dblkref)
    (hne : dstIb.dblkref ≠ srcIb.dblkref) : Inv held (s.sharePage n srcIb dstIb) := by
  -- the same changes, in an order in which the reference is always in hand
  have h₃ := ((h.incRefcnt huse).retargetBlock (n := n) hreg hm).putDblkref
  set t := (s.incRefcnt srcIb.dblkref).setBlocks n
    (retargetIblkref dstIb.ptr srcIb.dblkref ((s.incRefcnt srcIb.dblkref).blocksOf n)) with ht
  have htd : t.dblkrefs dstIb.dblkref = s.dblkrefs dstIb.dblkref := by
    simp [ht, Sbi.setBlocks, Sbi.setInode, Sbi.incRefcnt, Sbi.setDblkref, hne]
  obtain ⟨hpool, hself⟩ := @putDblkref_congr s t _ rfl htd
  refine h₃.congr hpool.symm ?_ ?_
  · funext e
    by_cases he : e = srcIb.dblkref
    · subst he
      rw [putDblkref_dblkrefs_ne hne.symm]
      simp [Sbi.sharePage, Sbi.incRefcnt, Sbi.setDblkref, Sbi.setBlocks, Sbi.setInode, ht,
        putDblkref_dblkrefs_ne hne.symm]
    · have hout : (s.sharePage n srcIb dstIb).dblkrefs e =
          (s.putDblkref dstIb.dblkref).dblkrefs e := by
        simp [Sbi.sharePage, Sbi.incRefcnt, Sbi.setDblkref, Sbi.setBlocks, Sbi.setInode, he]
      rw [hout]
      by_cases hd : e = dstIb.dblkref
      · rw [hd]
        exact hself.symm
      · rw [putDblkref_dblkrefs_ne hd, putDblkref_dblkrefs_ne hd]
        simp [ht, Sbi.setBlocks, Sbi.setInode, Sbi.incRefcnt, Sbi.setDblkref, he]
  · rw [putDblkref_inodes]
    simp [Sbi.sharePage, Sbi.incRefcnt, Sbi.setDblkref, Sbi.setBlocks, Sbi.setInode, Sbi.blocksOf,
      ht]

/-- A reference is put; other files keep theirs. -/
theorem fileOp_putDblkref (hreg : (s.inodes n).iMode = .reg)
    (hpos : ∀ m, m ≠ n → ∀ k ∈ (s.inodes m).keys, 0 < counts (s.putDblkref d) k.2) :
    FileOp n dirty s (s.putDblkref d) :=
  ⟨⟨hreg, fun m _ => by rw [putDblkref_inodes], ⟨_, _, _, by rw [putDblkref_inodes]⟩,
    putDblkref_tables, fun _ _ _ _ => by rw [putDblkref_mem]⟩,
    fun m hm _ => ⟨by rw [putDblkref_inodes], fun k hk => putDblkref_keepsBlock (hpos m hm k hk)⟩⟩

theorem sharePage_counts {srcIb dstIb : Iblkref} {e : RecPtr} (he : e ≠ srcIb.dblkref) :
    counts (s.sharePage n srcIb dstIb) e = counts (s.putDblkref dstIb.dblkref) e := by
  simp [counts, Sbi.sharePage, Sbi.incRefcnt, Sbi.setDblkref, Sbi.setBlocks, Sbi.setInode, he]

theorem sharePage_serves {srcIb dstIb : Iblkref} (h : Inv held s)
    (hreg : (s.inodes n).iMode = .reg) (hm : dstIb ∈ s.blocksOf n)
    (huse : 0 < counts s srcIb.dblkref) (hne : dstIb.dblkref ≠ srcIb.dblkref) :
    Serves n dirty clean held s (s.sharePage n srcIb dstIb) := by
  have h' := h.sharePage hreg hm huse hne
  have hin : (s.putDblkref dstIb.dblkref).inodes = s.inodes := putDblkref_inodes
  have hput : FileOp n dirty s (s.putDblkref dstIb.dblkref) := by
    refine fileOp_putDblkref hreg fun m hmn k hk => ?_
    by_cases hk' : k.2 = srcIb.dblkref
    · rw [hk', counts, putDblkref_dblkrefs_ne hne.symm]
      exact huse
    · rw [← sharePage_counts (n := n) hk']
      refine h'.counts_pos (m := m) ?_
      rw [Sbi.sharePage]
      simp only [Sbi.incRefcnt, Sbi.setDblkref, Sbi.setBlocks]
      rw [setInode_inodes_ne hmn, hin]
      exact hk
  refine ⟨(hput.trans ?_).trans (fileOp_setRefcnt ?_ _ _), held, h', fun _ => rfl⟩
  · exact fileOp_setInode (by rw [hin]; exact hreg) _ _ _
  · rw [Sbi.setBlocks, setInode_inodes_self, hin]
    exact hreg

/-- The block of the source is not that of the destination, once that is required. -/
theorem Inv.dblkref_ne {srcIb dstIb : Iblkref} (h : Inv held s) (hne : src ≠ dst)
    (hs : srcIb ∈ s.blocksOf src) (hd : dstIb ∈ s.blocksOf dst)
    (hle : counts s dstIb.dblkref ≤ 1) : dstIb.dblkref ≠ srcIb.dblkref := by
  intro heq
  have hks := mem_keys_of_mem hs
  have hkd := mem_keys_of_mem hd
  rw [← heq] at hks
  have hptr := h.counted.eq_of_le_one hle ⟨src, hks⟩ ⟨dst, hkd⟩
  rw [hptr] at hks
  exact hne (h.keysInj src dst _ _ _ hks hkd)

theorem growTo_serves {size : UInt64} (h : Inv held s) (hreg : (s.inodes n).iMode = .reg) :
    Serves n dirty clean held s (s.growTo n size) := by
  unfold Sbi.growTo
  split
  · exact serves_setSize h hreg _
  · exact .refl h hreg

theorem growTo_blocksOf {size : UInt64} : (s.growTo n size).blocksOf n = s.blocksOf n := by
  unfold Sbi.growTo
  split
  · exact blocksOf_setInode
  · rfl

theorem growTo_counts {size : UInt64} : counts (s.growTo n size) = counts s := by
  unfold Sbi.growTo
  split <;> rfl

/-- **One page of a clone.** -/
theorem cloneRange_serves {srcOff dstOff : ℤ} {len : UInt64} (hne : src ≠ dst) (h : Inv held s)
    (hreg : (s.inodes dst).iMode = .reg) :
    Serves dst dirty ((fetchIblkref (s.blocksOf src) srcOff).isSome →
      Unshared (· = offToBoff dstOff) dst s) held s
      (s.cloneRange src dst srcOff dstOff len).2 := by
  unfold Sbi.cloneRange
  simp only
  set s₀ := s.assert (Sbi.isEntirePage srcOff dstOff len) with hs₀
  have h₀ : Inv held s₀ := h.congr rfl rfl rfl
  have hreg₀ : (s₀.inodes dst).iMode = .reg := hreg
  have hq₀ : Quiet s s₀ := ⟨rfl, rfl, fun _ _ => rfl, fun _ _ => rfl⟩
  have hop₀ : ∀ {c : Prop}, Serves dst dirty c held s s₀ := hq₀.serves h h₀ hreg
  split
  · next srcIb hf =>
    have hclean : ((fetchIblkref (s.blocksOf src) srcOff).isSome →
        Unshared (· = offToBoff dstOff) dst s) → Unshared (· = offToBoff dstOff) dst s₀ := by
      intro hc
      have hsome : fetchIblkref (s.blocksOf src) srcOff = some srcIb := hf
      exact hc (by rw [hsome]; rfl)
    split
    · next s₁ hr =>
      exact hop₀.trans (fun held₁ h₁ => requireIblkref_serves h₁ hreg₀ hr) hclean
    · next dstIb s₁ hr =>
      have hreq : Serves dst dirty ((fetchIblkref (s.blocksOf src) srcOff).isSome →
          Unshared (· = offToBoff dstOff) dst s) held s s₁ :=
        hop₀.trans (fun held₁ h₁ => requireIblkref_serves h₁ hreg₀ hr) hclean
      obtain ⟨hm, -, hle⟩ := requireIblkref_block h₀ hreg₀ hr
      have hsrc : srcIb ∈ s₁.blocksOf src := by
        rw [Sbi.blocksOf, hreq.op.step.others src hne]
        exact (fetchIblkref_some hf).1
      have hshare : Serves dst dirty ((fetchIblkref (s.blocksOf src) srcOff).isSome →
          Unshared (· = offToBoff dstOff) dst s) held s (s₁.sharePage dst srcIb dstIb) :=
        hreq.andThen fun held₁ h₁ => sharePage_serves h₁ hreq.reg hm
          (h₁.counts_pos (mem_keys_of_mem hsrc)) (h₁.dblkref_ne hne hsrc hm hle)
      exact hshare.andThen fun held₂ h₂ => growTo_serves h₂ hshare.reg
  · split
    · exact hop₀
    · next dstIb hf =>
      have hm := (fetchIblkref_some hf).1
      split
      · next s₁ hr =>
        exact hop₀.andThen fun held₁ h₁ => uniquePmemb_serves h₁ hreg₀ hm hr
      · next bn s₁ hr =>
        have hstore : Serves dst dirty ((fetchIblkref (s.blocksOf src) srcOff).isSome →
            Unshared (· = offToBoff dstOff) dst s) held s
            (s₁.storeAt bn (offInPage dstOff) len fun _ => 0) :=
          hop₀.andThen fun held₁ h₁ => uniquePmemb_store_serves h₁ hreg₀ hm hr _ _ _
        exact hstore.andThen fun held₂ h₂ => growTo_serves h₂ hstore.reg

/-- Other blocks of the file stay unshared when one is made to share a page. -/
theorem sharePage_unshared {P : ℤ → Prop} {srcIb dstIb : Iblkref} (h : Inv held s) (hne : src ≠ dst)
    (hs : srcIb ∈ s.blocksOf src) (hd : dstIb ∈ s.blocksOf dst) (hP : ¬ P dstIb.off)
    (hu : Unshared P dst s) : Unshared P dst (s.sharePage dst srcIb dstIb) := by
  intro x hx hPx
  have hblocks : (s.sharePage dst srcIb dstIb).blocksOf dst =
      retargetIblkref dstIb.ptr srcIb.dblkref (s.blocksOf dst) := by
    simp [Sbi.sharePage, Sbi.incRefcnt, Sbi.setDblkref, Sbi.setBlocks, Sbi.setInode, Sbi.blocksOf]
  rw [hblocks] at hx
  rcases mem_retargetIblkref hx with ⟨-, -, y, hy, hptr, hoff⟩ | ⟨-, hx⟩
  · have hyd := List.inj_on_of_nodup_map (h.ptrNodup dst) hy hd hptr
    subst hyd
    exact absurd (hoff ▸ hPx) hP
  · have hle := hu x hx hPx
    rw [sharePage_counts (h.dblkref_ne hne hs hx hle)]
    by_cases hxd : x.dblkref = dstIb.dblkref
    · rw [hxd, putDblkref_counts_self, ← hxd]
      omega
    · rw [counts, putDblkref_dblkrefs_ne hxd]
      exact hle

theorem uniquePmemb_unshared {P : ℤ → Prop} {res : Option ℕ} (h : Inv held s)
    (hreg : (s.inodes n).iMode = .reg) (hm : ib ∈ s.blocksOf n)
    (hr : s.uniquePmemb n ib = (res, s')) (hu : Unshared P n s) : Unshared P n s' := by
  rcases uniquePmemb_cases h hreg hm hr with ⟨-, -, hq⟩ | ⟨-, -, rfl⟩ |
    ⟨d, s₁, -, hshared, hq, hzero, hone, -, -, rfl⟩
  · intro x hx hP
    rw [Sbi.blocksOf, hq.inodes] at hx
    rw [hq.counts_eq (h.counts_pos (mem_keys_of_mem hx))]
    exact hu x hx hP
  · exact hu
  · intro x hx hP
    have hne : d ≠ ib.dblkref := by
      rintro rfl
      omega
    rw [blocksOf_setInode] at hx
    rw [counts_setInode, Sbi.decRefcnt]
    rcases mem_retargetIblkref hx with ⟨-, hd, -⟩ | ⟨-, hx⟩
    · rw [hd, counts_setDblkref_ne hne]
      exact hone.le
    · have hle := hu x hx hP
      have hcount := hq.counts_eq (h.counts_pos (mem_keys_of_mem hx))
      by_cases hxd : x.dblkref = ib.dblkref
      · rw [hxd] at hle
        omega
      · rw [counts_setDblkref_ne hxd, hcount]
        exact hle

theorem cloneRange_unshared {P : ℤ → Prop} {srcOff dstOff : ℤ} {len : UInt64} (hne : src ≠ dst)
    (h : Inv held s) (hreg : (s.inodes dst).iMode = .reg) (hP : ¬ P (offToBoff dstOff))
    (hu : Unshared P dst s) : Unshared P dst (s.cloneRange src dst srcOff dstOff len).2 := by
  unfold Sbi.cloneRange
  simp only
  set s₀ := s.assert (Sbi.isEntirePage srcOff dstOff len) with hs₀
  have h₀ : Inv held s₀ := h.congr rfl rfl rfl
  have hreg₀ : (s₀.inodes dst).iMode = .reg := hreg
  have hgrow : ∀ {t size}, Unshared P dst t → Unshared P dst (t.growTo dst size) := by
    intro t size ht
    unfold Unshared
    rw [growTo_blocksOf, growTo_counts]
    exact ht
  split
  · next srcIb hf =>
    split
    · next s₁ hr => exact requireIblkref_unshared h₀ hreg₀ hr hu
    · next dstIb s₁ hr =>
      obtain ⟨hm, hoff, -⟩ := requireIblkref_block h₀ hreg₀ hr
      have hserve := @requireIblkref_serves _ _ _ _ ∅ _ _ h₀ hreg₀ hr
      obtain ⟨held₁, h₁, -⟩ := hserve.inv
      have hsrc : srcIb ∈ s₁.blocksOf src := by
        rw [Sbi.blocksOf, hserve.op.step.others src hne]
        exact (fetchIblkref_some hf).1
      refine hgrow (sharePage_unshared h₁ hne hsrc hm ?_ (requireIblkref_unshared h₀ hreg₀ hr hu))
      rw [hoff]
      exact hP
  · split
    · exact hu
    · next dstIb hf =>
      have hm := (fetchIblkref_some hf).1
      split
      · next s₁ hr => exact uniquePmemb_unshared h₀ hreg₀ hm hr hu
      · next bn s₁ hr =>
        have hu₁ := uniquePmemb_unshared h₀ hreg₀ hm hr hu
        exact hgrow (t := s₁.storeAt bn (offInPage dstOff) len fun _ => 0) hu₁

/-- The offsets of the destination where a clone finds a block of the source. -/
def ClonedTo (l : List Iblkref) (srcOff dstOff dstEnd boff : ℤ) : Prop :=
  dstOff ≤ boff ∧ boff < dstEnd ∧ (fetchIblkref l (srcOff + (boff - dstOff))).isSome

theorem cloneStep_of_aligned {srcOff srcEnd dstOff dstEnd : ℤ} (hs : srcOff % pageSize = 0)
    (hse : srcEnd % pageSize = 0) (hd : dstOff % pageSize = 0) (hde : dstEnd % pageSize = 0)
    (hlt : srcOff < srcEnd) (hlt' : dstOff < dstEnd) :
    Sbi.cloneStep srcOff srcEnd dstOff dstEnd = 4096 := by
  unfold Sbi.cloneStep
  rw [nbytesInRange_of_aligned hs hse hlt, nbytesInRange_of_aligned hd hde hlt']
  rfl

/-- **The loop of `_clone_sub_file_range`.** -/
theorem cloneSubLoop_serves {srcOff srcEnd dstOff dstEnd : ℤ} (hne : src ≠ dst)
    (hs : srcOff % pageSize = 0) (hse : srcEnd % pageSize = 0) (hd : dstOff % pageSize = 0)
    (hde : dstEnd % pageSize = 0) (h : Inv held s) (hreg : (s.inodes dst).iMode = .reg) :
    Serves dst dirty (Unshared (ClonedTo (s.blocksOf src) srcOff dstOff dstEnd) dst s) held s
      (s.cloneSubLoop src dst srcOff srcEnd dstOff dstEnd).2 := by
  have hhead : ∀ {s : Sbi} {srcOff dstOff : ℤ}, dstOff % pageSize = 0 → dstOff < dstEnd →
      Unshared (ClonedTo (s.blocksOf src) srcOff dstOff dstEnd) dst s →
      (fetchIblkref (s.blocksOf src) srcOff).isSome → Unshared (· = offToBoff dstOff) dst s := by
    intro s srcOff dstOff hd hlt hu hsome x hx hoff
    rw [offToBoff_of_aligned hd] at hoff
    refine hu x hx ⟨hoff.ge, hoff.trans_lt hlt, ?_⟩
    rw [hoff, sub_self, add_zero]
    exact hsome
  fun_induction Sbi.cloneSubLoop s src dst srcOff srcEnd dstOff dstEnd generalizing held with
  | case1 s srcOff dstOff hlt len err s₁ =>
    rename_i hr
    have hserve := @cloneRange_serves _ _ _ _ dirty srcOff dstOff len hne h hreg
    rw [hr] at hserve
    exact hserve.mono subset_rfl (hhead hd hlt.2)
  | case2 s srcOff dstOff hlt len s₁ hr =>
    rename_i ih
    have hserve := @cloneRange_serves _ _ _ _ dirty srcOff dstOff len hne h hreg
    have hlen : toLoff len = pageSize := by
      rw [show len = 4096 from cloneStep_of_aligned hs hse hd hde hlt.1 hlt.2]
      rfl
    rw [hr] at hserve
    have hsrc : s₁.blocksOf src = s.blocksOf src := by
      rw [Sbi.blocksOf, hserve.op.step.others src hne, Sbi.blocksOf]
    refine (hserve.mono subset_rfl (hhead hd hlt.2)).trans (fun held₁ h₁ =>
      ih ?_ ?_ h₁ hserve.reg) fun hu => ?_
    · rw [hlen, Int.add_emod_right]
      exact hs
    · rw [hlen, Int.add_emod_right]
      exact hd
    · -- the pages still to come
      have hu' : Unshared (ClonedTo (s.blocksOf src) (srcOff + toLoff len) (dstOff + toLoff len)
          dstEnd) dst s := by
        intro x hx hP
        obtain ⟨hle, hend, hsome⟩ := hP
        have hpos : (0 : ℤ) < pageSize := by decide
        refine hu x hx ⟨by omega, hend, ?_⟩
        have heq : srcOff + toLoff len + (x.off - (dstOff + toLoff len)) =
            srcOff + (x.off - dstOff) := by ring
        rwa [heq] at hsome
      have hnext := @cloneRange_unshared _ _ _ _ _ srcOff dstOff len hne h hreg ?_ hu'
      · rw [hr] at hnext
        rw [hsrc]
        exact hnext
      · rintro ⟨hle, -⟩
        have hpos : (0 : ℤ) < pageSize := by decide
        rw [offToBoff_of_aligned hd] at hle
        omega
  | case3 s srcOff dstOff hlt => exact .refl h hreg

/-- **`_clone` keeps the store.** -/
theorem clone_serves {srcPos dstPos : ℤ} {len : UInt64} (h : Inv held s)
    (hreg : (s.inodes dst).iMode = .reg) :
    Serves dst dirty (srcPos = 0 ∧ len = 0 ∧ dstPos = 0 ∨ src = dst ∨
      Unshared (ClonedTo (s.blocksOf src) srcPos dstPos (dstPos + toLoff len)) dst s) held s
      (s.clone src dst srcPos dstPos len).2 := by
  unfold Sbi.clone
  split
  · exact .refl h hreg
  split
  · exact .refl h hreg
  · next hne =>
    split
    · exact cloneEntireFileRange_serves hne h hreg
    · next hwhole =>
      split
      · exact .refl h hreg
      · next hal =>
        simp only [not_or, Bool.not_eq_false, ispagealigned, Bool.and_eq_true, beq_iff_eq] at hal
        obtain ⟨⟨hs, hlen⟩, hd, -⟩ := hal
        have hlen' := toLoff_emod hlen
        refine (cloneSubLoop_serves hne hs ?_ hd ?_ h hreg).mono subset_rfl fun hc => ?_
        · rw [Int.add_emod, hs, hlen']
          rfl
        · rw [Int.add_emod, hd, hlen']
          rfl
        · rcases hc with hc | hc | hc
          · exact absurd hc hwhole
          · exact absurd hc hne
          · exact hc

/-! ## Blocks for mmap -/

/-- **`_get_block_wr` and a store**: a block that exists is stored into in place. -/
theorem mmapStore_serves {off : ℤ} {poff len : ℕ} {data : Bytes} (h : Inv held s)
    (hreg : (s.inodes n).iMode = .reg)
    (hdirty : ∀ ib, fetchIblkref (s.blocksOf n) off = some ib → ib.dblkref ∈ dirty) :
    Serves n dirty clean held s (s.mmapStore n off poff len data) := by
  unfold Sbi.mmapStore Sbi.getBlockWr Sbi.requirePmemBn
  cases hf : fetchIblkref (s.blocksOf n) off with
  | some ib =>
    exact serves_setPage h hreg (fetchIblkref_some hf).1 ⟨_, rfl⟩ rfl rfl rfl rfl
      fun _ => hdirty ib hf
  | none =>
    -- there is no block at the offset that could be shared
    have hclean : Unshared (· = offToBoff off) n s :=
      fun x hx hoff => absurd hoff (fetchIblkref_none hf x hx)
    rcases hr : s.requireIblkref n off with ⟨_ | ib, s₁⟩
    · exact (requireIblkref_serves h hreg hr).mono subset_rfl fun _ => hclean
    · have hserve : Serves n dirty clean held s s₁ :=
        (requireIblkref_serves h hreg hr).mono subset_rfl fun _ => hclean
      obtain ⟨hm, -, hle⟩ := requireIblkref_block h hreg hr
      simp only
      split
      · next heq =>
        split at heq
        · obtain ⟨-, rfl⟩ := Prod.mk.inj heq
          next heq' =>
          obtain ⟨-, rfl⟩ := Prod.mk.inj heq'
          exact hserve
        · cases (Prod.mk.inj heq).1
      · next heq =>
        split at heq
        · cases (Prod.mk.inj heq).1
        · next heq' =>
          obtain ⟨hbn, rfl⟩ := Prod.mk.inj heq
          obtain rfl := Except.ok.inj hbn
          obtain ⟨rfl, rfl⟩ := Prod.mk.inj heq'
          exact hserve.andThen fun held₁ h₁ => serves_setPage h₁ hserve.reg hm
            ⟨_, rfl⟩ rfl rfl rfl rfl fun hlt => absurd hle (Nat.not_le.mpr hlt)

end Zus.Toyfs
