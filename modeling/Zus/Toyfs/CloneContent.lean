import Zus.Toyfs.Content
import Zus.Toyfs.Room

/-!
# What a clone copies

`_clone_sub_file_range` goes through the two ranges page by page. A page of the source that
has a block is shared whole, with what is past the end of the source in it; a hole puts zeros
in the block of the destination, and when that has none either, nothing is done and `i_size`
is not grown. `_clone_entire_file_range` shares all blocks and takes the size over.
-/

namespace Zus.Toyfs

open Zus.Lib

variable {s s' s₁ : Sbi} {held : RecPtr → ℕ} {n m d src dst : RecPtr} {ib srcIb dstIb : Iblkref}
  {l : List Iblkref} {off p q srcOff dstOff done len : ℤ}

/-! ## Sharing a page -/

theorem blocksOf_sharePage : (s.sharePage n srcIb dstIb).blocksOf n =
    retargetIblkref dstIb.ptr srcIb.dblkref (s.blocksOf n) := by
  change ((s.putDblkref dstIb.dblkref).setBlocks n _).blocksOf n = _
  rw [Sbi.setBlocks, blocksOf_setInode, Sbi.blocksOf, putDblkref_inodes, Sbi.blocksOf]

theorem size_sharePage :
    ((s.sharePage n srcIb dstIb).inodes n).iSize = (s.inodes n).iSize := by
  change (((s.putDblkref dstIb.dblkref).setBlocks n _).inodes n).iSize = _
  rw [Sbi.setBlocks, setInode_inodes_self, putDblkref_inodes]

/-- **`_share_page`**: the page reads as the block of the source does. -/
theorem byteAt_sharePage (h : OnFile n s) (hm : dstIb ∈ s.blocksOf n)
    (hle : counts s dstIb.dblkref ≤ 1) (hne : dstIb.dblkref ≠ srcIb.dblkref) :
    (s.sharePage n srcIb dstIb).byteAt n p =
      if dstIb.off = offToBoff p then s.mem (s.pageOf srcIb.dblkref) (offInPage p).toNat
      else s.byteAt n p := by
  obtain ⟨held, hinv⟩ := h.inv
  have hmem : (s.sharePage n srcIb dstIb).mem = s.mem := putDblkref_mem
  have hpage : ∀ e, e ≠ dstIb.dblkref → (s.sharePage n srcIb dstIb).pageOf e = s.pageOf e := by
    intro e he
    refine (pageOf_setRefcnt : (s.sharePage n srcIb dstIb).pageOf e =
      (s.putDblkref dstIb.dblkref).pageOf e).trans ?_
    exact congrArg Dblkref.bn (putDblkref_dblkrefs_ne he)
  rw [byteAt_retarget_if h hm blocksOf_sharePage, hmem, hpage _ hne.symm]
  intro x hx hxne
  refine ⟨hpage _ fun heq => hxne ?_, by rw [hmem]⟩
  exact (hinv.block_unique hm hle hx (by rw [heq])).2

/-- Which pages have blocks is not a matter of what the blocks hold. -/
theorem hasBlock_of_map (hl : (s'.blocksOf n).map Iblkref.off = (s.blocksOf m).map Iblkref.off) :
    s'.HasBlock n p ↔ s.HasBlock m p := by
  have hoffs : ∀ {t : Sbi} {k : RecPtr},
      t.HasBlock k p ↔ offToBoff p ∈ (t.blocksOf k).map Iblkref.off := by
    intro t k
    rw [List.mem_map]
    exact Iff.rfl
  rw [hoffs, hoffs, hl]

theorem map_off_retargetIblkref {r : RecPtr} :
    (retargetIblkref r d l).map Iblkref.off = l.map Iblkref.off := by
  rw [retargetIblkref, List.map_map]
  apply List.map_congr_left
  intro x _
  simp only [Function.comp_apply]
  split <;> rfl

theorem size_growTo {size : UInt64} :
    ((s.growTo n size).inodes n).iSize.toNat = max (s.inodes n).iSize.toNat size.toNat := by
  unfold Sbi.growTo
  simp only [UInt64.lt_iff_toNat_lt]
  split
  · rw [Sbi.setSize, setInode_inodes_self]
    simp only
    omega
  · omega

theorem byteAt_growTo {size : UInt64} : (s.growTo n size).byteAt n p = s.byteAt n p := by
  unfold Sbi.growTo
  split
  · exact byteAt_setSize
  · rfl

/-- The blocks of a page after `_require_iblkref`. -/
theorem hasBlock_requireIblkref {res : Option Iblkref} (h : OnFile n s)
    (hr : s.requireIblkref n off = (res, s')) (hne : offToBoff p ≠ offToBoff off) :
    s'.HasBlock n p ↔ s.HasBlock n p := by
  obtain ⟨held, hinv⟩ := h.inv
  constructor
  · rintro ⟨x, hx, hxoff⟩
    exact ⟨x, (mem_requireIblkref hinv h.reg hr (by rwa [hxoff])).mp hx, hxoff⟩
  · rintro ⟨x, hx, hxoff⟩
    exact ⟨x, (mem_requireIblkref hinv h.reg hr (by rwa [hxoff])).mpr hx, hxoff⟩

theorem hasBlock_uniquePmemb {res : Option ℕ} (h : OnFile n s) (hm : ib ∈ s.blocksOf n)
    (hr : s.uniquePmemb n ib = (res, s')) : s'.HasBlock n p ↔ s.HasBlock n p := by
  obtain ⟨held, hinv⟩ := h.inv
  apply hasBlock_of_map
  rcases uniquePmemb_cases hinv h.reg hm hr with ⟨-, -, hq⟩ | ⟨-, -, rfl⟩ |
    ⟨d, s₁, -, -, -, -, -, -, -, rfl⟩
  · rw [Sbi.blocksOf, hq.inodes, Sbi.blocksOf]
  · rfl
  · rw [blocksOf_setInode, map_off_retargetIblkref]

/-! ## Copying a range -/

/-- The positions of a page, on the side of the source and on that of the destination. -/
theorem page_pair (hs : 0 ≤ srcOff) (hsal : srcOff % pageSize = 0)
    (hdal : dstOff % pageSize = 0) (hp : 0 ≤ p) (hin : dstOff ≤ p ∧ p < dstOff + pageSize) :
    offToBoff p = dstOff ∧ offToBoff (srcOff + (p - dstOff)) = srcOff ∧
      offInPage (srcOff + (p - dstOff)) = offInPage p := by
  have hpage := (offToBoff_eq_iff hp hdal).mpr hin
  have hpage' : offToBoff (srcOff + (p - dstOff)) = srcOff :=
    (offToBoff_eq_iff (by omega) hsal).mpr (by omega)
  have hsum := offToBoff_add_offInPage hp
  have hsum' := @offToBoff_add_offInPage (srcOff + (p - dstOff)) (by omega)
  exact ⟨hpage, hpage', by omega⟩

/-- One of the two pages that lie `q` after the starts of the ranges has a block. -/
def Sbi.PairAt (s : Sbi) (src dst : RecPtr) (srcOff dstOff q : ℤ) : Prop :=
  s.HasBlock src (srcOff + q) ∨ s.HasBlock dst (dstOff + q)

instance (s : Sbi) (src dst : RecPtr) (srcOff dstOff q : ℤ) :
    Decidable (s.PairAt src dst srcOff dstOff q) := inferInstanceAs (Decidable (_ ∨ _))

/-- The first `done` bytes of a range have been copied to another file, whose size has grown to
the end of the last page that had a block on one of the sides. -/
structure Copied (src dst : RecPtr) (srcOff dstOff done : ℤ) (s s' : Sbi) : Prop where
  bytes : ∀ p, 0 ≤ p → s'.byteAt dst p = if dstOff ≤ p ∧ p < dstOff + done
    then s.byteAt src (srcOff + (p - dstOff)) else s.byteAt dst p
  blocks : ∀ p, 0 ≤ p → p < dstOff ∨ dstOff + done ≤ p → (s'.HasBlock dst p ↔ s.HasBlock dst p)
  source : KeepsFile src s s'
  sizeMono : (s.inodes dst).iSize.toNat ≤ (s'.inodes dst).iSize.toNat
  sizeGe : ∀ q : ℤ, q % pageSize = 0 → 0 ≤ q → q < done → s.PairAt src dst srcOff dstOff q →
    dstOff + q + pageSize ≤ (s'.inodes dst).iSize.toNat
  sizeLe : (s'.inodes dst).iSize = (s.inodes dst).iSize ∨ ∃ q : ℤ, q % pageSize = 0 ∧ 0 ≤ q ∧
    q < done ∧ s.PairAt src dst srcOff dstOff q ∧
    (s'.inodes dst).iSize.toNat = dstOff + q + pageSize

theorem KeepsFile.hasBlock (h : KeepsFile n s s') : s'.HasBlock n p ↔ s.HasBlock n p := by
  rw [Sbi.HasBlock, Sbi.blocksOf, h.1, Sbi.HasBlock, Sbi.blocksOf]

namespace Copied

/-- Nothing is copied. -/
theorem none (hsrc : KeepsFile src s s') (hsize : (s'.inodes dst).iSize = (s.inodes dst).iSize)
    (hbytes : ∀ p, 0 ≤ p → s'.byteAt dst p = s.byteAt dst p)
    (hblocks : ∀ p, 0 ≤ p → (s'.HasBlock dst p ↔ s.HasBlock dst p)) :
    Copied src dst srcOff dstOff 0 s s' where
  bytes p hp := by rw [hbytes p hp, if_neg (by omega)]
  blocks p hp _ := hblocks p hp
  source := hsrc
  sizeMono := by rw [hsize]
  sizeGe q _ h₀ hlt := absurd hlt (Int.not_lt.mpr h₀)
  sizeLe := .inl hsize

/-- What comes after a part that is copied. -/
theorem trans (h : Copied src dst srcOff dstOff len s s₁)
    (h₁ : Copied src dst (srcOff + len) (dstOff + len) done s₁ s') (hlen : len % pageSize = 0)
    (h₀ : 0 ≤ len) (hdone : 0 ≤ done) (hdst : 0 ≤ dstOff) :
    Copied src dst srcOff dstOff (len + done) s s' := by
  -- the pairs that are still to come are what they were
  have hpair : ∀ q, len ≤ q → (s₁.PairAt src dst (srcOff + len) (dstOff + len) (q - len) ↔
      s.PairAt src dst srcOff dstOff q) := by
    intro q hq
    have hto : srcOff + len + (q - len) = srcOff + q ∧ dstOff + len + (q - len) = dstOff + q := by
      omega
    unfold Sbi.PairAt
    rw [hto.1, hto.2, h.source.hasBlock, h.blocks (dstOff + q) (by omega) (by omega)]
  refine ⟨fun p hp => ?_, fun p hp hout => ?_, h.source.trans h₁.source,
    h.sizeMono.trans h₁.sizeMono, fun q hq hq₀ hlt hat => ?_, ?_⟩
  · rw [h₁.bytes p hp, h.source.byteAt, h.bytes p hp]
    have hto : srcOff + len + (p - (dstOff + len)) = srcOff + (p - dstOff) := by omega
    rw [hto]
    split_ifs <;> first | rfl | omega
  · exact (h₁.blocks p hp (by omega)).trans (h.blocks p hp (by omega))
  · by_cases hin : q < len
    · have hge := h.sizeGe q hq hq₀ hin hat
      have hmono := h₁.sizeMono
      omega
    · have hge := h₁.sizeGe (q - len) (by unfold pageSize at *; omega) (by omega) (by omega)
        ((hpair q (by omega)).mpr hat)
      omega
  · rcases h₁.sizeLe with heq | ⟨q, hq, hq₀, hlt, hat, heq⟩
    · rw [heq]
      rcases h.sizeLe with heq | ⟨q, hq, hq₀, hlt, hat, heq⟩
      · exact .inl heq
      · exact .inr ⟨q, hq, hq₀, by omega, hat, heq⟩
    · refine .inr ⟨len + q, by unfold pageSize at *; omega, by omega, by omega, ?_, by omega⟩
      refine (hpair (len + q) (by omega)).mp ?_
      rwa [add_sub_cancel_left]

/-- One page is copied. -/
theorem page {size : ℕ} (hsrc : KeepsFile src s s')
    (hbytes : ∀ p, 0 ≤ p → s'.byteAt dst p = if dstOff ≤ p ∧ p < dstOff + pageSize
      then s.byteAt src (srcOff + (p - dstOff)) else s.byteAt dst p)
    (hblocks : ∀ p, 0 ≤ p → p < dstOff ∨ dstOff + pageSize ≤ p →
      (s'.HasBlock dst p ↔ s.HasBlock dst p))
    (hsize : (size : ℤ) = dstOff + pageSize) (hat : s.PairAt src dst srcOff dstOff 0)
    (hgrow : (s'.inodes dst).iSize.toNat = max (s.inodes dst).iSize.toNat size) :
    Copied src dst srcOff dstOff pageSize s s' where
  bytes := hbytes
  blocks := hblocks
  source := hsrc
  sizeMono := by omega
  sizeGe q hq h₀ hlt _ := by
    unfold pageSize at *
    omega
  sizeLe := by
    by_cases hle : size ≤ (s.inodes dst).iSize.toNat
    · exact .inl (UInt64.toNat_inj.mp (by omega))
    · exact .inr ⟨0, rfl, le_rfl, by unfold pageSize; omega, hat, by omega⟩

/-- The pages are both holes. -/
theorem holes (hsrc : ¬ s.HasBlock src srcOff) (hdst : ¬ s.HasBlock dst dstOff) (hs : 0 ≤ srcOff)
    (hsal : srcOff % pageSize = 0) (hdal : dstOff % pageSize = 0) :
    Copied src dst srcOff dstOff pageSize s s where
  bytes p hp := by
    split
    · next hin =>
      obtain ⟨hpage, hpage', -⟩ := page_pair hs hsal hdal hp hin
      rw [byteAt_of_missing, byteAt_of_missing]
      · rw [hpage', ← offToBoff_of_aligned hsal]
        exact fun ib hm hib => hsrc ⟨ib, hm, hib⟩
      · rw [hpage, ← offToBoff_of_aligned hdal]
        exact fun ib hm hib => hdst ⟨ib, hm, hib⟩
    · rfl
  blocks _ _ _ := Iff.rfl
  source := .refl src s
  sizeMono := le_rfl
  sizeGe q hq h₀ hlt hat := by
    obtain rfl : q = 0 := by
      unfold pageSize at *
      omega
    rw [Sbi.PairAt, add_zero, add_zero] at hat
    exact absurd hat (not_or.mpr ⟨hsrc, hdst⟩)
  sizeLe := .inl rfl

end Copied

/-! ### One page -/

section Page

variable (h : OnFile dst s) (hs : 0 ≤ srcOff) (hsal : srcOff % pageSize = 0)
  (hdal : dstOff % pageSize = 0)

include h hs hsal hdal

/-- A page of the source that has a block. -/
theorem copied_sharePage {size : UInt64} (hd : 0 ≤ dstOff) (hne : src ≠ dst)
    (hf : fetchIblkref (s.blocksOf src) srcOff = some srcIb)
    (hr : s.requireIblkref dst dstOff = (some dstIb, s₁))
    (hsize : (size.toNat : ℤ) = dstOff + pageSize)
    (hkeep : KeepsFile src s ((s₁.sharePage dst srcIb dstIb).growTo dst size)) :
    Copied src dst srcOff dstOff pageSize s ((s₁.sharePage dst srcIb dstIb).growTo dst size) := by
  obtain ⟨held, hinv⟩ := h.inv
  have hserve : Serves dst ∅ _ held s s₁ := requireIblkref_serves hinv h.reg hr
  obtain ⟨held₁, hinv₁, -⟩ := hserve.inv
  have h₁ : OnFile dst s₁ := h.requireIblkref hd hr
  have hsrc₁ : KeepsFile src s s₁ := hserve.op.keeps src hne fun _ _ => Set.notMem_empty _
  obtain ⟨hm, hoff, hle⟩ := requireIblkref_block hinv h.reg hr
  obtain ⟨hmsrc, hsrcoff⟩ := fetchIblkref_some hf
  rw [offToBoff_of_aligned hdal] at hoff
  have hmsrc₁ : srcIb ∈ s₁.blocksOf src := by
    rw [Sbi.blocksOf, hsrc₁.1]
    exact hmsrc
  have hpair : s.PairAt src dst srcOff dstOff 0 := by
    rw [Sbi.PairAt, add_zero]
    exact .inl ⟨srcIb, hmsrc, hsrcoff⟩
  apply Copied.page hkeep ?_ ?_ hsize hpair
  · rw [size_growTo, size_sharePage, size_requireIblkref h hr]
  · intro p hp
    rw [byteAt_growTo, byteAt_sharePage h₁ hm hle (hinv₁.dblkref_ne hne hmsrc₁ hm hle), hoff,
      byteAt_requireIblkref h hd hr hp]
    by_cases hin : dstOff ≤ p ∧ p < dstOff + pageSize
    · obtain ⟨hpage, hpage', hplace⟩ := page_pair hs hsal hdal hp hin
      obtain ⟨hbn, hmem⟩ := hsrc₁.2 _ (mem_keys_of_mem hmsrc)
      have hfetch : fetchIblkref (s.blocksOf src) (srcOff + (p - dstOff)) = some srcIb := by
        rw [fetchIblkref, hpage', ← offToBoff_of_aligned hsal]
        exact hf
      rw [if_pos hpage.symm, if_pos hin, Sbi.byteAt, hfetch]
      simp only
      rw [hbn, hmem, hplace]
    · rw [if_neg hin, if_neg fun hat => hin ((offToBoff_eq_iff hp hdal).mp hat.symm)]
  · intro p hp hout
    have hother : offToBoff p ≠ offToBoff dstOff := by
      rw [offToBoff_of_aligned hdal]
      intro hat
      have := (offToBoff_eq_iff hp hdal).mp hat
      omega
    rw [Sbi.HasBlock, growTo_blocksOf, ← Sbi.HasBlock, ← hasBlock_requireIblkref h hr hother]
    apply hasBlock_of_map
    rw [blocksOf_sharePage, map_off_retargetIblkref]

/-- A hole of the source, and a block in the destination. -/
theorem copied_zeroPage {size len : UInt64} {bn : ℕ} (hf : fetchIblkref (s.blocksOf src) srcOff = none)
    (hm : dstIb ∈ s.blocksOf dst) (hoff : dstIb.off = dstOff)
    (hr : s.uniquePmemb dst dstIb = (some bn, s₁)) (hlen : len = 4096)
    (hsize : (size.toNat : ℤ) = dstOff + pageSize)
    (hkeep : KeepsFile src s ((s₁.storeAt bn (offInPage dstOff) len fun _ => 0).growTo dst size)) :
    Copied src dst srcOff dstOff pageSize s
      ((s₁.storeAt bn (offInPage dstOff) len fun _ => 0).growTo dst size) := by
  obtain ⟨held, hinv⟩ := h.inv
  have h₁ : OnFile dst s₁ := h.uniquePmemb hm hr
  obtain ⟨ib, hib, hiboff, rfl, hle⟩ := uniquePmemb_block hinv h.reg hm hr
  have hnat : (len.toNat : ℤ) = pageSize := by
    rw [hlen]
    rfl
  have hzero := offInPage_of_aligned hdal
  have hmiss := fetchIblkref_none hf
  have hpair : s.PairAt src dst srcOff dstOff 0 := by
    rw [Sbi.PairAt, add_zero, add_zero]
    exact .inr ⟨dstIb, hm, hoff.trans (offToBoff_of_aligned hdal).symm⟩
  apply Copied.page hkeep ?_ ?_ hsize hpair
  · rw [size_growTo, ← size_uniquePmemb h hm hr]
    rfl
  · intro p hp
    rw [byteAt_growTo, byteAt_storeAt h₁ hib (h₁.pageAlone hib hle) (by omega) (by omega) hp, hiboff,
      hoff, hzero, hnat, add_zero, byteAt_uniquePmemb h hm hr hp]
    split
    · next hin =>
      obtain ⟨-, hpage', -⟩ := page_pair hs hsal hdal hp hin
      rw [byteAt_of_missing]
      rw [hpage', ← offToBoff_of_aligned hsal]
      exact hmiss
    · rfl
  · intro p hp _
    rw [Sbi.HasBlock, growTo_blocksOf, ← hasBlock_uniquePmemb h hm hr]
    exact Iff.rfl

end Page

theorem assert_of_true {c : Bool} (hc : c = true) : s.assert c = s := by
  rw [hc]
  simp [Sbi.assert]

/-- **What `_clone_range` does** with two pages. -/
theorem cloneRange_cases {len : UInt64} {res : Option Errno} (hlen : len = 4096)
    (hsal : srcOff % pageSize = 0) (hdal : dstOff % pageSize = 0)
    (hr : s.cloneRange src dst srcOff dstOff len = (res, s')) :
    (∃ srcIb dstIb s₁, fetchIblkref (s.blocksOf src) srcOff = some srcIb ∧
      s.requireIblkref dst dstOff = (some dstIb, s₁) ∧ res = none ∧
      s' = (s₁.sharePage dst srcIb dstIb).growTo dst (toSize dstOff + len)) ∨
    (∃ srcIb, fetchIblkref (s.blocksOf src) srcOff = some srcIb ∧
      s.requireIblkref dst dstOff = (none, s') ∧ res = some .enospc) ∨
    (fetchIblkref (s.blocksOf src) srcOff = none ∧ fetchIblkref (s.blocksOf dst) dstOff = none ∧
      res = none ∧ s' = s) ∨
    (∃ dstIb bn s₁, fetchIblkref (s.blocksOf src) srcOff = none ∧
      fetchIblkref (s.blocksOf dst) dstOff = some dstIb ∧
      s.uniquePmemb dst dstIb = (some bn, s₁) ∧ res = none ∧
      s' = (s₁.storeAt bn (offInPage dstOff) len fun _ => 0).growTo dst (toSize dstOff + len)) ∨
    ∃ dstIb, fetchIblkref (s.blocksOf src) srcOff = none ∧
      fetchIblkref (s.blocksOf dst) dstOff = some dstIb ∧
      s.uniquePmemb dst dstIb = (none, s') ∧ res = some .enospc := by
  have hentire : Sbi.isEntirePage srcOff dstOff len = true := by
    rw [Sbi.isEntirePage, hlen, offInPage_of_aligned hsal, offInPage_of_aligned hdal]
    rfl
  unfold Sbi.cloneRange at hr
  simp only [assert_of_true hentire] at hr
  split at hr
  · next srcIb hf =>
    split at hr
    · next s₁ hreq =>
      obtain ⟨rfl, rfl⟩ := Prod.mk.inj hr
      exact .inr (.inl ⟨srcIb, hf, hreq, rfl⟩)
    · next dstIb s₁ hreq =>
      obtain ⟨rfl, rfl⟩ := Prod.mk.inj hr
      exact .inl ⟨srcIb, dstIb, s₁, hf, hreq, rfl, rfl⟩
  · next hf =>
    split at hr
    · next hf' =>
      obtain ⟨rfl, rfl⟩ := Prod.mk.inj hr
      exact .inr (.inr (.inl ⟨hf, hf', rfl, rfl⟩))
    · next dstIb hf' =>
      split at hr
      · next s₁ huniq =>
        obtain ⟨rfl, rfl⟩ := Prod.mk.inj hr
        exact .inr (.inr (.inr (.inr ⟨dstIb, hf, hf', huniq, rfl⟩)))
      · next bn s₁ huniq =>
        obtain ⟨rfl, rfl⟩ := Prod.mk.inj hr
        exact .inr (.inr (.inr (.inl ⟨dstIb, bn, s₁, hf, hf', huniq, rfl, rfl⟩)))

/-- A page of a clone keeps the destination in order and the source what it is. -/
theorem OnFile.cloneRange {len : UInt64} {res : Option Errno} (h : OnFile dst s) (hne : src ≠ dst)
    (hlen : len = 4096) (hsal : srcOff % pageSize = 0) (hd : 0 ≤ dstOff)
    (hdal : dstOff % pageSize = 0) (hr : s.cloneRange src dst srcOff dstOff len = (res, s')) :
    OnFile dst s' ∧ KeepsFile src s s' := by
  obtain ⟨held, hinv⟩ := h.inv
  have hserve := @cloneRange_serves s held src dst ∅ srcOff dstOff len hne hinv h.reg
  have hfile : FileOk dst (s.cloneRange src dst srcOff dstOff len).2 :=
    h.file.cloneRange hinv h.reg hsal hdal hd hlen
  rw [hr] at hserve hfile
  obtain ⟨held₁, hinv₁, -⟩ := hserve.inv
  exact ⟨⟨⟨held₁, hinv₁⟩, hserve.reg, hfile⟩,
    hserve.op.keeps src hne fun _ _ => Set.notMem_empty _⟩

/-- **One page of a clone** is copied, or nothing is. -/
theorem copied_cloneRange {len : UInt64} {res : Option Errno} (hne : src ≠ dst) (h : OnFile dst s)
    (hlen : len = 4096) (hs : 0 ≤ srcOff) (hsal : srcOff % pageSize = 0) (hd : 0 ≤ dstOff)
    (hdal : dstOff % pageSize = 0) (hend : dstOff + pageSize < 2 ^ 64)
    (hr : s.cloneRange src dst srcOff dstOff len = (res, s')) :
    OnFile dst s' ∧ Copied src dst srcOff dstOff (if res = none then pageSize else 0) s s' := by
  obtain ⟨held, hinv⟩ := h.inv
  obtain ⟨h', hkeep⟩ := h.cloneRange hne hlen hsal hd hdal hr
  refine ⟨h', ?_⟩
  have hsize : ((toSize dstOff + len).toNat : ℤ) = dstOff + pageSize := by
    have hsum : toSize dstOff + len = toSize (dstOff + pageSize) := by
      rw [toSize_add, hlen]
      rfl
    rw [hsum, toNat_toSize (by omega) hend]
    omega
  rcases cloneRange_cases hlen hsal hdal hr with ⟨srcIb, dstIb, s₁, hf, hreq, rfl, rfl⟩ |
    ⟨srcIb, hf, hreq, rfl⟩ | ⟨hf, hf', rfl, rfl⟩ | ⟨dstIb, bn, s₁, hf, hf', huniq, rfl, rfl⟩ |
    ⟨dstIb, hf, hf', huniq, rfl⟩
  · exact copied_sharePage h hs hsal hdal hd hne hf hreq hsize hkeep
  · apply Copied.none hkeep (size_requireIblkref h hreq)
    · exact fun p hp => byteAt_requireIblkref h hd hreq hp
    · intro p hp
      rcases requireIblkref_cases hinv h.reg hreq with ⟨-, -, hq⟩ | ⟨ib, hres, -⟩ |
        ⟨ib, s₁, hres, -⟩ | ⟨ib, d, s₁, hres, -⟩
      · rw [Sbi.HasBlock, Sbi.blocksOf, hq.inodes]
        exact Iff.rfl
      · cases hres
      · cases hres
      · cases hres
  · exact .holes (not_hasBlock_of_fetch hf) (not_hasBlock_of_fetch hf') hs hsal hdal
  · obtain ⟨hm, hib⟩ := fetchIblkref_some hf'
    rw [offToBoff_of_aligned hdal] at hib
    exact copied_zeroPage h hs hsal hdal hf hm hib huniq hlen hsize hkeep
  · have hm := (fetchIblkref_some hf').1
    apply Copied.none hkeep (size_uniquePmemb h hm huniq)
    · exact fun p hp => byteAt_uniquePmemb h hm huniq hp
    · exact fun p _ => hasBlock_uniquePmemb h hm huniq

/-- The loop of `_clone_sub_file_range` over whole pages. -/
theorem cloneSubLoop_succ {pages : ℕ} {len : UInt64} (hlen : len = 4096)
    (hsal : srcOff % pageSize = 0) (hdal : dstOff % pageSize = 0) :
    s.cloneSubLoop src dst srcOff (srcOff + (pages + 1 : ℕ) * pageSize) dstOff
      (dstOff + (pages + 1 : ℕ) * pageSize) =
    match s.cloneRange src dst srcOff dstOff len with
    | (some err, s₁) => (some err, s₁)
    | (none, s₁) => s₁.cloneSubLoop src dst (srcOff + pageSize)
        (srcOff + pageSize + pages * pageSize) (dstOff + pageSize)
        (dstOff + pageSize + pages * pageSize) := by
  have hpos : (0 : ℤ) < pageSize := by decide
  have hstep := @cloneStep_of_aligned srcOff (srcOff + (pages + 1 : ℕ) * pageSize) dstOff
    (dstOff + (pages + 1 : ℕ) * pageSize) hsal (by rwa [Int.add_mul_emod_self_right]) hdal
    (by rwa [Int.add_mul_emod_self_right]) (by unfold pageSize; omega) (by unfold pageSize; omega)
  have hto : toLoff (4096 : UInt64) = pageSize := rfl
  have hend : ∀ o : ℤ, o + (pages + 1 : ℕ) * pageSize = o + pageSize + pages * pageSize := by
    intro o
    push_cast
    ring
  rw [Sbi.cloneSubLoop, if_pos ⟨by unfold pageSize; omega, by unfold pageSize; omega⟩]
  simp only [hstep, hto, hlen]
  rcases s.cloneRange src dst srcOff dstOff 4096 with ⟨_ | err, s₁⟩
  · simp only [hend]
  · rfl

/-- **The loop of `_clone_sub_file_range`** copies the ranges from the front: to their end, or up
to the page where it runs out of space. -/
theorem copied_cloneSubLoop {pages : ℕ} {res : Option Errno} (hne : src ≠ dst)
    (h : OnFile dst s) (hs : 0 ≤ srcOff) (hsal : srcOff % pageSize = 0) (hd : 0 ≤ dstOff)
    (hdal : dstOff % pageSize = 0) (hend : dstOff + pages * pageSize < 2 ^ 64)
    (hr : s.cloneSubLoop src dst srcOff (srcOff + pages * pageSize) dstOff
      (dstOff + pages * pageSize) = (res, s')) :
    ∃ done : ℕ, done ≤ pages ∧ (res = none → done = pages) ∧
      Copied src dst srcOff dstOff (done * pageSize) s s' := by
  induction pages generalizing s srcOff dstOff with
  | zero =>
    rw [Sbi.cloneSubLoop, if_neg (by simp)] at hr
    obtain ⟨-, rfl⟩ := Prod.mk.inj hr
    refine ⟨0, le_rfl, fun _ => rfl, ?_⟩
    have hzero : ((0 : ℕ) : ℤ) * pageSize = 0 := by simp
    rw [hzero]
    exact .none (.refl src s) rfl (fun _ _ => rfl) fun _ _ => Iff.rfl
  | succ pages ih =>
    have hpos : (0 : ℤ) < pageSize := by decide
    have hpage : dstOff + pageSize + pages * pageSize < 2 ^ 64 ∧ dstOff + pageSize < 2 ^ 64 := by
      unfold pageSize at *
      omega
    rw [cloneSubLoop_succ rfl hsal hdal] at hr
    split at hr
    · next err s₁ hstep =>
      obtain ⟨rfl, rfl⟩ := Prod.mk.inj hr
      obtain ⟨-, hcopy⟩ := copied_cloneRange hne h rfl hs hsal hd hdal hpage.2 hstep
      refine ⟨0, Nat.zero_le _, fun hnone => absurd hnone (Option.some_ne_none _), ?_⟩
      simpa using hcopy
    · next s₁ hstep =>
      obtain ⟨h₁, hcopy⟩ := copied_cloneRange hne h rfl hs hsal hd hdal hpage.2 hstep
      rw [if_pos rfl] at hcopy
      obtain ⟨done, hle, hall, hrest⟩ := ih h₁ (by omega) (by rwa [Int.add_emod_right]) (by omega)
        (by rwa [Int.add_emod_right]) hpage.1 hr
      refine ⟨done + 1, by omega, fun hok => by rw [hall hok], ?_⟩
      have hsum : ((done + 1 : ℕ) : ℤ) * pageSize = pageSize + done * pageSize := by
        push_cast
        ring
      rw [hsum]
      exact hcopy.trans hrest rfl (by omega) (by unfold pageSize; omega) hd

/-! ## Whole files -/

/-- What counts of a block for the content of a file. -/
def Iblkref.place (ib : Iblkref) : RecPtr × ℤ := (ib.dblkref, ib.off)

/-- Files whose blocks hold the same data at the same places read the same. -/
theorem byteAt_of_places (h : OffsetsOk (s.blocksOf m))
    (hl : (s'.blocksOf n).map Iblkref.place = (s.blocksOf m).map Iblkref.place)
    (hkeep : ∀ x ∈ s.blocksOf m, KeepsBlock s s' x.dblkref) : s'.byteAt n p = s.byteAt m p := by
  have hmem : ∀ x ∈ s'.blocksOf n, ∃ y ∈ s.blocksOf m, y.place = x.place := by
    intro x hx
    have hin : x.place ∈ (s.blocksOf m).map Iblkref.place := hl ▸ List.mem_map_of_mem hx
    exact List.mem_map.mp hin
  have hmem' : ∀ x ∈ s.blocksOf m, ∃ y ∈ s'.blocksOf n, y.place = x.place := by
    intro x hx
    have hin : x.place ∈ (s'.blocksOf n).map Iblkref.place := hl.symm ▸ List.mem_map_of_mem hx
    exact List.mem_map.mp hin
  have h' : OffsetsOk (s'.blocksOf n) := by
    apply h.of_map
    have hoffs := congrArg (List.map Prod.snd) hl
    rwa [List.map_map, List.map_map] at hoffs
  apply byteAt_congr h h' rfl
  · intro x hx hoff
    obtain ⟨y, hy, heq⟩ := hmem x hx
    obtain ⟨hd, hyoff⟩ := Prod.mk.inj heq
    obtain ⟨hpage, hbytes⟩ := hkeep y hy
    exact ⟨y, hy, hyoff.trans hoff, by rw [← hd, hpage, hbytes]⟩
  · intro x hx hoff
    obtain ⟨y, hy, heq⟩ := hmem' x hx
    exact ⟨y, hy, (Prod.mk.inj heq).2.trans hoff⟩

/-- **The loop of `_clone_entire_file_range`** comes as far as there are records. -/
theorem cloneEntireLoop_spec : (s.cloneEntireLoop dst l).1 = decide (l.length ≤ s.pool.recsLeft .iblkref) ∧
    ((s.cloneEntireLoop dst l).2.inodes dst).iSize = (s.inodes dst).iSize ∧
    ((s.cloneEntireLoop dst l).2.blocksOf dst).map Iblkref.place =
      (s.blocksOf dst).map Iblkref.place ++ (l.take (s.pool.recsLeft .iblkref)).map Iblkref.place ∧
    ∀ e, KeepsBlock s (s.cloneEntireLoop dst l).2 e := by
  fun_induction Sbi.cloneEntireLoop s dst l with
  | case1 s => exact ⟨rfl, rfl, by simp, fun _ => ⟨rfl, rfl⟩⟩
  | case2 s ib rest ha =>
    have hzero : s.pool.recsLeft .iblkref = 0 :=
      Pool.recsLeft_eq_zero (Sbi.acquireIblkref_none ha)
    rw [hzero]
    exact ⟨rfl, rfl, by simp, fun _ => ⟨rfl, rfl⟩⟩
  | case3 s ib rest r s₁ ha s₂ i =>
    rename_i ih
    obtain ⟨q, hpop, rfl⟩ := Sbi.acquireIblkref_some ha
    have hleft := Pool.recsLeft_popRec hpop
    obtain ⟨hend, hsize, hplaces, hkeep⟩ := ih
    rw [← hleft]
    refine ⟨?_, ?_, ?_, fun e => ?_⟩
    · rw [hend, List.length_cons, decide_eq_decide, Nat.succ_le_succ_iff]
      rfl
    · rw [hsize, setInode_inodes_self]
      rfl
    · rw [hplaces, blocksOf_setInode, List.take_succ_cons, List.map_append, List.map_cons,
        List.append_assoc]
      rfl
    · exact KeepsBlock.trans ⟨pageOf_setRefcnt, rfl⟩ (hkeep e)

theorem size_dropRange {pos : ℤ} (h : OnFile n s) :
    ((s.dropRange n pos).inodes n).iSize = (s.inodes n).iSize := by
  obtain ⟨held, hinv⟩ := h.inv
  apply dropRange_induction (I := fun s' => (s'.inodes n).iSize = (s.inodes n).iSize) hinv h.reg rfl
  intro s₁ held₁ ib _ _ _ heq
  rw [size_dropIblkref, heq]

/-- The destination has no blocks left when the source's are shared. -/
theorem blocksOf_dropRange_zero (h : OnFile n s) : (s.dropRange n 0).blocksOf n = [] := by
  obtain ⟨held, hinv⟩ := h.inv
  rw [blocksOf_dropRange hinv, List.filter_eq_nil_iff]
  intro ib hm
  have hnn := h.offsets.nonneg ib hm
  rw [if_neg (by decide), decide_eq_true_eq]
  omega

/-- **`_clone_entire_file_range`**: the destination has the first blocks of the source, as many
as there are records for; with them all it has its size too. -/
theorem cloneEntireFileRange_spec (hne : src ≠ dst) (h : OnFile dst s) :
    let k := (s.dropRange dst 0).pool.recsLeft .iblkref
    let s' := (s.cloneEntireFileRange src dst).2
    ((s.cloneEntireFileRange src dst).1 = none ↔ (s.blocksOf src).length ≤ k) ∧
    (s'.inodes dst).iSize =
      (if (s.blocksOf src).length ≤ k then (s.inodes src).iSize else (s.inodes dst).iSize) ∧
    (s'.blocksOf dst).map Iblkref.place = ((s.blocksOf src).take k).map Iblkref.place ∧
    KeepsFile src s s' := by
  intro k s'
  obtain ⟨held, hinv⟩ := h.inv
  have hserve : Serves dst ∅ True held s (s.dropRange dst 0) := dropRange_serves hinv h.reg
  have hall : Serves dst ∅ True held s s' := cloneEntireFileRange_serves hne hinv h.reg
  have hkeep : KeepsFile src s s' := hall.op.keeps src hne fun _ _ => Set.notMem_empty _
  have hfile : KeepsFile src s (s.dropRange dst 0) :=
    hserve.op.keeps src hne fun _ _ => Set.notMem_empty _
  have hsize₀ : ((s.dropRange dst 0).inodes dst).iSize = (s.inodes dst).iSize := size_dropRange h
  have hnil := blocksOf_dropRange_zero h
  have hblocks : (s.dropRange dst 0).blocksOf src = s.blocksOf src := by
    rw [Sbi.blocksOf, hfile.1, Sbi.blocksOf]
  obtain ⟨hend, hsize, hplaces, -⟩ :=
    @cloneEntireLoop_spec (s.dropRange dst 0) dst ((s.dropRange dst 0).blocksOf src)
  rw [hnil, List.map_nil, List.nil_append, hblocks] at hplaces
  rw [hblocks] at hend hsize
  have hothers : ((s.dropRange dst 0).cloneEntireLoop dst (s.blocksOf src)).2.inodes src =
      s.inodes src := by
    obtain ⟨held₁, hinv₁, -⟩ := hserve.inv
    have hloop : Serves dst ∅ True held₁ (s.dropRange dst 0)
        ((s.dropRange dst 0).cloneEntireLoop dst (s.blocksOf src)).2 :=
      cloneEntireLoop_serves hne _ hinv₁ hserve.reg (by rw [hblocks]; exact fun _ hm => hm)
    rw [hloop.op.step.others src hne, hfile.1]
  rw [hsize₀] at hsize
  unfold s' Sbi.cloneEntireFileRange at hkeep ⊢
  simp only [hblocks] at hkeep ⊢
  split
  · next s₂ heq =>
    rw [heq] at hend hsize hplaces
    have hfull : ¬ (s.blocksOf src).length ≤ k := of_decide_eq_false hend.symm
    simp only [heq] at hkeep
    exact ⟨by simp [hfull], by rw [if_neg hfull, hsize], hplaces, hkeep⟩
  · next s₂ heq =>
    rw [heq] at hend hplaces hothers
    have hfits : (s.blocksOf src).length ≤ k := of_decide_eq_true hend.symm
    simp only [heq] at hkeep
    refine ⟨by simp [hfits], ?_, ?_, hkeep⟩
    · rw [if_pos hfits, Sbi.setSize, setInode_inodes_self, hothers]
    · rw [Sbi.setSize, blocksOf_setInode]
      exact hplaces

/-! ## The law of a clone -/

/-- What a reader gets for a byte: `0` past the end of the file. -/
def Sbi.readByte (s : Sbi) (n : RecPtr) (p : ℤ) : UInt8 :=
  if p < (s.inodes n).iSize.toNat then s.byteAt n p else 0

/-- The request is for ranges of whole pages, which lie apart when they are of one file. -/
structure ClonesRange (src dst : RecPtr) (srcPos dstPos : ℤ) (len : UInt64) : Prop where
  pos : 0 < len.toNat
  lenAligned : (len.toNat : ℤ) % pageSize = 0
  srcAligned : srcPos % pageSize = 0
  dstAligned : dstPos % pageSize = 0
  srcNonneg : 0 ≤ srcPos
  dstNonneg : 0 ≤ dstPos
  srcEnd : srcPos + len.toNat < 2 ^ 63
  dstEnd : dstPos + len.toNat < 2 ^ 63
  apart : src = dst → srcPos + len.toNat ≤ dstPos ∨ dstPos + len.toNat ≤ srcPos

/-- What a clone that succeeds is to do. -/
structure CloneLaw (src dst : RecPtr) (srcPos dstPos : ℤ) (len : UInt64) (s s' : Sbi) : Prop where
  wholeSize : src ≠ dst → srcPos = 0 → dstPos = 0 → len = 0 →
    (s'.inodes dst).iSize = (s.inodes src).iSize
  wholeBytes : src ≠ dst → srcPos = 0 → dstPos = 0 → len = 0 → ∀ p, 0 ≤ p →
    s'.readByte dst p = s.readByte src p
  size : ClonesRange src dst srcPos dstPos len →
    ((s'.inodes dst).iSize.toNat : ℤ) = max ((s.inodes dst).iSize.toNat : ℤ) (dstPos + len.toNat)
  bytes : ClonesRange src dst srcPos dstPos len → ∀ p, 0 ≤ p → s'.readByte dst p =
    if dstPos ≤ p ∧ p < dstPos + len.toNat then s.readByte src (srcPos + (p - dstPos))
    else s.readByte dst p

/-- The ranges are such that `_clone` does to the destination what it is to do: the last page
has a block on one of the sides, or the file reaches to its end, and nothing that is past the
end of a file comes to light. In one file nothing is done, so nothing may be left to do. -/
structure Sbi.CloneFits (s : Sbi) (src dst : RecPtr) (srcPos dstPos : ℤ) (len : UInt64) : Prop where
  grows : src ≠ dst → dstPos + len.toNat ≤ (s.inodes dst).iSize.toNat ∨
    s.PairAt src dst srcPos dstPos (len.toNat - pageSize)
  tail : src ≠ dst → ∀ p : ℤ, (s.inodes src).iSize.toNat ≤ p → srcPos ≤ p →
    p < srcPos + len.toNat → s.byteAt src p = 0
  gap : src ≠ dst → ∀ p : ℤ, (s.inodes dst).iSize.toNat ≤ p → p < dstPos → s.byteAt dst p = 0
  same : src = dst → dstPos + len.toNat ≤ (s.inodes dst).iSize.toNat ∧
    ∀ q : ℤ, 0 ≤ q → q < len.toNat → s.readByte dst (dstPos + q) = s.readByte src (srcPos + q)

theorem readByte_of_lt (h : p < (s.inodes n).iSize.toNat) : s.readByte n p = s.byteAt n p := if_pos h

theorem readByte_of_le (h : (s.inodes n).iSize.toNat ≤ p) : s.readByte n p = 0 :=
  if_neg (Int.not_lt.mpr h)

/-- **Ranges of two files**: when both were copied to their ends. -/
theorem Copied.law_iff {len : UInt64} (hne : src ≠ dst)
    (h : Copied src dst srcOff dstOff len.toNat s s') (hr : ClonesRange src dst srcOff dstOff len) :
    CloneLaw src dst srcOff dstOff len s s' ↔ s.CloneFits src dst srcOff dstOff len := by
  have hr' := hr
  obtain ⟨hpos, hlen, hsal, hdal, hs, hd, -, -, -⟩ := hr'
  have hpage : (pageSize : ℤ) ≤ len.toNat := by
    unfold pageSize at *
    omega
  -- the size is right just when the last page had a block
  have hsize : ((s'.inodes dst).iSize.toNat : ℤ) =
      max ((s.inodes dst).iSize.toNat : ℤ) (dstOff + len.toNat) ↔
        dstOff + len.toNat ≤ (s.inodes dst).iSize.toNat ∨
          s.PairAt src dst srcOff dstOff (len.toNat - pageSize) := by
    have hmono := h.sizeMono
    constructor
    · intro hmax
      by_cases hin : dstOff + len.toNat ≤ (s.inodes dst).iSize.toNat
      · exact .inl hin
      rcases h.sizeLe with heq | ⟨q, -, -, -, hat, heq⟩
      · rw [heq] at hmax
        omega
      · right
        have hlast : (len.toNat : ℤ) - pageSize = q := by omega
        rwa [hlast]
    · intro hor
      have hle : ((s'.inodes dst).iSize.toNat : ℤ) = (s.inodes dst).iSize.toNat ∨
          ((s'.inodes dst).iSize.toNat : ℤ) ≤ dstOff + len.toNat := by
        rcases h.sizeLe with heq | ⟨q, hq, -, hlt, -, heq⟩
        · exact .inl (by rw [heq])
        · right
          unfold pageSize at *
          omega
      rcases hor with hin | hat
      · omega
      · have hge := h.sizeGe _ (by unfold pageSize at *; omega) (by omega) (by unfold pageSize; omega) hat
        omega
  constructor
  · rintro ⟨-, -, hlaw, hlawBytes⟩
    have hmax := hlaw hr
    refine ⟨fun _ => hsize.mp hmax, fun _ p hpast hlo hhi => ?_, fun _ p hpast hlt => ?_,
      fun heq => absurd heq hne⟩
    · -- the place in the destination that the byte is copied to
      have hread := hlawBytes hr (dstOff + (p - srcOff)) (by omega)
      have hto : srcOff + (dstOff + (p - srcOff) - dstOff) = p := by omega
      rw [readByte_of_lt (by omega), h.bytes _ (by omega), if_pos (by omega), if_pos (by omega), hto,
        readByte_of_le hpast] at hread
      exact hread
    · have hread := hlawBytes hr p (by omega)
      rw [readByte_of_lt (by omega), h.bytes _ (by omega), if_neg (by omega), if_neg (by omega),
        readByte_of_le hpast] at hread
      exact hread
  · rintro ⟨hgrows, htail, hgap, -⟩
    have hmax := hsize.mpr (hgrows hne)
    refine ⟨?_, ?_, fun _ => hmax, fun _ p hp => ?_⟩
    · rintro - - - rfl
      cases hpos
    · rintro - - - rfl
      cases hpos
    by_cases hin : p < (s'.inodes dst).iSize.toNat
    · rw [readByte_of_lt hin, h.bytes p hp]
      split
      · by_cases hsrc : srcOff + (p - dstOff) < (s.inodes src).iSize.toNat
        · rw [readByte_of_lt hsrc]
        · have hpast := Int.not_lt.mp hsrc
          rw [readByte_of_le hpast]
          exact htail hne _ hpast (by omega) (by omega)
      · by_cases hdst : p < (s.inodes dst).iSize.toNat
        · rw [readByte_of_lt hdst]
        · have hpast := Int.not_lt.mp hdst
          rw [readByte_of_le hpast]
          exact hgap hne p hpast (by omega)
    · rw [readByte_of_le (Int.not_lt.mp hin), if_neg (by omega), readByte_of_le (by omega)]

/-- **Ranges of one file**: nothing is copied. -/
theorem cloneLaw_same_iff {len : UInt64} (hr : ClonesRange n n srcOff dstOff len) :
    CloneLaw n n srcOff dstOff len s s ↔ s.CloneFits n n srcOff dstOff len := by
  constructor
  · rintro ⟨-, -, hsize, hbytes⟩
    have hmax := hsize hr
    refine ⟨absurd rfl, absurd rfl, absurd rfl, fun _ => ⟨by omega, fun q hq hlt => ?_⟩⟩
    have hd := hr.dstNonneg
    rw [hbytes hr (dstOff + q) (by omega), if_pos (by omega), add_sub_cancel_left]
  · rintro ⟨-, -, -, hsame⟩
    obtain ⟨hin, hbytes⟩ := hsame rfl
    refine ⟨absurd rfl, absurd rfl, fun _ => by omega, fun _ p hp => ?_⟩
    split
    · have hto : dstOff + (p - dstOff) = p := by omega
      have heq := hbytes (p - dstOff) (by omega) (by omega)
      rwa [hto] at heq
    · rfl

theorem readByte_congr (hsize : (s'.inodes n).iSize = (s.inodes m).iSize)
    (hbyte : s'.byteAt n p = s.byteAt m p) : s'.readByte n p = s.readByte m p := by
  rw [Sbi.readByte, hsize, hbyte, Sbi.readByte]

/-- A request that asks for nothing. -/
theorem cloneLaw_of_not {len : UInt64} (hr : ¬ ClonesRange src dst srcOff dstOff len)
    (hwhole : ¬ (src ≠ dst ∧ srcOff = 0 ∧ len = 0 ∧ dstOff = 0)) :
    CloneLaw src dst srcOff dstOff len s s' where
  wholeSize hne hs hd hlen := absurd ⟨hne, hs, hlen, hd⟩ hwhole
  wholeBytes hne hs hd hlen := absurd ⟨hne, hs, hlen, hd⟩ hwhole
  size h := absurd h hr
  bytes h := absurd h hr

/-- **Whole files.** -/
theorem cloneLaw_whole (hne : src ≠ dst) (hsrc : OnFile src s) (hdst : OnFile dst s)
    (hok : (s.cloneEntireFileRange src dst).1 = none) :
    CloneLaw src dst 0 0 0 s (s.cloneEntireFileRange src dst).2 := by
  obtain ⟨hfits, hsize, hplaces, hkeep⟩ := cloneEntireFileRange_spec hne hdst
  have hall := hfits.mp hok
  rw [if_pos hall] at hsize
  rw [List.take_of_length_le hall] at hplaces
  refine ⟨fun _ _ _ _ => hsize, fun _ _ _ _ p _ => ?_, fun hr => absurd hr.pos (by decide),
    fun hr => absurd hr.pos (by decide)⟩
  apply readByte_congr hsize
  apply byteAt_of_places hsrc.offsets hplaces
  exact fun x hx => hkeep.2 _ (mem_keys_of_mem hx)

/-- **`_clone`**, when it succeeds. -/
theorem cloneLaw_clone_iff {len : UInt64} (hsrc : OnFile src s) (hdst : OnFile dst s)
    (hok : (s.clone src dst srcOff dstOff len).1 = none) :
    CloneLaw src dst srcOff dstOff len s (s.clone src dst srcOff dstOff len).2 ↔
      (ClonesRange src dst srcOff dstOff len → s.CloneFits src dst srcOff dstOff len) := by
  have hreg : ¬ ((s.inodes src).iMode ≠ .reg ∨ (s.inodes dst).iMode ≠ .reg) := by
    simp [hsrc.reg, hdst.reg]
  unfold Sbi.clone at hok ⊢
  rw [if_neg hreg] at hok ⊢
  by_cases hne : src = dst
  · subst hne
    rw [if_pos rfl]
    by_cases hr : ClonesRange src src srcOff dstOff len
    · rw [cloneLaw_same_iff hr]
      simp [hr]
    · exact iff_of_true (cloneLaw_of_not hr (by simp)) fun h => absurd h hr
  rw [if_neg hne] at hok ⊢
  by_cases hwhole : srcOff = 0 ∧ len = 0 ∧ dstOff = 0
  · rw [if_pos hwhole] at hok ⊢
    obtain ⟨rfl, rfl, rfl⟩ := hwhole
    exact iff_of_true (cloneLaw_whole hne hsrc hdst hok) fun hr => absurd hr.pos (by decide)
  rw [if_neg hwhole] at hok ⊢
  by_cases hr : ClonesRange src dst srcOff dstOff len
  swap
  · exact iff_of_true (cloneLaw_of_not hr fun h => hwhole h.2) fun h => absurd h hr
  split at hok
  · cases hok
  rw [if_neg ‹_›]
  have hs := hr.srcNonneg
  have hsend := hr.srcEnd
  have hdend := hr.dstEnd
  have hlen : toLoff len = len.toNat := toLoff_of_lt (by omega)
  unfold Sbi.cloneSubFileRange at hok ⊢
  rw [hlen] at hok ⊢
  obtain ⟨pages, hpages⟩ : ∃ pages : ℕ, (len.toNat : ℤ) = pages * pageSize :=
    ⟨len.toNat / pageSize, by have := hr.lenAligned; unfold pageSize at *; omega⟩
  rcases hloop : s.cloneSubLoop src dst srcOff (srcOff + len.toNat) dstOff (dstOff + len.toNat)
    with ⟨res, s₁⟩
  rw [hloop] at hok
  rw [hpages] at hloop hdend
  obtain ⟨done, -, hall, hcopy⟩ := copied_cloneSubLoop hne hdst hs hr.srcAligned hr.dstNonneg
    hr.dstAligned (by omega) hloop
  rw [hall hok, ← hpages] at hcopy
  rw [hcopy.law_iff hne hr]
  simp [hr]

/-- **A clone copies what it is to copy just when** the ranges fit. -/
theorem clone_exact_iff (apiMapMaxSize : ℕ) (x : Sys)
    (h : ((toyfs apiMapMaxSize).restrict fun _ a => a.InFile).Reachable x) (src dst : RecPtr)
    (hsrc : (x.sbi.inodes src).iMode = .reg) (hdst : (x.sbi.inodes dst).iMode = .reg)
    (posIn posOut len : UInt64)
    (hok : (x.sbi.clone src dst (toLoff posIn) (toLoff posOut) len).1 = none) :
    CloneLaw src dst (toLoff posIn) (toLoff posOut) len x.sbi
        (x.sbi.clone src dst (toLoff posIn) (toLoff posOut) len).2 ↔
      (ClonesRange src dst (toLoff posIn) (toLoff posOut) len →
        x.sbi.CloneFits src dst (toLoff posIn) (toLoff posOut) len) := by
  have hok₁ := toyfs_filesOk h
  exact cloneLaw_clone_iff (hok₁.onFile hsrc) (hok₁.onFile hdst) hok

/-- A page of data is cloned into an empty file. -/
theorem clone_exact_iff_page : ∃ x,
    ((toyfs 65536).restrict fun _ a => a.InFile).Reachable x ∧
      CloneLaw ⟨1023, 1⟩ ⟨1023, 2⟩ (toLoff 0) (toLoff 0) 4096 x.sbi
        (x.sbi.clone ⟨1023, 1⟩ ⟨1023, 2⟩ (toLoff 0) (toLoff 0) 4096).2 := by
  obtain ⟨x, hx, hp⟩ := exists_restrict_of_mounted 65536 (fun _ a => a.InFile)
    [.newInode ⟨1023, 0⟩ ⟨.reg, 0, 0, [], fun _ => 0, false⟩ (some 2),
      .newInode ⟨1023, 0⟩ ⟨.reg, 0, 0, [], fun _ => 0, false⟩ (some 3),
      .write ⟨1023, 1⟩ (fun _ => 7) 0 4096]
    (p := fun x => (x.sbi.inodes ⟨1023, 1⟩).iMode == .reg &&
      (x.sbi.inodes ⟨1023, 2⟩).iMode == .reg && (x.sbi.inodes ⟨1023, 1⟩).iSize == 4096 &&
      decide (x.sbi.PairAt ⟨1023, 1⟩ ⟨1023, 2⟩ 0 0 0) &&
      (x.sbi.clone ⟨1023, 1⟩ ⟨1023, 2⟩ 0 0 4096).1 == none)
    (by decide +kernel)
  simp only [Bool.and_eq_true, beq_iff_eq, decide_eq_true_eq] at hp
  obtain ⟨⟨⟨⟨hsrc, hdst⟩, hsize⟩, hpair⟩, hok⟩ := hp
  have hiff := clone_exact_iff 65536 x hx ⟨1023, 1⟩ ⟨1023, 2⟩ hsrc hdst 0 0 4096 hok
  refine ⟨x, hx, hiff.mpr fun _ => ⟨fun _ => .inr hpair, fun _ p hpast _ hlt => ?_,
    fun _ p hpast hlt => ?_, fun heq => absurd heq (by decide)⟩⟩
  · rw [hsize] at hpast
    exact absurd (hpast.trans_lt hlt) (by decide)
  · have hzero : toLoff 0 = 0 := by decide
    omega

/-- Cloning a hole into an empty file does not grow it. -/
theorem clone_hole_stays_short : ¬ ∀ x,
    ((toyfs 65536).restrict fun _ a => a.InFile).Reachable x →
    ∀ src dst, (x.sbi.inodes src).iMode = .reg → (x.sbi.inodes dst).iMode = .reg →
      ∀ posIn posOut len, (x.sbi.clone src dst (toLoff posIn) (toLoff posOut) len).1 = none →
        CloneLaw src dst (toLoff posIn) (toLoff posOut) len x.sbi
          (x.sbi.clone src dst (toLoff posIn) (toLoff posOut) len).2 := by
  intro hall
  obtain ⟨x, hx, hp⟩ := exists_restrict_of_mounted 65536 (fun _ a => a.InFile)
    [.newInode ⟨1023, 0⟩ ⟨.reg, 0, 0, [], fun _ => 0, false⟩ (some 2),
      .newInode ⟨1023, 0⟩ ⟨.reg, 0, 0, [], fun _ => 0, false⟩ (some 3),
      .truncate ⟨1023, 1⟩ 8192]
    (p := fun x => (x.sbi.inodes ⟨1023, 1⟩).iMode == .reg &&
      (x.sbi.inodes ⟨1023, 2⟩).iMode == .reg &&
      (x.sbi.clone ⟨1023, 1⟩ ⟨1023, 2⟩ 0 0 4096).1 == none &&
      ((x.sbi.clone ⟨1023, 1⟩ ⟨1023, 2⟩ 0 0 4096).2.inodes ⟨1023, 2⟩).iSize == 0)
    (by decide +kernel)
  simp only [Bool.and_eq_true, beq_iff_eq] at hp
  obtain ⟨⟨⟨hsrc, hdst⟩, hok⟩, hsize⟩ := hp
  have hzero : toLoff 0 = 0 := by decide
  have hlaw := hall x hx ⟨1023, 1⟩ ⟨1023, 2⟩ hsrc hdst 0 0 4096 (by rw [hzero]; exact hok)
  rw [hzero] at hlaw
  have hmax := hlaw.size ⟨by decide, by decide, by decide, by decide, by decide, by decide,
    by decide, by decide, fun heq => absurd heq (by decide)⟩
  rw [hsize] at hmax
  have hlen : ((4096 : UInt64).toNat : ℤ) = 4096 := by decide
  have hnone : ((0 : UInt64).toNat : ℤ) = 0 := by decide
  omega

end Zus.Toyfs
