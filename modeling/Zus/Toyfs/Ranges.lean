import Zus.Toyfs.Content
import Zus.Toyfs.Room

/-!
# Punching, zeroing and collapsing a range

What the three modes of `fallocate` that take data away make of the content of a file:
`_punch_hole` puts zeros in the range and drops the pages that lie in it, whatever the
layout; a page that is dropped is free when its count says that it was used once.
`_zero_range` does the same without dropping, except that a range that starts in a
hole takes the place it starts at in its page for the place to start at in the first page it
finds. `_collapse_range` removes the bytes of the range, but is wrong about `i_size` when the
range does not lie below it.
-/

namespace Zus.Toyfs

open Zus.Lib

variable {s s' s₁ : Sbi} {held : RecPtr → ℕ} {n m d : RecPtr} {ib : Iblkref} {l : List Iblkref}
  {off last p : ℤ}

/-- The blocks of the file at the offsets `P` have pages that no other block of the file has. -/
def PagesAlone (P : ℤ → Prop) (n : RecPtr) (s : Sbi) : Prop :=
  ∀ ib ∈ s.blocksOf n, P ib.off → s.PageAlone n ib

/-- No two blocks of the file have one page. -/
def PagesDistinct (n : RecPtr) (s : Sbi) : Prop := ∀ ib ∈ s.blocksOf n, s.PageAlone n ib

instance (n : RecPtr) (s : Sbi) : Decidable (PagesDistinct n s) :=
  inferInstanceAs (Decidable (∀ ib ∈ s.blocksOf n, _))

/-- No block of the file is shared: no other `iblkref`, of this file or another, has its page. What
the count of the block says is another matter. -/
def NoShared (n : RecPtr) (s : Sbi) : Prop :=
  ∀ ib ∈ s.blocksOf n, ∀ m, ∀ x ∈ s.blocksOf m, x.dblkref = ib.dblkref → m = n ∧ x = ib

theorem NoShared.pagesDistinct (h : NoShared n s) : PagesDistinct n s :=
  fun ib hm x hx hd => (h ib hm n x hx hd).2

/-- Blocks that are counted once are not shared. -/
theorem OnFile.noShared (h : OnFile n s) (hone : ∀ ib ∈ s.blocksOf n, counts s ib.dblkref ≤ 1) :
    NoShared n s := by
  obtain ⟨held, hinv⟩ := h.inv
  exact fun ib hm m x hx hd => hinv.block_unique hm (hone ib hm) hx (by rw [hd])

/-- A file that shared each of its blocks with one other file, on counts of two, shares none when
that one has other blocks. -/
theorem OnFile.noShared_of_copied {m : RecPtr} (h : OnFile n s)
    (htwo : ∀ ib ∈ s.blocksOf n, counts s ib.dblkref ≤ 2 ∧
      ∃ y ∈ s.blocksOf m, y.dblkref = ib.dblkref)
    (hne : n ≠ m) (hothers : ∀ k, k ≠ m → s'.inodes k = s.inodes k)
    (hnone : ∀ ib ∈ s.blocksOf n, ∀ y ∈ s'.blocksOf m, y.dblkref ≠ ib.dblkref) :
    NoShared n s' := by
  obtain ⟨held, hinv⟩ := h.inv
  have hblocks : ∀ {k}, k ≠ m → s'.blocksOf k = s.blocksOf k :=
    fun hk => congrArg Inode.iblkrefs (hothers _ hk)
  intro ib hm k x hx hd
  rw [hblocks hne] at hm
  have hkm : k ≠ m := by
    rintro rfl
    exact hnone ib hm x hx hd
  rw [hblocks hkm] at hx
  obtain ⟨hle, y, hy, hyd⟩ := htwo ib hm
  have hkey := mem_keys_of_mem hm
  have hkeyx := mem_keys_of_mem hx
  have hkeyy := mem_keys_of_mem hy
  have hptr : ib.ptr ≠ y.ptr := fun heq =>
    hne (hinv.keysInj n m ib.ptr _ _ hkey (heq ▸ hkeyy))
  -- the two references are all there are
  have hrefs := hinv.counted.eq_pair_of_le_two hle (p := ib.ptr) ⟨n, hkey⟩
    ⟨m, by rw [← hyd]; exact hkeyy⟩ hptr
  have hxin : x.ptr ∈ refs s ib.dblkref := ⟨k, by rw [← hd]; exact hkeyx⟩
  rw [hrefs] at hxin
  rcases hxin with heq | heq
  · obtain rfl : k = n := hinv.keysInj k n ib.ptr _ _ (heq ▸ hkeyx) hkey
    exact ⟨rfl, List.inj_on_of_nodup_map (hinv.ptrNodup k) hx hm heq⟩
  · exact absurd (hinv.keysInj k m y.ptr _ _ (heq ▸ hkeyx) hkeyy) hkm

theorem nextPage_offInPage (hoff : 0 ≤ off) : nextPage (offInPage off) = pageSize := by
  have hnn := offInPage_nonneg hoff
  have hlt := offInPage_lt hoff
  rw [nextPage_eq hnn, Int.emod_eq_of_lt hnn hlt]
  omega

/-- **`_zero_range_at`** puts zeros from the place in the page on, and stays in the page. -/
theorem byteAt_zeroRangeAt {len : UInt64} (h : OnFile n s) (hm : ib ∈ s.blocksOf n)
    (halone : s.PageAlone n ib) (hoff : 0 ≤ off) (hlen : 0 < toLoff len) (hp : 0 ≤ p) :
    (s.zeroRangeAt ib off len).byteAt n p =
      if ib.off + offInPage off ≤ p ∧ p < ib.off + min (pageSize : ℤ) (offInPage off + toLoff len)
        then 0
      else s.byteAt n p := by
  have hnn := offInPage_nonneg hoff
  have hlt := offInPage_lt hoff
  have hlen' := @toNat_nbytesInRange (offInPage off) (offInPage off + toLoff len) (by omega)
  rw [nextPage_offInPage hoff] at hlen'
  unfold Sbi.zeroRangeAt
  simp only
  rw [nextPage_offInPage hoff, byteAt_storeAt h hm halone hnn (by omega) hp]
  refine if_congr ?_ rfl rfl
  omega

theorem onFile_zeroRangeAt {len : UInt64} (h : OnFile n s) (hoff : 0 ≤ off) (hlen : 0 < toLoff len) :
    OnFile n (s.zeroRangeAt ib off len) := by
  obtain ⟨held, hinv⟩ := h.inv
  exact ⟨⟨held, hinv.storeAt _ _ _ _⟩, h.reg, h.file.zeroRangeAt hoff hlen⟩

/-! ## Punching a hole -/

/-- The page at `boff` lies in the range. -/
def WhollyIn (off last boff : ℤ) : Prop := off ≤ boff ∧ boff + pageSize ≤ last

instance (off last boff : ℤ) : Decidable (WhollyIn off last boff) :=
  inferInstanceAs (Decidable (_ ∧ _))

/-- A range of a file is cleared: its bytes are zero, and the pages in it have no blocks. -/
structure Cleared (n : RecPtr) (off last : ℤ) (s s' : Sbi) : Prop where
  bytes : ∀ p, 0 ≤ p → s'.byteAt n p = if off ≤ p ∧ p < last then 0 else s.byteAt n p
  blocks : s'.blocksOf n = (s.blocksOf n).filter fun ib => ¬ WhollyIn off last ib.off
  size : (s'.inodes n).iSize = (s.inodes n).iSize

/-- One turn: a page in the range is dropped. -/
theorem cleared_dropIblkref (h : OnFile n s) (hm : ib ∈ s.blocksOf n) :
    Cleared n ib.off (ib.off + pageSize) s (s.dropIblkref n ib) := by
  obtain ⟨held, hinv⟩ := h.inv
  refine ⟨fun p hp => byteAt_dropIblkref h hm hp, ?_, size_dropIblkref⟩
  rw [blocksOf_dropIblkref]
  refine List.filter_congr fun x hx => decide_eq_decide.mpr (not_congr ⟨fun hptr => ?_, fun hin => ?_⟩)
  · obtain rfl := List.inj_on_of_nodup_map (hinv.ptrNodup n) hx hm hptr
    exact ⟨le_rfl, le_rfl⟩
  · have hoff : x.off = ib.off := by
      have := hin.1
      have := hin.2
      omega
    rw [h.offsets.eq_of_off hx hm hoff]

/-- A turn that drops nothing. -/
theorem cleared_of_keeps (hb : s'.blocksOf n = s.blocksOf n)
    (hi : (s'.inodes n).iSize = (s.inodes n).iSize)
    (hnone : ∀ ib ∈ s.blocksOf n, ¬ WhollyIn off last ib.off)
    (hbytes : ∀ p, 0 ≤ p → s'.byteAt n p = if off ≤ p ∧ p < last then 0 else s.byteAt n p) :
    Cleared n off last s s' := by
  refine ⟨hbytes, ?_, hi⟩
  rw [hb, List.filter_eq_self.mpr]
  intro ib hm
  exact decide_eq_true (hnone ib hm)

theorem cleared_empty (hle : last ≤ off) : Cleared n off last s s := by
  refine cleared_of_keeps rfl rfl (fun x _ hin => ?_) fun p _ => ?_
  · obtain ⟨hlo, hhi⟩ := hin
    unfold pageSize at hhi
    omega
  · rw [if_neg (by omega)]

/-- Two ranges, one after the other, that meet at the start of a page. -/
theorem Cleared.trans {mid : ℤ} (h : Cleared n off mid s s₁) (h₁ : Cleared n mid last s₁ s')
    (hoffs : OffsetsOk (s.blocksOf n)) (hle : off ≤ mid) (hmid : mid % pageSize = 0)
    (hlast : mid ≤ last) : Cleared n off last s s' := by
  refine ⟨fun p hp => ?_, ?_, h₁.size.trans h.size⟩
  · rw [h₁.bytes p hp, h.bytes p hp]
    split_ifs <;> first | rfl | omega
  · rw [h₁.blocks, h.blocks, List.filter_filter]
    refine List.filter_congr fun ib hm => ?_
    have hal := hoffs.aligned ib hm
    have hsplit : WhollyIn off last ib.off ↔ WhollyIn off mid ib.off ∨ WhollyIn mid last ib.off := by
      unfold WhollyIn pageSize at *
      omega
    rw [← Bool.decide_and, decide_eq_decide, hsplit, not_or, and_comm]

/-- Blocks that have pages of their own have them when another one is dropped. -/
theorem pagesAlone_dropIblkref {P : ℤ → Prop} (h : PagesAlone P n s) (hon : OnFile n s)
    (hm : ib ∈ s.blocksOf n) : PagesAlone P n (s.dropIblkref n ib) := by
  intro x hx hP y hy hd
  obtain ⟨hx, -⟩ := (mem_dropIblkref hon hm).mp hx
  obtain ⟨hy, -⟩ := (mem_dropIblkref hon hm).mp hy
  exact h x hx hP y hy hd

/-- The piece of one turn of the loop of `_punch_hole`. -/
def Sbi.punchTurn (s : Sbi) (n : RecPtr) (off last : ℤ) : Sbi :=
  match fetchIblkref (s.blocksOf n) off with
  | some ib => s.punchHoleAt n ib off (nbytesInRange off (nextPage off) last)
  | none => s

/-- A turn zeroes a part of the page, drops the page, or finds a hole. -/
theorem punchTurn_cases (hoff : 0 ≤ off) (hlt : off < last) :
    (∃ ib ∈ s.blocksOf n, ib.off = offToBoff off ∧ PartlyIn off last ib.off ∧
      s.punchTurn n off last = s.zeroRangeAt ib off (nbytesInRange off (nextPage off) last)) ∨
    (∃ ib ∈ s.blocksOf n, off = ib.off ∧ min (nextPage off) last = ib.off + pageSize ∧
      s.punchTurn n off last = s.dropIblkref n ib) ∨
    ((∀ ib ∈ s.blocksOf n, ib.off ≠ offToBoff off) ∧ s.punchTurn n off last = s) := by
  unfold Sbi.punchTurn
  split
  · next ib hf =>
    obtain ⟨hm, hib⟩ := fetchIblkref_some hf
    unfold Sbi.punchHoleAt
    split
    · next hshort =>
      exact .inl ⟨ib, hm, hib, hib ▸ partlyIn_of_short hoff hlt hshort, rfl⟩
    · next hlong =>
      have hlen := @toNat_nbytesInRange off last hlt
      have hnext := nextPage_eq hoff
      have hboff := offToBoff_eq hoff
      have hmod := Int.emod_nonneg off (by decide : (pageSize : ℤ) ≠ 0)
      exact .inr (.inl ⟨ib, hm, by omega, by omega, rfl⟩)
  · next hf => exact .inr (.inr ⟨fetchIblkref_none hf, rfl⟩)

theorem OnFile.punchTurn (h : OnFile n s) (hoff : 0 ≤ off) (hlt : off < last) :
    OnFile n (s.punchTurn n off last) := by
  have hpos : 0 < toLoff (nbytesInRange off (nextPage off) last) :=
    nbytesInRange_pos (lt_nextPage off) hlt (nextPage_le off)
  rcases punchTurn_cases hoff hlt with ⟨ib, hm, -, -, heq⟩ | ⟨ib, hm, -, -, heq⟩ | ⟨-, heq⟩
  · rw [heq]
    exact onFile_zeroRangeAt h hoff hpos
  · rw [heq]
    exact h.dropIblkref hm
  · rwa [heq]

theorem pagesAlone_punchTurn {P : ℤ → Prop} (halone : PagesAlone P n s) (h : OnFile n s)
    (hoff : 0 ≤ off) (hlt : off < last) : PagesAlone P n (s.punchTurn n off last) := by
  rcases punchTurn_cases hoff hlt with ⟨ib, hm, -, -, heq⟩ | ⟨ib, hm, -, -, heq⟩ | ⟨-, heq⟩
  · rw [heq]
    exact halone
  · rw [heq]
    exact pagesAlone_dropIblkref halone h hm
  · rwa [heq]

/-- **One turn of the loop** clears the range up to the end of the page. -/
theorem cleared_punchTurn (h : OnFile n s) (halone : PagesAlone (PartlyIn off last) n s)
    (hoff : 0 ≤ off) (hlt : off < last) :
    Cleared n off (min (nextPage off) last) s (s.punchTurn n off last) := by
  have hlen := @toNat_nbytesInRange off last hlt
  have hnext := nextPage_eq hoff
  have hboff := offToBoff_eq hoff
  have hpoff := offInPage_eq hoff
  have hmod := Int.emod_nonneg off (by decide : (pageSize : ℤ) ≠ 0)
  rcases punchTurn_cases hoff hlt with ⟨ib, hm, hib, hpart, heq⟩ | ⟨ib, hm, hib, hmin, heq⟩ |
    ⟨hmiss, heq⟩
  · -- a part of the page is zeroed
    have hnot := hpart.2.2.2
    have hpos : 0 < toLoff (nbytesInRange off (nextPage off) last) :=
      nbytesInRange_pos (lt_nextPage off) hlt (nextPage_le off)
    have hto : toLoff (nbytesInRange off (nextPage off) last) = min (nextPage off) last - off := by
      rw [toLoff_of_lt (by unfold pageSize at *; omega)]
      exact hlen
    rw [heq]
    refine cleared_of_keeps rfl rfl (fun x hx hin => ?_) fun p hp => ?_
    · obtain ⟨hlo, hhi⟩ := hin
      have := h.offsets.aligned x hx
      have := h.offsets.aligned ib hm
      unfold pageSize at *
      omega
    · rw [byteAt_zeroRangeAt h hm (halone ib hm hpart) hoff hpos hp, hto]
      refine if_congr ?_ rfl rfl
      omega
  · -- the range covers the page
    rw [heq, hmin, hib]
    exact cleared_dropIblkref h hm
  · rw [heq]
    refine cleared_of_keeps rfl rfl (fun x hx hin => ?_) fun p hp => ?_
    · obtain ⟨hlo, hhi⟩ := hin
      have := hmiss x hx
      have := h.offsets.aligned x hx
      unfold pageSize at *
      omega
    · split
      · next hin =>
        have hat : offToBoff p = offToBoff off :=
          (offToBoff_eq_iff hp (offToBoff_emod off)).mpr (by unfold pageSize at *; omega)
        refine byteAt_of_missing ?_
        rwa [hat]
      · rfl

/-- What every turn keeps, the loop of `_punch_hole` keeps. -/
theorem OnFile.punchHoleLoop (h : OnFile n s) (hoff : 0 ≤ off) :
    OnFile n (s.punchHoleLoop n off last) := by
  fun_induction Sbi.punchHoleLoop s n off last with
  | case1 s off hlt nxt s₁ =>
    rename_i ih
    have h₁ : OnFile n s₁ := h.punchTurn hoff hlt
    exact ih h₁ (nextPage_nonneg hoff)
  | case2 s off hlt => exact h

/-- **The loop of `_punch_hole`** clears the range, if no other block of the file has a page that is
covered in part. -/
theorem cleared_punchHoleLoop (h : OnFile n s) (halone : PagesAlone (PartlyIn off last) n s)
    (hoff : 0 ≤ off) : Cleared n off last s (s.punchHoleLoop n off last) := by
  fun_induction Sbi.punchHoleLoop s n off last with
  | case1 s off hlt nxt s₁ =>
    rename_i ih
    have hnext := lt_nextPage off
    have h₁ : OnFile n s₁ := h.punchTurn hoff hlt
    have halone₁ : PagesAlone (PartlyIn nxt last) n s₁ :=
      fun x hx hp => pagesAlone_punchTurn halone h hoff hlt x hx (partlyIn_next hoff hp)
    have hturn : Cleared n off (min nxt last) s s₁ := cleared_punchTurn h halone hoff hlt
    rcases le_or_gt last nxt with hend | hmore
    · -- the range ends in this page
      rw [Sbi.punchHoleLoop, if_neg (Int.not_lt.mpr hend)]
      rwa [min_eq_right hend] at hturn
    · rw [min_eq_left hmore.le] at hturn
      exact hturn.trans (ih h₁ halone₁ (nextPage_nonneg hoff)) h.offsets hnext.le
        (nextPage_emod hoff) hmore.le
  | case2 s off hlt => exact cleared_empty (Int.not_lt.mp hlt)

theorem fBfree_dropIblkref :
    (s.dropIblkref n ib).fBfree = s.fBfree + if counts s ib.dblkref ≤ 1 then 1 else 0 := by
  obtain ⟨c₁, c₂, heq⟩ := @dropIblkref_eq s n ib
  set s₁ := s.setBlocks n ((s.blocksOf n).filter fun x => x.ptr ≠ ib.ptr)
  have hput : (s.dropIblkref n ib).fBfree = (s₁.putDblkref ib.dblkref).fBfree := by
    rw [heq]
    rfl
  have hcount : (s₁.dblkrefs ib.dblkref).refcnt = counts s ib.dblkref := rfl
  rw [hput, Sbi.putDblkref, hcount]
  by_cases hone : counts s ib.dblkref ≤ 1
  · rw [if_pos hone, if_pos (by omega)]
    rfl
  · rw [if_neg hone, if_neg (by omega)]
    rfl

/-- Free pages, and pages that the drop of all blocks of a file would free. -/
def Sbi.pagesWith (s : Sbi) (n : RecPtr) : ℕ × ℕ :=
  let lasts := (s.blocksOf n).countP fun ib => counts s ib.dblkref ≤ 1
  (s.pool.pages.length + lasts, s.fBfree + lasts)

/-- The counts of the other blocks stay when a block is dropped. -/
theorem counts_dropIblkref_of_mem (h : OnFile n s) (hm : ib ∈ s.blocksOf n)
    (halone : s.PageAlone n ib) {x : Iblkref} (hx : x ∈ (s.dropIblkref n ib).blocksOf n) :
    counts (s.dropIblkref n ib) x.dblkref = counts s x.dblkref := by
  obtain ⟨hx, hne⟩ := (mem_dropIblkref h hm).mp hx
  rw [counts_dropIblkref, Function.update_of_ne fun hd => hne (halone x hx hd)]

theorem pagesWith_dropIblkref (h : OnFile n s) (hm : ib ∈ s.blocksOf n)
    (halone : s.PageAlone n ib) : (s.dropIblkref n ib).pagesWith n = s.pagesWith n := by
  obtain ⟨held, hinv⟩ := h.inv
  obtain ⟨hpages, -, -⟩ := @regains_dropIblkref s n ib
  have hfree := @fBfree_dropIblkref s n ib
  have hsplit := (filter_perm (hinv.ptrNodup n) hm).countP_eq fun x => counts s x.dblkref ≤ 1
  have hrest : ((s.dropIblkref n ib).blocksOf n).countP
        (fun x => counts (s.dropIblkref n ib) x.dblkref ≤ 1) =
      ((s.dropIblkref n ib).blocksOf n).countP fun x => counts s x.dblkref ≤ 1 :=
    List.countP_congr fun x hx => by rw [counts_dropIblkref_of_mem h hm halone hx]
  rw [List.countP_cons, ← blocksOf_dropIblkref] at hsplit
  simp only [decide_eq_true_eq] at hsplit
  simp only [Sbi.pagesWith, hrest, hpages, hfree, hsplit, Prod.mk.injEq]
  omega

/-- **What the loop of `_punch_hole` frees**: the pages of the blocks it drops, as far as these are
the last ones by their counts. -/
theorem pagesWith_punchHoleLoop (h : OnFile n s) (halone : PagesDistinct n s) (hoff : 0 ≤ off) :
    (s.punchHoleLoop n off last).pagesWith n = s.pagesWith n ∧
      ∀ ib ∈ (s.punchHoleLoop n off last).blocksOf n,
        counts (s.punchHoleLoop n off last) ib.dblkref = counts s ib.dblkref := by
  fun_induction Sbi.punchHoleLoop s n off last with
  | case1 s off hlt nxt s₁ =>
    rename_i ih
    have h₁ : OnFile n s₁ := h.punchTurn hoff hlt
    have halone₁ : PagesDistinct n s₁ := fun ib hm =>
      pagesAlone_punchTurn (P := fun _ => True) (fun ib hm _ => halone ib hm) h hoff hlt ib hm trivial
    obtain ⟨hpages, hcounts⟩ := ih h₁ halone₁ (nextPage_nonneg hoff)
    have hsub : (s₁.punchHoleLoop n nxt last).blocksOf n ⊆ s₁.blocksOf n := by
      rw [(cleared_punchHoleLoop h₁ (fun ib hm _ => halone₁ ib hm) (nextPage_nonneg hoff)).blocks]
      exact List.filter_subset_self _
    have hturn : s₁.pagesWith n = s.pagesWith n ∧
        ∀ ib ∈ s₁.blocksOf n, counts s₁ ib.dblkref = counts s ib.dblkref := by
      change (s.punchTurn n off last).pagesWith n = _ ∧
        ∀ ib ∈ (s.punchTurn n off last).blocksOf n, counts (s.punchTurn n off last) _ = _
      rcases @punchTurn_cases s n off last hoff hlt with ⟨ib, -, -, -, heq⟩ | ⟨ib, hm, -, -, heq⟩ |
        ⟨-, heq⟩
      · rw [heq]
        exact ⟨rfl, fun _ _ => rfl⟩
      · rw [heq]
        exact ⟨pagesWith_dropIblkref h hm (halone ib hm),
          fun x hx => counts_dropIblkref_of_mem h hm (halone ib hm) hx⟩
      · rw [heq]
        exact ⟨rfl, fun _ _ => rfl⟩
    exact ⟨hpages.trans hturn.1, fun ib hm => (hcounts ib hm).trans (hturn.2 ib (hsub hm))⟩
  | case2 s off hlt => exact ⟨rfl, fun _ _ => rfl⟩

/-- The number of blocks a punched range loses. -/
def Sbi.blocksIn (s : Sbi) (n : RecPtr) (off last : ℤ) : ℕ :=
  (s.blocksOf n).countP fun ib => WhollyIn off last ib.off

theorem Cleared.length (h : Cleared n off last s s') :
    (s'.blocksOf n).length + s.blocksIn n off last = (s.blocksOf n).length := by
  have hsplit := List.length_eq_countP_add_countP (fun ib : Iblkref => WhollyIn off last ib.off)
    (l := s.blocksOf n)
  rw [h.blocks, ← List.countP_eq_length_filter, Sbi.blocksIn, hsplit, Nat.add_comm]
  simp

/-- The blocks in the range that are the last ones by their counts. -/
def Sbi.lastsIn (s : Sbi) (n : RecPtr) (off last : ℤ) : ℕ :=
  ((s.blocksOf n).filter fun ib => WhollyIn off last ib.off).countP fun ib =>
    counts s ib.dblkref ≤ 1

/-- They are all that lie in it just when no count is too high. -/
theorem lastsIn_eq_iff : s.lastsIn n off last = s.blocksIn n off last ↔
    ∀ ib ∈ s.blocksOf n, WhollyIn off last ib.off → counts s ib.dblkref ≤ 1 := by
  have hlen : s.blocksIn n off last =
      ((s.blocksOf n).filter fun ib => WhollyIn off last ib.off).length :=
    List.countP_eq_length_filter
  rw [hlen, Sbi.lastsIn, List.countP_eq_length]
  simp only [List.mem_filter, decide_eq_true_eq, and_imp]

/-- What a punch is to do to a file: the bytes of the range are zero and the others as before, the
blocks in the range are gone and no others, and the pages of these are free. -/
structure PunchExact (n : RecPtr) (off last : ℤ) (s s' : Sbi) : Prop where
  zeros : ∀ p, off ≤ p → p < last → s'.byteAt n p = 0
  others : ∀ p, 0 ≤ p → p < off ∨ last ≤ p → s'.byteAt n p = s.byteAt n p
  size : (s'.inodes n).iSize = (s.inodes n).iSize
  inside : ∀ ib ∈ s'.blocksOf n, ¬ WhollyIn off last ib.off
  outside : ∀ ib ∈ s.blocksOf n, ¬ WhollyIn off last ib.off → ib ∈ s'.blocksOf n
  blocks : (s'.inodes n).iBlocks + s.blocksIn n off last = (s.inodes n).iBlocks
  pages : s'.pool.pages.length = s.pool.pages.length + s.blocksIn n off last
  free : s'.fBfree = s.fBfree + s.blocksIn n off last

/-- **`_punch_hole` is exact just when** every block in the range is counted once. A block that only
this file has is counted higher where another file had it and got a copy of its own: that leaves the
count as it was. Everything but the free pages is right whatever the counts are. -/
theorem punchHole_exact_iff (apiMapMaxSize : ℕ) (x : Sys)
    (h : ((toyfs apiMapMaxSize).restrict fun _ a => a.InFile).Reachable x) (n : RecPtr)
    (hreg : (x.sbi.inodes n).iMode = .reg) (hun : PagesDistinct n x.sbi) (off : ℤ) (len : UInt64)
    (hoff : 0 ≤ off) (hend : off + len.toNat ≤ 2 ^ 50) :
    PunchExact n off (off + len.toNat) x.sbi (x.sbi.punchHole n off len) ↔
      ∀ ib ∈ x.sbi.blocksOf n, WhollyIn off (off + len.toNat) ib.off →
        counts x.sbi ib.dblkref = 1 := by
  set s := x.sbi
  set last := off + (len.toNat : ℤ)
  set s' := s.punchHole n off len with hs'
  have hon : OnFile n s := (toyfs_filesOk h).onFile hreg
  have hto : toLoff len = len.toNat := toLoff_of_lt (by omega)
  have hpunch : s' = s.punchHoleLoop n off last := by
    simp only [hs', last, Sbi.punchHole, hto]
  have hclear : Cleared n off last s s' := by
    rw [hpunch]
    exact cleared_punchHoleLoop hon (fun ib hm _ => hun ib hm) hoff
  have hon' : OnFile n s' := by
    rw [hpunch]
    exact hon.punchHoleLoop hoff
  obtain ⟨hpages, hcounts⟩ : (s.punchHoleLoop n off last).pagesWith n = _ ∧ _ :=
    pagesWith_punchHoleLoop hon hun hoff
  rw [← hpunch] at hpages hcounts
  have hlasts : (s'.blocksOf n).countP (fun ib => counts s' ib.dblkref ≤ 1) + s.lastsIn n off last =
      (s.blocksOf n).countP fun ib => counts s ib.dblkref ≤ 1 := by
    rw [List.countP_congr fun ib hm => by rw [hcounts ib hm], hclear.blocks, Nat.add_comm,
      List.countP_eq_countP_filter_add (s.blocksOf n) _ fun ib => WhollyIn off last ib.off]
    simp only [Sbi.lastsIn, decide_not]
  obtain ⟨hpool, hfree⟩ := Prod.mk.inj hpages
  have hlength := hclear.length
  have hblocks : (s.inodes n).iBlocks = (s.blocksOf n).length := hon.file.list.blocks
  have hblocks' : (s'.inodes n).iBlocks = (s'.blocksOf n).length := hon'.file.list.blocks
  have hone : (∀ ib ∈ s.blocksOf n, WhollyIn off last ib.off → counts s ib.dblkref = 1) ↔
      s.lastsIn n off last = s.blocksIn n off last := by
    rw [lastsIn_eq_iff]
    refine forall₂_congr fun ib hm => imp_congr_right fun _ => ?_
    have := hon.counts_pos hm
    omega
  rw [hone]
  refine ⟨fun hexact => ?_, fun heq => ?_⟩
  · have := hexact.pages
    omega
  · refine ⟨fun p hlo hhi => ?_, fun p hp hout => ?_, hclear.size, fun ib hm => ?_,
      fun ib hm hin => ?_, by omega, by omega, by omega⟩
    · rw [hclear.bytes p (hoff.trans hlo), if_pos ⟨hlo, hhi⟩]
    · rw [hclear.bytes p hp, if_neg (by omega)]
    · rw [hclear.blocks] at hm
      exact of_decide_eq_true (List.mem_filter.mp hm).2
    · rw [hclear.blocks]
      exact List.mem_filter.mpr ⟨hm, decide_eq_true hin⟩

/-- A file of three pages, the first of them shared, is punched from the end of that one into the
third. -/
theorem punchHole_exact_iff_written : ∃ x,
    ((toyfs 65536).restrict fun _ a => a.InFile).Reachable x ∧
    (∃ ib ∈ x.sbi.blocksOf ⟨1023, 1⟩, counts x.sbi ib.dblkref = 2) ∧
    x.sbi.blocksIn ⟨1023, 1⟩ 4000 9000 = 1 ∧
    PunchExact ⟨1023, 1⟩ 4000 9000 x.sbi (x.sbi.punchHole ⟨1023, 1⟩ 4000 5000) := by
  obtain ⟨x, hx, hp⟩ := exists_restrict_of_mounted 65536 (fun _ a => a.InFile)
    [.newInode ⟨1023, 0⟩ ⟨.reg, 0, 0, [], fun _ => 0, false⟩ (some 2),
      .newInode ⟨1023, 0⟩ ⟨.reg, 0, 0, [], fun _ => 0, false⟩ (some 3),
      .write ⟨1023, 1⟩ (fun _ => 7) 0 12000, .clone ⟨1023, 1⟩ ⟨1023, 2⟩ 0 0 4096]
    (p := fun x => decide ((x.sbi.inodes ⟨1023, 1⟩).iMode = .reg ∧
      PagesDistinct ⟨1023, 1⟩ x.sbi ∧
      (∃ ib ∈ x.sbi.blocksOf ⟨1023, 1⟩, counts x.sbi ib.dblkref = 2) ∧
      x.sbi.blocksIn ⟨1023, 1⟩ 4000 9000 = 1 ∧
      ∀ ib ∈ x.sbi.blocksOf ⟨1023, 1⟩, WhollyIn 4000 9000 ib.off → counts x.sbi ib.dblkref = 1))
    (by decide +kernel)
  obtain ⟨hreg, hun, hshared, hin, hone⟩ := of_decide_eq_true hp
  exact ⟨x, hx, hshared, hin, (punchHole_exact_iff 65536 x hx ⟨1023, 1⟩ hreg hun 4000 5000
    (by decide) (by decide)).mpr hone⟩

/-- A file is cloned and its clone written: the block that the file has alone is counted twice, and
when it is punched its page stays. -/
theorem punched_page_stays : ¬ ∀ x, ((toyfs 65536).restrict fun _ a => a.InFile).Reachable x →
    ∀ n, (x.sbi.inodes n).iMode = .reg → NoShared n x.sbi → ∀ (off : ℤ) (len : UInt64), 0 ≤ off →
      0 < len → off + len.toNat ≤ 2 ^ 50 →
      PunchExact n off (off + len.toNat) x.sbi (x.sbi.punchHole n off len) := by
  intro hall
  let last : Act := .write ⟨1023, 2⟩ (fun _ => 8) 0 5
  obtain ⟨x, hx, hp⟩ := exists_restrict_of_mounted 65536 (fun _ a => a.InFile)
    [.newInode ⟨1023, 0⟩ ⟨.reg, 0, 0, [], fun _ => 0, false⟩ (some 2),
      .newInode ⟨1023, 0⟩ ⟨.reg, 0, 0, [], fun _ => 0, false⟩ (some 3),
      .write ⟨1023, 1⟩ (fun _ => 7) 0 5, .clone ⟨1023, 1⟩ ⟨1023, 2⟩ 0 0 0]
    (p := fun x => decide ((x.sbi.inodes ⟨1023, 1⟩).iMode = .reg ∧
      ∀ ib ∈ x.sbi.blocksOf ⟨1023, 1⟩, counts x.sbi ib.dblkref ≤ 2 ∧
        ∃ y ∈ x.sbi.blocksOf ⟨1023, 2⟩, y.dblkref = ib.dblkref) &&
      (x.next 65536 last).any fun (x' : Sys) => decide ((x'.sbi.inodes ⟨1023, 1⟩).iMode = .reg ∧
        (∀ ib ∈ x.sbi.blocksOf ⟨1023, 1⟩, ∀ y ∈ x'.sbi.blocksOf ⟨1023, 2⟩,
          y.dblkref ≠ ib.dblkref) ∧
        x'.sbi.blocksIn ⟨1023, 1⟩ 0 4096 = 1 ∧
        (x'.sbi.punchHole ⟨1023, 1⟩ 0 4096).fBfree = x'.sbi.fBfree))
    (by decide +kernel)
  obtain ⟨hp, hlast⟩ := Bool.and_eq_true_iff.mp hp
  obtain ⟨hreg, htwo⟩ := of_decide_eq_true hp
  obtain ⟨x', hn, hp'⟩ := (Option.any_eq_true _ _).mp hlast
  obtain ⟨hreg', hnone, hin, hfree⟩ := of_decide_eq_true hp'
  obtain ⟨hsend, hs, -, -⟩ := Sys.next_cases hn
  have hon : OnFile ⟨1023, 1⟩ x.sbi := (toyfs_filesOk hx).onFile hreg
  obtain ⟨held, hinv⟩ := hon.inv
  have hserve : Serves ⟨1023, 2⟩ ∅ _ held x.sbi
      (x.sbi.write 65536 ⟨1023, 2⟩ (fun _ => 8) (toLoff 0) 5).2 := write_serves hinv hsend
  have hun : NoShared ⟨1023, 1⟩ x'.sbi := hon.noShared_of_copied htwo (by decide)
    (Option.some.inj hs ▸ hserve.op.step.others) hnone
  have hfile : last.InFile := trivial
  have hexact := hall x' (hx.step ⟨hfile, hn⟩) ⟨1023, 1⟩ hreg' hun 0 4096 (by decide) (by decide)
    (by decide)
  have hgrown := hexact.free
  rw [hfree, show (0 : ℤ) + (4096 : UInt64).toNat = 4096 by decide, hin] at hgrown
  omega

/-! ## Zeroing a range -/

/-- One turn of the loop goes on with the offset of the next block. -/
theorem zeroRangeLoop_cons (hlt : ib.off < last) : ∃ off', (∀ x ∈ l.head?, off' = x.off) ∧
    s.zeroRangeLoop off last (ib :: l) =
      (s.zeroRangeAt ib off (nbytesInRange off (nextPage ib.off) last)).zeroRangeLoop off' last l := by
  cases l with
  | nil => exact ⟨off, nofun, by simp only [Sbi.zeroRangeLoop, if_pos hlt]⟩
  | cons y rest =>
    refine ⟨y.off, fun x hx => ?_, by rw [Sbi.zeroRangeLoop, if_pos hlt]⟩
    obtain rfl := Option.some.inj hx
    rfl

theorem zeroRangeLoop_stop (hge : ¬ ib.off < last) : s.zeroRangeLoop off last (ib :: l) = s := by
  cases l <;> rw [Sbi.zeroRangeLoop, if_neg hge]

/-- **The loop of `_zero_range`** from a block on clears the range in the pages of the list. -/
theorem byteAt_zeroRangeLoop (h : OnFile n s) (hun : PagesDistinct n s) (hlast : last < 2 ^ 63)
    (hoffs : OffsetsOk l) (hl : ∀ ib ∈ l, ib ∈ s.blocksOf n) (hhead : ∀ ib ∈ l.head?, off = ib.off)
    (hp : 0 ≤ p) : (s.zeroRangeLoop off last l).byteAt n p =
      if p < last ∧ ∃ ib ∈ l, ib.off = offToBoff p then 0 else s.byteAt n p := by
  fun_induction Sbi.zeroRangeLoop s off last l with
  | case1 s off => simp
  | case2 s off ib rest hlt s₁ off' =>
    rename_i ih
    obtain rfl : off = ib.off := hhead ib rfl
    have hm := hl ib List.mem_cons_self
    have hal := h.offsets.aligned ib hm
    have hnn := h.offsets.nonneg ib hm
    have hpos : 0 < toLoff (nbytesInRange ib.off (nextPage ib.off) last) :=
      nbytesInRange_pos (lt_nextPage _) hlt (nextPage_le _)
    have hlen := @toNat_nbytesInRange ib.off last hlt
    have hto : toLoff (nbytesInRange ib.off (nextPage ib.off) last) =
        min (nextPage ib.off) last - ib.off := by
      rw [toLoff_of_lt (by omega)]
      exact hlen
    have hnext := nextPage_of_aligned hal
    have h₁ : OnFile n s₁ := onFile_zeroRangeAt h hnn hpos
    have hsorted := List.pairwise_cons.mp hoffs.sorted
    have hat := @offToBoff_eq_iff p hp ib.off hal
    have hrest : (s₁.zeroRangeLoop off' last rest).byteAt n p =
        if p < last ∧ ∃ x ∈ rest, x.off = offToBoff p then 0 else s₁.byteAt n p := by
      refine ih h₁ hun (hoffs.sublist (List.sublist_cons_self ib rest))
        (fun x hx => hl x (List.mem_cons_of_mem _ hx)) fun x hx => ?_
      cases rest with
      | nil => cases hx
      | cons y rest' =>
        obtain rfl := Option.some.inj hx
        rfl
    have hstep : s₁.byteAt n p =
        if p < last ∧ ib.off = offToBoff p then 0 else s.byteAt n p := by
      rw [byteAt_zeroRangeAt h hm (hun ib hm) hnn hpos hp, offInPage_of_aligned hal, hto, hnext]
      refine if_congr ?_ rfl rfl
      rw [eq_comm (a := ib.off), hat]
      omega
    rw [hrest, hstep, ← ite_or]
    refine if_congr ?_ rfl rfl
    simp only [List.mem_cons, exists_eq_or_imp]
    rw [← and_or_left]
    exact and_congr_right fun _ => or_comm
  | case3 s off ib rest hlt =>
    rw [if_neg]
    rintro ⟨hplt, x, hx, hoff⟩
    -- the offsets after this one are larger still
    have hsorted := List.pairwise_cons.mp hoffs.sorted
    have hle : ib.off ≤ x.off := by
      rcases List.mem_cons.mp hx with rfl | hx
      · exact le_rfl
      · exact (hsorted.1 x hx).le
    have := offToBoff_le hp
    omega

/-- The first block `_zero_range` finds, when the range starts in a hole before it. -/
def Sbi.AfterHole (s : Sbi) (n : RecPtr) (off last : ℤ) (ib : Iblkref) : Prop :=
  (fetchIblkrefFrom (s.blocksOf n) off).head? = some ib ∧ offToBoff off < ib.off ∧ ib.off < last

/-- The block of a position of a range is on the list `_zero_range` goes down. -/
theorem mem_fetchIblkrefFrom_of_le (h : OffsetsOk l) (hoff : 0 ≤ off) (hle : off ≤ p) (hm : ib ∈ l)
    (hib : ib.off = offToBoff p) : ib ∈ fetchIblkrefFrom l off := by
  refine (mem_fetchIblkrefFrom h).mpr ⟨hm, ?_⟩
  rw [hib, offToBoff_eq hoff, offToBoff_eq (hoff.trans hle)]
  unfold pageSize
  omega

/-- A range without a block: nothing is done, and nothing is there. -/
theorem byteAt_zeroRange_of_none {len : UInt64} (h : OnFile n s) (hoff : 0 ≤ off)
    (hno : ∀ ib ∈ (fetchIblkrefFrom (s.blocksOf n) off).head?, off + toLoff len ≤ ib.off) :
    (s.zeroRange n off len).byteAt n p =
      if off ≤ p ∧ p < off + toLoff len then 0 else s.byteAt n p := by
  have hsorted := (h.offsets.sublist (List.dropWhile_sublist fun ib => ib.off < offToBoff off)).sorted
  have hself : s.zeroRange n off len = s := by
    unfold Sbi.zeroRange
    rcases hl : fetchIblkrefFrom (s.blocksOf n) off with _ | ⟨ib, rest⟩
    · rw [Sbi.zeroRangeLoop]
    · exact zeroRangeLoop_stop (Int.not_lt.mpr (hno ib (by rw [hl]; rfl)))
  rw [hself]
  split
  · next hin =>
    refine byteAt_of_missing fun x hx hxoff => ?_
    have hx' := mem_fetchIblkrefFrom_of_le h.offsets hoff hin.1 hx hxoff
    have hle := offToBoff_le (hoff.trans hin.1)
    unfold fetchIblkrefFrom at hno hx'
    rcases hl : (s.blocksOf n).dropWhile (fun ib => ib.off < offToBoff off) with _ | ⟨ib, rest⟩
    · rw [hl] at hx'
      cases hx'
    · rw [hl] at hx' hno hsorted
      have hge := hno ib rfl
      rcases List.mem_cons.mp hx' with rfl | hx'
      · omega
      · have := (List.pairwise_cons.mp hsorted).1 x hx'
        omega
  · rfl

/-- The first block that is found, and the rest of the list. -/
theorem byteAt_zeroRange_cons {len : UInt64} {rest : List Iblkref} (h : OnFile n s)
    (hun : PagesDistinct n s) (hoff : 0 ≤ off) (hlen : 0 < toLoff len)
    (hlast : off + toLoff len < 2 ^ 63) (hp : 0 ≤ p)
    (hl : fetchIblkrefFrom (s.blocksOf n) off = ib :: rest) (hbefore : ib.off < off + toLoff len) :
    (s.zeroRange n off len).byteAt n p =
      if p < off + toLoff len ∧ ∃ x ∈ rest, x.off = offToBoff p then 0
      else if ib.off + offInPage off ≤ p ∧ p < ib.off + min (pageSize : ℤ)
        (offInPage off + (min (nextPage ib.off) (off + toLoff len) - off)) then 0
      else s.byteAt n p := by
  have hpage := offToBoff_add_offInPage hoff
  have hlt := offInPage_lt hoff
  have hsub : OffsetsOk (ib :: rest) := hl ▸ h.offsets.sublist (List.dropWhile_sublist _)
  have hib := (mem_fetchIblkrefFrom h.offsets).mp (hl ▸ List.mem_cons_self)
  have hnext := nextPage_of_aligned (h.offsets.aligned ib hib.1)
  have hlt' : off < nextPage ib.off := by
    have := hib.2
    omega
  obtain ⟨off', hoff', heq⟩ := @zeroRangeLoop_cons s ib rest off _ hbefore
  have hpos := toLoff_nbytesInRange_pos hlt' (show off < off + toLoff len by omega) (by omega)
  have hto := toLoff_nbytesInRange hlt' (show off < off + toLoff len by omega) (by omega)
  have hfirst := byteAt_zeroRangeAt h hib.1 (hun ib hib.1) hoff hpos hp
  rw [hto] at hfirst
  unfold Sbi.zeroRange
  rw [hl, heq, ← hfirst]
  exact byteAt_zeroRangeLoop (onFile_zeroRangeAt h hoff hpos) hun hlast
    (hsub.sublist (List.sublist_cons_self ib rest))
    (fun x hx => mem_of_mem_fetchFrom (hl ▸ List.mem_cons_of_mem _ hx)) hoff' hp

/-- **What `_zero_range` makes of a file**: it clears the range, except in the page of the first
block when the range starts in a hole before it. Of that page it clears what lies after the
place where the range starts in its own page. -/
theorem byteAt_zeroRange {len : UInt64} (h : OnFile n s) (hun : PagesDistinct n s)
    (hoff : 0 ≤ off) (hlen : 0 < toLoff len) (hlast : off + toLoff len < 2 ^ 63) (hp : 0 ≤ p) :
    (∀ ib, s.AfterHole n off (off + toLoff len) ib → ib.off = offToBoff p →
      (s.zeroRange n off len).byteAt n p =
        if ib.off + offInPage off ≤ p then 0 else s.byteAt n p) ∧
    ((∀ ib, s.AfterHole n off (off + toLoff len) ib → ib.off ≠ offToBoff p) →
      (s.zeroRange n off len).byteAt n p =
        if off ≤ p ∧ p < off + toLoff len then 0 else s.byteAt n p) := by
  by_cases hno : ∀ ib ∈ (fetchIblkrefFrom (s.blocksOf n) off).head?, off + toLoff len ≤ ib.off
  · exact ⟨fun ib hib => absurd hib.2.2 (Int.not_lt.mpr (hno ib hib.1)),
      fun _ => byteAt_zeroRange_of_none h hoff hno⟩
  obtain ⟨ib, hhead, hbefore⟩ : ∃ ib, (fetchIblkrefFrom (s.blocksOf n) off).head? = some ib ∧
      ib.off < off + toLoff len := by
    push Not at hno
    exact hno
  obtain ⟨rest, hl⟩ : ∃ rest, fetchIblkrefFrom (s.blocksOf n) off = ib :: rest :=
    List.head?_eq_some_iff.mp hhead
  rw [byteAt_zeroRange_cons h hun hoff hlen hlast hp hl hbefore]
  have hpage := offToBoff_add_offInPage hoff
  have hnn := offInPage_nonneg hoff
  have hlt := offInPage_lt hoff
  have hboff := offToBoff_le hp
  have hboffal := offToBoff_emod off
  have hsub : OffsetsOk (ib :: rest) := hl ▸ h.offsets.sublist (List.dropWhile_sublist _)
  have hafter := (List.pairwise_cons.mp hsub.sorted).1
  have hib := (mem_fetchIblkrefFrom h.offsets).mp (hl ▸ List.mem_cons_self)
  have hal := h.offsets.aligned ib hib.1
  have hnext := nextPage_of_aligned hal
  have hat := @offToBoff_eq_iff p hp ib.off hal
  constructor
  · rintro x ⟨hx, hgap, -⟩ hxp
    obtain rfl := Option.some.inj (hhead.symm.trans hx)
    -- the hole takes the place of the first block past the end of its page
    rw [if_neg]
    · refine if_congr ⟨fun hin => hin.1, fun hle => ⟨hle, ?_⟩⟩ rfl rfl
      have hin := hat.mp hxp.symm
      unfold pageSize at *
      omega
    · rintro ⟨-, y, hy, hyoff⟩
      have := hafter y hy
      omega
  · intro hnot
    have hcase : ib.off = offToBoff off ∨ ib.off ≠ offToBoff p := by
      rcases eq_or_lt_of_le hib.2 with heq | hgap
      · exact .inl heq.symm
      · exact .inr (hnot ib ⟨hhead, hgap, hbefore⟩)
    by_cases hin : off ≤ p ∧ p < off + toLoff len
    · rw [if_pos hin]
      split
      · rfl
      split
      · rfl
      · next hrest hfirst =>
        refine byteAt_of_missing fun x hx hxoff => ?_
        have hx' := mem_fetchIblkrefFrom_of_le h.offsets hoff hin.1 hx hxoff
        rw [hl] at hx'
        rcases List.mem_cons.mp hx' with rfl | hx'
        · have := hcase.resolve_right (not_not.mpr hxoff)
          have := hat.mp hxoff.symm
          omega
        · exact hrest ⟨hin.2, x, hx', hxoff⟩
    · rw [if_neg hin, if_neg, if_neg]
      · rintro ⟨hlo, hhi⟩
        have hin : offToBoff p = ib.off := hat.mpr ⟨by omega, by omega⟩
        have := hcase.resolve_right (not_not.mpr hin.symm)
        omega
      · rintro ⟨hplt, y, hy, hyoff⟩
        have := hafter y hy
        omega

theorem inodes_zeroRangeLoop : (s.zeroRangeLoop off last l).inodes = s.inodes := by
  fun_induction Sbi.zeroRangeLoop s off last l with
  | case1 s off => rfl
  | case2 s off ib rest hlt s₁ off' =>
    rename_i ih
    exact ih
  | case3 s off ib rest hlt => rfl

/-- The file has zeros where `_zero_range` is off: in the first block after the hole the range
starts in, before the place of the start in its page if that is in the range, and from there
on if that is past the range. -/
def Sbi.ZeroRangeFits (s : Sbi) (n : RecPtr) (off last : ℤ) : Prop :=
  ∀ ib, s.AfterHole n off last ib → ∀ p, offToBoff p = ib.off → 0 ≤ p →
    p < (s.inodes n).iSize.toNat →
    (p < ib.off + offInPage off ∧ p < last) ∨ (ib.off + offInPage off ≤ p ∧ last ≤ p) →
    s.byteAt n p = 0

/-- **`_zero_range` zeroes the range and nothing else just when** the range does not start in a
hole before the first block it meets, or the bytes it is wrong about are zero anyway. -/
theorem zeroRange_exact_iff (apiMapMaxSize : ℕ) (x : Sys)
    (h : ((toyfs apiMapMaxSize).restrict fun _ a => a.InFile).Reachable x) (n : RecPtr)
    (hreg : (x.sbi.inodes n).iMode = .reg) (hun : PagesDistinct n x.sbi) (off : ℤ) (len : UInt64)
    (hoff : 0 ≤ off) (hlen : 0 < len) (hend : off + len.toNat ≤ 2 ^ 50) :
    let s := x.sbi
    let s' := s.zeroRange n off len
    let last := off + len.toNat
    ((s'.inodes n).iSize = (s.inodes n).iSize ∧
      (∀ p, off ≤ p → p < last → p < (s.inodes n).iSize.toNat → s'.byteAt n p = 0) ∧
      ∀ p, 0 ≤ p → p < off ∨ last ≤ p → p < (s.inodes n).iSize.toNat →
        s'.byteAt n p = s.byteAt n p) ↔ s.ZeroRangeFits n off last := by
  intro s s' last
  have hon : OnFile n s := (toyfs_filesOk h).onFile hreg
  have hto : toLoff len = len.toNat := toLoff_of_lt (by omega)
  have hpos : 0 < len.toNat := UInt64.lt_iff_toNat_lt.mp hlen
  have hspec : ∀ p, 0 ≤ p → (∀ ib, s.AfterHole n off last ib → ib.off = offToBoff p →
      s'.byteAt n p = if ib.off + offInPage off ≤ p then 0 else s.byteAt n p) ∧
      ((∀ ib, s.AfterHole n off last ib → ib.off ≠ offToBoff p) →
        s'.byteAt n p = if off ≤ p ∧ p < last then 0 else s.byteAt n p) := by
    intro p hp
    have hlt : 0 < toLoff len := by omega
    have hbytes := byteAt_zeroRange hon hun hoff hlt (by omega) hp
    rwa [hto] at hbytes
  have hsize : (s'.inodes n).iSize = (s.inodes n).iSize := by
    rw [show s'.inodes = s.inodes from inodes_zeroRangeLoop]
  -- the range starts before the page of the first block after a hole
  have hstart : ∀ ib, s.AfterHole n off last ib → off < ib.off := by
    rintro ib ⟨hib, hgap, -⟩
    have hal := hon.offsets.aligned ib (mem_of_mem_fetchFrom (List.mem_of_mem_head? hib))
    have := offToBoff_eq hoff
    unfold pageSize at *
    omega
  constructor
  · rintro ⟨-, hzero, hkeep⟩ ib hib p hat hp hlt hwrong
    have hlo := hstart ib hib
    have hle := offToBoff_le hp
    have hbyte := (hspec p hp).1 ib hib hat.symm
    rcases hwrong with ⟨hbefore, hin⟩ | ⟨hafter, hout⟩
    · rw [if_neg (Int.not_le.mpr hbefore)] at hbyte
      rw [← hbyte]
      exact hzero p (by omega) hin hlt
    · rw [if_pos hafter] at hbyte
      rw [← hbyte]
      exact (hkeep p hp (.inr hout) hlt).symm
  · intro hfits
    refine ⟨hsize, fun p hlo hhi hlt => ?_, fun p hp hout hlt => ?_⟩
    · have hp : 0 ≤ p := hoff.trans hlo
      by_cases hex : ∃ ib, s.AfterHole n off last ib ∧ ib.off = offToBoff p
      · obtain ⟨ib, hib, hat⟩ := hex
        rw [(hspec p hp).1 ib hib hat]
        split
        · rfl
        · next hbefore => exact hfits ib hib p hat.symm hp hlt (.inl ⟨Int.not_le.mp hbefore, hhi⟩)
      · rw [(hspec p hp).2 fun ib hib hat => hex ⟨ib, hib, hat⟩, if_pos ⟨hlo, hhi⟩]
    · by_cases hex : ∃ ib, s.AfterHole n off last ib ∧ ib.off = offToBoff p
      · obtain ⟨ib, hib, hat⟩ := hex
        have hle := offToBoff_le hp
        have hlo := hstart ib hib
        rw [(hspec p hp).1 ib hib hat]
        split
        · next hafter =>
          exact (hfits ib hib p hat.symm hp hlt (.inr ⟨hafter, by omega⟩)).symm
        · rfl
      · rw [(hspec p hp).2 fun ib hib hat => hex ⟨ib, hib, hat⟩, if_neg (by omega)]

/-- A file with one page of data is zeroed from that page on. -/
theorem zeroRange_exact_iff_aligned : ∃ x,
    ((toyfs 65536).restrict fun _ a => a.InFile).Reachable x ∧
    (x.sbi.inodes ⟨1023, 1⟩).iSize = 100 ∧
    (((x.sbi.zeroRange ⟨1023, 1⟩ 50 20).inodes ⟨1023, 1⟩).iSize = 100 ∧
      (∀ p, 50 ≤ p → p < 70 → p < 100 → (x.sbi.zeroRange ⟨1023, 1⟩ 50 20).byteAt ⟨1023, 1⟩ p = 0) ∧
      ∀ p, 0 ≤ p → p < 50 ∨ 70 ≤ p → p < 100 →
        (x.sbi.zeroRange ⟨1023, 1⟩ 50 20).byteAt ⟨1023, 1⟩ p = x.sbi.byteAt ⟨1023, 1⟩ p) := by
  obtain ⟨x, hx, hp⟩ := exists_restrict_of_mounted 65536 (fun _ a => a.InFile)
    [.newInode ⟨1023, 0⟩ ⟨.reg, 0, 0, [], fun _ => 0, false⟩ (some 2),
      .write ⟨1023, 1⟩ (fun _ => 7) 0 100]
    (p := fun x => (x.sbi.inodes ⟨1023, 1⟩).iMode == .reg &&
      decide (PagesDistinct ⟨1023, 1⟩ x.sbi) &&
      (x.sbi.inodes ⟨1023, 1⟩).iSize == 100 &&
      ((fetchIblkrefFrom (x.sbi.blocksOf ⟨1023, 1⟩) 50).head?.map Iblkref.off) == some 0)
    (by decide +kernel)
  simp only [Bool.and_eq_true, beq_iff_eq, decide_eq_true_eq] at hp
  obtain ⟨⟨⟨hreg, hun⟩, hsize⟩, hhead⟩ := hp
  have hiff := zeroRange_exact_iff 65536 x hx ⟨1023, 1⟩ hreg hun 50 20 (by decide) (by decide) (by decide)
  refine ⟨x, hx, hsize, ?_⟩
  have hspec := hiff.mpr fun ib hib => by
    obtain ⟨hib, hgap, -⟩ := hib
    rw [hib] at hhead
    have hzero : ib.off = 0 := Option.some.inj hhead
    rw [hzero] at hgap
    exact absurd hgap (by decide)
  have hlast : (50 : ℤ) + (20 : UInt64).toNat = 70 := by decide
  have hend : ((100 : UInt64).toNat : ℤ) = 100 := by decide
  simp only [hlast, hsize, hend] at hspec
  exact hspec

/-- A hole of a page and a page of data, of which the first bytes are to be zeroed with the
hole from its place `100` on: they are not, and the bytes after the range are. -/
theorem zeroRange_starts_late : ¬ ∀ x, ((toyfs 65536).restrict fun _ a => a.InFile).Reachable x →
    ∀ n, (x.sbi.inodes n).iMode = .reg → NoShared n x.sbi → ∀ (off : ℤ) (len : UInt64), 0 ≤ off →
      0 < len → off + len.toNat ≤ 2 ^ 50 →
      (∀ p, off ≤ p → p < off + len.toNat → p < (x.sbi.inodes n).iSize.toNat →
        (x.sbi.zeroRange n off len).byteAt n p = 0) ∧
      ∀ p, 0 ≤ p → p < off ∨ off + len.toNat ≤ p → p < (x.sbi.inodes n).iSize.toNat →
        (x.sbi.zeroRange n off len).byteAt n p = x.sbi.byteAt n p := by
  intro hall
  obtain ⟨x, hx, hp⟩ := exists_restrict_of_mounted 65536 (fun _ a => a.InFile)
    [.newInode ⟨1023, 0⟩ ⟨.reg, 0, 0, [], fun _ => 0, false⟩ (some 2),
      .write ⟨1023, 1⟩ (fun _ => 7) 4096 4096]
    (p := fun x => (x.sbi.inodes ⟨1023, 1⟩).iMode == .reg &&
      decide (∀ ib ∈ x.sbi.blocksOf ⟨1023, 1⟩, counts x.sbi ib.dblkref ≤ 1) &&
      (x.sbi.inodes ⟨1023, 1⟩).iSize == 8192 &&
      (x.sbi.zeroRange ⟨1023, 1⟩ 100 4096).byteAt ⟨1023, 1⟩ 4096 == 7)
    (by decide +kernel)
  simp only [Bool.and_eq_true, beq_iff_eq, decide_eq_true_eq] at hp
  obtain ⟨⟨⟨hreg, hone⟩, hsize⟩, hbyte⟩ := hp
  have hun : NoShared ⟨1023, 1⟩ x.sbi := ((toyfs_filesOk hx).onFile hreg).noShared hone
  obtain ⟨hzero, -⟩ := hall x hx ⟨1023, 1⟩ hreg hun 100 4096 (by decide) (by decide) (by decide)
  have hz := hzero 4096 (by decide) (by decide) (by rw [hsize]; decide)
  rw [hbyte] at hz
  cases hz

/-! ## Collapsing a range -/

/-- The blocks before the range stay, and those after it move down. -/
theorem mem_collapseRange {len : UInt64} (h : OffsetsOk ((s.punchHole n off len).blocksOf n))
    {x : Iblkref} : x ∈ (s.collapseRange n off len).blocksOf n ↔
      (x ∈ (s.punchHole n off len).blocksOf n ∧ x.off < offToBoff off) ∨
      ∃ y ∈ (s.punchHole n off len).blocksOf n, offToBoff off ≤ y.off ∧
        x = { y with off := y.off - toLoff len } := by
  set s₁ := s.punchHole n off len with hs₁
  have hblocks : (s.collapseRange n off len).blocksOf n =
      (s₁.blocksOf n).takeWhile (fun ib => ib.off < offToBoff off) ++
        (fetchIblkrefFrom (s₁.blocksOf n) off).map fun ib =>
          { ib with off := ib.off - toLoff len } := by
    unfold Sbi.collapseRange
    rw [← hs₁]
    simp only
    split
    · rw [Sbi.setBlocks, blocksOf_setInode, Sbi.setSize, blocksOf_setInode]
      rfl
    · rw [Sbi.setBlocks, blocksOf_setInode]
  have hhead : x ∈ (s₁.blocksOf n).takeWhile (fun ib => ib.off < offToBoff off) ↔
      x ∈ s₁.blocksOf n ∧ x.off < offToBoff off := by
    refine ⟨fun hm => ⟨(List.takeWhile_sublist _).subset hm, ?_⟩, ?_⟩
    · have hlt := List.mem_takeWhile_imp hm
      rwa [decide_eq_true_eq] at hlt
    · rintro ⟨hm, hlt⟩
      rw [← List.takeWhile_append_dropWhile (p := fun ib : Iblkref => ib.off < offToBoff off)
        (l := s₁.blocksOf n)] at hm
      rcases List.mem_append.mp hm with hm | hm
      · exact hm
      · have := offToBoff_le_of_mem_fetchFrom h hm
        omega
  rw [hblocks, List.mem_append, hhead, List.mem_map]
  refine or_congr_right ⟨?_, ?_⟩
  · rintro ⟨y, hy, rfl⟩
    obtain ⟨hm, hle⟩ := (mem_fetchIblkrefFrom h).mp hy
    exact ⟨y, hm, hle, rfl⟩
  · rintro ⟨y, hm, hle, rfl⟩
    exact ⟨y, (mem_fetchIblkrefFrom h).mpr ⟨hm, hle⟩, rfl⟩

/-- **What `_collapse_range` makes of a file**: it removes the bytes of the range. -/
theorem byteAt_collapseRange {len : UInt64} (h : OnFile n s) (hoff : 0 ≤ off)
    (hal : ispagealigned off len = true) (hp : 0 ≤ p) :
    (p < off → (s.collapseRange n off len).byteAt n p = s.byteAt n p) ∧
    (0 < toLoff len → off ≤ p →
      (s.collapseRange n off len).byteAt n p = s.byteAt n (p + toLoff len)) := by
  obtain ⟨held, hinv⟩ := h.inv
  have hoffal : off % pageSize = 0 := by
    simp only [ispagealigned, Bool.and_eq_true, beq_iff_eq] at hal
    exact hal.1
  have hlenal : toLoff len % pageSize = 0 := by
    simp only [ispagealigned, Bool.and_eq_true, beq_iff_eq] at hal
    exact toLoff_emod hal.2
  have hclear : Cleared n off (off + toLoff len) s (s.punchHole n off len) :=
    cleared_punchHoleLoop h (fun ib _ hpart => absurd hpart (not_partlyIn_of_aligned hal)) hoff
  have h₁ : OnFile n (s.punchHole n off len) := h.punchHoleLoop hoff
  have h' : OffsetsOk ((s.collapseRange n off len).blocksOf n) :=
    (h.file.collapseRange hinv h.reg hoff hal).list.offsets
  have hlast : (off + toLoff len) % pageSize = 0 := by
    rw [Int.add_emod, hoffal, hlenal]
    rfl
  have hout := h.file.punched hinv h.reg hoff hoffal hlast
  have hmem := fun x => @mem_collapseRange s n off len h₁.offsets x
  have hboff := offToBoff_of_aligned hoffal
  have hpboff := offToBoff_le hp
  have hpage : ∀ (y : Iblkref) d', (s.collapseRange n off len).mem
      ((s.collapseRange n off len).pageOf y.dblkref) d' =
      (s.punchHole n off len).mem ((s.punchHole n off len).pageOf y.dblkref) d' := by
    intro y d'
    unfold Sbi.collapseRange
    simp only
    split <;> rfl
  rw [hboff] at hmem
  constructor
  · intro hlt
    have hsame : (s.punchHole n off len).byteAt n p = s.byteAt n p := by
      rw [hclear.bytes p hp, if_neg (by omega)]
    rw [← hsame]
    refine byteAt_congr h₁.offsets h' rfl (fun x hx hxoff => ?_) fun x hx hxoff =>
      ⟨x, (hmem x).mpr (.inl ⟨hx, by omega⟩), hxoff⟩
    rcases (hmem x).mp hx with ⟨hx, -⟩ | ⟨y, hy, hyoff, rfl⟩
    · exact ⟨x, hx, hxoff, hpage x _⟩
    · -- what moved is at or after the start of the range
      have := (hout y hy).2
      simp only at hxoff
      omega
  · intro hlen hle
    have hp' : 0 ≤ p + toLoff len := by omega
    have hin : offInPage p = offInPage (p + toLoff len) := by
      rw [offInPage_eq hp, offInPage_eq hp', Int.add_emod, hlenal, add_zero, Int.emod_emod]
    have hto : offToBoff (p + toLoff len) = offToBoff p + toLoff len := by
      have := offToBoff_add_offInPage hp
      have := offToBoff_add_offInPage hp'
      omega
    have hge : off ≤ offToBoff p := by
      rw [offToBoff_eq hp]
      unfold pageSize at *
      omega
    have hsame : (s.punchHole n off len).byteAt n (p + toLoff len) = s.byteAt n (p + toLoff len) := by
      rw [hclear.bytes _ hp', if_neg (by omega)]
    rw [← hsame]
    refine byteAt_congr h₁.offsets h' hin (fun x hx hxoff => ?_) fun x hx hxoff => ?_
    · rcases (hmem x).mp hx with ⟨hx, hlt⟩ | ⟨y, hy, hyoff, rfl⟩
      · omega
      · refine ⟨y, hy, ?_, hpage y _⟩
        simp only at hxoff
        omega
    · exact ⟨_, (hmem _).mpr (.inr ⟨x, hx, by omega, rfl⟩), by simp only; omega⟩

/-- It takes its length off the size, if the file is that long. -/
theorem size_collapseRange {len : UInt64} (h : OnFile n s) (hoff : 0 ≤ off)
    (hal : ispagealigned off len = true) :
    ((s.collapseRange n off len).inodes n).iSize =
      if len ≤ (s.inodes n).iSize then (s.inodes n).iSize - len else (s.inodes n).iSize := by
  have hsize : ((s.punchHole n off len).inodes n).iSize = (s.inodes n).iSize :=
    (cleared_punchHoleLoop h (fun ib _ hpart => absurd hpart (not_partlyIn_of_aligned hal)) hoff).size
  unfold Sbi.collapseRange
  simp only [hsize]
  split
  · rw [Sbi.setBlocks, setInode_inodes_self, Sbi.setSize, setInode_inodes_self]
  · rw [Sbi.setBlocks, setInode_inodes_self]
    exact hsize

/-- The size of a file once a range that starts at `off` is taken out. -/
def collapsedSize (isize : ℕ) (off : ℤ) (len : ℕ) : ℕ :=
  isize - (min (isize : ℤ) (off + len) - off).toNat

/-- **`_collapse_range` removes the bytes of the range just when** the file reaches to the end
of the range, or it ends before the range and is shorter than the range is long. -/
theorem collapseRange_exact_iff (apiMapMaxSize : ℕ) (x : Sys)
    (h : ((toyfs apiMapMaxSize).restrict fun _ a => a.InFile).Reachable x) (n : RecPtr)
    (hreg : (x.sbi.inodes n).iMode = .reg) (pos len : UInt64)
    (hio : checkIo (toLoff pos) len = none)
    (hcheck : checkFalloc fallocCollapseRange (toLoff pos) len = none) :
    let s := x.sbi
    let off := toLoff pos
    let s' := s.collapseRange n off len
    let isize := (s.inodes n).iSize.toNat
    ((s'.inodes n).iSize.toNat = collapsedSize isize off len.toNat ∧
      ∀ p : ℤ, 0 ≤ p → p < (s'.inodes n).iSize.toNat →
        s'.byteAt n p = if p < off then s.byteAt n p else s.byteAt n (p + len.toNat)) ↔
    off + len.toNat ≤ isize ∨ (isize ≤ off ∧ isize < len.toNat) := by
  intro s off s' isize
  have hon : OnFile n s := (toyfs_filesOk h).onFile hreg
  obtain ⟨hoff, -, hpos, hend⟩ := checkIo_iff.mp hio
  have hal := checkFalloc_aligned hcheck (by decide)
  have hsize : (s'.inodes n).iSize.toNat = if len.toNat ≤ isize then isize - len.toNat else isize := by
    rw [size_collapseRange hon hoff hal]
    simp only [UInt64.le_iff_toNat_le]
    split
    · next hle => exact UInt64.toNat_sub_of_le _ _ (UInt64.le_iff_toNat_le.mpr hle)
    · rfl
  rw [hsize]
  unfold collapsedSize
  constructor
  · rintro ⟨heq, -⟩
    split at heq <;> omega
  · intro hkeep
    refine ⟨by split <;> omega, fun p hp hlt => ?_⟩
    obtain ⟨hbefore, hafter⟩ := byteAt_collapseRange hon hoff hal hp
    by_cases hlo : p < off
    · rw [if_pos hlo]
      exact hbefore hlo
    · -- the file reaches past the range, so the length is not one that wraps
      have hin : off + len.toNat ≤ isize := by
        split at hlt <;> omega
      have hlen : toLoff len = len.toNat := toLoff_of_lt (by
        have := (s.inodes n).iSize.toNat_lt
        omega)
      rw [if_neg hlo, hafter (by omega) (Int.not_lt.mp hlo), hlen]

/-- A page taken out of three. -/
theorem collapseRange_exact_iff_inside : ∃ x,
    ((toyfs 65536).restrict fun _ a => a.InFile).Reachable x ∧
    ((x.sbi.collapseRange ⟨1023, 1⟩ 4096 4096).inodes ⟨1023, 1⟩).iSize.toNat =
      collapsedSize 12288 4096 4096 ∧
    ∀ p : ℤ, 0 ≤ p → p < ((x.sbi.collapseRange ⟨1023, 1⟩ 4096 4096).inodes ⟨1023, 1⟩).iSize.toNat →
      (x.sbi.collapseRange ⟨1023, 1⟩ 4096 4096).byteAt ⟨1023, 1⟩ p =
        if p < 4096 then x.sbi.byteAt ⟨1023, 1⟩ p else x.sbi.byteAt ⟨1023, 1⟩ (p + 4096) := by
  obtain ⟨x, hx, hp⟩ := exists_restrict_of_mounted 65536 (fun _ a => a.InFile)
    [.newInode ⟨1023, 0⟩ ⟨.reg, 0, 0, [], fun _ => 0, false⟩ (some 2),
      .write ⟨1023, 1⟩ (fun _ => 7) 0 12288]
    (p := fun x => (x.sbi.inodes ⟨1023, 1⟩).iMode == .reg &&
      (x.sbi.inodes ⟨1023, 1⟩).iSize == 12288)
    (by decide +kernel)
  simp only [Bool.and_eq_true, beq_iff_eq] at hp
  obtain ⟨hreg, hsize⟩ := hp
  have hiff := collapseRange_exact_iff 65536 x hx ⟨1023, 1⟩ hreg 4096 4096 (by decide) (by decide)
  have hpos : toLoff 4096 = 4096 := by decide
  have hlen : (4096 : UInt64).toNat = 4096 := by decide
  have hfile : (12288 : UInt64).toNat = 12288 := by decide
  simp only [hpos, hlen, hsize, hfile] at hiff
  exact ⟨x, hx, hiff.mpr (.inl (by decide))⟩

/-- A file of two pages of which the range takes the second and one more: it should be left
with the first, and nothing is left of it. -/
theorem collapseRange_past_end : ¬ ∀ x,
    ((toyfs 65536).restrict fun _ a => a.InFile).Reachable x →
    ∀ n, (x.sbi.inodes n).iMode = .reg → ∀ pos len : UInt64,
      checkIo (toLoff pos) len = none →
      checkFalloc fallocCollapseRange (toLoff pos) len = none →
      ((x.sbi.collapseRange n (toLoff pos) len).inodes n).iSize.toNat =
        collapsedSize (x.sbi.inodes n).iSize.toNat (toLoff pos) len.toNat := by
  intro hall
  obtain ⟨x, hx, hp⟩ := exists_restrict_of_mounted 65536 (fun _ a => a.InFile)
    [.newInode ⟨1023, 0⟩ ⟨.reg, 0, 0, [], fun _ => 0, false⟩ (some 2),
      .write ⟨1023, 1⟩ (fun _ => 7) 0 8192]
    (p := fun x => (x.sbi.inodes ⟨1023, 1⟩).iMode == .reg &&
      (x.sbi.inodes ⟨1023, 1⟩).iSize == 8192 &&
      ((x.sbi.collapseRange ⟨1023, 1⟩ 4096 8192).inodes ⟨1023, 1⟩).iSize == 0)
    (by decide +kernel)
  simp only [Bool.and_eq_true, beq_iff_eq] at hp
  obtain ⟨⟨hreg, hsize⟩, hleft⟩ := hp
  have hpos : toLoff 4096 = 4096 := by decide
  have heq := hall x hx ⟨1023, 1⟩ hreg 4096 8192 (by decide) (by decide)
  rw [hpos, hleft, hsize] at heq
  exact absurd heq (by decide)

end Zus.Toyfs
