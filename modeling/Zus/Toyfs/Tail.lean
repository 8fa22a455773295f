import Zus.Toyfs.CloneContent
import Zus.Toyfs.Ranges
import Zus.Toyfs.Frame

/-!
# The end of a file

The bytes of a file past `i_size` are meant to be zero: growing a file only sets `i_size`,
and what was past the end is read then. `nonzero` is where a file has other bytes, and an
operation is described by the positions it may add to it. Most add none past the end; the
ones that may are a store that runs out of space half-way, the copy of a tail page that
cannot be made, a clone that stops half-way, and a collapse that ends past `i_size`.
-/

namespace Zus.Toyfs

open Zus.Lib

variable {s s' s₁ : Sbi} {held : RecPtr → ℕ} {n m d : RecPtr} {ib : Iblkref} {off last q : ℤ}
  {N : Set ℕ} {k : ℕ} {src dst : RecPtr}

namespace Sbi

variable (s : Sbi) (n : RecPtr)

/-- The positions of the bytes of a file that are not zero. -/
def nonzero : Set ℤ :=
  { q | ∃ ib ∈ s.blocksOf n, ∃ i < pageSize, q = ib.off + i ∧ s.mem (s.pageOf ib.dblkref) i ≠ 0 }

/-- The bytes of a file from `lo` up to `hi` are zero. -/
def ZeroBetween (lo hi : ℤ) : Prop :=
  ∀ ib ∈ s.blocksOf n, ∀ i < pageSize, lo ≤ ib.off + i → ib.off + i < hi →
    s.mem (s.pageOf ib.dblkref) i = 0

/-- The bytes of a file from `lo` on are zero. -/
def ZeroFrom (lo : ℤ) : Prop :=
  ∀ ib ∈ s.blocksOf n, ∀ i < pageSize, lo ≤ ib.off + i → s.mem (s.pageOf ib.dblkref) i = 0

/-- No stale data: the bytes past `i_size` are zero. -/
def NoStale : Prop := s.ZeroFrom n (s.inodes n).iSize.toNat

instance (lo hi : ℤ) : Decidable (s.ZeroBetween n lo hi) :=
  inferInstanceAs (Decidable (∀ ib ∈ s.blocksOf n, ∀ i < pageSize, _ → _ → _))

instance (lo : ℤ) : Decidable (s.ZeroFrom n lo) :=
  inferInstanceAs (Decidable (∀ ib ∈ s.blocksOf n, ∀ i < pageSize, _ → _))

instance : Decidable (s.NoStale n) := inferInstanceAs (Decidable (s.ZeroFrom n _))

end Sbi

theorem zeroFrom_iff {lo : ℤ} : s.ZeroFrom n lo ↔ ∀ q ∈ s.nonzero n, q < lo := by
  constructor
  · rintro h q ⟨ib, hm, i, hi, rfl, hne⟩
    by_contra hlo
    exact hne (h ib hm i hi (Int.not_lt.mp hlo))
  · intro h ib hm i hi hlo
    by_contra hne
    have := h _ ⟨ib, hm, i, hi, rfl, hne⟩
    omega

theorem zeroBetween_iff {lo hi : ℤ} :
    s.ZeroBetween n lo hi ↔ ∀ q ∈ s.nonzero n, lo ≤ q → hi ≤ q := by
  constructor
  · rintro h q ⟨ib, hm, i, hi, rfl, hne⟩ hlo
    by_contra hlt
    exact hne (h ib hm i hi hlo (Int.not_le.mp hlt))
  · intro h ib hm i hi hlo hhi
    by_contra hne
    have := h _ ⟨ib, hm, i, hi, rfl, hne⟩ hlo
    omega

theorem noStale_iff : s.NoStale n ↔ ∀ q ∈ s.nonzero n, q < (s.inodes n).iSize.toNat := zeroFrom_iff

/-! ## Frames -/

/-- Blocks that were there before and keep their bytes bring nothing new. -/
theorem nonzero_subset (h : ∀ ib ∈ s'.blocksOf n, ib ∈ s.blocksOf n ∧ KeepsBlock s s' ib.dblkref) :
    s'.nonzero n ⊆ s.nonzero n := by
  rintro q ⟨ib, hm, i, hi, rfl, hne⟩
  obtain ⟨hm', hpage, hmem⟩ := h ib hm
  rw [hpage, hmem] at hne
  exact ⟨ib, hm', i, hi, rfl, hne⟩

/-- A file gets no byte that is not zero, and keeps its size. -/
structure NoGain (m : RecPtr) (s s' : Sbi) : Prop where
  nonzero : s'.nonzero m ⊆ s.nonzero m
  size : (s'.inodes m).iSize = (s.inodes m).iSize

namespace NoGain

theorem refl (m : RecPtr) (s : Sbi) : NoGain m s s := ⟨Set.Subset.rfl, rfl⟩

theorem trans (h : NoGain m s s₁) (h₁ : NoGain m s₁ s') : NoGain m s s' :=
  ⟨h₁.nonzero.trans h.nonzero, h₁.size.trans h.size⟩

theorem noStale (h : NoGain m s s') (hm : s.NoStale m) : s'.NoStale m := by
  rw [noStale_iff] at hm ⊢
  rw [h.size]
  exact fun q hq => hm q (h.nonzero hq)

end NoGain

theorem KeepsFile.noGain (h : KeepsFile m s s') : NoGain m s s' := by
  refine ⟨nonzero_subset fun ib hm => ?_, by rw [h.1]⟩
  have hm' : ib ∈ s.blocksOf m := by
    rw [Sbi.blocksOf, h.1] at hm
    exact hm
  exact ⟨hm', h.2 _ (mem_keys_of_mem hm')⟩

/-- An operation on another file that stores into no shared block in place. -/
theorem Serves.noGain {clean : Prop} (h : Serves n ∅ clean held s s') (hne : m ≠ n) :
    NoGain m s s' := (h.op.keeps m hne fun _ _ => Set.notMem_empty _).noGain

/-- A new size is past the bytes that are not zero. -/
theorem noStale_setSize {size : UInt64} (h : ∀ q ∈ s.nonzero n, q < size.toNat) :
    (s.setSize n size).NoStale n := by
  rw [noStale_iff, Sbi.setSize, setInode_inodes_self]
  rintro q ⟨ib, hm, i, hi, rfl, hne⟩
  rw [blocksOf_setInode] at hm
  exact h _ ⟨ib, hm, i, hi, rfl, hne⟩

/-! ## Stores -/

/-- The positions after a store into a page. -/
theorem mem_nonzero_storeAt {bn : ℕ} {poff : ℤ} {len : UInt64} {src : Bytes}
    (hq : q ∈ (s.storeAt bn poff len src).nonzero m) :
    ∃ ib ∈ s.blocksOf m, ∃ i < pageSize, q = ib.off + i ∧
      ((s.pageOf ib.dblkref = bn ∧ poff.toNat ≤ i ∧ i < poff.toNat + len.toNat ∧
          src (i - poff.toNat) ≠ 0) ∨
        ((s.pageOf ib.dblkref = bn → i < poff.toNat ∨ poff.toNat + len.toNat ≤ i) ∧
          s.mem (s.pageOf ib.dblkref) i ≠ 0)) := by
  obtain ⟨ib, hm, i, hi, rfl, hne⟩ := hq
  refine ⟨ib, hm, i, hi, rfl, ?_⟩
  change (Function.update s.mem bn ((s.mem bn).store poff.toNat len.toNat src))
    (s.pageOf ib.dblkref) i ≠ 0 at hne
  by_cases hpage : s.pageOf ib.dblkref = bn
  · rw [hpage, Function.update_self] at hne
    by_cases hin : poff.toNat ≤ i ∧ i < poff.toNat + len.toNat
    · rw [Bytes.store_of_mem _ _ hin.1 hin.2] at hne
      exact .inl ⟨hpage, hin.1, hin.2, hne⟩
    · have hout : i < poff.toNat ∨ poff.toNat + len.toNat ≤ i := by omega
      refine .inr ⟨fun _ => hout, ?_⟩
      rw [hpage]
      rcases hout with hlt | hge
      · rwa [Bytes.store_of_lt _ _ hlt] at hne
      · rwa [Bytes.store_of_ge _ _ hge] at hne
  · rw [Function.update_of_ne hpage] at hne
    exact .inr ⟨fun h => absurd h hpage, hne⟩

/-- Storing zeros adds nothing, to any file. -/
theorem NoGain.storeZero {bn : ℕ} {poff : ℤ} {len : UInt64} :
    NoGain m s (s.storeAt bn poff len fun _ => 0) := by
  refine ⟨fun q hq => ?_, rfl⟩
  obtain ⟨ib, hm, i, hi, rfl, ⟨-, -, -, hne⟩ | ⟨-, hne⟩⟩ := mem_nonzero_storeAt hq
  · exact absurd rfl hne
  · exact ⟨ib, hm, i, hi, rfl, hne⟩

/-! ## Taking blocks -/

/-- A copy takes the place of a block. -/
theorem nonzero_retarget (h : Inv held s) (hm : ib ∈ s.blocksOf n)
    (hl : s'.blocksOf n = retargetIblkref ib.ptr d (s.blocksOf n))
    (hkeep : ∀ x ∈ s.blocksOf n, KeepsBlock s s' x.dblkref)
    (hcopy : ∀ i < pageSize, s'.mem (s'.pageOf d) i = s.mem (s.pageOf ib.dblkref) i) :
    s'.nonzero n ⊆ s.nonzero n := by
  rintro q ⟨x, hx, i, hi, rfl, hne⟩
  rw [hl] at hx
  rcases mem_retargetIblkref hx with ⟨-, rfl, y, hy, hyptr, hyoff⟩ | ⟨-, hx⟩
  · obtain rfl := List.inj_on_of_nodup_map (h.ptrNodup n) hy hm hyptr
    rw [hcopy i hi] at hne
    exact ⟨y, hy, i, hi, by rw [hyoff], hne⟩
  · obtain ⟨hpage, hmem⟩ := hkeep x hx
    rw [hpage, hmem] at hne
    exact ⟨x, hx, i, hi, rfl, hne⟩

/-- **`_require_iblkref`** adds a zeroed block, or a copy. -/
theorem NoGain.requireIblkref {res : Option Iblkref} (h : Inv held s)
    (hreg : (s.inodes n).iMode = .reg) (hr : s.requireIblkref n off = (res, s')) :
    NoGain n s s' := by
  have hkeep : ∀ {t}, Quiet s t → ∀ x ∈ s.blocksOf n, KeepsBlock s t x.dblkref :=
    fun hq x hx => hq.keepsBlock (h.counts_pos (mem_keys_of_mem hx))
  rcases requireIblkref_cases h hreg hr with ⟨-, -, hq⟩ | ⟨ib, -, -, -, rfl⟩ |
    ⟨ib, s₁, -, -, -, hq, -, -, hzero, -, rfl⟩ | ⟨ib, d, s₁, -, hscan, -, hq, -, -, hcopy, -, rfl⟩
  · exact (h.keepsFile_of_quiet hq n).noGain
  · exact .refl n _
  · refine ⟨?_, by rw [setInode_inodes_self]⟩
    rintro q ⟨x, hx, i, hi, rfl, hne⟩
    rw [blocksOf_setInode, (insertIblkref_perm ib _).mem_iff, List.mem_cons] at hx
    rcases hx with rfl | hx
    · exact absurd (congrFun hzero i) hne
    · obtain ⟨hpage, hmem⟩ := hkeep hq x hx
      change s₁.mem (s₁.pageOf x.dblkref) i ≠ 0 at hne
      rw [hpage, hmem] at hne
      exact ⟨x, hx, i, hi, rfl, hne⟩
  · refine ⟨nonzero_retarget h (scanIblkref_some hscan).1 blocksOf_setInode
      (fun x hx => ⟨(hkeep hq x hx).1, (hkeep hq x hx).2⟩) hcopy, by rw [setInode_inodes_self]⟩

/-- **`_unique_pmemb`** makes a copy. -/
theorem NoGain.uniquePmemb {res : Option ℕ} (h : Inv held s) (hreg : (s.inodes n).iMode = .reg)
    (hm : ib ∈ s.blocksOf n) (hr : s.uniquePmemb n ib = (res, s')) : NoGain n s s' := by
  rcases uniquePmemb_cases h hreg hm hr with ⟨-, -, hq⟩ | ⟨-, -, rfl⟩ |
    ⟨d, s₁, -, -, hq, -, -, hcopy, -, rfl⟩
  · exact (h.keepsFile_of_quiet hq n).noGain
  · exact .refl n _
  · have hpage : ∀ e, ((s₁.decRefcnt ib.dblkref).setInode n { s.inodes n with
        iblkrefs := retargetIblkref ib.ptr d (s.blocksOf n) }).pageOf e = s₁.pageOf e :=
      fun e => pageOf_setRefcnt
    refine ⟨nonzero_retarget h hm blocksOf_setInode (fun x hx => ?_) fun i hi => ?_,
      by rw [setInode_inodes_self]⟩
    · obtain ⟨hp, hmem⟩ := hq.keepsBlock (h.counts_pos (mem_keys_of_mem hx))
      exact ⟨(hpage _).trans hp, hmem⟩
    · rw [hpage]
      exact hcopy i hi

/-! ## Writing and allocating -/

/-- **`_write`** puts its own bytes where there is room. -/
theorem nonzero_writeLoop {buf : Bytes} {cnt : UInt64} (hoff : 0 ≤ off) (h : FileOk n s)
    (hinv : Inv held s) (hw : Within N k s) (hreg : (s.inodes n).iMode = .reg)
    (hq : q ∈ (s.writeLoop n buf off last cnt).2.nonzero n) :
    q ∈ s.nonzero n ∨ ∃ i : ℕ, q = off + i ∧ q < last ∧ buf i ≠ 0 ∧ s.Fits n off (q + 1) := by
  fun_induction Sbi.writeLoop s n buf off last cnt generalizing held with
  | case1 s buf off cnt hlt s₁ hreq => exact .inl ((NoGain.requireIblkref hinv hreg hreq).nonzero hq)
  | case2 s buf off cnt hlt ib s₁ hreq len s₂ =>
    rename_i ih
    have hserve : Serves n ∅ _ held s s₁ := requireIblkref_serves hinv hreg hreq
    obtain ⟨held₁, hinv₁, -⟩ := hserve.inv
    have hw₁ : Within N k (s.requireIblkref n off).2 := hw.requireIblkref
    rw [hreq] at hw₁
    have h₁ := h.requireIblkref hinv hreg hoff hreq
    have hlen : (len.toNat : ℤ) = min (nextPage off) last - off := toNat_nbytesInRange hlt
    have hfits : ∀ p, off < p → (s.Fits n off p ↔ s₁.Fits n (nextPage off) p) := fun p hp => by
      simp [requireIblkref_fits hoff hp hinv h.list.offsets hw hreg hreq]
    rcases ih (nextPage_nonneg hoff) (h₁.storeAt (offInPage_nonneg hoff) (piece_fits hoff hlt))
      (hinv₁.storeAt _ _ _ _) hw₁.storeAt hserve.reg hq with hq | ⟨i, rfl, hlast, hne, hroom⟩
    · obtain ⟨x, hx, i, hi, rfl, ⟨hpage, hle, hge, hne⟩ | ⟨-, hne⟩⟩ := mem_nonzero_storeAt hq
      · -- a byte of this piece
        obtain ⟨hm, hib, hone⟩ := requireIblkref_block hinv hreg hreq
        obtain ⟨-, rfl⟩ := hinv₁.block_unique hm hone hx hpage
        have hpoff := offInPage_eq hoff
        have hboff := offToBoff_eq hoff
        have hnext := nextPage_eq hoff
        have hmod := Int.emod_nonneg off (by decide : (pageSize : ℤ) ≠ 0)
        have hin : x.off + i + 1 ≤ nextPage off := by omega
        refine .inr ⟨i - (offInPage off).toNat, by omega, by omega, hne, ?_⟩
        rw [hfits _ (by omega)]
        exact fits_of_ge hin
      · exact .inl ((NoGain.requireIblkref hinv hreg hreq).nonzero ⟨x, hx, i, hi, rfl, hne⟩)
    · -- a byte of a later one
      have hnext := lt_nextPage off
      refine .inr ⟨len.toNat + i, by push_cast; omega, hlast, hne, ?_⟩
      rw [hfits _ (by omega)]
      exact (fits_congr rfl rfl rfl).mp hroom
  | case3 s buf off cnt hlt => exact .inl hq

theorem size_writeLoop {buf : Bytes} {cnt : UInt64} (hinv : Inv held s)
    (hreg : (s.inodes n).iMode = .reg) :
    ((s.writeLoop n buf off last cnt).2.inodes n).iSize = (s.inodes n).iSize := by
  fun_induction Sbi.writeLoop s n buf off last cnt generalizing held with
  | case1 s buf off cnt hlt s₁ hreq => exact (NoGain.requireIblkref hinv hreg hreq).size
  | case2 s buf off cnt hlt ib s₁ hreq len s₂ =>
    rename_i ih
    have hserve : Serves n ∅ _ held s s₁ := requireIblkref_serves hinv hreg hreq
    obtain ⟨held₁, hinv₁, -⟩ := hserve.inv
    exact (ih (hinv₁.storeAt _ _ _ _) hserve.reg).trans (NoGain.requireIblkref hinv hreg hreq).size
  | case3 s buf off cnt hlt => rfl

theorem NoGain.fallocRangeLoop {cnt : UInt64} (hinv : Inv held s)
    (hreg : (s.inodes n).iMode = .reg) : NoGain n s (s.fallocRangeLoop n off last cnt).2 := by
  fun_induction Sbi.fallocRangeLoop s n off last cnt generalizing held with
  | case1 s off cnt hlt s₁ hreq => exact .requireIblkref hinv hreg hreq
  | case2 s off cnt hlt ib s₁ hreq ih =>
    have hserve : Serves n ∅ _ held s s₁ := requireIblkref_serves hinv hreg hreq
    obtain ⟨held₁, hinv₁, -⟩ := hserve.inv
    exact (NoGain.requireIblkref hinv hreg hreq).trans (ih hinv₁ hserve.reg)
  | case3 s off cnt hlt => exact .refl n s

/-! ## Dropping and zeroing -/

/-- A dropped block takes its bytes with it. -/
theorem NoGain.dropIblkref (h : Inv held s) (hreg : (s.inodes n).iMode = .reg)
    (hm : ib ∈ s.blocksOf n) (m : RecPtr) : NoGain m s (s.dropIblkref n ib) := by
  have hserve : Serves n ∅ True held s (s.dropIblkref n ib) := dropIblkref_serves h hreg hm
  obtain rfl | hne := eq_or_ne m n
  · obtain ⟨held₁, h₁, -⟩ := hserve.inv
    have hblocks := @blocksOf_dropIblkref s m ib
    obtain ⟨c₁, c₂, heq⟩ := @dropIblkref_eq s m ib
    set t := s.setBlocks m ((s.blocksOf m).filter fun x => x.ptr ≠ ib.ptr)
    refine ⟨nonzero_subset fun x hx => ?_, by rw [heq, setInode_inodes_self]⟩
    have hpos : 0 < counts (s.dropIblkref m ib) x.dblkref := h₁.counts_pos (mem_keys_of_mem hx)
    rw [hblocks] at hx
    refine ⟨List.mem_of_mem_filter hx, ?_⟩
    -- a block that stays in use keeps its page
    rw [heq] at hpos ⊢
    have hkeep : KeepsBlock t (t.putDblkref ib.dblkref) x.dblkref := putDblkref_keepsBlock hpos
    exact ⟨hkeep.1, hkeep.2⟩
  · exact hserve.noGain hne

/-- **`_drop_range`**, for any position. -/
theorem NoGain.dropRange {pos : ℤ} (h : Inv held s) (hreg : (s.inodes n).iMode = .reg)
    (m : RecPtr) : NoGain m s (s.dropRange n pos) :=
  dropRange_induction h hreg (.refl m s) fun _ _ _ h₁ hreg₁ hm hgain =>
    hgain.trans (.dropIblkref h₁ hreg₁ hm m)

theorem NoGain.punchHoleLoop (h : Inv held s) (hreg : (s.inodes n).iMode = .reg) (m : RecPtr) :
    NoGain m s (s.punchHoleLoop n off last) := by
  fun_induction Sbi.punchHoleLoop s n off last generalizing held with
  | case1 s off hlt nxt s₁ =>
    rename_i ih
    obtain ⟨⟨held₁, h₁⟩, hreg₁, hgain⟩ : (∃ held₁, Inv held₁ s₁) ∧ (s₁.inodes n).iMode = .reg ∧
        NoGain m s s₁ := by
      simp only [s₁]
      split
      · next ib hf =>
        have hm := (fetchIblkref_some hf).1
        unfold Sbi.punchHoleAt
        split
        · exact ⟨⟨held, h.storeAt _ _ _ _⟩, hreg, .storeZero⟩
        · have hserve : Serves n ∅ True held s (s.dropIblkref n ib) :=
            dropIblkref_serves h hreg hm
          obtain ⟨held₁, h₁, -⟩ := hserve.inv
          exact ⟨⟨held₁, h₁⟩, hserve.reg, .dropIblkref h hreg hm m⟩
      · exact ⟨⟨held, h⟩, hreg, .refl m s⟩
    exact hgain.trans (ih h₁ hreg₁)
  | case2 s off hlt => exact .refl m s

theorem NoGain.zeroRangeLoop {l : List Iblkref} : NoGain m s (s.zeroRangeLoop off last l) := by
  fun_induction Sbi.zeroRangeLoop s off last l with
  | case1 s off => exact .refl m s
  | case2 s off ib rest hlt s₁ off' =>
    rename_i ih
    exact NoGain.storeZero.trans ih
  | case3 s off ib rest hlt => exact .refl m s

/-! ## Requests -/

theorem toLoff_le (x : UInt64) : toLoff x ≤ x.toNat := by
  unfold toLoff
  split <;> omega

/-- What a store up to `off + len` or a size below `2 ^ 63` reaches is in the new size. -/
theorem lt_maxOffset {len isize : UInt64} (h₀ : 0 ≤ off) (h₁ : off < 2 ^ 63)
    (hq : q < off + toLoff len ∨ q < isize.toNat ∧ isize.toNat < 2 ^ 63) :
    q < (toSize (maxOffset off (0 + toSize (max (off + toLoff len - off) 0)) isize)).toNat := by
  have hlen := toLoff_lt len
  have hcnt : toLoff (0 + toSize (max (off + toLoff len - off) 0)) = max (toLoff len) 0 := by
    rw [UInt64.zero_add, add_sub_cancel_left, toLoff_toSize (by omega) (by omega)]
  unfold maxOffset
  rw [hcnt]
  simp only
  by_cases hsize : isize.toNat < 2 ^ 63
  · rw [toLoff_of_lt hsize]
    split
    · rw [toNat_toSize (by omega) (by omega)]
      omega
    · rw [toNat_toSize (by omega) (by omega)]
      omega
  · have hneg : toLoff isize < 0 := by
      have := isize.toNat_lt
      unfold toLoff
      split <;> omega
    rw [if_pos (by omega), toNat_toSize (by omega) (by omega)]
    omega

/-- **A write leaves no stale data** when there is room for all of it, or what it puts past
`i_size` before it fails is zero. A size is taken for a signed number. -/
def Sbi.WriteKeepsTail (s : Sbi) (n : RecPtr) (buf : Bytes) (off : ℤ) (len : UInt64) : Prop :=
  if s.Fits n off (off + toLoff len) then
    (s.inodes n).iSize.toNat < 2 ^ 63 ∨ s.ZeroFrom n (off + toLoff len)
  else ∀ i < len.toNat, ((s.inodes n).iSize.toNat : ℤ) ≤ off + i → s.Fits n off (off + i + 1) →
    buf i = 0

instance (n : RecPtr) (buf : Bytes) (off : ℤ) (len : UInt64) :
    Decidable (s.WriteKeepsTail n buf off len) := by
  unfold Sbi.WriteKeepsTail
  infer_instance

theorem noStale_write {apiMapMaxSize : ℕ} {buf : Bytes} {len : UInt64} (h : FileOk n s)
    (hinv : Inv held s) (hw : Within N k s) (hreg : (s.inodes n).iMode = .reg)
    (hoff : off < 2 ^ 63) (hstale : s.NoStale n)
    (hkeep : checkRw apiMapMaxSize off len = none → s.WriteKeepsTail n buf off len) :
    (s.write apiMapMaxSize n buf off len).2.NoStale n := by
  rw [noStale_iff] at hstale
  unfold Sbi.write
  split
  · exact noStale_iff.mpr hstale
  · next hcheck =>
    have h₀ := checkRw_nonneg hcheck
    have hkeep := hkeep hcheck
    have hle := toLoff_le len
    have hsize := @size_writeLoop s held n off (off + toLoff len) buf 0 hinv hreg
    have hres := @writeLoop_result s held n off (off + toLoff len) N k buf 0 h₀ h hinv hw hreg
    have hnz := fun q => @nonzero_writeLoop s held n off (off + toLoff len) q N k buf 0 h₀ h hinv hw
      hreg
    unfold Sbi.WriteKeepsTail at hkeep
    split
    · next err s₁ heq =>
      rw [heq] at hsize hres hnz
      split at hres
      · cases hres
      · next hfits =>
        rw [if_neg hfits] at hkeep
        rw [noStale_iff, hsize]
        intro q hq
        rcases hnz q hq with hq | ⟨i, rfl, hlt, hne, hroom⟩
        · exact hstale q hq
        · by_contra hge
          exact hne (hkeep i (by omega) (Int.not_lt.mp hge) hroom)
    · next cnt s₁ heq =>
      rw [heq] at hsize hres hnz
      split at hres
      · next hfits =>
        rw [if_pos hfits] at hkeep
        obtain rfl : cnt = _ := Except.ok.inj hres
        refine noStale_setSize fun q hq => ?_
        rw [hsize]
        refine lt_maxOffset h₀ hoff ?_
        rcases hnz q hq with hq | ⟨i, rfl, hlt, -⟩
        · rcases hkeep with hsmall | hzero
          · exact .inr ⟨hstale q hq, hsmall⟩
          · exact .inl (zeroFrom_iff.mp hzero q hq)
        · exact .inl hlt
      · cases hres

/-- **A fallocate leaves no stale data** when it does not collapse a range that ends past
`i_size` and starts after the size it leaves. -/
def Sbi.FallocKeepsTail (s : Sbi) (n : RecPtr) (mode : UInt32) (off : ℤ) (len : UInt64) : Prop :=
  if mode &&& fallocPunchHole ≠ 0 ∨ mode &&& fallocZeroRange ≠ 0 then True
  else if mode &&& fallocCollapseRange ≠ 0 then
    (s.inodes n).iSize < len ∨ off + toLoff len ≤ (s.inodes n).iSize.toNat ∨
      s.ZeroBetween n ((s.inodes n).iSize - len).toNat off
  else s.Fits n off (off + toLoff len) →
    (s.inodes n).iSize.toNat < 2 ^ 63 ∨ s.ZeroFrom n (off + toLoff len)

instance (n : RecPtr) (mode : UInt32) (off : ℤ) (len : UInt64) :
    Decidable (s.FallocKeepsTail n mode off len) := by
  unfold Sbi.FallocKeepsTail
  infer_instance

/-- What is left by a collapse was before the range, or is moved down from after it. -/
theorem nonzero_collapseRange {len : UInt64} (h : FileOk n s) (hinv : Inv held s)
    (hreg : (s.inodes n).iMode = .reg) (h₀ : 0 ≤ off) (hal : ispagealigned off len = true)
    (hq : q ∈ (s.collapseRange n off len).nonzero n) :
    (q ∈ s.nonzero n ∧ q < off) ∨ (q + toLoff len ∈ s.nonzero n ∧ off ≤ q) := by
  simp only [ispagealigned, Bool.and_eq_true, beq_iff_eq] at hal
  have hlast : (off + toLoff len) % pageSize = 0 := by
    rw [Int.add_emod, hal.1, toLoff_emod hal.2]
    rfl
  have h₁ : FileOk n (s.punchHole n off len) := h.punchHoleLoop hinv hreg h₀
  have hout := h.punched hinv hreg h₀ hal.1 hlast
  have hgain : NoGain n s (s.punchHole n off len) := .punchHoleLoop hinv hreg n
  have hboff : offToBoff off = off := offToBoff_of_aligned hal.1
  set s₁ := s.punchHole n off len with hs₁
  have hcase : ∀ t : Sbi, t.blocksOf n = s₁.blocksOf n → t.mem = s₁.mem →
      t.dblkrefs = s₁.dblkrefs → q ∈ (t.setBlocks n
        ((t.blocksOf n).takeWhile (fun ib => ib.off < offToBoff off) ++
          (fetchIblkrefFrom (t.blocksOf n) off).map fun ib =>
            { ib with off := ib.off - toLoff len })).nonzero n →
      (q ∈ s.nonzero n ∧ q < off) ∨ (q + toLoff len ∈ s.nonzero n ∧ off ≤ q) := by
    rintro t hb hm hd ⟨x, hx, i, hi, rfl, hne⟩
    rw [Sbi.setBlocks, blocksOf_setInode, hb, List.mem_append] at hx
    change t.mem (t.pageOf x.dblkref) i ≠ 0 at hne
    rw [hm, Sbi.pageOf, hd] at hne
    rcases hx with hx | hx
    · -- a block before the range ends before it
      have hlt := List.mem_takeWhile_imp hx
      rw [decide_eq_true_eq, hboff] at hlt
      have hx₁ : x ∈ s₁.blocksOf n := (List.takeWhile_sublist _).subset hx
      have hxal := h₁.list.offsets.aligned x hx₁
      refine .inl ⟨hgain.nonzero ⟨x, hx₁, i, hi, rfl, hne⟩, ?_⟩
      unfold pageSize at hxal hal hi
      omega
    · obtain ⟨y, hy, rfl⟩ := List.mem_map.mp hx
      have hge := offToBoff_le_of_mem_fetchFrom h₁.list.offsets hy
      rw [hboff] at hge
      have hy₁ : y ∈ s₁.blocksOf n := (List.dropWhile_sublist _).subset hy
      have hafter := (hout y hy₁).2.resolve_left (by omega)
      have hpos : y.off - toLoff len + i + toLoff len = y.off + i := by ring
      refine .inr ⟨?_, by simp only; omega⟩
      rw [hpos]
      exact hgain.nonzero ⟨y, hy₁, i, hi, rfl, hne⟩
  unfold Sbi.collapseRange at hq
  rw [← hs₁] at hq
  simp only at hq
  split at hq
  · have hb : (s₁.setSize n ((s₁.inodes n).iSize - len)).blocksOf n = s₁.blocksOf n :=
      blocksOf_setInode
    exact hcase _ hb rfl rfl hq
  · exact hcase _ rfl rfl rfl hq

theorem noStale_collapseRange {len : UInt64} (h : FileOk n s) (hinv : Inv held s)
    (hreg : (s.inodes n).iMode = .reg) (h₀ : 0 ≤ off) (hal : ispagealigned off len = true)
    (hlen : 0 < toLoff len) (hstale : s.NoStale n)
    (hkeep : (s.inodes n).iSize < len ∨ off + toLoff len ≤ (s.inodes n).iSize.toNat ∨
      s.ZeroBetween n ((s.inodes n).iSize - len).toNat off) :
    (s.collapseRange n off len).NoStale n := by
  have hnat : toLoff len = len.toNat := by
    have := len.toNat_lt
    unfold toLoff at hlen ⊢
    split <;> omega
  rw [noStale_iff] at hstale ⊢
  rw [size_collapseRange ⟨⟨held, hinv⟩, hreg, h⟩ h₀ hal]
  intro q hq
  by_cases hle : len ≤ (s.inodes n).iSize
  · have hsub := UInt64.toNat_sub_of_le _ _ hle
    have hle' := UInt64.le_iff_toNat_le.mp hle
    rw [if_pos hle]
    rcases nonzero_collapseRange h hinv hreg h₀ hal hq with ⟨hq, hlt⟩ | ⟨hq, hge⟩
    · rcases hkeep with hsmall | hin | hbetween
      · exact absurd (UInt64.lt_iff_toNat_lt.mp hsmall) (by omega)
      · omega
      · by_contra hout
        have := zeroBetween_iff.mp hbetween q hq (Int.not_lt.mp hout)
        omega
    · have hold := hstale _ hq
      omega
  · rw [if_neg hle]
    rw [UInt64.le_iff_toNat_le] at hle
    rcases nonzero_collapseRange h hinv hreg h₀ hal hq with ⟨hq, -⟩ | ⟨hq, hge⟩
    · exact hstale q hq
    · -- there was nothing after the range
      have hold := hstale _ hq
      omega

theorem noStale_fallocRange {len : UInt64} (h : FileOk n s) (hinv : Inv held s)
    (hw : Within N k s) (hreg : (s.inodes n).iMode = .reg) (h₀ : 0 ≤ off) (hoff : off < 2 ^ 63)
    (hstale : s.NoStale n) (hkeep : s.Fits n off (off + toLoff len) →
      (s.inodes n).iSize.toNat < 2 ^ 63 ∨ s.ZeroFrom n (off + toLoff len)) :
    (s.fallocRange n off len).2.NoStale n := by
  have hres := @fallocRangeLoop_result s held n off (off + toLoff len) N k 0 h₀ h hinv hw hreg
  have hgain : NoGain n s (s.fallocRangeLoop n off (off + toLoff len) 0).2 :=
    .fallocRangeLoop hinv hreg
  unfold Sbi.fallocRange
  split
  · next err s₁ heq =>
    rw [heq] at hgain
    exact hgain.noStale hstale
  · next cnt s₁ heq =>
    rw [heq] at hgain hres
    split at hres
    · next hfits =>
      obtain rfl : cnt = _ := Except.ok.inj hres
      rw [noStale_iff] at hstale
      refine noStale_setSize fun q hq => ?_
      have hq' := hgain.nonzero hq
      rw [hgain.size]
      refine lt_maxOffset h₀ hoff ?_
      rcases hkeep hfits with hsmall | hzero
      · exact .inr ⟨hstale q hq', hsmall⟩
      · exact .inl (zeroFrom_iff.mp hzero q hq')
    · cases hres

theorem noStale_fallocate {mode : UInt32} {len : UInt64} (h : FileOk n s) (hinv : Inv held s)
    (hw : Within N k s) (hreg : (s.inodes n).iMode = .reg) (hoff : off < 2 ^ 63)
    (hlen : 0 < toLoff len) (hstale : s.NoStale n)
    (hkeep : checkIo off len = none → checkFalloc mode off len = none →
      s.FallocKeepsTail n mode off len) : (s.fallocate n mode off len).2.NoStale n := by
  unfold Sbi.fallocate
  split
  · exact hstale
  next hcheck =>
  split
  · exact hstale
  · next hfalloc =>
    have h₀ := checkIo_nonneg hcheck
    have hkeep := hkeep hcheck hfalloc
    unfold Sbi.FallocKeepsTail at hkeep
    split
    · exact (NoGain.punchHoleLoop hinv hreg n).noStale hstale
    split
    · exact NoGain.zeroRangeLoop.noStale hstale
    · next hpunch hzero =>
      rw [if_neg (not_or.mpr ⟨hpunch, hzero⟩)] at hkeep
      split
      · next hcollapse =>
        rw [if_pos hcollapse] at hkeep
        exact noStale_collapseRange h hinv hreg h₀ (checkFalloc_aligned hfalloc hcollapse) hlen
          hstale hkeep
      · next hcollapse =>
        rw [if_neg hcollapse] at hkeep
        exact noStale_fallocRange h hinv hw hreg h₀ hoff hstale hkeep

/-! ### Truncate -/

/-- **A truncate leaves no stale data** when the tail block is not shared by then, or there is
room for a copy of it, or its bytes past the new size are zero anyway. The blocks after it
are dropped before. -/
def Sbi.TruncateKeepsTail (s : Sbi) (n : RecPtr) (pos : ℤ) : Prop :=
  let ds := (s.dropped n (nextPage pos)).map Iblkref.dblkref
  ∀ ib ∈ fetchIblkref (s.blocksOf n) pos,
    counts s ib.dblkref ≤ ds.count ib.dblkref + 1 ∨ 0 < lastRefs (counts s) ds ∨ s.pool.Room 0 1 ∨
      s.ZeroBetween n pos (nextPage pos)

instance (n : RecPtr) (pos : ℤ) : Decidable (s.TruncateKeepsTail n pos) :=
  inferInstanceAs (Decidable (∀ ib ∈ fetchIblkref (s.blocksOf n) pos, _))

theorem uniquePmemb_none (hw : Within N k s) (hr : s.uniquePmemb n ib = (none, s')) :
    1 < counts s ib.dblkref ∧ ¬ s.pool.Room 0 1 := by
  unfold Sbi.uniquePmemb at hr
  split at hr
  · next hmany =>
    split at hr
    · next s₁ hn => exact ⟨hmany, newDblkref_none_room hw hn⟩
    · cases (Prod.mk.inj hr).1
  · cases (Prod.mk.inj hr).1

/-- The bytes of a file whose blocks all start before the end of a page. -/
theorem lt_of_mem_nonzero {e : ℤ} (h : OffsetsOk (s.blocksOf n)) (he : e % pageSize = 0)
    (hlast : ∀ ib ∈ s.blocksOf n, ib.off < e) (hq : q ∈ s.nonzero n) : q < e := by
  obtain ⟨ib, hm, i, hi, rfl, -⟩ := hq
  have hal := h.aligned ib hm
  have hlt := hlast ib hm
  unfold pageSize at hal he hi
  omega

/-- **`_zero_after`** leaves nothing past the position, if the block there can be stored into
or has nothing there anyway. -/
theorem zeroAfter_spec {pos : ℤ} (h : FileOk n s) (hinv : Inv held s) (hw : Within N k s)
    (hreg : (s.inodes n).iMode = .reg) (hpos : 0 ≤ pos)
    (hlast : ∀ ib ∈ s.blocksOf n, ib.off < if pos % pageSize ≠ 0 then nextPage pos else pos)
    (hroom : pos % pageSize ≠ 0 → ∀ ib ∈ fetchIblkref (s.blocksOf n) pos,
      counts s ib.dblkref ≤ 1 ∨ s.pool.Room 0 1 ∨ s.ZeroBetween n pos (nextPage pos)) :
    ∀ q ∈ (s.zeroAfter n pos).2.nonzero n, q < pos := by
  have hoffs : OffsetsOk (s.blocksOf n) := h.list.offsets
  unfold Sbi.zeroAfter
  by_cases hal : pos % pageSize = 0
  · rw [if_pos hal]
    rw [if_neg (not_not.mpr hal)] at hlast
    exact fun q hq => lt_of_mem_nonzero hoffs hal hlast hq
  · rw [if_pos hal] at hlast
    rw [if_neg hal]
    have hnext := nextPage_eq hpos
    have hboff := offToBoff_eq hpos
    have hnextal := nextPage_emod hpos
    have hmod := Int.emod_nonneg pos (by decide : (pageSize : ℤ) ≠ 0)
    have hmod' := Int.emod_lt_of_pos pos (by decide : (0 : ℤ) < pageSize)
    have hend : ∀ q ∈ s.nonzero n, q < nextPage pos :=
      fun q hq => lt_of_mem_nonzero hoffs hnextal hlast hq
    split
    · next hf =>
      -- there is no block at the position
      rintro q ⟨x, hx, i, hi, rfl, -⟩
      have hne := fetchIblkref_none hf x hx
      have hlt := hlast x hx
      have hxal := hoffs.aligned x hx
      unfold pageSize at *
      omega
    · next ib hf =>
      obtain ⟨hm, hib⟩ := fetchIblkref_some hf
      split
      · next s₁ hr =>
        obtain ⟨hmany, hfull⟩ := uniquePmemb_none hw hr
        intro q hq
        have hq := (NoGain.uniquePmemb hinv hreg hm hr).nonzero hq
        rcases hroom hal ib hf with hone | hroom | hzero
        · omega
        · exact absurd hroom hfull
        · by_contra hge
          have := zeroBetween_iff.mp hzero q hq (Int.not_lt.mp hge)
          have := hend q hq
          omega
      · next bn s₁ hr =>
        obtain ⟨ib', hm', hib', hpage, -⟩ := uniquePmemb_block hinv hreg hm hr
        have hoffs₁ : OffsetsOk (s₁.blocksOf n) := (h.uniquePmemb hinv hreg hm hr).list.offsets
        have hpoff := offInPage_eq hpos
        have hlen : (toSize (pageSize - offInPage pos)).toNat = pageSize - (offInPage pos).toNat := by
          rw [toNat_toSize (by omega) (by unfold pageSize at *; omega)]
          omega
        intro q hq
        obtain ⟨x, hx, i, hi, rfl, ⟨-, -, -, hne⟩ | ⟨hout, hne⟩⟩ := mem_nonzero_storeAt hq
        · exact absurd rfl hne
        have hlt := hend _ ((NoGain.uniquePmemb hinv hreg hm hr).nonzero ⟨x, hx, i, hi, rfl, hne⟩)
        have hxal := hoffs₁.aligned x hx
        by_cases hat : x.off = offToBoff pos
        · -- the block at the position keeps what is before it
          obtain rfl := hoffs₁.eq_of_off hx hm' (by rw [hat, hib', hib])
          have := hout hpage
          omega
        · unfold pageSize at *
          omega

theorem noStale_truncate {size : UInt64} (h : FileOk n s) (hinv : Inv held s)
    (hw : Within N k s) (hreg : (s.inodes n).iMode = .reg) (hstale : s.NoStale n)
    (hkeep : size < (s.inodes n).iSize → toLoff size % pageSize ≠ 0 →
      s.TruncateKeepsTail n (toLoff size)) : (s.truncate n size).2.NoStale n := by
  have hdir : (s.inodes n).iMode ≠ .dir := by
    rw [hreg]
    exact nofun
  unfold Sbi.truncate
  rw [if_neg hdir, if_neg (not_not.mpr hreg)]
  split
  · next hlt =>
    refine noStale_setSize ?_
    have hserve : Serves n ∅ True held s (s.dropRange n (toLoff size)) := dropRange_serves hinv hreg
    obtain ⟨held₁, hinv₁, -⟩ := hserve.inv
    obtain ⟨hregain, hcount⟩ := @regains_dropRange s held n (toLoff size) hinv hreg
    have hgain : NoGain n s (s.dropRange n (toLoff size)) := .dropRange hinv hreg n
    have hblocks := @blocksOf_dropRange s held n (toLoff size) hinv
    have hoffs : OffsetsOk (s.blocksOf n) := h.list.offsets
    have hlast : ∀ ib ∈ (s.dropRange n (toLoff size)).blocksOf n, ib ∈ s.blocksOf n ∧
        ib.off < if toLoff size % pageSize ≠ 0 then nextPage (toLoff size) else toLoff size := by
      intro ib hm
      rw [hblocks, List.mem_filter, decide_eq_true_eq] at hm
      exact hm
    set s₁ := s.dropRange n (toLoff size)
    rcases Int.lt_or_le (toLoff size) 0 with hneg | hpos
    · -- a size that is no file position drops all blocks
      have hnil : s₁.blocksOf n = [] := by
        refine List.eq_nil_iff_forall_not_mem.mpr fun ib hm => ?_
        have hnn := hoffs.nonneg ib (hlast ib hm).1
        have hend := (hlast ib hm).2
        have := nextPage_nonpos hneg
        split at hend <;> omega
      have hsame : (s₁.zeroAfter n (toLoff size)).2 = s₁ := by
        unfold Sbi.zeroAfter
        rw [hnil]
        split <;> rfl
      rw [hsame]
      rintro q ⟨ib, hm, -⟩
      rw [hnil] at hm
      cases hm
    · have hnat : toLoff size = size.toNat := by
        unfold toLoff at hpos ⊢
        have := size.toNat_lt
        split <;> omega
      rw [← hnat]
      refine zeroAfter_spec (h.dropRange hinv hreg) hinv₁ hw.dropRange hserve.reg hpos
        (fun ib hm => (hlast ib hm).2) fun hal ib hf => ?_
      obtain ⟨hm, hib⟩ := fetchIblkref_some hf
      have hf₀ : fetchIblkref (s.blocksOf n) (toLoff size) = some ib := by
        rcases hf₀ : fetchIblkref (s.blocksOf n) (toLoff size) with _ | ib₀
        · exact absurd hib (fetchIblkref_none hf₀ ib (hlast ib hm).1)
        · obtain ⟨hm₀, hib₀⟩ := fetchIblkref_some hf₀
          rw [hoffs.eq_of_off hm₀ (hlast ib hm).1 (hib₀.trans hib.symm)]
      rw [if_pos hal] at hregain hcount
      have hd := hcount ib.dblkref
      rcases hkeep hlt hal ib hf₀ with hone | hfreed | hroom | hzero
      · exact .inl (by omega)
      · exact .inr (.inl (hregain.room (.inl hfreed)))
      · exact .inr (.inl (hregain.room (.inr hroom)))
      · refine .inr (.inr (zeroBetween_iff.mpr fun q hq => ?_))
        exact zeroBetween_iff.mp hzero q (hgain.nonzero hq)
  · next hge =>
    refine noStale_setSize fun q hq => ?_
    have hold := noStale_iff.mp hstale q hq
    rw [UInt64.lt_iff_toNat_lt] at hge
    omega

/-! ### Clone -/

/-- **A clone over a whole file leaves no stale data** when there are records for all blocks of
the source, or the bytes of those there are records for are zero past the size of the
destination. Its own blocks are dropped before. -/
def Sbi.CloneKeepsTail (s : Sbi) (src dst : RecPtr) : Prop :=
  let ds := (s.dropped dst 0).map Iblkref.dblkref
  let k := s.pool.recsLeft .iblkref + ds.length + 128 * lastRefs (counts s) ds
  (s.blocksOf src).length ≤ k ∨ ∀ ib ∈ (s.blocksOf src).take k, ∀ i < pageSize,
    ((s.inodes dst).iSize.toNat : ℤ) ≤ ib.off + i → s.mem (s.pageOf ib.dblkref) i = 0

instance (src dst : RecPtr) : Decidable (s.CloneKeepsTail src dst) :=
  inferInstanceAs (Decidable (_ ∨ ∀ ib ∈ (s.blocksOf src).take _, ∀ i < pageSize, _ → _))

theorem noStale_cloneEntireFileRange (hne : src ≠ dst) (h : FileOk dst s) (hinv : Inv held s)
    (hreg : (s.inodes dst).iMode = .reg) (hsrc : s.NoStale src)
    (hkeep : s.CloneKeepsTail src dst) : (s.cloneEntireFileRange src dst).2.NoStale dst := by
  obtain ⟨hregain, -⟩ := @regains_dropRange s held dst 0 hinv hreg
  unfold Sbi.CloneKeepsTail at hkeep
  have hleft := hregain.recsLeft
  have hpos : (if (0 : ℤ) % pageSize ≠ 0 then nextPage 0 else 0) = 0 := rfl
  rw [hpos] at hleft
  simp only [List.length_map, ← hleft] at hkeep
  obtain ⟨-, hsize, hplaces, hfile⟩ := cloneEntireFileRange_spec hne ⟨⟨held, hinv⟩, hreg, h⟩
  rw [noStale_iff, hsize]
  rintro q ⟨x, hx, i, hi, rfl, hbyte⟩
  -- what the destination has now are blocks of the source
  have hin : x.place ∈ ((s.cloneEntireFileRange src dst).2.blocksOf dst).map Iblkref.place :=
    List.mem_map_of_mem hx
  rw [hplaces] at hin
  obtain ⟨y, hy, heq⟩ := List.mem_map.mp hin
  obtain ⟨hdata, hoff⟩ := Prod.mk.inj heq
  have hm := List.mem_of_mem_take hy
  obtain ⟨hpage, hmem⟩ := hfile.2 _ (mem_keys_of_mem hm)
  rw [← hdata, hpage, hmem] at hbyte
  rw [← hoff]
  split
  · exact noStale_iff.mp hsrc _ ⟨y, hm, i, hi, rfl, hbyte⟩
  · next hfull =>
    by_contra hge
    exact hbyte (hkeep.resolve_left hfull y hy i hi (Int.not_lt.mp hge))

/-- A file that shares a page takes it over whole. -/
theorem nonzero_sharePage {srcIb dstIb : Iblkref} (h : Inv held s)
    (hreg : (s.inodes n).iMode = .reg) (hm : dstIb ∈ s.blocksOf n)
    (huse : 0 < counts s srcIb.dblkref) (hne : dstIb.dblkref ≠ srcIb.dblkref)
    (hq : q ∈ (s.sharePage n srcIb dstIb).nonzero n) :
    q ∈ s.nonzero n ∨ (dstIb.off ≤ q ∧ q < dstIb.off + pageSize) := by
  have hinv := h.sharePage hreg hm huse hne
  obtain ⟨x, hx, i, hi, rfl, hbyte⟩ := hq
  have hused := hinv.counts_pos (mem_keys_of_mem hx)
  have hpage : ∀ e, (s.sharePage n srcIb dstIb).pageOf e =
      (s.putDblkref dstIb.dblkref).pageOf e := fun e => pageOf_setRefcnt
  have hmem : (s.sharePage n srcIb dstIb).mem = s.mem := putDblkref_mem
  rw [blocksOf_sharePage] at hx
  rcases mem_retargetIblkref hx with ⟨-, -, y, hy, hyptr, hyoff⟩ | ⟨-, hx⟩
  · obtain rfl := List.inj_on_of_nodup_map (h.ptrNodup n) hy hm hyptr
    refine .inr ⟨by omega, by omega⟩
  · refine .inl ⟨x, hx, i, hi, rfl, ?_⟩
    rw [hmem, hpage] at hbyte
    have hkeep : (s.putDblkref dstIb.dblkref).pageOf x.dblkref = s.pageOf x.dblkref := by
      by_cases heq : x.dblkref = srcIb.dblkref
      · rw [Sbi.pageOf, putDblkref_dblkrefs_ne (by rw [heq]; exact hne.symm), Sbi.pageOf]
      · rw [sharePage_counts heq] at hused
        exact (putDblkref_keepsBlock hused).1
    rwa [hkeep] at hbyte

theorem noStale_growTo {size : UInt64}
    (h : ∀ q ∈ s.nonzero n, q < (s.inodes n).iSize.toNat ∨ q < size.toNat) :
    (s.growTo n size).NoStale n := by
  unfold Sbi.growTo
  split
  · next hlt =>
    refine noStale_setSize fun q hq => ?_
    rw [UInt64.lt_iff_toNat_lt] at hlt
    rcases h q hq with hq | hq <;> omega
  · next hge =>
    rw [UInt64.lt_iff_toNat_lt] at hge
    refine noStale_iff.mpr fun q hq => ?_
    rcases h q hq with hq | hq <;> omega

theorem noStale_cloneRange {srcOff dstOff : ℤ} {len : UInt64} (hne : src ≠ dst) (hinv : Inv held s)
    (hreg : (s.inodes dst).iMode = .reg) (hd : dstOff % pageSize = 0) (hdst : 0 ≤ dstOff)
    (hend : dstOff + pageSize < 2 ^ 64) (hlen : len = 4096) (hstale : s.NoStale dst) :
    (s.cloneRange src dst srcOff dstOff len).2.NoStale dst := by
  have hinv₀ : Inv held (s.assert (Sbi.isEntirePage srcOff dstOff len)) := hinv.congr rfl rfl rfl
  have hstale₀ : (s.assert (Sbi.isEntirePage srcOff dstOff len)).NoStale dst := hstale
  have hnat : ((toSize dstOff + len).toNat : ℤ) = dstOff + pageSize := by
    have hsum : toSize dstOff + len = toSize (dstOff + pageSize) := by
      rw [toSize_add, hlen]
      rfl
    rw [hsum, toNat_toSize (by omega) hend]
    omega
  unfold Sbi.cloneRange
  simp only
  set s₀ := s.assert (Sbi.isEntirePage srcOff dstOff len)
  rw [noStale_iff] at hstale₀
  split
  · next srcIb hf =>
    split
    · next s₁ hr => exact (NoGain.requireIblkref hinv₀ hreg hr).noStale hstale
    · next dstIb s₁ hr =>
      have hgain : NoGain dst s₀ s₁ := .requireIblkref hinv₀ hreg hr
      have hreq : Serves dst ∅ _ held s₀ s₁ := requireIblkref_serves hinv₀ hreg hr
      obtain ⟨held₁, hinv₁, -⟩ := hreq.inv
      obtain ⟨hm, hoff, hle⟩ := requireIblkref_block hinv₀ hreg hr
      have hsrc : srcIb ∈ s₁.blocksOf src := by
        rw [Sbi.blocksOf, hreq.op.step.others src hne]
        exact (fetchIblkref_some hf).1
      have hsize : ((s₁.sharePage dst srcIb dstIb).inodes dst).iSize = (s₀.inodes dst).iSize := by
        rw [← hgain.size]
        change (((s₁.putDblkref dstIb.dblkref).setBlocks dst _).inodes dst).iSize = _
        rw [Sbi.setBlocks, setInode_inodes_self, putDblkref_inodes]
      refine noStale_growTo fun q hq => ?_
      rw [hsize, hnat]
      rcases nonzero_sharePage hinv₁ hreq.reg hm (hinv₁.counts_pos (mem_keys_of_mem hsrc))
        (hinv₁.dblkref_ne hne hsrc hm hle) hq with hq | ⟨-, hlt⟩
      · exact .inl (hstale₀ q (hgain.nonzero hq))
      · rw [hoff, offToBoff_of_aligned hd] at hlt
        exact .inr hlt
  · split
    · exact hstale
    · next dstIb hf =>
      have hm := (fetchIblkref_some hf).1
      split
      · next s₁ hr => exact (NoGain.uniquePmemb hinv₀ hreg hm hr).noStale hstale
      · next bn s₁ hr =>
        have hgain : NoGain dst s₀ (s₁.storeAt bn (offInPage dstOff) len fun _ => 0) :=
          (NoGain.uniquePmemb hinv₀ hreg hm hr).trans .storeZero
        refine noStale_growTo fun q hq => .inl ?_
        rw [hgain.size]
        exact hstale₀ q (hgain.nonzero hq)

theorem noStale_cloneSubLoop {srcOff srcEnd dstOff dstEnd : ℤ} (hne : src ≠ dst)
    (hinv : Inv held s) (hreg : (s.inodes dst).iMode = .reg) (hs : srcOff % pageSize = 0)
    (hse : srcEnd % pageSize = 0) (hd : dstOff % pageSize = 0) (hde : dstEnd % pageSize = 0)
    (hdst : 0 ≤ dstOff) (hend : dstEnd < 2 ^ 64) (hstale : s.NoStale dst) :
    (s.cloneSubLoop src dst srcOff srcEnd dstOff dstEnd).2.NoStale dst := by
  fun_induction Sbi.cloneSubLoop s src dst srcOff srcEnd dstOff dstEnd generalizing held with
  | case1 s srcOff dstOff hlt len err s₁ =>
    rename_i hr
    have hlen : len = 4096 := cloneStep_of_aligned hs hse hd hde hlt.1 hlt.2
    have hstep : dstOff + pageSize < 2 ^ 64 := by
      have := hlt.2
      unfold pageSize at hd hde ⊢
      omega
    have h₁ : (s.cloneRange src dst srcOff dstOff len).2.NoStale dst :=
      noStale_cloneRange hne hinv hreg hd hdst hstep hlen hstale
    rw [hr] at h₁
    exact h₁
  | case2 s srcOff dstOff hlt len s₁ hr =>
    rename_i ih
    have hlen : len = 4096 := cloneStep_of_aligned hs hse hd hde hlt.1 hlt.2
    have hlen' : toLoff len = pageSize := by
      rw [hlen]
      rfl
    have hstep : dstOff + pageSize < 2 ^ 64 := by
      have := hlt.2
      unfold pageSize at hd hde ⊢
      omega
    have h₁ : (s.cloneRange src dst srcOff dstOff len).2.NoStale dst :=
      noStale_cloneRange hne hinv hreg hd hdst hstep hlen hstale
    have hserve := @cloneRange_serves s held src dst ∅ srcOff dstOff len hne hinv hreg
    rw [hr] at h₁ hserve
    obtain ⟨held₁, hinv₁, -⟩ := hserve.inv
    refine ih hinv₁ hserve.reg ?_ ?_ ?_ h₁
    · rw [hlen', Int.add_emod_right]
      exact hs
    · rw [hlen', Int.add_emod_right]
      exact hd
    · rw [hlen']
      omega
  | case3 s srcOff dstOff hlt => exact hstale

theorem noStale_clone {srcPos dstPos : ℤ} {len : UInt64} (h : FileOk dst s) (hinv : Inv held s)
    (hdst : 0 ≤ dstPos) (hdst' : dstPos < 2 ^ 63) (hsrc : s.NoStale src) (hstale : s.NoStale dst)
    (hkeep : src ≠ dst → srcPos = 0 → len = 0 → dstPos = 0 → s.CloneKeepsTail src dst) :
    (s.clone src dst srcPos dstPos len).2.NoStale dst := by
  unfold Sbi.clone
  split
  · exact hstale
  · next hreg =>
    rw [not_or, not_not, not_not] at hreg
    split
    · exact hstale
    · next hne =>
      split
      · next hwhole =>
        exact noStale_cloneEntireFileRange hne h hinv hreg.2 hsrc
          (hkeep hne hwhole.1 hwhole.2.1 hwhole.2.2)
      split
      · exact hstale
      · next hal =>
        simp only [not_or, Bool.not_eq_false, ispagealigned, Bool.and_eq_true, beq_iff_eq] at hal
        obtain ⟨⟨hs, hlen⟩, hd, -⟩ := hal
        have hlen' := toLoff_emod hlen
        have hlt := toLoff_lt len
        refine noStale_cloneSubLoop hne hinv hreg.2 hs ?_ hd ?_ hdst (by omega) hstale
        · rw [Int.add_emod, hs, hlen']
          rfl
        · rw [Int.add_emod, hd, hlen']
          rfl

end Zus.Toyfs
