import Zus.Toyfs.Ranges

/-!
# Allocating a range

`toyfs_fallocate` takes a range by its two ends and hands on its length, a signed difference
cast to unsigned. `_check_io` adds it to the start again, where it wraps back to the end: a
range that ends before it starts is let through when both ends lie in a file of the largest
size. For all other requests the check is exact. A plain allocation leaves the content alone
and gives every page a block of its own; what it does to `i_size` is not what the mode asks.
-/

namespace Zus.Toyfs

open Zus.Lib

variable {s s' : Sbi} {held : RecPtr → ℕ} {n : RecPtr} {ib : Iblkref} {l : List Iblkref}
  {off last p : ℤ} {pos lastPos : UInt64} {mode : UInt32}

/-! ## The cursors -/

/-- The values `off` takes in the loops of `_punch_hole` and of `_falloc_range`. -/
def pageCursors (off last : ℤ) : List ℤ :=
  if off < last then off :: pageCursors (nextPage off) last else [off]
termination_by (last - off).toNat
decreasing_by
  have := lt_nextPage off
  omega

/-- The values `off` has at the turns of the loop of `_zero_range`: the start of the range,
and then the offset of each block. -/
def zeroRangeCursors (off last : ℤ) (l : List Iblkref) : List ℤ :=
  match l.takeWhile fun ib => ib.off < last with
  | [] => []
  | _ :: rest => off :: rest.map Iblkref.off

/-- `_punch_hole` is a turn for each cursor in the range. -/
theorem punchHoleLoop_eq_foldl : s.punchHoleLoop n off last =
    ((pageCursors off last).filter (· < last)).foldl (fun s c => s.punchTurn n c last) s := by
  fun_induction pageCursors off last generalizing s with
  | case1 off hlt ih =>
    rw [Sbi.punchHoleLoop, if_pos hlt, List.filter_cons, if_pos (decide_eq_true hlt), List.foldl_cons]
    exact ih
  | case2 off hge =>
    rw [Sbi.punchHoleLoop, if_neg hge, List.filter_cons, if_neg (by simpa using hge)]
    rfl

/-- `_falloc_range` is a turn for each cursor in the range, or for the first of them. -/
theorem fallocRangeLoop_eq_foldl (cnt : UInt64) :
    ∃ cs, cs <+: (pageCursors off last).filter (· < last) ∧
      (s.fallocRangeLoop n off last cnt).2 = cs.foldl (fun s c => (s.requireIblkref n c).2) s := by
  fun_induction Sbi.fallocRangeLoop s n off last cnt with
  | case1 s off cnt hlt s₁ hreq =>
    refine ⟨[off], ?_, ?_⟩
    · rw [pageCursors, if_pos hlt, List.filter_cons, if_pos (decide_eq_true hlt)]
      exact ⟨_, rfl⟩
    · rw [List.foldl_cons, hreq]
      rfl
  | case2 s off cnt hlt ib s₁ hreq ih =>
    obtain ⟨cs, hcs, heq⟩ := ih
    refine ⟨off :: cs, ?_, ?_⟩
    · rw [pageCursors, if_pos hlt, List.filter_cons, if_pos (decide_eq_true hlt)]
      exact List.cons_prefix_cons.mpr ⟨rfl, hcs⟩
    · rw [heq, List.foldl_cons, hreq]
  | case3 s off cnt hge => exact ⟨[], List.nil_prefix, rfl⟩

theorem zeroRangeCursors_cons {off' : ℤ} (hlt : ib.off < last) (hoff : ∀ x ∈ l.head?, off' = x.off) :
    zeroRangeCursors off last (ib :: l) = off :: zeroRangeCursors off' last l := by
  rw [zeroRangeCursors, List.takeWhile_cons, if_pos (decide_eq_true hlt)]
  refine congrArg (off :: ·) ?_
  cases l with
  | nil => rfl
  | cons x rest =>
    obtain rfl := hoff x rfl
    rw [zeroRangeCursors, List.takeWhile_cons]
    split <;> rfl

theorem zeroRangeCursors_stop (hge : ¬ ib.off < last) : zeroRangeCursors off last (ib :: l) = [] := by
  rw [zeroRangeCursors, List.takeWhile_cons, if_neg (by simpa using hge)]

/-- `_zero_range` is a turn for each block it meets, with its cursor. -/
theorem zeroRangeLoop_eq_foldl (l : List Iblkref) : s.zeroRangeLoop off last l =
    ((zeroRangeCursors off last l).zip l).foldl (fun s (c, ib) =>
      s.zeroRangeAt ib c (nbytesInRange c (nextPage ib.off) last)) s := by
  induction l generalizing s off with
  | nil => rfl
  | cons ib rest ih =>
    by_cases hlt : ib.off < last
    · obtain ⟨off', hoff, hloop⟩ := @zeroRangeLoop_cons s ib rest off last hlt
      rw [hloop, zeroRangeCursors_cons hlt hoff, List.zip_cons_cons, List.foldl_cons]
      exact ih
    · rw [zeroRangeLoop_stop hlt, zeroRangeCursors_stop hlt]
      rfl

/-- The pages walked do not leave the range, rounded up. -/
theorem pageCursors_within {c hi : ℤ} (hoff : 0 ≤ off) (hle : off ≤ hi)
    (hhi : ∀ q, 0 ≤ q → q < last → nextPage q ≤ hi) (hc : c ∈ pageCursors off last) :
    off ≤ c ∧ c ≤ hi := by
  fun_induction pageCursors off last with
  | case1 off hlt ih =>
    rcases List.mem_cons.mp hc with rfl | hc
    · exact ⟨le_rfl, hle⟩
    · have hin := ih (nextPage_nonneg hoff) (hhi off hoff hlt) hc
      exact ⟨(lt_nextPage off).le.trans hin.1, hin.2⟩
  | case2 off hge =>
    rw [List.mem_singleton] at hc
    exact ⟨hc.ge, hc ▸ hle⟩

/-- After the start of the range the cursors are starts of later pages in the range. -/
theorem zeroRangeCursors_within {c : ℤ} (h : OffsetsOk (s.blocksOf n)) (hoff : 0 ≤ off)
    (hlt : off < last) (hc : c ∈ zeroRangeCursors off last (fetchIblkrefFrom (s.blocksOf n) off)) :
    off ≤ c ∧ c < last := by
  unfold zeroRangeCursors at hc
  split at hc
  · cases hc
  · next ib₀ rest hl =>
    have hsub : (ib₀ :: rest).Sublist (fetchIblkrefFrom (s.blocksOf n) off) :=
      hl ▸ List.takeWhile_sublist _
    have hmet : OffsetsOk (ib₀ :: rest) := h.sublist (hsub.trans (List.dropWhile_sublist _))
    rcases List.mem_cons.mp hc with rfl | hc
    · exact ⟨le_rfl, hlt⟩
    · obtain ⟨ib, hm, rfl⟩ := List.mem_map.mp hc
      have hin : ib.off < last := by
        have hmem : ib ∈ (fetchIblkrefFrom (s.blocksOf n) off).takeWhile fun ib => ib.off < last :=
          hl ▸ List.mem_cons_of_mem _ hm
        simpa using List.mem_takeWhile_imp hmem
      have hge := ((mem_fetchIblkrefFrom h).mp (hsub.subset List.mem_cons_self)).2
      have hsep := (List.pairwise_cons.mp hmet.sorted).1 ib hm
      have hal := hmet.aligned ib (List.mem_cons_of_mem _ hm)
      have hal₀ := hmet.aligned ib₀ List.mem_cons_self
      have hboff := offToBoff_eq hoff
      unfold pageSize at *
      omega

/-! ## The range -/

/-- The values `off` takes in the routine that `_fallocate` hands the range to. -/
def Sbi.fallocCursors (s : Sbi) (n : RecPtr) (mode : UInt32) (off : ℤ) (len : UInt64) : List ℤ :=
  if mode &&& fallocPunchHole = 0 ∧ mode &&& fallocZeroRange ≠ 0 then
    zeroRangeCursors off (off + toLoff len) (fetchIblkrefFrom (s.blocksOf n) off)
  else pageCursors off (off + toLoff len)

/-- The length that `toyfs_fallocate` works out. -/
def fallocLen (pos lastPos : UInt64) : UInt64 := toSize (toLoff lastPos - toLoff pos)

/-- The check of the range is exact: it lets through only ranges that are not empty and lie in
a file of the largest size, with these the code does not leave the range, and a range that
ends before it starts changes nothing. -/
structure Sbi.RangeExact (s : Sbi) (n : RecPtr) (mode : UInt32) (pos lastPos : UInt64) : Prop where
  window : checkIo (toLoff pos) (fallocLen pos lastPos) = none →
    0 ≤ toLoff pos ∧ toLoff pos < toLoff lastPos ∧ toLoff lastPos ≤ 2 ^ 50
  noWrap : checkIo (toLoff pos) (fallocLen pos lastPos) = none →
    toLoff pos + toLoff (fallocLen pos lastPos) = toLoff lastPos ∧
      toLoff pos + (fallocLen pos lastPos).toNat = toLoff lastPos
  cursors : checkIo (toLoff pos) (fallocLen pos lastPos) = none →
    ∀ c ∈ s.fallocCursors n mode (toLoff pos) (fallocLen pos lastPos),
      toLoff pos ≤ c ∧ c ≤ (toLoff lastPos + (pageSize - 1)) / pageSize * pageSize
  rejected : toLoff lastPos < toLoff pos →
    (s.fallocate n mode (toLoff pos) (fallocLen pos lastPos)).1 ≠ none ∧
      ((s.fallocate n mode (toLoff pos) (fallocLen pos lastPos)).2.inodes n).iSize =
        (s.inodes n).iSize ∧
      (s.fallocate n mode (toLoff pos) (fallocLen pos lastPos)).2.blocksOf n = s.blocksOf n

/-- The length of a range that ends before it starts wraps. -/
theorem toNat_fallocLen (hoff : 0 ≤ toLoff pos) : ((fallocLen pos lastPos).toNat : ℤ) =
    if toLoff pos ≤ toLoff lastPos then toLoff lastPos - toLoff pos
    else toLoff lastPos - toLoff pos + 2 ^ 64 := by
  have hpos := toLoff_lt pos
  have hlast := toLoff_lt lastPos
  have hlast' := le_toLoff lastPos
  unfold fallocLen
  split
  · rw [toNat_toSize (by omega) (by omega)]
    omega
  · unfold toSize
    rw [UInt64.toNat_ofNat']
    omega

/-- **What toyfs takes for a range to allocate.** -/
theorem checkIo_fallocLen_iff : checkIo (toLoff pos) (fallocLen pos lastPos) = none ↔
    0 ≤ toLoff pos ∧ toLoff pos ≤ 2 ^ 50 ∧ 0 ≤ toLoff lastPos ∧ toLoff lastPos ≤ 2 ^ 50 ∧
      toLoff pos ≠ toLoff lastPos := by
  have hlast := toLoff_lt lastPos
  have hlast' := le_toLoff lastPos
  rw [checkIo_iff]
  by_cases hoff : 0 ≤ toLoff pos
  · have hlen := @toNat_fallocLen pos lastPos hoff
    split at hlen <;> omega
  · omega

/-- **The check is exact but for ranges that end before they start**, in a file of the largest
size. -/
theorem rangeExact_iff (apiMapMaxSize : ℕ) (x : Sys)
    (h : ((toyfs apiMapMaxSize).restrict fun _ a => a.InFile).Reachable x) (n : RecPtr)
    (hreg : (x.sbi.inodes n).iMode = .reg) (mode : UInt32) (pos lastPos : UInt64) :
    x.sbi.RangeExact n mode pos lastPos ↔
      ¬ (0 ≤ toLoff lastPos ∧ toLoff lastPos < toLoff pos ∧ toLoff pos ≤ 2 ^ 50) := by
  have hon : OnFile n x.sbi := (toyfs_filesOk h).onFile hreg
  constructor
  · rintro hexact ⟨hlast, hlt, hpos⟩
    have hio := checkIo_fallocLen_iff.mpr ⟨hlast.trans hlt.le, hpos, hlast, by omega, hlt.ne'⟩
    exact hlt.asymm (hexact.window hio).2.1
  · intro hwrap
    -- a range that is let through is one of the window
    have hwin : checkIo (toLoff pos) (fallocLen pos lastPos) = none →
        0 ≤ toLoff pos ∧ toLoff pos < toLoff lastPos ∧ toLoff lastPos ≤ 2 ^ 50 := by
      intro hio
      obtain ⟨hoff, hpos, hlast, hmax, hne⟩ := checkIo_fallocLen_iff.mp hio
      exact ⟨hoff, by omega, hmax⟩
    have hlen : checkIo (toLoff pos) (fallocLen pos lastPos) = none →
        toLoff pos + toLoff (fallocLen pos lastPos) = toLoff lastPos ∧
          toLoff pos + (fallocLen pos lastPos).toNat = toLoff lastPos := by
      intro hio
      obtain ⟨hoff, hlt, hmax⟩ := hwin hio
      have hnat := @toNat_fallocLen pos lastPos hoff
      rw [if_pos hlt.le] at hnat
      have hto : toLoff (fallocLen pos lastPos) = (fallocLen pos lastPos).toNat :=
        toLoff_of_lt (by omega)
      exact ⟨by omega, by omega⟩
    refine ⟨hwin, hlen, fun hio c hc => ?_, fun hlt => ?_⟩
    · obtain ⟨hoff, hlt, hmax⟩ := hwin hio
      unfold Sbi.fallocCursors at hc
      rw [(hlen hio).1] at hc
      split at hc
      · have hin := zeroRangeCursors_within hon.offsets hoff hlt hc
        unfold pageSize
        omega
      · refine pageCursors_within hoff ?_ (fun q hq hqlt => ?_) hc
        · unfold pageSize
          omega
        · rw [nextPage_eq hq]
          unfold pageSize
          omega
    · have hio : checkIo (toLoff pos) (fallocLen pos lastPos) ≠ none := fun hio =>
        hlt.asymm (hwin hio).2.1
      obtain ⟨err, herr⟩ := Option.ne_none_iff_exists'.mp hio
      unfold Sbi.fallocate
      rw [herr]
      exact ⟨nofun, rfl, rfl⟩

/-- A range of two pages of a file with one. -/
theorem rangeExact_iff_written : ∃ x,
    ((toyfs 65536).restrict fun _ a => a.InFile).Reachable x ∧
      x.sbi.RangeExact ⟨1023, 1⟩ fallocZeroRange 100 8192 := by
  obtain ⟨x, hx, hp⟩ := exists_restrict_of_mounted 65536 (fun _ a => a.InFile)
    [.newInode ⟨1023, 0⟩ ⟨.reg, 0, 0, [], fun _ => 0, false⟩ (some 2),
      .write ⟨1023, 1⟩ (fun _ => 7) 0 100]
    (p := fun x => (x.sbi.inodes ⟨1023, 1⟩).iMode == .reg) (by decide +kernel)
  exact ⟨x, hx, (rangeExact_iff 65536 x hx ⟨1023, 1⟩ (eq_of_beq hp) fallocZeroRange 100 8192).mpr
    (by decide)⟩

/-- A plain allocation from `8192` to `4096` is not rejected, and grows an empty file. -/
theorem backward_range_grows : ¬ ∀ x,
    ((toyfs 65536).restrict fun _ a => a.InFile).Reachable x →
    ∀ n, (x.sbi.inodes n).iMode = .reg → ∀ mode pos lastPos,
      x.sbi.RangeExact n mode pos lastPos := by
  intro hall
  obtain ⟨x, hx, hp⟩ := exists_restrict_of_mounted 65536 (fun _ a => a.InFile)
    [.newInode ⟨1023, 0⟩ ⟨.reg, 0, 0, [], fun _ => 0, false⟩ (some 2)]
    (p := fun x => (x.sbi.inodes ⟨1023, 1⟩).iMode == .reg &&
      (x.sbi.inodes ⟨1023, 1⟩).iSize == 0 &&
      ((x.sbi.fallocate ⟨1023, 1⟩ 0 (toLoff 8192) (fallocLen 8192 4096)).2.inodes
        ⟨1023, 1⟩).iSize == 8192)
    (by decide +kernel)
  simp only [Bool.and_eq_true, beq_iff_eq] at hp
  obtain ⟨⟨hreg, hsize⟩, hgrown⟩ := hp
  have hsame := ((hall x hx ⟨1023, 1⟩ hreg 0 8192 4096).rejected (by decide)).2.1
  rw [hgrown, hsize] at hsame
  cases hsame

/-! ## Sizes and content -/

/-- The file has a block of its own for the page of a position. -/
def Sbi.OwnsPage (s : Sbi) (n : RecPtr) (p : ℤ) : Prop :=
  ∃ ib ∈ s.blocksOf n, ib.off = offToBoff p ∧ counts s ib.dblkref = 1

theorem ownsPage_requireIblkref (h : OnFile n s) (hoff : 0 ≤ off)
    (hr : s.requireIblkref n off = (some ib, s'))
    (hown : offToBoff p = offToBoff off ∨ s.OwnsPage n p) : s'.OwnsPage n p := by
  obtain ⟨held, hinv⟩ := h.inv
  by_cases hat : offToBoff p = offToBoff off
  · have h' := h.requireIblkref hoff hr
    obtain ⟨hm, hib, hle⟩ := requireIblkref_block hinv h.reg hr
    exact ⟨ib, hm, by rw [hib, hat], le_antisymm hle (h'.counts_pos hm)⟩
  · obtain ⟨x, hx, hxoff, hone⟩ := hown.resolve_left hat
    refine ⟨x, (mem_requireIblkref hinv h.reg hr (by rwa [hxoff])).mpr hx, hxoff, ?_⟩
    rw [counts, requireIblkref_dblkrefs hinv h.reg hr (by omega)]
    exact hone

/-- **The loop of `_falloc_range`** leaves what the file reads as, and a run to its end gives
every page of the range a block of its own. -/
theorem fallocRangeLoop_spec {cnt : UInt64} (h : OnFile n s) (hoff : 0 ≤ off) :
    ((s.fallocRangeLoop n off last cnt).2.inodes n).iSize = (s.inodes n).iSize ∧
    (∀ p, 0 ≤ p → (s.fallocRangeLoop n off last cnt).2.byteAt n p = s.byteAt n p) ∧
    ∀ p, (off ≤ p ∧ p < last ∧ (s.fallocRangeLoop n off last cnt).1.isOk) ∨ s.OwnsPage n p →
      (s.fallocRangeLoop n off last cnt).1.isOk →
      (s.fallocRangeLoop n off last cnt).2.OwnsPage n p := by
  fun_induction Sbi.fallocRangeLoop s n off last cnt with
  | case1 s off cnt hlt s₁ hreq =>
    refine ⟨size_requireIblkref h hreq, fun p hp => byteAt_requireIblkref h hoff hreq hp, ?_⟩
    rintro p - ⟨⟩
  | case2 s off cnt hlt ib s₁ hreq ih =>
    obtain ⟨hsize, hbytes, hown⟩ := ih (h.requireIblkref hoff hreq) (nextPage_nonneg hoff)
    refine ⟨hsize.trans (size_requireIblkref h hreq), fun p hp => ?_, fun p hin hok => ?_⟩
    · exact (hbytes p hp).trans (byteAt_requireIblkref h hoff hreq hp)
    · refine hown p ?_ hok
      by_cases hnext : nextPage off ≤ p ∧ p < last
      · exact .inl ⟨hnext.1, hnext.2, hok⟩
      · refine .inr (ownsPage_requireIblkref h hoff hreq (hin.imp (fun hin => ?_) id))
        -- what is left of the page the turn starts in
        refine (offToBoff_eq_iff (hoff.trans hin.1) (offToBoff_emod off)).mpr ?_
        have hpage := offToBoff_eq hoff
        have hpage' := nextPage_eq hoff
        unfold pageSize at *
        omega
  | case3 s off cnt hge =>
    exact ⟨rfl, fun _ _ => rfl, fun p hin _ => hin.resolve_left fun hin => by omega⟩

/-- What `_max_offset` makes of a range in the file and of a size. -/
theorem toNat_maxOffset {isize : UInt64} (hoff : 0 ≤ off) (hlt : off < last) (hlast : last < 2 ^ 63) :
    (toSize (maxOffset off (0 + toSize (max (last - off) 0)) isize)).toNat =
      if isize.toNat < 2 ^ 63 then max isize.toNat last.toNat else last.toNat := by
  have hcnt : toLoff (0 + toSize (max (last - off) 0)) = last - off := by
    rw [UInt64.zero_add, toLoff_toSize (by omega) (by omega)]
    omega
  unfold maxOffset
  rw [hcnt]
  simp only [add_sub_cancel]
  by_cases hsize : isize.toNat < 2 ^ 63
  · rw [if_pos hsize, toLoff_of_lt hsize]
    split
    · rw [toNat_toSize (by omega) (by omega)]
      omega
    · rw [toNat_toSize (by omega) (by omega)]
      omega
  · -- a size from `2 ^ 63` on is taken for a negative one
    have hneg : toLoff isize < 0 := by
      have := isize.toNat_lt
      unfold toLoff
      split <;> omega
    rw [if_neg hsize, if_pos (by omega), toNat_toSize (by omega) (by omega)]

/-- The mode is a plain allocation. -/
def PlainMode (mode : UInt32) : Prop :=
  mode &&& fallocPunchHole = 0 ∧ mode &&& fallocZeroRange = 0 ∧ mode &&& fallocCollapseRange = 0

/-- The mode is to zero a range. -/
def ZeroMode (mode : UInt32) : Prop := mode &&& fallocPunchHole = 0 ∧ mode &&& fallocZeroRange ≠ 0

/-- What a fallocate of `[off, last)` is to do to the size and to the content. -/
structure FallocLaw (n : RecPtr) (mode : UInt32) (off last : ℤ) (s : Sbi)
    (r : Option Errno × Sbi) : Prop where
  keepSize : mode &&& fallocKeepSize ≠ 0 → (r.2.inodes n).iSize = (s.inodes n).iSize
  grows : r.1 = none → PlainMode mode ∨ ZeroMode mode → mode &&& fallocKeepSize = 0 →
    (r.2.inodes n).iSize.toNat = max (s.inodes n).iSize.toNat last.toNat
  owns : r.1 = none → PlainMode mode → ∀ p, off ≤ p → p < last → r.2.OwnsPage n p
  below : r.1 = none → PlainMode mode → ∀ p : ℤ, 0 ≤ p → p < (s.inodes n).iSize.toNat →
    r.2.byteAt n p = s.byteAt n p
  above : r.1 = none → PlainMode mode → ∀ p : ℤ, (s.inodes n).iSize.toNat ≤ p →
    p < (r.2.inodes n).iSize.toNat → r.2.byteAt n p = 0

/-- The size and the bytes past it are such that what `_fallocate` does to the size is right:
it never grows a file to zero a range, and always does to allocate one. -/
structure Sbi.FallocSizeFits (s : Sbi) (n : RecPtr) (mode : UInt32) (off last : ℤ) : Prop where
  zero : ZeroMode mode → mode &&& fallocKeepSize = 0 → last ≤ (s.inodes n).iSize.toNat
  plain : PlainMode mode → s.Fits n off last → (s.inodes n).iSize.toNat < 2 ^ 63 ∧
    (mode &&& fallocKeepSize ≠ 0 → last ≤ (s.inodes n).iSize.toNat) ∧
    ∀ p : ℤ, (s.inodes n).iSize.toNat ≤ p → p < last → s.byteAt n p = 0

theorem size_punchHoleLoop : ((s.punchHoleLoop n off last).inodes n).iSize = (s.inodes n).iSize := by
  fun_induction Sbi.punchHoleLoop s n off last with
  | case1 s off hlt nxt s₁ ih =>
    refine ih.trans ?_
    unfold s₁
    split
    · unfold Sbi.punchHoleAt
      split
      · rfl
      · exact size_dropIblkref
    · rfl
  | case2 s off hge => rfl

/-- **The size after a plain allocation**, and what it leaves. -/
theorem fallocRange_spec {len : UInt64} (h : OnFile n s) (hw : Within Set.univ 1 s) (hoff : 0 ≤ off)
    (hlast : off + toLoff len = last) (hlt : off < last) (hmax : last < 2 ^ 63) :
    (¬ s.Fits n off last → (s.fallocRange n off len).1 ≠ none ∧
      ((s.fallocRange n off len).2.inodes n).iSize = (s.inodes n).iSize) ∧
    (s.Fits n off last → (s.fallocRange n off len).1 = none ∧
      ((s.fallocRange n off len).2.inodes n).iSize.toNat =
        (if (s.inodes n).iSize.toNat < 2 ^ 63 then max (s.inodes n).iSize.toNat last.toNat
          else last.toNat) ∧
      ∀ p, off ≤ p → p < last → (s.fallocRange n off len).2.OwnsPage n p) ∧
    ∀ p, 0 ≤ p → (s.fallocRange n off len).2.byteAt n p = s.byteAt n p := by
  obtain ⟨held, hinv⟩ := h.inv
  have hres : (s.fallocRangeLoop n off last 0).1 = _ :=
    fallocRangeLoop_result hoff h.file hinv hw h.reg
  obtain ⟨hsize, hbytes, hown⟩ := @fallocRangeLoop_spec s n off last 0 h hoff
  unfold Sbi.fallocRange
  rw [hlast]
  rcases hloop : s.fallocRangeLoop n off last 0 with ⟨err | cnt, s₁⟩
  · rw [hloop] at hres hsize hbytes
    have hfull : ¬ s.Fits n off last := by
      intro hfit
      rw [if_pos hfit] at hres
      cases hres
    exact ⟨fun _ => ⟨nofun, hsize⟩, fun hfit => absurd hfit hfull, hbytes⟩
  · rw [hloop] at hres hsize hbytes hown
    have hfit : s.Fits n off last := by
      by_contra hfull
      rw [if_neg hfull] at hres
      cases hres
    rw [if_pos hfit] at hres
    obtain rfl := Except.ok.inj hres
    refine ⟨fun hfull => absurd hfit hfull, fun _ => ⟨rfl, ?_, fun p hlo hhi => ?_⟩, fun p hp => ?_⟩
    · simp only [Sbi.setSize, setInode_inodes_self]
      rw [hsize]
      exact toNat_maxOffset hoff hlt hmax
    · obtain ⟨ib, hm, hib, hone⟩ := hown p (.inl ⟨hlo, hhi, rfl⟩) rfl
      refine ⟨ib, ?_, hib, hone⟩
      simp only [Sbi.setSize, blocksOf_setInode]
      exact hm
    · exact byteAt_setSize.trans (hbytes p hp)

/-- A mode that neither allocates nor zeroes is only to keep the size when it says so. -/
theorem fallocLaw_iff_of_not {r : Option Errno × Sbi} (hplain : ¬ PlainMode mode)
    (hzero : ¬ ZeroMode mode)
    (hkeep : mode &&& fallocKeepSize ≠ 0 → (r.2.inodes n).iSize = (s.inodes n).iSize) :
    FallocLaw n mode off last s r ↔ s.FallocSizeFits n mode off last := by
  refine iff_of_true ⟨hkeep, ?_, ?_, ?_, ?_⟩ ⟨?_, ?_⟩
  · exact fun _ hm => absurd hm (not_or.mpr ⟨hplain, hzero⟩)
  · exact fun _ hm => absurd hm hplain
  · exact fun _ hm => absurd hm hplain
  · exact fun _ hm => absurd hm hplain
  · exact fun hm => absurd hm hzero
  · exact fun hm => absurd hm hplain

/-- **`_zero_range`** leaves the size, so the file has to reach to the end of the range. -/
theorem fallocLaw_zeroRange {len : UInt64} (hzero : ZeroMode mode) :
    FallocLaw n mode off last s (none, s.zeroRange n off len) ↔
      s.FallocSizeFits n mode off last := by
  have hplain : ¬ PlainMode mode := fun hm => hzero.2 hm.2.1
  have hsame : ((s.zeroRange n off len).inodes n).iSize = (s.inodes n).iSize := by
    rw [show (s.zeroRange n off len).inodes = s.inodes from inodes_zeroRangeLoop]
  constructor
  · intro hlaw
    refine ⟨fun hm hkeep => ?_, fun hm => absurd hm hplain⟩
    have hgrow := hlaw.grows rfl (.inr hm) hkeep
    simp only [hsame] at hgrow
    omega
  · intro hfit
    refine ⟨fun _ => hsame, fun _ _ hkeep => ?_, ?_, ?_, ?_⟩
    · have hin := hfit.zero hzero hkeep
      simp only [hsame]
      omega
    · exact fun _ hm => absurd hm hplain
    · exact fun _ hm => absurd hm hplain
    · exact fun _ hm => absurd hm hplain

/-- **`_falloc_range`** never keeps the size, and shows what was past it. -/
theorem fallocLaw_fallocRange {len : UInt64} (h : OnFile n s) (hw : Within Set.univ 1 s)
    (hplain : PlainMode mode) (hoff : 0 ≤ off) (hlast : off + toLoff len = last) (hlt : off < last)
    (hmax : last < 2 ^ 63) :
    FallocLaw n mode off last s (s.fallocRange n off len) ↔ s.FallocSizeFits n mode off last := by
  have hnz : ¬ ZeroMode mode := fun hm => hm.2 hplain.2.1
  obtain ⟨hfail, hdone, hbytes⟩ := fallocRange_spec h hw hoff hlast hlt hmax
  constructor
  · intro hlaw
    refine ⟨fun hm => absurd hm hnz, fun _ hfit => ?_⟩
    obtain ⟨hok, hsize, -⟩ := hdone hfit
    by_cases hkeep : mode &&& fallocKeepSize = 0
    · have hgrow := hlaw.grows hok (.inl hplain) hkeep
      rw [hsize] at hgrow
      have hsmall : (s.inodes n).iSize.toNat < 2 ^ 63 := by
        by_contra hbig
        rw [if_neg hbig] at hgrow
        omega
      refine ⟨hsmall, fun hne => absurd hkeep hne, fun p hlo hhi => ?_⟩
      rw [← hbytes p (by omega)]
      refine hlaw.above hok hplain p hlo ?_
      rw [hsize, if_pos hsmall]
      omega
    · have hsame := congrArg UInt64.toNat (hlaw.keepSize hkeep)
      rw [hsize] at hsame
      have hsmall : (s.inodes n).iSize.toNat < 2 ^ 63 := by
        by_contra hbig
        rw [if_neg hbig] at hsame
        omega
      rw [if_pos hsmall] at hsame
      exact ⟨hsmall, fun _ => by omega, fun p hlo hhi => by omega⟩
  · intro hcond
    by_cases hfit : s.Fits n off last
    · obtain ⟨hok, hsize, hown⟩ := hdone hfit
      obtain ⟨hsmall, hin, hzero⟩ := hcond.plain hplain hfit
      rw [if_pos hsmall] at hsize
      refine ⟨fun hkeep => UInt64.toNat_inj.mp ?_, fun _ _ _ => hsize, fun _ _ => hown,
        fun _ _ p hp _ => hbytes p hp, fun _ _ p hlo hhi => ?_⟩
      · have := hin hkeep
        omega
      · rw [hbytes p (by omega)]
        exact hzero p hlo (by omega)
    · obtain ⟨herr, hsame⟩ := hfail hfit
      exact ⟨fun _ => hsame, fun hok => absurd hok herr, fun hok => absurd hok herr,
        fun hok => absurd hok herr, fun hok => absurd hok herr⟩

/-- **A fallocate does to the size and the content what it is to do just when** the size and
the bytes past it fit. -/
theorem fallocLaw_iff (apiMapMaxSize : ℕ) (x : Sys)
    (h : ((toyfs apiMapMaxSize).restrict fun _ a => a.InFile).Reachable x) (n : RecPtr)
    (hreg : (x.sbi.inodes n).iMode = .reg) (mode : UInt32) (pos lastPos : UInt64)
    (hlt : toLoff pos < toLoff lastPos) (hio : checkIo (toLoff pos) (fallocLen pos lastPos) = none)
    (hcheck : checkFalloc mode (toLoff pos) (fallocLen pos lastPos) = none) :
    FallocLaw n mode (toLoff pos) (toLoff lastPos) x.sbi
        (x.sbi.fallocate n mode (toLoff pos) (fallocLen pos lastPos)) ↔
      x.sbi.FallocSizeFits n mode (toLoff pos) (toLoff lastPos) := by
  have hon : OnFile n x.sbi := (toyfs_filesOk h).onFile hreg
  have hw := toyfs_within h.of_restrict
  obtain ⟨hoff, hpos, hlast, hmax, -⟩ := checkIo_fallocLen_iff.mp hio
  have hend : toLoff pos + toLoff (fallocLen pos lastPos) = toLoff lastPos := by
    have hnat := @toNat_fallocLen pos lastPos hoff
    rw [if_pos hlt.le] at hnat
    have hto : toLoff (fallocLen pos lastPos) = (fallocLen pos lastPos).toNat :=
      toLoff_of_lt (by omega)
    omega
  set off := toLoff pos
  set last := toLoff lastPos
  set len := fallocLen pos lastPos
  unfold Sbi.fallocate
  rw [hio]
  simp only [hcheck]
  by_cases hpunch : mode &&& fallocPunchHole = 0
  swap
  · rw [if_pos hpunch]
    exact fallocLaw_iff_of_not (fun hm => hpunch hm.1) (fun hm => hpunch hm.1)
      fun _ => size_punchHoleLoop
  rw [if_neg (not_not.mpr hpunch)]
  by_cases hzero : mode &&& fallocZeroRange = 0
  swap
  · rw [if_pos hzero]
    exact fallocLaw_zeroRange ⟨hpunch, hzero⟩
  rw [if_neg (not_not.mpr hzero)]
  by_cases hcoll : mode &&& fallocCollapseRange = 0
  swap
  · -- a range is collapsed with no other bit in the mode
    rw [if_pos hcoll]
    obtain rfl := checkFalloc_collapse hcheck hcoll
    exact fallocLaw_iff_of_not (fun hm => hcoll hm.2.2) (fun hm => hm.2 hzero)
      fun hkeep => absurd (by decide) hkeep
  rw [if_neg (not_not.mpr hcoll)]
  exact fallocLaw_fallocRange hon hw ⟨hpunch, hzero, hcoll⟩ hoff hend hlt (by omega)

/-- A plain allocation from place `100` of an empty file on. -/
theorem fallocLaw_iff_grown : ∃ x,
    ((toyfs 65536).restrict fun _ a => a.InFile).Reachable x ∧
      FallocLaw ⟨1023, 1⟩ 0 (toLoff 100) (toLoff 8192) x.sbi
        (x.sbi.fallocate ⟨1023, 1⟩ 0 (toLoff 100) (fallocLen 100 8192)) := by
  obtain ⟨x, hx, hp⟩ := exists_restrict_of_mounted 65536 (fun _ a => a.InFile)
    [.newInode ⟨1023, 0⟩ ⟨.reg, 0, 0, [], fun _ => 0, false⟩ (some 2)]
    (p := fun x => (x.sbi.inodes ⟨1023, 1⟩).iMode == .reg &&
      (x.sbi.inodes ⟨1023, 1⟩).iSize == 0 && (x.sbi.blocksOf ⟨1023, 1⟩).isEmpty)
    (by decide +kernel)
  simp only [Bool.and_eq_true, beq_iff_eq, List.isEmpty_iff] at hp
  obtain ⟨⟨hreg, hsize⟩, hnil⟩ := hp
  have hiff := fallocLaw_iff 65536 x hx ⟨1023, 1⟩ hreg 0 100 8192 (by decide) (by decide) (by decide)
  refine ⟨x, hx, hiff.mpr ⟨fun hm => absurd rfl hm.2, fun _ _ => ⟨?_, ?_, fun p _ _ => ?_⟩⟩⟩
  · rw [hsize]
    decide
  · exact fun hkeep => absurd rfl hkeep
  · refine byteAt_of_missing fun ib hm => ?_
    rw [hnil] at hm
    cases hm

/-- A plain allocation that is told to keep the size of an empty file grows it. -/
theorem keepSize_ignored : ¬ ∀ x,
    ((toyfs 65536).restrict fun _ a => a.InFile).Reachable x →
    ∀ n, (x.sbi.inodes n).iMode = .reg → ∀ mode pos lastPos, toLoff pos < toLoff lastPos →
      checkIo (toLoff pos) (fallocLen pos lastPos) = none →
      checkFalloc mode (toLoff pos) (fallocLen pos lastPos) = none →
      FallocLaw n mode (toLoff pos) (toLoff lastPos) x.sbi
        (x.sbi.fallocate n mode (toLoff pos) (fallocLen pos lastPos)) := by
  intro hall
  obtain ⟨x, hx, hp⟩ := exists_restrict_of_mounted 65536 (fun _ a => a.InFile)
    [.newInode ⟨1023, 0⟩ ⟨.reg, 0, 0, [], fun _ => 0, false⟩ (some 2)]
    (p := fun x => (x.sbi.inodes ⟨1023, 1⟩).iMode == .reg &&
      (x.sbi.inodes ⟨1023, 1⟩).iSize == 0 &&
      ((x.sbi.fallocate ⟨1023, 1⟩ fallocKeepSize (toLoff 0) (fallocLen 0 4096)).2.inodes
        ⟨1023, 1⟩).iSize == 4096)
    (by decide +kernel)
  simp only [Bool.and_eq_true, beq_iff_eq] at hp
  obtain ⟨⟨hreg, hsize⟩, hgrown⟩ := hp
  have hlaw := hall x hx ⟨1023, 1⟩ hreg fallocKeepSize 0 4096 (by decide) (by decide) (by decide)
  have hsame := hlaw.keepSize (by decide)
  rw [hgrown, hsize] at hsame
  cases hsame

end Zus.Toyfs
