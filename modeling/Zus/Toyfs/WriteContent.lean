import Zus.Lib.Bytes
import Zus.Toyfs.Falloc
import Zus.Toyfs.Tail

/-!
# What a write writes

`_write` stores page after page, and stops where there is no room for a block. What it has
stored by then stays. A write that comes to its end is one to the content of the file as a map of
bytes, and `_read` reads from that map.
-/

namespace Zus.Toyfs

open Zus.Lib

variable {s s' s₁ : Sbi} {n : RecPtr} {off last p : ℤ} {buf : Bytes} {cnt : UInt64} {N : Set ℕ}
  {k : ℕ}

/-- **The loop of `_write`**: the bytes up to the first page that there is no room for. -/
theorem writeLoop_spec (h : OnFile n s) (hw : Within N k s) (hoff : 0 ≤ off) :
    ((s.writeLoop n buf off last cnt).2.inodes n).iSize = (s.inodes n).iSize ∧
    ∀ p, 0 ≤ p → (s.writeLoop n buf off last cnt).2.byteAt n p =
      if off ≤ p ∧ p < last ∧ s.Fits n off (p + 1) then buf (p - off).toNat else s.byteAt n p := by
  fun_induction Sbi.writeLoop s n buf off last cnt with
  | case1 s buf off cnt hlt s₁ hreq =>
    obtain ⟨held, hinv⟩ := h.inv
    refine ⟨size_requireIblkref h hreq, fun p hp => ?_⟩
    rw [byteAt_requireIblkref h hoff hreq hp, if_neg]
    rintro ⟨hle, -, hfit⟩
    rw [requireIblkref_fits hoff (by omega) hinv h.offsets hw h.reg hreq] at hfit
    cases hfit.1
  | case2 s buf off cnt hlt ib s₁ hreq len s₂ =>
    rename_i ih
    obtain ⟨held, hinv⟩ := h.inv
    have h₁ : OnFile n s₁ := h.requireIblkref hoff hreq
    have hw₁ : Within N k (s.requireIblkref n off).2 := hw.requireIblkref
    rw [hreq] at hw₁
    obtain ⟨hm, hib, hone⟩ := requireIblkref_block hinv h.reg hreq
    have hlen : (len.toNat : ℤ) = min (nextPage off) last - off := toNat_nbytesInRange hlt
    have hfit : offInPage off + len.toNat ≤ pageSize := piece_fits hoff hlt
    have hpage := offToBoff_add_offInPage hoff
    have h₂ : OnFile n s₂ := h₁.storeAt (offInPage_nonneg hoff) hfit
    obtain ⟨hsize, hbytes⟩ := ih h₂ hw₁.storeAt (nextPage_nonneg hoff)
    have hsame : (s₁.inodes n).iSize = (s.inodes n).iSize := size_requireIblkref h hreq
    refine ⟨hsize.trans hsame, fun p hp => ?_⟩
    have hnext := lt_nextPage off
    -- there is room for a later page when there is after this one
    have hroom : off ≤ p → (s.Fits n off (p + 1) ↔ s₂.Fits n (nextPage off) (p + 1)) := by
      intro hle
      rw [requireIblkref_fits hoff (by omega) hinv h.offsets hw h.reg hreq]
      simp only [Option.isSome_some, true_and]
      exact (fits_congr rfl rfl rfl).symm
    rw [hbytes p hp,
      byteAt_storeAt h₁ hm (h₁.pageAlone hm hone) (offInPage_nonneg hoff) hfit hp,
      byteAt_requireIblkref h hoff hreq hp, hib]
    by_cases hle : off ≤ p
    swap
    · rw [if_neg (by omega), if_neg (by omega), if_neg (by omega)]
    simp only [hroom hle]
    by_cases hin : p < off + len.toNat
    · -- a byte of this piece
      have hto : (p - offToBoff off - offInPage off).toNat = (p - off).toNat := by omega
      have hfits : s₂.Fits n (nextPage off) (p + 1) := fits_of_ge (by omega)
      rw [if_neg (by omega), if_pos (by omega), if_pos ⟨hle, by omega, hfits⟩, hto]
    · rw [if_neg (by omega : ¬ (_ ∧ p < _))]
      by_cases hlast : p < last
      · -- a byte of a later one
        have hto : len.toNat + (p - nextPage off).toNat = (p - off).toNat := by omega
        have hpast : nextPage off ≤ p := by omega
        simp only [hle, hlast, hpast, true_and, hto]
      · rw [if_neg (by omega), if_neg (by omega)]
  | case3 s buf off cnt hlt =>
    refine ⟨rfl, fun p hp => ?_⟩
    rw [if_neg]
    omega

/-! ## The content of a file -/

/-- The content as readers see it. -/
def Sbi.content (s : Sbi) (n : RecPtr) : ByteMap where
  size := (s.inodes n).iSize.toNat
  byte p := s.readByte n p
  zero p hp := readByte_of_le (by exact_mod_cast hp)

/-- There is room for the pages of a shorter range. -/
theorem pagesIn_sublist {last' : ℤ} (h : last' ≤ last) :
    (pagesIn off last').Sublist (pagesIn off last) := by
  fun_induction pagesIn off last with
  | case1 off hlt ih =>
    by_cases hlt' : off < last'
    · rw [pagesIn_of_lt hlt']
      exact ih.cons_cons _
    · rw [pagesIn_of_ge (Int.not_lt.mp hlt')]
      exact List.nil_sublist _
  | case2 off hge => rw [pagesIn_of_ge (h.trans (Int.not_lt.mp hge))]

theorem Pool.Room.mono {q : Pool} {fresh copies fresh' copies' : ℕ} (h : q.Room fresh copies)
    (hf : fresh' ≤ fresh) (hc : copies' ≤ copies) : q.Room fresh' copies' := by
  have hdb : q.cuts .dblkref (fresh' + copies') ≤ q.cuts .dblkref (fresh + copies) :=
    Nat.div_le_div_right (by omega)
  have hib : q.cuts .iblkref fresh' ≤ q.cuts .iblkref fresh := Nat.div_le_div_right (by omega)
  unfold Pool.Room at *
  omega

theorem Sbi.Fits.mono {last' : ℤ} (h : s.Fits n off last) (hle : last' ≤ last) :
    s.Fits n off last' :=
  Pool.Room.mono h (pagesIn_sublist hle).countP_le (pagesIn_sublist hle).countP_le

/-- A range that `_check_rw` takes, if a request cannot have `2 ^ 63` bytes. -/
theorem checkRw_bounds {apiMapMaxSize : ℕ} {pos len : UInt64} (hmap : apiMapMaxSize < 2 ^ 63)
    (hcheck : checkRw apiMapMaxSize (toLoff pos) len = none) :
    0 ≤ toLoff pos ∧ 0 < len.toNat ∧ toLoff pos + len.toNat ≤ 2 ^ 50 ∧ toLoff len = len.toNat := by
  rw [checkRw] at hcheck
  split at hcheck
  · cases hcheck
  · obtain ⟨hoff, hpos, hlen, hend⟩ := checkIo_iff.mp hcheck
    exact ⟨hoff, hlen, by omega, toLoff_of_lt (by omega)⟩

/-- **`_read`** reads the content. -/
theorem read_content {apiMapMaxSize : ℕ} {pos len : UInt64} (hmap : apiMapMaxSize < 2 ^ 63)
    (hsize : (s.inodes n).iSize.toNat < 2 ^ 63)
    (hcheck : checkRw apiMapMaxSize (toLoff pos) len = none) :
    s.read apiMapMaxSize n (toLoff pos) len =
      .ok ((s.content n).read (toLoff pos).toNat len.toNat) := by
  obtain ⟨hoff, -, -, hlen⟩ := checkRw_bounds hmap hcheck
  have hlast : tinOffset (toLoff pos) len (s.inodes n).iSize =
      min (toLoff pos + len.toNat) (s.inodes n).iSize.toNat := by
    rw [tinOffset, hlen, toLoff_of_lt hsize]
    split <;> omega
  simp only [Sbi.read, hcheck, hlast, readLoop_eq hoff, ByteMap.read, Sbi.content]
  have hcount : (min (toLoff pos + len.toNat) (s.inodes n).iSize.toNat - toLoff pos).toNat =
      min ((toLoff pos).toNat + len.toNat) (s.inodes n).iSize.toNat - (toLoff pos).toNat := by
    omega
  rw [hcount]
  congr 1
  apply List.map_congr_left
  intro i hi
  have hin := List.mem_range.mp hi
  have hto : (((toLoff pos).toNat + i : ℕ) : ℤ) = toLoff pos + i := by omega
  rw [hto, readByte_of_lt (by omega)]

/-- The bytes past the size are zero where there is no stale data. -/
theorem byteAt_of_noStale (h : s.NoStale n) (hp : 0 ≤ p) (hle : (s.inodes n).iSize.toNat ≤ p) :
    s.byteAt n p = 0 := by
  rw [Sbi.byteAt]
  split
  · next ib hf =>
    obtain ⟨hm, hoff⟩ := fetchIblkref_some hf
    have hnn := offInPage_nonneg hp
    have hlt := offInPage_lt hp
    have hsum := offToBoff_add_offInPage hp
    exact h ib hm (offInPage p).toNat (by omega) (by omega)
  · rfl

/-- Without stale data the content is the bytes of the blocks. -/
theorem readByte_of_noStale (h : s.NoStale n) (hp : 0 ≤ p) : s.readByte n p = s.byteAt n p := by
  by_cases hlt : p < (s.inodes n).iSize.toNat
  · exact readByte_of_lt hlt
  · rw [readByte_of_le (Int.not_lt.mp hlt), byteAt_of_noStale h hp (Int.not_lt.mp hlt)]

/-- **`_write`** writes to the content. -/
theorem write_content {apiMapMaxSize : ℕ} {pos len : UInt64} (h : OnFile n s) (hw : Within N k s)
    (hmap : apiMapMaxSize < 2 ^ 63) (hsize : (s.inodes n).iSize.toNat < 2 ^ 63)
    (hstale : s.NoStale n) (hcheck : checkRw apiMapMaxSize (toLoff pos) len = none)
    (hok : s.write apiMapMaxSize n buf (toLoff pos) len = (.ok cnt, s')) :
    s'.content n = (s.content n).write (toLoff pos).toNat len.toNat buf := by
  obtain ⟨held, hinv⟩ := h.inv
  obtain ⟨hoff, hpos, hend, hlen⟩ := checkRw_bounds hmap hcheck
  have hres : (s.writeLoop n buf (toLoff pos) (toLoff pos + len.toNat) 0).1 = _ :=
    writeLoop_result hoff h.file hinv hw h.reg
  obtain ⟨hsame, hbytes⟩ :=
    @writeLoop_spec s n (toLoff pos) (toLoff pos + len.toNat) buf 0 N k h hw hoff
  rw [Sbi.write, hcheck, hlen] at hok
  simp only at hok
  split at hok
  · cases (Prod.mk.inj hok).1
  next cnt' s₁ hloop =>
  obtain ⟨-, rfl⟩ := Prod.mk.inj hok
  rw [hloop] at hres hsame hbytes
  have hfit : s.Fits n (toLoff pos) (toLoff pos + len.toNat) := by
    by_contra hfull
    rw [if_neg hfull] at hres
    cases hres
  rw [if_pos hfit] at hres
  obtain rfl := Except.ok.inj hres
  set size := toSize (maxOffset (toLoff pos) (0 + toSize
    (max (toLoff pos + len.toNat - toLoff pos) 0)) (s₁.inodes n).iSize)
  have hgrown : ((s₁.setSize n size).inodes n).iSize.toNat =
      max (s.inodes n).iSize.toNat ((toLoff pos).toNat + len.toNat) := by
    have hmax : size.toNat = _ := toNat_maxOffset hoff (by omega) (by omega)
    rw [hsame, if_pos hsize] at hmax
    rw [Sbi.setSize, setInode_inodes_self]
    change size.toNat = _
    omega
  apply ByteMap.ext
  · exact hgrown
  · funext p
    have hp : (0 : ℤ) ≤ p := Int.natCast_nonneg p
    have hread := readByte_of_noStale hstale hp
    simp only [Sbi.content, ByteMap.write, hread]
    by_cases hlt : p < max (s.inodes n).iSize.toNat ((toLoff pos).toNat + len.toNat)
    · have hlt' : (p : ℤ) < ((s₁.setSize n size).inodes n).iSize.toNat := by
        rw [hgrown]
        exact_mod_cast hlt
      rw [readByte_of_lt hlt', byteAt_setSize, hbytes p hp]
      by_cases hin : (toLoff pos).toNat ≤ p ∧ p < (toLoff pos).toNat + len.toNat
      · have hto : ((p : ℤ) - toLoff pos).toNat = p - (toLoff pos).toNat := by omega
        rw [if_pos hin, if_pos ⟨by omega, by omega, hfit.mono (by omega)⟩, hto]
      · rw [if_neg hin, if_neg (by omega)]
    · have hge : (((s₁.setSize n size).inodes n).iSize.toNat : ℤ) ≤ p := by
        rw [hgrown]
        exact_mod_cast Nat.not_lt.mp hlt
      rw [readByte_of_le hge, if_neg (by omega)]
      exact (byteAt_of_noStale hstale hp (by omega)).symm

/-- **The content of a file is a map of bytes**: what `_read` copies is read from it, and a
`_write` that succeeds is one to it. -/
theorem content_refines (apiMapMaxSize : ℕ) (hmap : apiMapMaxSize < 2 ^ 63) (x : Sys)
    (h : ((toyfs apiMapMaxSize).restrict fun _ a => a.InFile).Reachable x) (n : RecPtr)
    (hreg : (x.sbi.inodes n).iMode = .reg) (hsize : (x.sbi.inodes n).iSize.toNat < 2 ^ 63)
    (hstale : x.sbi.NoStale n) :
    (∀ pos len, checkRw apiMapMaxSize (toLoff pos) len = none →
      x.sbi.read apiMapMaxSize n (toLoff pos) len =
        .ok ((x.sbi.content n).read (toLoff pos).toNat len.toNat)) ∧
    ∀ pos len buf cnt s', checkRw apiMapMaxSize (toLoff pos) len = none →
      x.sbi.write apiMapMaxSize n buf (toLoff pos) len = (.ok cnt, s') →
      s'.content n = (x.sbi.content n).write (toLoff pos).toNat len.toNat buf ∧
      ∀ pos' len', checkRw apiMapMaxSize (toLoff pos') len' = none →
        s'.read apiMapMaxSize n (toLoff pos') len' =
          .ok ((s'.content n).read (toLoff pos').toNat len'.toNat) := by
  have hon : OnFile n x.sbi := (toyfs_filesOk h).onFile hreg
  refine ⟨fun pos len hcheck => read_content hmap hsize hcheck, ?_⟩
  intro pos len buf cnt s' hcheck hok
  have hwrite := write_content hon (toyfs_within h.of_restrict) hmap hsize hstale hcheck hok
  refine ⟨hwrite, fun pos' len' hcheck' => read_content hmap ?_ hcheck'⟩
  have hgrown : (s'.inodes n).iSize.toNat = _ := congrArg ByteMap.size hwrite
  obtain ⟨hoff, -, hend, -⟩ := checkRw_bounds hmap hcheck
  rw [hgrown]
  simp only [ByteMap.write, Sbi.content]
  omega

/-- Ten bytes at position `100` of an empty file. -/
theorem content_refines_sparse : ∃ (x : Sys) (s' : Sbi),
    ((toyfs 65536).restrict fun _ a => a.InFile).Reachable x ∧
      s'.content ⟨1023, 1⟩ = (x.sbi.content ⟨1023, 1⟩).write 100 10 fun _ => 7 := by
  obtain ⟨x, hx, hp⟩ := exists_restrict_of_mounted 65536 (fun _ a => a.InFile)
    [.newInode ⟨1023, 0⟩ ⟨.reg, 0, 0, [], fun _ => 0, false⟩ (some 2)]
    (p := fun x => (x.sbi.inodes ⟨1023, 1⟩).iMode == .reg &&
      (x.sbi.inodes ⟨1023, 1⟩).iSize == 0 && decide (x.sbi.NoStale ⟨1023, 1⟩) &&
      (x.sbi.write 65536 ⟨1023, 1⟩ (fun _ => 7) (toLoff 100) 10).1.toOption.isSome)
    (by decide +kernel)
  simp only [Bool.and_eq_true, beq_iff_eq, decide_eq_true_eq] at hp
  obtain ⟨⟨⟨hreg, hsize⟩, hstale⟩, hok⟩ := hp
  rcases hwrite : x.sbi.write 65536 ⟨1023, 1⟩ (fun _ => 7) (toLoff 100) 10 with ⟨err | cnt, s'⟩
  · rw [hwrite] at hok
    cases hok
  · have hlaw := content_refines 65536 (by decide) x hx ⟨1023, 1⟩ hreg (by rw [hsize]; decide) hstale
    exact ⟨x, s', hx, (hlaw.2 100 10 (fun _ => 7) cnt s' (by decide) hwrite).1⟩

/-- A file of `2 ^ 63` bytes without a block shrinks to ten by a write of ten bytes: its size is
taken for a negative number. -/
theorem write_shrinks :
    ¬ ∀ x, ((toyfs 65536).restrict fun _ a => a.InFile).Reachable x → ∀ n,
      (x.sbi.inodes n).iMode = .reg → x.sbi.NoStale n → ∀ pos len buf cnt s',
        checkRw 65536 (toLoff pos) len = none →
        x.sbi.write 65536 n buf (toLoff pos) len = (.ok cnt, s') →
        s'.content n = (x.sbi.content n).write (toLoff pos).toNat len.toNat buf := by
  intro hall
  obtain ⟨x, hx, hp⟩ := exists_restrict_of_mounted 65536 (fun _ a => a.InFile)
    [.newInode ⟨1023, 0⟩ ⟨.reg, 0, 0, [], fun _ => 0, false⟩ (some 2),
      .truncate ⟨1023, 1⟩ 0x8000000000000000]
    (p := fun x => (x.sbi.inodes ⟨1023, 1⟩).iMode == .reg &&
      (x.sbi.inodes ⟨1023, 1⟩).iSize == 0x8000000000000000 && decide (x.sbi.NoStale ⟨1023, 1⟩) &&
      (x.sbi.write 65536 ⟨1023, 1⟩ (fun _ => 7) (toLoff 0) 10).1.toOption.isSome &&
      ((x.sbi.write 65536 ⟨1023, 1⟩ (fun _ => 7) (toLoff 0) 10).2.inodes ⟨1023, 1⟩).iSize == 10)
    (by decide +kernel)
  simp only [Bool.and_eq_true, beq_iff_eq, decide_eq_true_eq] at hp
  obtain ⟨⟨⟨⟨hreg, hsize⟩, hstale⟩, hok⟩, hshrunk⟩ := hp
  rcases hwrite : x.sbi.write 65536 ⟨1023, 1⟩ (fun _ => 7) (toLoff 0) 10 with ⟨err | cnt, s'⟩
  · rw [hwrite] at hok
    cases hok
  · rw [hwrite] at hshrunk
    have hlaw := hall x hx _ hreg hstale 0 10 _ cnt s' (by decide) hwrite
    have hlen : (s'.inodes ⟨1023, 1⟩).iSize.toNat = _ := congrArg ByteMap.size hlaw
    rw [hshrunk] at hlen
    simp only [ByteMap.write, Sbi.content, hsize] at hlen
    exact absurd hlen (by decide)

end Zus.Toyfs
