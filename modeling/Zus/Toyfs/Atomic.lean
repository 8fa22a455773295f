import Zus.Toyfs.CloneRoom
import Zus.Toyfs.Falloc
import Zus.Toyfs.Tail
import Zus.Toyfs.WriteContent

/-!
# What is left of a request that fails

`_write`, `toyfs_truncate` and `toyfs_clone` change a file as they go, and do not go back when
there is no room for a block. A request that fails leaves the files as they were just when what
it did before that cannot be told from what was there.
-/

namespace Zus.Toyfs

open Zus.Lib

variable {s s' s₁ : Sbi} {held : RecPtr → ℕ} {n m src dst : RecPtr} {ib : Iblkref} {off p : ℤ}
  {N : Set ℕ} {k : ℕ}

/-- A file has the size it had, and a reader gets what it got. -/
structure ReadsSame (m : RecPtr) (s s' : Sbi) : Prop where
  size : (s'.inodes m).iSize = (s.inodes m).iSize
  bytes : ∀ p, 0 ≤ p → s'.readByte m p = s.readByte m p

/-- When it fails, all files are what they were. -/
def ErrorAtomic (s : Sbi) (r : Option Errno × Sbi) : Prop := r.1 ≠ none → ∀ m, ReadsSame m s r.2

namespace ReadsSame

theorem refl (m : RecPtr) (s : Sbi) : ReadsSame m s s := ⟨rfl, fun _ _ => rfl⟩

theorem of_keeps (h : KeepsFile m s s') : ReadsSame m s s' where
  size := by rw [h.1]
  bytes p _ := readByte_congr (by rw [h.1]) h.byteAt

/-- A file that kept its size: its bytes up to it. -/
theorem iff_bytes (hsize : (s'.inodes m).iSize = (s.inodes m).iSize) : ReadsSame m s s' ↔
    ∀ p : ℤ, 0 ≤ p → p < (s.inodes m).iSize.toNat → s'.byteAt m p = s.byteAt m p := by
  constructor
  · intro h p hp hlt
    have hread := h.bytes p hp
    rwa [readByte_of_lt hlt, readByte_of_lt (by rwa [hsize])] at hread
  · intro h
    refine ⟨hsize, fun p hp => ?_⟩
    by_cases hlt : p < (s.inodes m).iSize.toNat
    · exact readByte_congr hsize (h p hp hlt)
    · have hle := Int.not_lt.mp hlt
      rw [readByte_of_le hle, readByte_of_le (by rwa [hsize])]

/-- **`_read`** returns the same for every request. -/
theorem read {apiMapMaxSize : ℕ} {len : UInt64} (h : ReadsSame m s s') :
    s'.read apiMapMaxSize m off len = s.read apiMapMaxSize m off len := by
  have hbytes := (iff_bytes h.size).mp h
  unfold Sbi.read
  rcases hcheck : checkRw apiMapMaxSize off len with _ | err
  swap
  · rfl
  have hoff := checkRw_nonneg hcheck
  simp only
  rw [h.size, readLoop_eq hoff, readLoop_eq hoff]
  refine congrArg Except.ok (List.map_congr_left fun i hi => ?_)
  have hin := List.mem_range.mp hi
  have hle := toLoff_le (s.inodes m).iSize
  have hlast : tinOffset off len (s.inodes m).iSize ≤ toLoff (s.inodes m).iSize := by
    unfold tinOffset
    simp only
    split <;> omega
  exact hbytes (off + i) (by omega) (by omega)

end ReadsSame

theorem errorAtomic_of_none {r : Option Errno × Sbi} (h : r.1 = none) : ErrorAtomic s r :=
  fun hne => absurd h hne

theorem errorAtomic_refl {err : Option Errno} : ErrorAtomic s (err, s) := fun _ m => .refl m s

/-- Only the file of the request can be another one. -/
theorem Serves.errorAtomic_iff_clean {clean : Prop} {err : Option Errno}
    (h : Serves n ∅ clean held s s') : ErrorAtomic s (err, s') ↔ (err ≠ none → ReadsSame n s s') := by
  refine forall_congr' fun _ => ⟨fun hall => hall n, fun hsame m => ?_⟩
  obtain rfl | hne := eq_or_ne m n
  · exact hsame
  · exact .of_keeps (h.op.keeps m hne fun _ _ => Set.notMem_empty _)

/-! ## Write and fallocate -/

/-- The requests, each with its result as an error or none. -/
inductive FileReq
  /-- `_write` -/
  | write (n : RecPtr) (buf : Bytes) (filepos len : UInt64)
  /-- `_falloc_range` -/
  | fallocRange (n : RecPtr) (filepos len : UInt64)
  /-- `toyfs_truncate` -/
  | truncate (n : RecPtr) (size : UInt64)
  /-- `toyfs_clone` -/
  | clone (src dst : RecPtr) (posIn posOut len : UInt64)

namespace FileReq

/-- The result and the state after it. -/
def run (apiMapMaxSize : ℕ) (s : Sbi) : FileReq → Option Errno × Sbi
  | write n buf filepos len =>
    match s.write apiMapMaxSize n buf (toLoff filepos) len with
    | (.error err, s₁) => (some err, s₁)
    | (.ok _, s₁) => (none, s₁)
  | fallocRange n filepos len => s.fallocRange n (toLoff filepos) len
  | truncate n size => s.truncate n size
  | clone src dst posIn posOut len => s.clone src dst (toLoff posIn) (toLoff posOut) len

/-- What their callers see to: stores are to regular files, `_fallocate` has checked the range,
and the positions of a clone are file positions. -/
def Sent (s : Sbi) : FileReq → Prop
  | write n .. => (s.inodes n).iMode = .reg
  | fallocRange n filepos len => (s.inodes n).iMode = .reg ∧ checkIo (toLoff filepos) len = none
  | truncate .. => True
  | clone _ _ posIn posOut _ => 0 ≤ toLoff posIn ∧ 0 ≤ toLoff posOut

end FileReq

/-- The bytes that are stored before there is no room are the ones that were there, or past the
size. -/
def Sbi.WriteSpares (s : Sbi) (n : RecPtr) (buf : Bytes) (off last : ℤ) : Prop :=
  ¬ s.Fits n off last → ∀ p : ℤ, off ≤ p → p < last → s.Fits n off (p + 1) →
    p < (s.inodes n).iSize.toNat → buf (p - off).toNat = s.byteAt n p

/-- **A write** that fails leaves the pages it has stored. -/
theorem errorAtomic_write_iff {apiMapMaxSize : ℕ} {buf : Bytes} {pos len : UInt64} (h : OnFile n s)
    (hw : Within N k s) : ErrorAtomic s ((FileReq.write n buf pos len).run apiMapMaxSize s) ↔
      (checkRw apiMapMaxSize (toLoff pos) len = none →
        s.WriteSpares n buf (toLoff pos) (toLoff pos + toLoff len)) := by
  obtain ⟨held, hinv⟩ := h.inv
  rw [FileReq.run]
  set off := toLoff pos
  have hserve : Serves n ∅ _ held s (s.write apiMapMaxSize n buf off len).2 :=
    write_serves hinv h.reg
  unfold Sbi.write at hserve ⊢
  rcases hcheck : checkRw apiMapMaxSize off len with _ | err
  swap
  · exact iff_of_true errorAtomic_refl nofun
  simp only [hcheck, true_imp_iff] at hserve ⊢
  have hoff : 0 ≤ off := by
    by_contra hneg
    rw [checkRw, checkIo] at hcheck
    simp [Int.not_le.mp hneg] at hcheck
  have hres : (s.writeLoop n buf off (off + toLoff len) 0).1 = _ :=
    writeLoop_result hoff h.file hinv hw h.reg
  obtain ⟨hsize, hbytes⟩ := @writeLoop_spec s n off (off + toLoff len) buf 0 N k h hw hoff
  rcases hloop : s.writeLoop n buf off (off + toLoff len) 0 with ⟨err | cnt, s₁⟩
  · rw [hloop] at hserve hres hsize hbytes
    have hfull : ¬ s.Fits n off (off + toLoff len) := by
      intro hfit
      rw [if_pos hfit] at hres
      cases hres
    simp only [hserve.errorAtomic_iff_clean, ReadsSame.iff_bytes hsize, Sbi.WriteSpares, hfull,
      not_false_eq_true, true_imp_iff, ne_eq, reduceCtorEq]
    constructor
    · intro hsame p hlo hhi hfit hlt
      have hp := hoff.trans hlo
      rw [← hsame p hp hlt, hbytes p hp, if_pos ⟨hlo, hhi, hfit⟩]
    · intro hspare p hp hlt
      rw [hbytes p hp]
      split
      · next hin => exact hspare p hin.1 hin.2.1 hin.2.2 hlt
      · rfl
  · rw [hloop] at hres
    have hfit : s.Fits n off (off + toLoff len) := by
      by_contra hfull
      rw [if_neg hfull] at hres
      cases hres
    exact iff_of_true (errorAtomic_of_none rfl) fun hfull => absurd hfit hfull

/-- **`_falloc_range`** shows nothing of what it has done when it fails. -/
theorem errorAtomic_fallocRange {pos len : UInt64} (h : OnFile n s) (hw : Within Set.univ 1 s)
    (hio : checkIo (toLoff pos) len = none) : ErrorAtomic s (s.fallocRange n (toLoff pos) len) := by
  obtain ⟨held, hinv⟩ := h.inv
  obtain ⟨hoff, hpos, -, hmax⟩ := checkIo_iff.mp hio
  have hserve : Serves n ∅ _ held s (s.fallocRange n (toLoff pos) len).2 :=
    fallocRange_serves hoff hinv h.reg
  by_cases hlt : toLoff pos < toLoff pos + toLoff len
  · have hlast : toLoff pos + toLoff len < 2 ^ 63 := by
      have hlen := toLoff_lt len
      have hto : toLoff len = len.toNat ∨ toLoff len = len.toNat - 2 ^ 64 := ite_eq_or_eq _ _ _
      omega
    obtain ⟨hfail, hdone, hbytes⟩ := fallocRange_spec h hw hoff rfl hlt hlast
    apply hserve.errorAtomic_iff_clean.mpr
    intro herr
    have hfull : ¬ s.Fits n (toLoff pos) (toLoff pos + toLoff len) := fun hfit =>
      herr (hdone hfit).1
    exact (ReadsSame.iff_bytes (hfail hfull).2).mpr fun p hp _ => hbytes p hp
  · -- a length that wraps around: the loop has nothing to do
    apply errorAtomic_of_none
    rw [Sbi.fallocRange, Sbi.fallocRangeLoop, if_neg hlt]

/-! ## Truncate -/

/-- `_zero_after` has a block to store into by the time it comes to the tail: it is not shared
with another block then, or there is room for a copy. The blocks after it are dropped before. -/
def Sbi.TailFits (s : Sbi) (n : RecPtr) (pos : ℤ) : Prop :=
  let ds := (s.dropped n (nextPage pos)).map Iblkref.dblkref
  0 ≤ pos → ∀ ib ∈ fetchIblkref (s.blocksOf n) pos,
    counts s ib.dblkref ≤ ds.count ib.dblkref + 1 ∨ 0 < lastRefs (counts s) ds ∨ s.pool.Room 0 1

theorem room_none (q : Pool) : q.Room 0 0 := by
  simp [Pool.Room, Pool.cuts, RecKind.perPage]

theorem uniquePmemb_result (hw : Within N k s) : (s.uniquePmemb n ib).1 = none ↔
    1 < counts s ib.dblkref ∧ ¬ s.pool.Room 0 1 := by
  refine ⟨fun hnone => uniquePmemb_none hw (Prod.ext hnone rfl), ?_⟩
  rintro ⟨hmany, hfull⟩
  have hcount : (s.dblkrefs ib.dblkref).refcnt = counts s ib.dblkref := rfl
  rw [Sbi.uniquePmemb, hcount, if_pos hmany]
  split
  · rfl
  · next d s₁ hn => exact absurd ((newDblkref_room hn).mp (room_none s₁.pool)) hfull

/-- **`_zero_after`** fails when the tail is a block that is shared and there is no room. -/
theorem zeroAfter_result {pos : ℤ} (hw : Within N k s) : (s.zeroAfter n pos).1 = none ↔
    pos % pageSize = 0 ∨ ∀ ib ∈ fetchIblkref (s.blocksOf n) pos,
      counts s ib.dblkref ≤ 1 ∨ s.pool.Room 0 1 := by
  rw [Sbi.zeroAfter]
  split
  · next hal => simp [hal]
  · next hal =>
    split
    · next hf => simp [hf]
    · next ib hf =>
      have hres := @uniquePmemb_result s n ib N k hw
      split
      · next s₁ hr =>
        rw [hr] at hres
        obtain ⟨hmany, hfull⟩ := hres.mp rfl
        simp [hf, hal, hfull, hmany]
      · next bn s₁ hr =>
        rw [hr] at hres
        simp only [reduceCtorEq, false_iff, not_and_or, not_not, Nat.not_lt] at hres
        simp [hf, hres]

/-- The block of the tail is not among those that are dropped. -/
theorem fetch_dropRange {pos : ℤ} (h : OnFile n s) (hal : pos % pageSize ≠ 0) (hpos : 0 ≤ pos) :
    fetchIblkref ((s.dropRange n pos).blocksOf n) pos = fetchIblkref (s.blocksOf n) pos := by
  obtain ⟨held, hinv⟩ := h.inv
  have hmem : ∀ x, x ∈ (s.dropRange n pos).blocksOf n ↔ x ∈ s.blocksOf n ∧ x.off < nextPage pos := by
    intro x
    rw [blocksOf_dropRange hinv, if_pos hal, List.mem_filter, decide_eq_true_eq]
  rcases hf : fetchIblkref (s.blocksOf n) pos with _ | x
  · rcases hg : fetchIblkref ((s.dropRange n pos).blocksOf n) pos with _ | y
    · rfl
    · obtain ⟨hy, hyoff⟩ := fetchIblkref_some hg
      exact absurd hyoff (fetchIblkref_none hf y ((hmem y).mp hy).1)
  · obtain ⟨hx, hxoff⟩ := fetchIblkref_some hf
    have hlt : x.off < nextPage pos := by
      have hnext := lt_nextPage pos
      have hin := offInPage_nonneg hpos
      have hsum := offToBoff_add_offInPage hpos
      omega
    exact fetchIblkref_of_mem h.dropRange.offsets ((hmem x).mpr ⟨hx, hlt⟩) hxoff

/-- A size that is no file position drops all blocks. -/
theorem blocksOf_dropRange_of_neg {pos : ℤ} (h : OnFile n s) (hneg : pos < 0) :
    (s.dropRange n pos).blocksOf n = [] := by
  obtain ⟨held, hinv⟩ := h.inv
  have hnext := nextPage_nonpos hneg
  rw [blocksOf_dropRange hinv, List.filter_eq_nil_iff]
  intro ib hm
  have hnn := h.offsets.nonneg ib hm
  rw [decide_eq_true_eq]
  split <;> omega

/-- Room for one copy is there after blocks are given back when there was before, or a page came
back. -/
theorem Regains.room_iff {freed recs : ℕ} (h : Regains freed recs s s') :
    s'.pool.Room 0 1 ↔ 0 < freed ∨ s.pool.Room 0 1 := by
  refine ⟨fun hroom => ?_, h.room⟩
  obtain rfl | hpos := Nat.eq_zero_or_pos freed
  · right
    have hpages := h.pages
    have hdb := h.dblkrefs
    simp [Pool.Room, Pool.cuts, RecKind.perPage, hpages, hdb] at hroom ⊢
    exact hroom
  · exact .inl hpos

/-- **A truncate** that fails has cut the file. -/
theorem errorAtomic_truncate_iff {size : UInt64} (hok : FilesOk s) (hw : Within N k s) :
    ErrorAtomic s (s.truncate n size) ↔ ((s.inodes n).iMode = .reg → size < (s.inodes n).iSize →
      toLoff size % pageSize ≠ 0 → s.TailFits n (toLoff size)) := by
  by_cases hreg : (s.inodes n).iMode = .reg
  swap
  · -- nothing is done to what is no regular file
    refine iff_of_true ?_ fun h => absurd h hreg
    rw [Sbi.truncate]
    split
    · exact errorAtomic_refl
    · exact errorAtomic_refl
  have h : OnFile n s := hok.onFile hreg
  obtain ⟨held, hinv⟩ := h.inv
  have hdir : (s.inodes n).iMode ≠ .dir := by simp [hreg]
  rw [Sbi.truncate, if_neg hdir, if_neg (not_not.mpr hreg)]
  by_cases hlt : size < (s.inodes n).iSize
  swap
  · rw [if_neg hlt]
    exact iff_of_true (errorAtomic_of_none rfl) fun _ h => absurd h hlt
  rw [if_pos hlt]
  have hres : ((s.dropRange n (toLoff size)).zeroAfter n (toLoff size)).1 = none ↔ _ :=
    zeroAfter_result hw.dropRange
  obtain ⟨hregain, hcount⟩ := @regains_dropRange s held n (toLoff size) hinv hreg
  -- there is an error just when there is no room for the copy
  have hfits : ((s.dropRange n (toLoff size)).zeroAfter n (toLoff size)).1 = none ↔
      (toLoff size % pageSize ≠ 0 → s.TailFits n (toLoff size)) := by
    rw [hres]
    by_cases hal : toLoff size % pageSize = 0
    · simp [hal]
    rcases Int.lt_or_le (toLoff size) 0 with hneg | hpos
    · simp [Sbi.TailFits, blocksOf_dropRange_of_neg h hneg, Int.not_le.mpr hneg, fetchIblkref]
    · rw [if_pos hal] at hregain hcount
      simp only [hal, hpos, false_or, not_false_eq_true, true_imp_iff, ne_eq,
        fetch_dropRange h hal hpos, hregain.room_iff, Sbi.TailFits]
      refine forall₂_congr fun ib _ => or_congr_left ?_
      have := hcount ib.dblkref
      omega
  simp only [hreg, hlt, true_imp_iff]
  rw [← hfits]
  constructor
  · intro hatomic
    by_contra herr
    have hsize := (hatomic herr n).size
    simp only [Sbi.setSize, setInode_inodes_self] at hsize
    rw [hsize] at hlt
    exact absurd hlt (UInt64.lt_irrefl _)
  · exact fun hnone => errorAtomic_of_none hnone

/-! ## Clone -/

/-- The file with the first `k` of its blocks alone. -/
def Sbi.firstBlocks (s : Sbi) (n : RecPtr) (k : ℕ) : Sbi := s.setBlocks n ((s.blocksOf n).take k)

/-- There are records for all blocks of the source, or those that there are records for read as
the blocks that were dropped for them. -/
def Sbi.WholeSpares (s : Sbi) (src dst : RecPtr) : Prop :=
  let ds := (s.dropped dst 0).map Iblkref.dblkref
  let k := s.pool.recsLeft .iblkref + ds.length + 128 * lastRefs (counts s) ds
  (s.blocksOf src).length ≤ k ∨ ∀ p : ℤ, 0 ≤ p → p < (s.inodes dst).iSize.toNat →
    (s.firstBlocks src k).byteAt src p = s.byteAt dst p

/-- **A whole file** that cannot be cloned is lost, but for its size. -/
theorem errorAtomic_cloneEntire_iff (hne : src ≠ dst) (hsrc : OnFile src s) (hdst : OnFile dst s) :
    ErrorAtomic s (s.cloneEntireFileRange src dst) ↔ s.WholeSpares src dst := by
  obtain ⟨held, hinv⟩ := hdst.inv
  have hserve : Serves dst ∅ True held s (s.cloneEntireFileRange src dst).2 :=
    cloneEntireFileRange_serves hne hinv hdst.reg
  obtain ⟨hregain, -⟩ := @regains_dropRange s held dst 0 hinv hdst.reg
  have hleft := hregain.recsLeft
  have hstart : (if (0 : ℤ) % pageSize ≠ 0 then nextPage 0 else 0) = 0 := rfl
  rw [hstart] at hleft
  obtain ⟨hres, hsize, hplaces, hkeep⟩ := cloneEntireFileRange_spec hne hdst
  rw [hleft] at hres hsize hplaces
  unfold Sbi.WholeSpares
  simp only [List.length_map]
  set k := s.pool.recsLeft .iblkref + (s.dropped dst 0).length +
    128 * lastRefs (counts s) ((s.dropped dst 0).map Iblkref.dblkref)
  by_cases hall : (s.blocksOf src).length ≤ k
  · exact iff_of_true (errorAtomic_of_none (hres.mpr hall)) (.inl hall)
  have hfail : (s.cloneEntireFileRange src dst).1 ≠ none := fun hok => hall (hres.mp hok)
  rw [if_neg hall] at hsize
  -- the destination has the first blocks of the source
  have hblocks : (s.firstBlocks src k).blocksOf src = (s.blocksOf src).take k := blocksOf_setInode
  have hbytes : ∀ p, (s.cloneEntireFileRange src dst).2.byteAt dst p =
      (s.firstBlocks src k).byteAt src p := by
    intro p
    apply byteAt_of_places
    · rw [hblocks]
      exact hsrc.offsets.sublist (List.take_sublist k _)
    · rw [hblocks, hplaces]
    · intro x hx
      rw [hblocks] at hx
      exact hkeep.2 _ (mem_keys_of_mem (List.mem_of_mem_take hx))
  rw [← Prod.mk.eta (p := s.cloneEntireFileRange src dst), hserve.errorAtomic_iff_clean]
  simp only [hfail, ReadsSame.iff_bytes hsize, hbytes, hall, false_or, ne_eq, not_false_eq_true,
    true_imp_iff]

/-- The pages that there is room for read as those they are copied to, and lie below the size. -/
def Sbi.RangeSpares (s : Sbi) (src dst : RecPtr) (srcPos dstPos : ℤ) (pages : ℕ) : Prop :=
  let done := s.pool.stock.clonePages (counts s) (s.blocksOf src) (s.blocksOf dst) srcPos dstPos pages
  done < pages →
    (∀ p : ℤ, dstPos ≤ p → p < dstPos + done * pageSize → p < (s.inodes dst).iSize.toNat →
      s.byteAt src (srcPos + (p - dstPos)) = s.byteAt dst p) ∧
    ∀ q : ℤ, q % pageSize = 0 → 0 ≤ q → q < done * pageSize → s.PairAt src dst srcPos dstPos q →
      dstPos + q + pageSize ≤ (s.inodes dst).iSize.toNat

/-- What a copy of a part of a range leaves to be seen. -/
theorem Copied.readsSame_iff {srcOff dstOff done : ℤ} (h : Copied src dst srcOff dstOff done s s')
    (hd : 0 ≤ dstOff) : ReadsSame dst s s' ↔
      (∀ p : ℤ, dstOff ≤ p → p < dstOff + done → p < (s.inodes dst).iSize.toNat →
        s.byteAt src (srcOff + (p - dstOff)) = s.byteAt dst p) ∧
      ∀ q : ℤ, q % pageSize = 0 → 0 ≤ q → q < done → s.PairAt src dst srcOff dstOff q →
        dstOff + q + pageSize ≤ (s.inodes dst).iSize.toNat := by
  constructor
  · intro hsame
    have hbytes := (ReadsSame.iff_bytes hsame.size).mp hsame
    refine ⟨fun p hlo hhi hlt => ?_, fun q hal hq hlt hpair => ?_⟩
    · have hp := hd.trans hlo
      rw [← hbytes p hp hlt, h.bytes p hp, if_pos ⟨hlo, hhi⟩]
    · rw [← hsame.size]
      exact h.sizeGe q hal hq hlt hpair
  · rintro ⟨hbytes, hpages⟩
    have hsize : (s'.inodes dst).iSize = (s.inodes dst).iSize := by
      rcases h.sizeLe with heq | ⟨q, hal, hq, hlt, hpair, hto⟩
      · exact heq
      · have hle := hpages q hal hq hlt hpair
        have hmono := h.sizeMono
        exact UInt64.toNat_inj.mp (by omega)
    apply (ReadsSame.iff_bytes hsize).mpr
    intro p hp hlt
    rw [h.bytes p hp]
    split
    · next hin => exact hbytes p hin.1 hin.2 hlt
    · rfl

/-- **Ranges**: what was copied before there was no room stays. -/
theorem errorAtomic_cloneSub_iff {srcPos dstPos : ℤ} {len : UInt64} (hne : src ≠ dst)
    (hdst : OnFile dst s) (hw : Within N k s) (hs : 0 ≤ srcPos) (hd : 0 ≤ dstPos)
    (hend : dstPos < 2 ^ 63) (hsal : srcPos % pageSize = 0) (hdal : dstPos % pageSize = 0)
    (hlen : len % 4096 = 0) : ErrorAtomic s (s.cloneSubFileRange src dst srcPos dstPos len) ↔
      s.RangeSpares src dst srcPos dstPos (toLoff len / pageSize).toNat := by
  obtain ⟨held, hinv⟩ := hdst.inv
  have hlenal := toLoff_emod hlen
  unfold Sbi.cloneSubFileRange Sbi.RangeSpares
  rcases Int.lt_or_le 0 (toLoff len) with hpos | hneg
  swap
  · -- the loop has nothing to do
    have hpages : (toLoff len / pageSize).toNat = 0 := by
      unfold pageSize
      omega
    have hover : ¬ (srcPos < srcPos + toLoff len ∧ dstPos < dstPos + toLoff len) := by omega
    rw [hpages, Sbi.cloneSubLoop, if_neg hover]
    exact iff_of_true (errorAtomic_of_none rfl) fun hlt => absurd hlt (Nat.not_lt_zero _)
  have hserve : Serves dst ∅ (Unshared (ClonedTo (s.blocksOf src) srcPos dstPos
      (dstPos + toLoff len)) dst s) held s
      (s.cloneSubLoop src dst srcPos (srcPos + toLoff len) dstPos (dstPos + toLoff len)).2 := by
    refine cloneSubLoop_serves hne hsal ?_ hdal ?_ hinv hdst.reg
    · rw [Int.add_emod, hsal, hlenal]
      rfl
    · rw [Int.add_emod, hdal, hlenal]
      rfl
  have hlt := toLoff_lt len
  have hpages : toLoff len = ((toLoff len / pageSize).toNat : ℕ) * pageSize := by
    unfold pageSize at *
    omega
  rcases hloop : s.cloneSubLoop src dst srcPos (srcPos + toLoff len) dstPos (dstPos + toLoff len)
    with ⟨res, s₁⟩
  rw [hloop] at hserve
  have hknown : KnownFrom dst (s.blocksOf dst) (counts s) dstPos s :=
    ⟨fun _ _ => Iff.rfl, fun _ _ _ => rfl⟩
  rw [hpages] at hloop
  obtain ⟨hres, hcopy⟩ := cloneSubLoop_room hknown hdst.offsets hw hne hdst hs hsal hd hdal
    (by omega) hloop
  have hle := s.pool.stock.clonePages_le (counts s) (s.blocksOf src) (s.blocksOf dst) srcPos dstPos
    (toLoff len / pageSize).toNat
  rw [hserve.errorAtomic_iff_clean, hcopy.readsSame_iff hd, ne_eq, hres]
  refine imp_congr_left ?_
  omega

/-- A clone leaves what it did not do. -/
def Sbi.CloneSpares (s : Sbi) (src dst : RecPtr) (srcPos dstPos : ℤ) (len : UInt64) : Prop :=
  if srcPos = 0 ∧ len = 0 ∧ dstPos = 0 then s.WholeSpares src dst
  else ispagealigned srcPos len = true → ispagealigned dstPos len = true →
    s.RangeSpares src dst srcPos dstPos (toLoff len / pageSize).toNat

theorem errorAtomic_clone_iff {srcPos dstPos : ℤ} {len : UInt64} (hok : FilesOk s)
    (hw : Within N k s) (hs : 0 ≤ srcPos) (hd : 0 ≤ dstPos) (hend : dstPos < 2 ^ 63) :
    ErrorAtomic s (s.clone src dst srcPos dstPos len) ↔ ((s.inodes src).iMode = .reg →
      (s.inodes dst).iMode = .reg → src ≠ dst → s.CloneSpares src dst srcPos dstPos len) := by
  rw [Sbi.clone, Sbi.CloneSpares]
  by_cases hreg : (s.inodes src).iMode = .reg ∧ (s.inodes dst).iMode = .reg
  swap
  · rw [if_pos (not_and_or.mp hreg)]
    exact iff_of_true errorAtomic_refl fun hsrc hdst => absurd ⟨hsrc, hdst⟩ hreg
  obtain ⟨hsrc, hdst⟩ := hreg
  rw [if_neg (by simp [hsrc, hdst])]
  simp only [hsrc, hdst, true_imp_iff]
  by_cases hne : src = dst
  · rw [if_pos hne]
    exact iff_of_true errorAtomic_refl fun h => absurd hne h
  rw [if_neg hne]
  simp only [ne_eq, hne, not_false_eq_true, true_imp_iff]
  by_cases hwhole : srcPos = 0 ∧ len = 0 ∧ dstPos = 0
  · rw [if_pos hwhole, if_pos hwhole]
    exact errorAtomic_cloneEntire_iff hne (hok.onFile hsrc) (hok.onFile hdst)
  rw [if_neg hwhole, if_neg hwhole]
  by_cases hal : ispagealigned srcPos len = true ∧ ispagealigned dstPos len = true
  swap
  · rw [if_pos (by simpa only [Bool.not_eq_true, not_and_or] using hal)]
    exact iff_of_true errorAtomic_refl fun hsal hdal => absurd ⟨hsal, hdal⟩ hal
  obtain ⟨hsal, hdal⟩ := hal
  rw [if_neg (by simp [hsal, hdal])]
  simp only [hsal, hdal, true_imp_iff]
  simp only [ispagealigned, Bool.and_eq_true, beq_iff_eq] at hsal hdal
  exact errorAtomic_cloneSub_iff hne (hok.onFile hdst) hw hs hd hend hsal.1 hdal.1 hsal.2

/-! ## Requests -/

/-- What a request did before it failed cannot be told from what was there. -/
def FileReq.Spares (apiMapMaxSize : ℕ) (s : Sbi) : FileReq → Prop
  | .write n buf filepos len => checkRw apiMapMaxSize (toLoff filepos) len = none →
      s.WriteSpares n buf (toLoff filepos) (toLoff filepos + toLoff len)
  | .fallocRange .. => True
  | .truncate n size => (s.inodes n).iMode = .reg → size < (s.inodes n).iSize →
      toLoff size % pageSize ≠ 0 → s.TailFits n (toLoff size)
  | .clone src dst posIn posOut len => (s.inodes src).iMode = .reg → (s.inodes dst).iMode = .reg →
      src ≠ dst → s.CloneSpares src dst (toLoff posIn) (toLoff posOut) len

/-- **A request that fails leaves all files as they were just when** what it did before cannot be
told from what was there. -/
theorem errorAtomic_iff (apiMapMaxSize : ℕ) (x : Sys)
    (h : ((toyfs apiMapMaxSize).restrict fun _ a => a.InFile).Reachable x) (r : FileReq)
    (hr : r.Sent x.sbi) :
    ErrorAtomic x.sbi (r.run apiMapMaxSize x.sbi) ↔ r.Spares apiMapMaxSize x.sbi := by
  have hok := toyfs_filesOk h
  have hw := toyfs_within h.of_restrict
  cases r with
  | write n buf filepos len => exact errorAtomic_write_iff (hok.onFile hr) hw
  | fallocRange n filepos len =>
    exact iff_of_true (errorAtomic_fallocRange (hok.onFile hr.1) hw hr.2) trivial
  | truncate n size => exact errorAtomic_truncate_iff hok hw
  | clone src dst posIn posOut len =>
    exact errorAtomic_clone_iff hok hw hr.1 hr.2 (toLoff_lt posOut)

/-- A write that there is no room for fails. -/
theorem write_failed {buf : Bytes} {pos len : UInt64} (h : OnFile n s) (hw : Within N k s)
    (hcheck : checkRw apiMapMaxSize (toLoff pos) len = none) (hoff : 0 ≤ toLoff pos)
    (hfull : ¬ s.Fits n (toLoff pos) (toLoff pos + toLoff len)) :
    ((FileReq.write n buf pos len).run apiMapMaxSize s).1 = some .enospc := by
  obtain ⟨held, hinv⟩ := h.inv
  have hres : (s.writeLoop n buf (toLoff pos) (toLoff pos + toLoff len) 0).1 = _ :=
    writeLoop_result hoff h.file hinv hw h.reg
  rw [if_neg hfull] at hres
  rcases hloop : s.writeLoop n buf (toLoff pos) (toLoff pos + toLoff len) 0 with ⟨err | cnt, s₁⟩
  · rw [hloop] at hres
    obtain rfl := Except.error.inj hres
    simp only [FileReq.run, Sbi.write, hcheck, hloop]
  · rw [hloop] at hres
    cases hres

/-- A file of ones is written over with ones, from its start to where the device is full. -/
theorem errorAtomic_iff_sameBytes : ∃ x,
    ((toyfs 4194304).restrict fun _ a => a.InFile).Reachable x ∧
      (x.sbi.inodes ⟨1023, 1⟩).iSize = 100 ∧ x.sbi.byteAt ⟨1023, 1⟩ 99 = 1 ∧
      ((FileReq.write ⟨1023, 1⟩ (fun _ => 1) 0 4194304).run 4194304 x.sbi).1 = some .enospc ∧
      ErrorAtomic x.sbi ((FileReq.write ⟨1023, 1⟩ (fun _ => 1) 0 4194304).run 4194304 x.sbi) := by
  obtain ⟨x, hx, hp⟩ := exists_restrict_of_mounted 4194304 (fun _ a => a.InFile)
    [.newInode ⟨1023, 0⟩ ⟨.reg, 0, 0, [], fun _ => 0, false⟩ (some 2),
      .write ⟨1023, 1⟩ (fun _ => 1) 0 100]
    (p := fun x => decide ((x.sbi.inodes ⟨1023, 1⟩).iMode = .reg ∧
      (x.sbi.inodes ⟨1023, 1⟩).iSize = 100 ∧
      (∀ i : ℕ, i < 100 → x.sbi.byteAt ⟨1023, 1⟩ i = 1) ∧
      ¬ x.sbi.Fits ⟨1023, 1⟩ 0 4194304))
    (by decide +kernel)
  obtain ⟨hreg, hsize, hones, hfull⟩ := of_decide_eq_true hp
  have hon : OnFile ⟨1023, 1⟩ x.sbi := (toyfs_filesOk hx).onFile hreg
  have hatomic := errorAtomic_iff 4194304 x hx (.write ⟨1023, 1⟩ (fun _ => 1) 0 4194304) hreg
  refine ⟨x, hx, hsize, hones 99 (by decide),
    write_failed hon (toyfs_within hx.of_restrict) (by decide) (by decide) hfull,
    hatomic.mpr fun _ _ p hlo _ _ hlt => ?_⟩
  rw [hsize] at hlt
  obtain ⟨i, rfl⟩ := Int.eq_ofNat_of_zero_le (show 0 ≤ p from hlo)
  exact (hones i (by exact_mod_cast hlt)).symm

/-! ### A write that is torn -/

/-- A write of `1024` pages to a device of `1024` blocks fails and leaves its first bytes. -/
theorem failed_write_stays : ¬ ∀ x,
    ((toyfs 4194304).restrict fun _ a => a.InFile).Reachable x → ∀ r : FileReq, r.Sent x.sbi →
      ErrorAtomic x.sbi (r.run 4194304 x.sbi) := by
  intro hall
  obtain ⟨x, hx, hp⟩ := exists_restrict_of_mounted 4194304 (fun _ a => a.InFile)
    [.newInode ⟨1023, 0⟩ ⟨.reg, 0, 0, [], fun _ => 0, false⟩ (some 2), .truncate ⟨1023, 1⟩ 1]
    (p := fun x => (x.sbi.inodes ⟨1023, 1⟩).iMode == .reg && (x.sbi.inodes ⟨1023, 1⟩).iSize == 1 &&
      (x.sbi.blocksOf ⟨1023, 1⟩).isEmpty && decide (x.sbi.pool.Room 1 0) &&
      !decide (x.sbi.pool.Room 1024 0))
    (by decide +kernel)
  simp only [Bool.and_eq_true, beq_iff_eq, List.isEmpty_iff, decide_eq_true_eq,
    Bool.not_eq_true', decide_eq_false_iff_not] at hp
  obtain ⟨⟨⟨⟨hreg, hsize⟩, hnil⟩, hroom⟩, hfull⟩ := hp
  have hon : OnFile ⟨1023, 1⟩ x.sbi := (toyfs_filesOk hx).onFile hreg
  have hatomic := hall x hx (.write ⟨1023, 1⟩ (fun _ => 7) 0 4194304) hreg
  have hspare := (errorAtomic_write_iff hon (toyfs_within hx.of_restrict)).mp hatomic (by decide)
  have hzero : toLoff 0 = 0 := by decide
  have hlast : toLoff 0 + toLoff 4194304 = (1024 : ℕ) * pageSize := by decide
  rw [hlast, hzero] at hspare
  -- the first byte is in the first page, for which there is room
  have hfirst : x.sbi.Fits ⟨1023, 1⟩ 0 (0 + 1) := by
    have hpage : pagesIn 0 (0 + 1) = pagesIn 0 ((1 : ℕ) * pageSize) := by
      rw [pagesIn_of_lt (by decide), pagesIn_of_ge (by decide : (0 : ℤ) + 1 ≤ nextPage 0),
        pagesIn_of_lt (by decide), pagesIn_of_ge (by decide)]
    rw [Sbi.Fits, hpage]
    exact (fits_empty_iff hnil 1).mpr hroom
  have hstored := hspare ((fits_empty_iff hnil 1024).not.mpr hfull) 0 (le_refl 0) (by decide)
    hfirst (by rw [hsize]; decide)
  rw [byteAt_of_missing (by simp [hnil])] at hstored
  cases hstored

end Zus.Toyfs
