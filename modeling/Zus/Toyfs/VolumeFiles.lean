import Zus.Toyfs.Atomic
import Zus.Toyfs.Falloc
import Zus.Toyfs.VolumeNames

/-!
# Requests on files

What each request on a file does to its content as a map of bytes, and that it does nothing else
to the volume. A fallocate is right under conditions: no block of the file is shared when one is
stored to in place, a range that is zeroed does not start in a hole, one that is collapsed lies in
the file, and the size is what the mode wants it to be. A clone is right when it is of a whole file
or of ranges that fit. A request that fails is one that had nothing to take back.
-/

namespace Zus.Toyfs

open Zus.Lib Function

variable {s s' : Sbi} {x : Sys} {held : RecPtr → ℕ} {n m src dst : RecPtr} {buf : Bytes}
  {off last p : ℤ} {apiMapMaxSize : ℕ} {f : ByteMap}

/-! ## Contents -/

theorem content_ext (hsize : (s.inodes n).iSize.toNat = f.size)
    (hbyte : ∀ p : ℕ, p < f.size → s.byteAt n p = f.byte p) : s.content n = f := by
  refine ByteMap.ext hsize (funext fun p => ?_)
  change s.readByte n p = f.byte p
  by_cases hlt : p < f.size
  · rw [readByte_of_lt (by rw [hsize]; exact_mod_cast hlt), hbyte p hlt]
  · rw [readByte_of_le (by rw [hsize]; exact_mod_cast Nat.not_lt.mp hlt), f.zero p (Nat.not_lt.mp hlt)]

theorem content_byte (h : s.NoStale n) (p : ℕ) : (s.content n).byte p = s.byteAt n p :=
  readByte_of_noStale h (Int.natCast_nonneg p)

theorem content_size : (s.content n).size = (s.inodes n).iSize.toNat := rfl

/-- A file that reaches to the end of a range is not grown to it. -/
theorem resize_max_of_le (hle : last ≤ (s.inodes n).iSize.toNat) :
    (s.content n).resize (max (s.content n).size last.toNat) = s.content n := by
  rw [content_size, max_eq_left (by omega), ← content_size, ByteMap.resize_self]

/-! ## Truncate -/

/-- The blocks that are still in use keep their pages. -/
theorem keepsBlock_dropRange (h : Inv held s) (hreg : (s.inodes n).iMode = .reg) (d : RecPtr)
    (hd : 0 < counts (s.dropRange n off) d) : KeepsBlock s (s.dropRange n off) d := by
  refine dropRange_induction (I := fun t => ∀ d, 0 < counts t d → KeepsBlock s t d) h hreg
    (fun d _ => ⟨rfl, rfl⟩) (fun t held₁ ib _ _ _ ht d hd => ?_) d hd
  have hpos : 0 < counts t d := by
    rw [counts_dropIblkref] at hd
    obtain rfl | hne := eq_or_ne d ib.dblkref
    · rw [update_self] at hd
      omega
    · rwa [update_of_ne hne] at hd
  exact (ht d hpos).trans (dropIblkref_keepsBlock hd)

/-- The bytes before the cut stay. -/
theorem byteAt_dropRange (h : OnFile n s) (hp : 0 ≤ p) (hlt : p < off) :
    (s.dropRange n off).byteAt n p = s.byteAt n p := by
  obtain ⟨held, hinv⟩ := h.inv
  have h' : OnFile n (s.dropRange n off) := h.dropRange
  have hmem : ∀ ib, ib ∈ (s.dropRange n off).blocksOf n ↔ ib ∈ s.blocksOf n ∧
      ib.off < if off % pageSize ≠ 0 then nextPage off else off := by
    intro ib
    rw [blocksOf_dropRange hinv, List.mem_filter, decide_eq_true_eq]
  have hle := offToBoff_le hp
  have hnext := lt_nextPage off
  refine byteAt_congr h.offsets h'.offsets rfl (fun ib hib hat => ?_) fun ib hib hat =>
    ⟨ib, (hmem ib).mpr ⟨hib, by split <;> omega⟩, hat⟩
  obtain ⟨hpage, hbytes⟩ := keepsBlock_dropRange hinv h.reg _ (h'.counts_pos hib)
  exact ⟨ib, ((hmem ib).mp hib).1, hat, by rw [hpage, hbytes]⟩

/-- **`_zero_after`** leaves the bytes before the cut. -/
theorem byteAt_zeroAfter (h : OnFile n s) (hoff : 0 ≤ off) (hp : 0 ≤ p) (hlt : p < off) :
    (s.zeroAfter n off).2.byteAt n p = s.byteAt n p := by
  unfold Sbi.zeroAfter
  split
  · rfl
  split
  · rfl
  next ib hf =>
  obtain ⟨hm, hib⟩ := fetchIblkref_some hf
  split
  · next s₁ hr => exact byteAt_uniquePmemb h hm hr hp
  · next bn s₁ hr =>
    obtain ⟨held, hinv⟩ := h.inv
    have h₁ : OnFile n s₁ := h.uniquePmemb hm hr
    obtain ⟨ib', hm', hib', rfl, hle⟩ := uniquePmemb_block hinv h.reg hm hr
    have hnn := offInPage_nonneg hoff
    have hpage := offInPage_lt hoff
    have hsum := offToBoff_add_offInPage hoff
    have hlen : ((toSize (pageSize - offInPage off)).toNat : ℤ) = pageSize - offInPage off := by
      rw [toNat_toSize (by omega) (by unfold pageSize at *; omega)]
      omega
    rw [byteAt_storeAt h₁ hm' (h₁.pageAlone hm' hle) hnn (by omega) hp, if_neg (by omega),
      byteAt_uniquePmemb h hm hr hp]

/-- **`toyfs_truncate`** cuts the content, or grows it. -/
theorem content_truncate {size : UInt64} (h : OnFile n s) (hsize : (s.inodes n).iSize.toNat < 2 ^ 63)
    (hstale : s.NoStale n) : (s.truncate n size).2.content n = (s.content n).resize size.toNat := by
  have hself : ∀ t : Sbi, ((t.setSize n size).inodes n).iSize = size := fun t => by
    rw [Sbi.setSize, setInode_inodes_self]
  have hreg := h.reg
  by_cases hlt : size < (s.inodes n).iSize
  · have hto := UInt64.lt_iff_toNat_lt.mp hlt
    have hoff : toLoff size = size.toNat := toLoff_of_lt (by omega)
    have heq : (s.truncate n size).2 =
        ((s.dropRange n (toLoff size)).zeroAfter n (toLoff size)).2.setSize n size := by
      unfold Sbi.truncate
      rw [if_neg (by rw [hreg]; decide), if_neg (not_not.mpr hreg), if_pos hlt]
    rw [heq]
    refine content_ext (by rw [hself]; rfl) fun p (hp : p < size.toNat) => ?_
    have hp' : (p : ℤ) < toLoff size := by
      rw [hoff]
      exact_mod_cast hp
    rw [byteAt_setSize, byteAt_zeroAfter h.dropRange (by omega) (by omega) hp',
      byteAt_dropRange h (by omega) hp', ByteMap.resize_byte, if_pos hp, content_byte hstale]
  · rw [truncate_grow hreg (UInt64.not_lt.mp hlt)]
    refine content_ext (by rw [hself]; rfl) fun p (hp : p < size.toNat) => ?_
    rw [byteAt_setSize, ByteMap.resize_byte, if_pos hp, content_byte hstale]

/-! ## Fallocate -/

/-- The conditions under which a fallocate does to a file what it is to do. -/
def Sbi.FallocRight (s : Sbi) (n : RecPtr) (mode : UInt32) (off last : ℤ) : Prop :=
  if mode &&& fallocPunchHole ≠ 0 then NoShared n s
  else if mode &&& fallocZeroRange ≠ 0 then
    NoShared n s ∧ (∀ ib, ¬ s.AfterHole n off last ib) ∧
      (mode &&& fallocKeepSize = 0 → last ≤ (s.inodes n).iSize.toNat)
  else if mode &&& fallocCollapseRange ≠ 0 then last ≤ (s.inodes n).iSize.toNat
  else mode &&& fallocKeepSize ≠ 0 → last ≤ (s.inodes n).iSize.toNat

/-- The length of a range in a file. -/
theorem toLoff_fallocLen {pos lastPos : UInt64} (hpos : 0 ≤ toLoff pos)
    (hlt : toLoff pos < toLoff lastPos) :
    toLoff (fallocLen pos lastPos) = toLoff lastPos - toLoff pos := by
  have hlast := toLoff_lt lastPos
  exact toLoff_toSize (by omega) (by omega)

section Falloc

variable {mode : UInt32} {pos lastPos : UInt64} (h : OnFile n s) (hpos : 0 ≤ toLoff pos)
  (hlt : toLoff pos < toLoff lastPos)

include h hpos hlt

/-- **`_falloc_range`** grows the content to the end of the range. -/
theorem content_fallocRange (hw : Within Set.univ 1 s) (hstale : s.NoStale n)
    (hsize : (s.inodes n).iSize.toNat < 2 ^ 63)
    (hok : (s.fallocRange n (toLoff pos) (fallocLen pos lastPos)).1 = none) :
    (s.fallocRange n (toLoff pos) (fallocLen pos lastPos)).2.content n =
      (s.content n).resize (max (s.content n).size (toLoff lastPos).toNat) := by
  have hlen := toLoff_fallocLen hpos hlt
  have hlast := toLoff_lt lastPos
  obtain ⟨hfail, hdone, hbytes⟩ := fallocRange_spec h hw hpos
    (by omega : toLoff pos + toLoff (fallocLen pos lastPos) = toLoff lastPos) hlt hlast
  have hfit : s.Fits n (toLoff pos) (toLoff lastPos) := by
    by_contra hfull
    exact (hfail hfull).1 hok
  have hgrown := (hdone hfit).2.1
  rw [if_pos hsize] at hgrown
  refine content_ext hgrown fun p (hp : p < max (s.content n).size (toLoff lastPos).toNat) => ?_
  rw [hbytes p (by omega), ByteMap.resize_byte, if_pos hp, content_byte hstale]

/-- **`_punch_hole`** clears the range of a file that shares no block. -/
theorem content_punchHole (hstale : s.NoStale n) (hun : NoShared n s) :
    (s.punchHole n (toLoff pos) (fallocLen pos lastPos)).content n = (s.content n).clear
      (toLoff pos).toNat ((toLoff lastPos).toNat - (toLoff pos).toNat) := by
  have hlen := toLoff_fallocLen hpos hlt
  have hclear : Cleared n (toLoff pos) (toLoff pos + toLoff (fallocLen pos lastPos)) s
      (s.punchHole n (toLoff pos) (fallocLen pos lastPos)) :=
    cleared_punchHoleLoop h (fun ib hm _ => hun.pagesDistinct ib hm) hpos
  refine content_ext (congrArg UInt64.toNat hclear.size) fun p _ => ?_
  rw [hclear.bytes p (by omega), ByteMap.clear_byte, content_byte hstale]
  exact if_congr (by omega) rfl rfl

/-- **`_zero_range`** clears it if it does not start in a hole. -/
theorem content_zeroRange (hstale : s.NoStale n) (hun : NoShared n s)
    (hstart : ∀ ib, ¬ s.AfterHole n (toLoff pos) (toLoff lastPos) ib) :
    (s.zeroRange n (toLoff pos) (fallocLen pos lastPos)).content n = (s.content n).clear
      (toLoff pos).toNat ((toLoff lastPos).toNat - (toLoff pos).toNat) := by
  have hlen := toLoff_fallocLen hpos hlt
  have hlast := toLoff_lt lastPos
  have hend : toLoff pos + toLoff (fallocLen pos lastPos) = toLoff lastPos := by omega
  have hsame : (s.zeroRange n (toLoff pos) (fallocLen pos lastPos)).inodes = s.inodes :=
    inodes_zeroRangeLoop
  refine content_ext (by rw [hsame]; rfl) fun p _ => ?_
  have hbytes := (byteAt_zeroRange h hun.pagesDistinct hpos (by omega) (by omega)
    (Int.natCast_nonneg p)).2 fun ib hib => absurd (hend ▸ hib) (hstart ib)
  rw [hbytes, ByteMap.clear_byte, content_byte hstale]
  exact if_congr (by omega) rfl rfl

/-- **`_collapse_range`** takes the range out if it lies in the file. -/
theorem content_collapseRange (hstale : s.NoStale n)
    (hal : ispagealigned (toLoff pos) (fallocLen pos lastPos) = true)
    (hin : toLoff lastPos ≤ (s.inodes n).iSize.toNat) :
    (s.collapseRange n (toLoff pos) (fallocLen pos lastPos)).content n = (s.content n).collapse
      (toLoff pos).toNat ((toLoff lastPos).toNat - (toLoff pos).toNat) := by
  have hlen := toLoff_fallocLen hpos hlt
  have hto : ((fallocLen pos lastPos).toNat : ℤ) = toLoff lastPos - toLoff pos := by
    rw [toNat_fallocLen hpos, if_pos hlt.le]
  have hle : fallocLen pos lastPos ≤ (s.inodes n).iSize := UInt64.le_iff_toNat_le.mpr (by omega)
  have hsize : ((s.collapseRange n (toLoff pos) (fallocLen pos lastPos)).inodes n).iSize.toNat =
      (s.content n).size - ((toLoff lastPos).toNat - (toLoff pos).toNat) := by
    rw [size_collapseRange h hpos hal, if_pos hle, UInt64.toNat_sub_of_le _ _ hle, content_size]
    omega
  refine content_ext hsize fun p
    (hp : p < (s.content n).size - ((toLoff lastPos).toNat - (toLoff pos).toNat)) => ?_
  obtain ⟨hbefore, hafter⟩ := byteAt_collapseRange h hpos hal (Int.natCast_nonneg p)
  rw [ByteMap.collapse_byte, if_pos hp]
  split
  · next hlow => rw [hbefore (by omega), content_byte hstale]
  · next hhigh =>
    have hplus : (p : ℤ) + toLoff (fallocLen pos lastPos) =
        ((p + ((toLoff lastPos).toNat - (toLoff pos).toNat) : ℕ) : ℤ) := by omega
    rw [hafter (by omega) (by omega), hplus, content_byte hstale]

end Falloc

/-! ## Clone -/

/-- What a clone does to a range. -/
theorem CloneLaw.content {srcPos dstPos : ℤ} {len : UInt64}
    (h : CloneLaw src dst srcPos dstPos len s s') (hr : ClonesRange src dst srcPos dstPos len) :
    s'.content dst = (s.content dst).write dstPos.toNat len.toNat
      fun i => (s.content src).byte (srcPos.toNat + i) := by
  have hs := hr.srcNonneg
  have hd := hr.dstNonneg
  have hsize := h.size hr
  refine ByteMap.ext ?_ (funext fun p => ?_)
  · change (s'.inodes dst).iSize.toNat = max (s.inodes dst).iSize.toNat (dstPos.toNat + len.toNat)
    omega
  · change s'.readByte dst p = _
    rw [h.bytes hr p (Int.natCast_nonneg p), ByteMap.write_byte]
    split
    · next hin =>
      rw [if_pos (by omega)]
      exact congrArg (s.readByte src) (by omega)
    · next hout =>
      rw [if_neg (by omega)]
      rfl

/-- The conditions under which a clone does to a file what it is to do: it is of a whole file, of
ranges that fit, or turned away. -/
def Sbi.CloneRight (s : Sbi) (src dst : RecPtr) (srcPos dstPos : ℤ) (len : UInt64) : Prop :=
  0 ≤ srcPos ∧ ((srcPos = 0 ∧ len = 0 ∧ dstPos = 0) ∨
    (ClonesRange src dst srcPos dstPos len ∧ s.CloneFits src dst srcPos dstPos len) ∨
    (src ≠ dst ∧ (ispagealigned srcPos len = false ∨ ispagealigned dstPos len = false)))

/-- **`_clone`**, when it is right and succeeds. -/
theorem content_clone {srcPos dstPos : ℤ} {len : UInt64} (hsrc : OnFile src s) (hdst : OnFile dst s)
    (hright : s.CloneRight src dst srcPos dstPos len)
    (hok : (s.clone src dst srcPos dstPos len).1 = none) :
    (s.clone src dst srcPos dstPos len).2.content dst = Volume.cloned srcPos.toNat dstPos.toNat
      len.toNat (s.content src) (s.content dst) := by
  have hlaw := cloneLaw_clone_iff hsrc hdst hok
  have hreg : ¬ ((s.inodes src).iMode ≠ .reg ∨ (s.inodes dst).iMode ≠ .reg) := by
    simp [hsrc.reg, hdst.reg]
  rcases hright with ⟨-, ⟨rfl, rfl, rfl⟩ | ⟨hr, hfits⟩ | ⟨hne, hal⟩⟩
  · rw [Volume.cloned, if_pos ⟨rfl, rfl, rfl⟩]
    by_cases hne : src = dst
    · subst hne
      rw [Sbi.clone, if_neg hreg, if_pos rfl]
    · have hwhole := hlaw.mpr fun hr => absurd hr.pos (by decide)
      exact ByteMap.ext (congrArg UInt64.toNat (hwhole.wholeSize hne rfl rfl rfl))
        (funext fun p => hwhole.wholeBytes hne rfl rfl rfl p (Int.natCast_nonneg p))
  · rw [Volume.cloned, if_neg fun h => hr.pos.ne' h.2.1]
    exact (hlaw.mpr fun _ => hfits).content hr
  · by_cases hwhole : srcPos = 0 ∧ len = 0 ∧ dstPos = 0
    · obtain ⟨rfl, rfl, rfl⟩ := hwhole
      exact absurd hal (by decide)
    · rw [Sbi.clone, if_neg hreg, if_neg hne, if_neg hwhole, if_pos hal] at hok
      cases hok

/-! ## What a request does -/

/-- Another file does not see a request that stores to none of its blocks. -/
theorem Serves.readsSame {clean : Prop} (h : Serves n ∅ clean held s s') (hne : m ≠ n) :
    ReadsSame m s s' := .of_keeps (h.op.keeps m hne fun _ _ => Set.notMem_empty _)

/-- **A request on a file** changes its content and nothing else. -/
theorem volume_setFile (h : FileStep n s s') (hok : DirsOk s)
    (hothers : ∀ m, m ≠ n → ReadsSame m s s') : s'.volume = s.volume.setFile n (s'.content n) := by
  obtain ⟨l, size, blocks, hself⟩ := h.self
  have hfield : ∀ {α : Type} (g : Inode → α), g (s'.inodes n) = g (s.inodes n) →
      ∀ m, g (s'.inodes m) = g (s.inodes m) := by
    intro α g heq m
    obtain rfl | hne := eq_or_ne m n
    · exact heq
    · rw [h.others m hne]
  have hmode := hfield Inode.iMode (by rw [hself])
  have hreg : (s'.inodes n).iMode = .reg := (hmode n).trans h.reg
  have hparent := hfield Inode.iDirParent (by rw [hself])
  refine Volume.ext (funext hmode) (funext (hfield Inode.iIno (by rw [hself])))
    (funext (hfield Inode.iNlink (by rw [hself]))) (funext fun m => ?_)
    ((KeepsDirs.of_fileStep h).resolve hok) ?_ (funext fun m => textOf_eq (hmode m) fun hl => ?_)
    (funext fun m => congrArg pageAttrs (KeepsAttrs.attrPage
      ⟨hfield Inode.iXattr (by rw [hself]) m, fun b hb => h.mem b .xattr m hb⟩))
    (funext fun b => ?_)
  · change s'.parentOf m = s.parentOf m
    rw [Sbi.parentOf, hmode, hparent, Sbi.parentOf]
  · exact eq_update_iff.mpr ⟨fileOf_of_reg hreg,
      fun m hne => fileOf_eq (hmode m) fun _ => hothers m hne⟩
  · have hne : m ≠ n := by
      rintro rfl
      rw [h.reg] at hl
      cases hl
    exact .of_inode (h.others m hne) fun b hb => h.mem b .symlink m hb
  · change s'.infoOf b = s.infoOf b
    rw [Sbi.infoOf, tables_tiis h.tables, Sbi.infoOf]

theorem Volume.setFile_self (v : Volume) (n : RecPtr) : v.setFile n (v.files n) = v :=
  Volume.ext rfl rfl rfl rfl rfl (update_eq_self n v.files) rfl rfl rfl

/-- **How a request on a file ends**: the content is what it is to be, or what it was. -/
theorem ends_of_fileStep {ok : Bool} {a : Act} (h : FileStep n s s') (hdirs : DirsOk s)
    (hothers : ∀ m, m ≠ n → ReadsSame m s s') (hfail : ok = false → ReadsSame n s s')
    (hdone : ok = true → s.volume.Does (s.volume.setFile n (s'.content n)) a) :
    s.volume.Ends a ok s'.volume := by
  have hvol := volume_setFile h hdirs hothers
  have hfile : s.volume.files n = s.content n := fileOf_of_reg h.reg
  rcases ok with _ | _
  · refine .failed rfl ?_
    rw [hvol, content_eq (hfail rfl), ← hfile, Volume.setFile_self]
  · refine .done rfl ?_
    rw [hvol]
    exact hdone rfl

/-- What is stored in blocks that no other file has is not seen there. -/
theorem spares_of_noShared {Z : Set (RecPtr × ℕ)} {v : ℕ → UInt8} (hun : NoShared n s) (hne : m ≠ n)
    (hZ : ∀ q ∈ Z, ∃ ib ∈ s.blocksOf n, ib.dblkref = q.1) : s.Spares m Z v := by
  intro p _ _ ib hib hq
  obtain ⟨ib', hm', heq⟩ := hZ _ hq
  exact absurd (hun ib' hm' m ib (fetchIblkref_some hib).1 heq.symm).1 hne

/-- A fallocate that is right stores to no block of another file. -/
theorem spares_fallocate {mode : UInt32} {pos lastPos : UInt64}
    (hright : s.FallocRight n mode (toLoff pos) (toLoff lastPos)) (hne : m ≠ n) :
    s.Spares m (Act.inPlace s (.fallocate n mode pos lastPos)) fun _ => 0 := by
  have hnone : ∀ {v}, s.Spares m ∅ v := fun p _ _ ib _ hq => absurd hq (Set.notMem_empty _)
  unfold Sbi.FallocRight at hright
  simp only [Act.inPlace]
  split
  · exact hnone
  split
  · next hpunch =>
    rw [if_pos hpunch] at hright
    refine spares_of_noShared hright hne ?_
    rintro q ⟨p, -, ib, hib, rfl⟩
    exact ⟨ib, (fetchIblkref_some hib).1, rfl⟩
  next hpunch =>
  split
  · next hzero =>
    rw [if_neg hpunch, if_pos hzero] at hright
    refine spares_of_noShared hright.1 hne ?_
    rintro q ⟨e, he, hd, -⟩
    exact ⟨e.2, mem_of_mem_fetchFrom (List.of_mem_zip he).2, hd.symm⟩
  · exact hnone

/-- The file and what is kept of a run on it. -/
theorem EndsOk.onFile (h : EndsOk s) (hreg : (s.inodes n).iMode = .reg) : OnFile n s :=
  h.files.onFile hreg

section Requests

variable (h : EndsOk x.sbi) (hok : DirsOk x.sbi)

include h hok

/-- **A write.** -/
theorem ends_write {filepos len : UInt64} (hsend : x.Sends (.write n buf filepos len))
    (hmap : apiMapMaxSize < 2 ^ 63) (hsize : (x.sbi.inodes n).iSize.toNat < 2 ^ 63)
    (hspares : (FileReq.write n buf filepos len).Spares apiMapMaxSize x.sbi) :
    x.sbi.volume.Ends (.write n buf filepos len)
      (x.succeeds apiMapMaxSize (.write n buf filepos len))
      (x.sbi.write apiMapMaxSize n buf (toLoff filepos) len).2.volume := by
  obtain ⟨held, hinv⟩ := h.files.store.store
  have hon : OnFile n x.sbi := h.onFile hsend
  have hserve : Serves n ∅ _ held x.sbi (x.sbi.write apiMapMaxSize n buf (toLoff filepos) len).2 :=
    write_serves hinv hsend
  have hatomic := (errorAtomic_write_iff hon h.within).mpr hspares
  have hfile : x.sbi.volume.files n = x.sbi.content n := fileOf_of_reg hsend
  have hends := fun ok => @ends_of_fileStep _ _ n ok (.write n buf filepos len) hserve.op.step hok
    fun m hne => hserve.readsSame hne
  rw [FileReq.run] at hatomic
  rw [Sys.succeeds]
  rcases hr : x.sbi.write apiMapMaxSize n buf (toLoff filepos) len with ⟨err | cnt, s₁⟩
  · rw [hr] at hends hatomic
    exact hends _ (fun _ => hatomic (Option.some_ne_none err) n) fun hok => by cases hok
  · rw [hr] at hends
    refine hends _ (fun hok => by cases hok) fun _ => ?_
    have hcheck : checkRw apiMapMaxSize (toLoff filepos) len = none := by
      unfold Sbi.write at hr
      split at hr
      · cases (Prod.mk.inj hr).1
      · assumption
    rw [Volume.Does, hfile, write_content hon h.within hmap hsize (h.noStale n hsend) hcheck hr]

/-- **A truncate.** -/
theorem ends_truncate {size : UInt64} (hsend : x.Sends (.truncate n size))
    (hsize : (x.sbi.inodes n).iSize.toNat < 2 ^ 63)
    (hspares : (FileReq.truncate n size).Spares apiMapMaxSize x.sbi) :
    x.sbi.volume.Ends (.truncate n size) (x.succeeds apiMapMaxSize (.truncate n size))
      (x.sbi.truncate n size).2.volume := by
  obtain ⟨held, hinv⟩ := h.files.store.store
  have hserve : Serves n ∅ True held x.sbi (x.sbi.truncate n size).2 := truncate_serves hinv hsend
  have hfile : x.sbi.volume.files n = x.sbi.content n := fileOf_of_reg hsend
  refine ends_of_fileStep hserve.op.step hok (fun m hne => hserve.readsSame hne) (fun hfail => ?_)
    fun _ => ?_
  · exact (errorAtomic_truncate_iff h.files h.within).mpr hspares
      (fun hnone => by rw [Sys.succeeds, hnone] at hfail; cases hfail) n
  · rw [Volume.Does, hfile, content_truncate (h.onFile hsend) hsize (h.noStale n hsend)]

/-- **A fallocate** that is right. -/
theorem ends_fallocate {mode : UInt32} {filepos lastPos : UInt64}
    (hsend : x.Sends (.fallocate n mode filepos lastPos))
    (hfile : Act.InFile (.fallocate n mode filepos lastPos))
    (hsize : (x.sbi.inodes n).iSize.toNat < 2 ^ 63)
    (hright : x.sbi.FallocRight n mode (toLoff filepos) (toLoff lastPos)) :
    x.sbi.volume.Ends (.fallocate n mode filepos lastPos)
      (x.succeeds apiMapMaxSize (.fallocate n mode filepos lastPos))
      (x.sbi.fallocate n mode (toLoff filepos) (fallocLen filepos lastPos)).2.volume := by
  obtain ⟨held, hinv⟩ := h.files.store.store
  obtain ⟨hpos, hlt⟩ := id hfile
  have hreg : (x.sbi.inodes n).iMode = .reg := hsend
  have hon : OnFile n x.sbi := h.onFile hreg
  have hstale := h.noStale n hreg
  have hserve : Serves n Set.univ _ held x.sbi
      (x.sbi.fallocate n mode (toLoff filepos) (fallocLen filepos lastPos)).2 :=
    fallocate_serves hinv hreg (fun _ _ _ _ => Set.mem_univ _) fun _ _ _ _ => Set.mem_univ _
  have hcontent : x.sbi.volume.files n = x.sbi.content n := fileOf_of_reg hreg
  refine ends_of_fileStep hserve.op.step hok (fun m hne =>
    (overlaid_fallocate hinv hreg hne).readsSame_iff.mpr (spares_fallocate hright hne))
    (fun hfail => ?_) fun hdone => ?_
  · -- only a plain allocation fails once the range is checked
    have hne : (x.sbi.fallocate n mode (toLoff filepos) (fallocLen filepos lastPos)).1 ≠ none :=
      fun hnone => by rw [Sys.succeeds, hnone] at hfail; cases hfail
    unfold Sbi.fallocate at hne ⊢
    split at hne
    · exact .refl n x.sbi
    next hio =>
    split at hne
    · exact .refl n x.sbi
    split at hne
    · exact absurd rfl hne
    split at hne
    · exact absurd rfl hne
    split at hne
    · exact absurd rfl hne
    next hpunch hzero hcollapse =>
    rw [if_neg hpunch, if_neg hzero, if_neg hcollapse]
    exact errorAtomic_fallocRange hon h.within hio hne n
  have hres : (x.sbi.fallocate n mode (toLoff filepos) (fallocLen filepos lastPos)).1 = none :=
    Option.isNone_iff_eq_none.mp hdone
  rw [Volume.Does, hcontent]
  refine congrArg (x.sbi.volume.setFile n) ?_
  unfold Volume.fallocated
  unfold Sbi.FallocRight at hright
  unfold Sbi.fallocate at hres ⊢
  split at hres
  · cases hres
  split at hres
  · cases hres
  next hcheck =>
  by_cases hpunch : mode &&& fallocPunchHole ≠ 0
  · rw [if_pos hpunch] at hright
    rw [if_pos hpunch, if_pos hpunch, content_punchHole hon hpos hlt hstale hright]
  rw [if_neg hpunch] at hright hres ⊢
  rw [if_neg hpunch]
  by_cases hzero : mode &&& fallocZeroRange ≠ 0
  · rw [if_pos hzero] at hright
    obtain ⟨hun, hstart, hin⟩ := hright
    rw [if_pos hzero, if_pos hzero, content_zeroRange hon hpos hlt hstale hun hstart]
    split
    · rfl
    · next hkeep => rw [resize_max_of_le (hin (not_not.mp hkeep))]
  rw [if_neg hzero] at hright hres ⊢
  rw [if_neg hzero]
  by_cases hcollapse : mode &&& fallocCollapseRange ≠ 0
  · rw [if_pos hcollapse] at hright
    rw [if_pos hcollapse, if_pos hcollapse, content_collapseRange hon hpos hlt hstale
      (checkFalloc_aligned hcheck hcollapse) hright]
  · rw [if_neg hcollapse] at hres hright
    rw [if_neg hcollapse, if_neg hcollapse,
      content_fallocRange hon hpos hlt h.within hstale hsize hres]
    split
    · next hkeep => exact resize_max_of_le (hright hkeep)
    · rfl

/-- **A clone** that is right. -/
theorem ends_clone {posIn posOut len : UInt64} (hsend : x.Sends (.clone src dst posIn posOut len))
    (hfile : Act.InFile (.clone src dst posIn posOut len))
    (hright : x.sbi.CloneRight src dst (toLoff posIn) (toLoff posOut) len)
    (hspares : (FileReq.clone src dst posIn posOut len).Spares apiMapMaxSize x.sbi) :
    x.sbi.volume.Ends (.clone src dst posIn posOut len)
      (x.succeeds apiMapMaxSize (.clone src dst posIn posOut len))
      (x.sbi.clone src dst (toLoff posIn) (toLoff posOut) len).2.volume := by
  obtain ⟨held, hinv⟩ := h.files.store.store
  obtain ⟨hsrc, hdst⟩ := id hsend
  have hserve : Serves dst ∅ _ held x.sbi
      (x.sbi.clone src dst (toLoff posIn) (toLoff posOut) len).2 := clone_serves hinv hdst
  have hfiles : ∀ k, (x.sbi.inodes k).iMode = .reg → x.sbi.volume.files k = x.sbi.content k :=
    fun _ => fileOf_of_reg
  refine ends_of_fileStep hserve.op.step hok (fun m hne => hserve.readsSame hne) (fun hfail => ?_)
    fun hdone => ?_
  · exact (errorAtomic_clone_iff h.files h.within hright.1 hfile (toLoff_lt posOut)).mpr hspares
      (fun hnone => by rw [Sys.succeeds, hnone] at hfail; cases hfail) dst
  · rw [Volume.Does, hfiles src hsrc, hfiles dst hdst, content_clone (h.onFile hsrc) (h.onFile hdst)
      hright (Option.isNone_iff_eq_none.mp hdone)]

end Requests

end Zus.Toyfs
