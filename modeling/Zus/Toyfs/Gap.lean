import Zus.Toyfs.Tail

/-!
# Growing a file

A file that has nothing but zeros past `i_size` reads zeros where it was grown. Over a run
this holds of all files, when each request meets the condition of its kind: the requests on
one file leave the bytes of the others, and those that are on no file leave all bytes
(`StoreOk.keepsData`).
-/

namespace Zus.Toyfs

open Zus.Lib

variable {s s' : Sbi} {held : RecPtr → ℕ} {n m : RecPtr} {off last lo hi : ℤ}
  {apiMapMaxSize : ℕ}

/-! ## Reading -/

/-- Reads from `lo` up to `hi` return zeros. -/
def Sbi.ReadsZero (s : Sbi) (apiMapMaxSize : ℕ) (n : RecPtr) (lo hi : ℤ) : Prop :=
  ∀ off len bs, lo ≤ off → off + toLoff len ≤ hi → s.read apiMapMaxSize n off len = .ok bs →
    ∀ b ∈ bs, b = 0

theorem mem_nonzero {p : ℤ} (hp : 0 ≤ p) (h : s.byteAt n p ≠ 0) : p ∈ s.nonzero n := by
  unfold Sbi.byteAt at h
  split at h
  · next ib hf =>
    obtain ⟨hm, hoff⟩ := fetchIblkref_some hf
    have hpage := offToBoff_add_offInPage hp
    have hnn := offInPage_nonneg hp
    have hlt := offInPage_lt hp
    exact ⟨ib, hm, (offInPage p).toNat, by omega, by omega, h⟩
  · exact absurd rfl h

/-- **`_read`** gives zeros where the file has nothing else. -/
theorem readLoop_zero (hoff : 0 ≤ off) (h : ∀ q ∈ s.nonzero n, off ≤ q → last ≤ q) :
    ∀ b ∈ s.readLoop n off last, b = 0 := by
  rw [readLoop_eq hoff]
  intro b hb
  obtain ⟨i, hi, rfl⟩ := List.mem_map.mp hb
  by_contra hne
  have hilt := List.mem_range.mp hi
  have := h _ (mem_nonzero (by omega) hne) (by omega)
  omega

theorem readsZero (h : ∀ q ∈ s.nonzero n, lo ≤ q → hi ≤ q) : s.ReadsZero apiMapMaxSize n lo hi := by
  intro off len bs hlo hhi hr
  unfold Sbi.read at hr
  split at hr
  · cases hr
  · next hcheck =>
    obtain rfl := Except.ok.inj hr
    refine readLoop_zero (checkRw_nonneg hcheck) fun q hq hle => ?_
    have hlast : tinOffset off len (s.inodes n).iSize ≤ off + toLoff len := by
      unfold tinOffset
      simp only
      split <;> omega
    have := h q hq (by omega)
    omega

/-! ## Requests -/

/-- `_fallocate` brings no stale data to another file: it only stores zeros. -/
theorem noGain_fallocate {mode : UInt32} {len : UInt64} (hinv : Inv held s)
    (hreg : (s.inodes n).iMode = .reg) (hne : m ≠ n) :
    NoGain m s (s.fallocate n mode off len).2 := by
  unfold Sbi.fallocate
  split
  · exact .refl m s
  next hcheck =>
  split
  · exact .refl m s
  · next hfalloc =>
    have h₀ := checkIo_nonneg hcheck
    split
    · exact .punchHoleLoop hinv hreg m
    split
    · exact .zeroRangeLoop
    split
    · next hcollapse =>
      have hserve : Serves n ∅ True held s (s.collapseRange n off len) :=
        collapseRange_serves h₀ (checkFalloc_aligned hfalloc hcollapse) hinv hreg
      exact hserve.noGain hne
    · have hserve : Serves n ∅ _ held s (s.fallocRange n off len).2 :=
        fallocRange_serves h₀ hinv hreg
      exact hserve.noGain hne

/-- **The condition under which a request leaves no stale data.** A store to a mapped page is
not one of the requests. -/
def Sys.KeepsTail (x : Sys) (apiMapMaxSize : ℕ) : Act → Prop
  | .write n buf filepos len => checkRw apiMapMaxSize (toLoff filepos) len = none →
      x.sbi.WriteKeepsTail n buf (toLoff filepos) len
  | .fallocate n mode filepos lastPos =>
      let off := toLoff filepos
      let len := toSize (toLoff lastPos - toLoff filepos)
      checkIo off len = none → checkFalloc mode off len = none →
        x.sbi.FallocKeepsTail n mode off len
  | .truncate n size => size < (x.sbi.inodes n).iSize → toLoff size % pageSize ≠ 0 →
      x.sbi.TruncateKeepsTail n (toLoff size)
  | .clone src dst posIn posOut len => src ≠ dst → toLoff posIn = 0 → len = 0 → toLoff posOut = 0 →
      x.sbi.CloneKeepsTail src dst
  | .mmapStore .. => False
  | _ => True

instance (x : Sys) : (a : Act) → Decidable (x.KeepsTail apiMapMaxSize a)
  | .write .. => inferInstanceAs (Decidable (_ → _))
  | .fallocate .. => inferInstanceAs (Decidable (_ → _ → _))
  | .truncate .. => inferInstanceAs (Decidable (_ → _ → _))
  | .clone .. => inferInstanceAs (Decidable (_ → _ → _ → _ → _))
  | .mmapStore .. => inferInstanceAs (Decidable False)
  | .newInode .. | .iget .. | .evict .. | .addDentry .. | .removeDentry .. | .rename ..
  | .setxattr .. => inferInstanceAs (Decidable True)

/-- What is kept of the ends of the files. -/
structure EndsOk (s : Sbi) : Prop where
  files : FilesOk s
  within : Within Set.univ 1 s
  noStale : ∀ m, (s.inodes m).iMode = .reg → s.NoStale m

section Serve

variable {x x' : Sys} {a : Act}

/-- **The file a request is on** gets no stale data. -/
theorem noStale_target (h : EndsOk x.sbi) (hinv : Inv held x.sbi) (hsend : x.Sends a)
    (hfile : a.InFile) (hkeep : x.KeepsTail apiMapMaxSize a) (ht : a.target = some n)
    (hs : x.serve apiMapMaxSize a = some s') : s'.NoStale n := by
  have hok : ∀ m, (x.sbi.inodes m).iMode = .reg → FileOk m x.sbi :=
    fun m hreg => ⟨h.files.lists m hreg, h.files.running⟩
  cases a with
  | write m buf filepos len =>
    obtain rfl := Option.some.inj ht
    obtain rfl := Option.some.inj hs
    exact noStale_write (hok m hsend) hinv h.within hsend (toLoff_lt filepos) (h.noStale m hsend)
      hkeep
  | fallocate m mode filepos lastPos =>
    obtain rfl := Option.some.inj ht
    obtain rfl := Option.some.inj hs
    obtain ⟨hpos, hlt⟩ := hfile
    have hlast := toLoff_lt lastPos
    have hlen : toLoff (toSize (toLoff lastPos - toLoff filepos)) =
        toLoff lastPos - toLoff filepos := toLoff_toSize (by omega) (by omega)
    refine noStale_fallocate (hok m hsend) hinv h.within hsend (toLoff_lt filepos) ?_
      (h.noStale m hsend) hkeep
    rw [hlen]
    omega
  | truncate m size =>
    obtain rfl := Option.some.inj ht
    obtain rfl := Option.some.inj hs
    exact noStale_truncate (hok m hsend) hinv h.within hsend (h.noStale m hsend) hkeep
  | clone src dst posIn posOut len =>
    obtain rfl := Option.some.inj ht
    obtain rfl := Option.some.inj hs
    exact noStale_clone (hok dst hsend.2) hinv hfile (toLoff_lt posOut) (h.noStale src hsend.1)
      (h.noStale dst hsend.2) hkeep
  | mmapStore m filepos poff len data => exact hkeep.elim
  | _ => cases ht

/-- **The other files** get none. -/
theorem noGain_other (hinv : Inv held x.sbi) (hsend : x.Sends a)
    (hkeep : x.KeepsTail apiMapMaxSize a) (ht : a.target = some n) (hne : m ≠ n)
    (hs : x.serve apiMapMaxSize a = some s') : NoGain m x.sbi s' := by
  cases a with
  | write k buf filepos len =>
    obtain rfl := Option.some.inj ht
    obtain rfl := Option.some.inj hs
    have hserve : Serves k ∅ _ held x.sbi (x.sbi.write apiMapMaxSize k buf (toLoff filepos) len).2 :=
      write_serves hinv hsend
    exact hserve.noGain hne
  | fallocate k mode filepos lastPos =>
    obtain rfl := Option.some.inj ht
    obtain rfl := Option.some.inj hs
    exact noGain_fallocate hinv hsend hne
  | truncate k size =>
    obtain rfl := Option.some.inj ht
    obtain rfl := Option.some.inj hs
    have hserve : Serves k ∅ True held x.sbi (x.sbi.truncate k size).2 := truncate_serves hinv hsend
    exact hserve.noGain hne
  | clone src dst posIn posOut len =>
    obtain rfl := Option.some.inj ht
    obtain rfl := Option.some.inj hs
    have hserve : Serves dst ∅ _ held x.sbi
        (x.sbi.clone src dst (toLoff posIn) (toLoff posOut) len).2 := clone_serves hinv hsend.2
    exact hserve.noGain hne
  | mmapStore k filepos poff len data => exact hkeep.elim
  | _ => cases ht

/-- **A request that meets its condition** leaves no stale data in any file. -/
theorem EndsOk.serve (h : EndsOk x.sbi) (hsend : x.Sends a) (hfile : a.InFile)
    (hkeep : x.KeepsTail apiMapMaxSize a) (hs : x.serve apiMapMaxSize a = some s')
    (hrun : s'.panicked = false) : EndsOk s' := by
  obtain ⟨held, hinv⟩ := h.files.store.store
  refine ⟨h.files.serve hsend hfile hs hrun, h.within.serve hinv hsend hs, fun m hreg => ?_⟩
  rcases ht : a.target with _ | n
  · rcases h.files.store.keepsData hsend ht hs m with hfresh | ⟨hsame, hkept⟩
    · -- a file without blocks
      have hnil : s'.blocksOf m = [] := hfresh.iblkrefs
      intro ib hm
      rw [hnil] at hm
      cases hm
    · rw [hsame.mode] at hreg
      have hgain : NoGain m x.sbi s' := by
        refine ⟨nonzero_subset fun ib hm => ?_, hsame.size (by rw [hreg]; nofun)⟩
        have hm' : ib ∈ x.sbi.blocksOf m := by
          rw [Sbi.blocksOf, hsame.iblkrefs] at hm
          exact hm
        exact ⟨hm', hkept _ (mem_keys_of_mem hm')⟩
      exact hgain.noStale (h.noStale m hreg)
  · obtain rfl | hne := eq_or_ne m n
    · exact noStale_target h hinv hsend hfile hkeep ht hs
    · have hgain := noGain_other hinv hsend hkeep ht hne hs
      obtain ⟨s₁, hs₁, hserve⟩ := @Sys.serves held n apiMapMaxSize x a hinv hsend ht
      obtain rfl := Option.some.inj (hs₁.symm.trans hs)
      rw [hserve.op.step.others m hne] at hreg
      exact hgain.noStale (h.noStale m hreg)

/-! ## Runs -/

theorem nonzero_setSize {size : UInt64} : (s.setSize n size).nonzero n = s.nonzero n := by
  unfold Sbi.nonzero
  rw [Sbi.setSize, blocksOf_setInode]
  rfl

theorem truncate_grow {size : UInt64} (hreg : (s.inodes n).iMode = .reg)
    (hle : (s.inodes n).iSize ≤ size) : (s.truncate n size).2 = s.setSize n size := by
  have hdir : (s.inodes n).iMode ≠ .dir := by
    rw [hreg]
    exact nofun
  rw [Sbi.truncate, if_neg hdir, if_neg (not_not.mpr hreg), if_neg (UInt64.not_lt.mpr hle)]

theorem mounted_endsOk {nblocks addr : ℕ} (h : mounted nblocks addr = some x) : EndsOk x.sbi := by
  obtain ⟨n, hmount⟩ := mounted_spec h
  exact ⟨mounted_filesOk h, mounted_within h, fun m hreg => absurd hreg (hmount.notReg m)⟩

theorem toyfs_endsOk (h : ((toyfs apiMapMaxSize).restrict fun x a =>
    a.InFile ∧ x.KeepsTail apiMapMaxSize a).Reachable x) : EndsOk x.sbi := by
  refine h.invariant (I := fun x => EndsOk x.sbi) ?_ ?_
  · rintro x ⟨nblocks, addr, -, hm⟩
    exact mounted_endsOk hm
  · rintro x a x' hok ⟨⟨hfile, hkeep⟩, hn⟩
    obtain ⟨hsend, hs, hp, -⟩ := Sys.next_cases hn
    exact hok.serve hsend hfile hkeep hs hp

/-- What was past the old size and is not of the bytes written reads as zero. -/
theorem nonzero_write {buf : Bytes} {len : UInt64} (h : EndsOk s) (hinv : Inv held s)
    (hreg : (s.inodes n).iMode = .reg) {q : ℤ}
    (hq : q ∈ (s.write apiMapMaxSize n buf off len).2.nonzero n) :
    q < (s.inodes n).iSize.toNat ∨ off ≤ q := by
  have hstale := noStale_iff.mp (h.noStale n hreg)
  have hfile : FileOk n s := ⟨h.files.lists n hreg, h.files.running⟩
  unfold Sbi.write at hq
  split at hq
  · exact .inl (hstale q hq)
  · next hcheck =>
    have hloop : q ∈ (s.writeLoop n buf off (off + toLoff len) 0).2.nonzero n := by
      split at hq
      · next err s₁ heq =>
        rw [heq]
        exact hq
      · next cnt s₁ heq =>
        rw [heq]
        rwa [nonzero_setSize] at hq
    rcases nonzero_writeLoop (checkRw_nonneg hcheck) hfile hinv h.within hreg hloop with
      hq | ⟨i, rfl, -⟩
    · exact .inl (hstale q hq)
    · exact .inr (by omega)

/-- **No stale data past the end of a file**, in every run whose requests meet their
conditions: the bytes past `i_size` are zero, so what a truncate adds to a file reads as
zeros, and so does the gap before a write past the end. -/
theorem toyfs_noStale (apiMapMaxSize : ℕ) (x : Sys)
    (h : ((toyfs apiMapMaxSize).restrict fun x a =>
      a.InFile ∧ x.KeepsTail apiMapMaxSize a).Reachable x)
    (n : RecPtr) (hreg : (x.sbi.inodes n).iMode = .reg) :
    x.sbi.NoStale n ∧
    (∀ size x', (x.sbi.inodes n).iSize ≤ size → x.next apiMapMaxSize (.truncate n size) = some x' →
      x'.sbi.ReadsZero apiMapMaxSize n (x.sbi.inodes n).iSize.toNat size.toNat) ∧
    ∀ buf filepos len x', x.next apiMapMaxSize (.write n buf filepos len) = some x' →
      x'.sbi.ReadsZero apiMapMaxSize n (x.sbi.inodes n).iSize.toNat (toLoff filepos) := by
  have hok := toyfs_endsOk h
  obtain ⟨held, hinv⟩ := hok.files.store.store
  have hstale := noStale_iff.mp (hok.noStale n hreg)
  refine ⟨hok.noStale n hreg, fun size x' hle hn => ?_, fun buf filepos len x' hn => ?_⟩
  · obtain ⟨-, hs, -, -⟩ := Sys.next_cases hn
    refine readsZero fun q hq hlo => ?_
    rw [← Option.some.inj hs, truncate_grow hreg hle, nonzero_setSize] at hq
    have := hstale q hq
    omega
  · obtain ⟨-, hs, -, -⟩ := Sys.next_cases hn
    refine readsZero fun q hq hlo => ?_
    rw [← Option.some.inj hs] at hq
    rcases nonzero_write hok hinv hreg hq with hq | hq <;> omega

/-- Twelve bytes are written and ten of them truncated: a file with room for all. -/
theorem toyfs_noStale_truncated : ∃ x, ((toyfs 65536).restrict fun x a =>
      a.InFile ∧ x.KeepsTail 65536 a).Reachable x ∧
    (x.sbi.inodes ⟨1023, 1⟩).iSize = 2 ∧ x.sbi.NoStale ⟨1023, 1⟩ ∧
    ∀ x', x.next 65536 (.truncate ⟨1023, 1⟩ 12) = some x' →
      x'.sbi.ReadsZero 65536 ⟨1023, 1⟩ 2 12 := by
  obtain ⟨x, hx, hp⟩ := exists_restrict_of_mounted 65536
    (fun x a => a.InFile ∧ x.KeepsTail 65536 a)
    [.newInode ⟨1023, 0⟩ ⟨.reg, 0, 0, [], fun _ => 0, false⟩ (some 2),
      .write ⟨1023, 1⟩ (fun _ => 7) 0 12, .truncate ⟨1023, 1⟩ 2]
    (p := fun x => (x.sbi.inodes ⟨1023, 1⟩).iMode == .reg && (x.sbi.inodes ⟨1023, 1⟩).iSize == 2)
    (by decide +kernel)
  simp only [Bool.and_eq_true, beq_iff_eq] at hp
  obtain ⟨hstale, hgrow, -⟩ := toyfs_noStale 65536 x hx ⟨1023, 1⟩ hp.1
  refine ⟨x, hx, hp.2, hstale, fun x' hn => ?_⟩
  have hzero := hgrow 12 x' (by rw [hp.2]; decide) hn
  rw [hp.2] at hzero
  exact hzero

/-- A store of an application to a mapped page. -/
def Act.isMmapStore : Act → Bool
  | .mmapStore .. => true
  | _ => false

/-- A file of two pages of data is collapsed from its second page on, by two pages: what is
left is an empty file with a page of data past its end. -/
theorem collapse_leaves_stale : ¬ ∀ x, ((toyfs 65536).restrict fun _ a =>
      a.InFile ∧ a.isMmapStore = false).Reachable x →
    ∀ n, (x.sbi.inodes n).iMode = .reg → x.sbi.NoStale n := by
  intro hall
  obtain ⟨x, hx, hp⟩ := exists_restrict_of_mounted 65536
    (fun _ a => a.InFile ∧ a.isMmapStore = false)
    [.newInode ⟨1023, 0⟩ ⟨.reg, 0, 0, [], fun _ => 0, false⟩ (some 2),
      .write ⟨1023, 1⟩ (fun _ => 7) 0 8192,
      .fallocate ⟨1023, 1⟩ fallocCollapseRange 4096 12288]
    (p := fun x => (x.sbi.inodes ⟨1023, 1⟩).iMode == .reg &&
      (x.sbi.inodes ⟨1023, 1⟩).iSize == 0 &&
      (x.sbi.blocksOf ⟨1023, 1⟩).any fun ib => ib.off == 0 && x.sbi.mem (x.sbi.pageOf ib.dblkref) 0 == 7)
    (by decide +kernel)
  simp only [Bool.and_eq_true, beq_iff_eq, List.any_eq_true] at hp
  obtain ⟨⟨hreg, hsize⟩, ib, hm, hoff, hbyte⟩ := hp
  have hzero := hall x hx ⟨1023, 1⟩ hreg ib hm 0 (by decide) (by rw [hsize, hoff]; decide)
  rw [hbyte] at hzero
  cases hzero

end Serve

end Zus.Toyfs
