import Zus.Toyfs.FileStorage

/-!
# The operations on regular files keep the store

Every operation of `file.c` is a sequence of the steps below: a block is required, stored
into, dropped, made unique, shared. `FileOp` is the frame of an operation on one file: it
names the blocks the operation stores into in place, and every other file that has none of
these keeps its size and its data. `Serves` adds the invariant, and a condition under which
no reference to a block is lost on the way.
-/

namespace Zus.Toyfs

open Zus.Lib

variable {s s' s₁ s₂ : Sbi} {held held' : RecPtr → ℕ} {n m d : RecPtr} {ib : Iblkref}
  {dirty dirty' : Set RecPtr} {clean clean' : Prop}

/-! ## The frame of an operation -/

/-- An operation on file `n` that stores in place into no blocks but `dirty`. -/
structure FileOp (n : RecPtr) (dirty : Set RecPtr) (s s' : Sbi) : Prop where
  step : FileStep n s s'
  keeps : ∀ m, m ≠ n → (∀ k ∈ (s.inodes m).keys, k.2 ∉ dirty) → KeepsFile m s s'

theorem FileOp.trans (h : FileOp n dirty s s₁) (h₁ : FileOp n dirty s₁ s₂) :
    FileOp n dirty s s₂ := by
  refine ⟨h.step.trans h₁.step, fun m hm hk => ?_⟩
  have hkeep := h.keeps m hm hk
  refine hkeep.trans (h₁.keeps m hm ?_)
  rwa [hkeep.1]

theorem Quiet.fileOp (hq : Quiet s s') (h : Inv held s) (hreg : (s.inodes n).iMode = .reg) :
    FileOp n dirty s s' := ⟨hq.fileStep hreg, fun m _ _ => h.keepsFile_of_quiet hq m⟩

/-- The list, the size and the block count of `n` change. -/
theorem fileOp_setInode (hreg : (s.inodes n).iMode = .reg) (l : List Iblkref) (size : UInt64)
    (blocks : ℕ) : FileOp n dirty s
      (s.setInode n { s.inodes n with iblkrefs := l, iSize := size, iBlocks := blocks }) :=
  ⟨fileStep_setInode hreg l size blocks, fun _ hm _ => keepsFile_setInode hm⟩

/-- A count changes; the block keeps its page. -/
theorem fileOp_setRefcnt (hreg : (s.inodes n).iMode = .reg) (d : RecPtr) (c : ℕ) :
    FileOp n dirty s (s.setDblkref d { s.dblkrefs d with refcnt := c }) := by
  refine ⟨⟨hreg, fun _ _ => rfl, ⟨_, _, _, rfl⟩, rfl, fun _ _ _ _ => rfl⟩,
    fun m _ _ => ⟨rfl, fun k _ => ⟨?_, rfl⟩⟩⟩
  by_cases hd : k.2 = d
  · simp [Sbi.pageOf, Sbi.setDblkref, hd]
  · simp [Sbi.pageOf, Sbi.setDblkref, hd]

/-- An operation on file `n` that keeps the invariant, and that loses no reference when
`clean` holds. -/
structure Serves (n : RecPtr) (dirty : Set RecPtr) (clean : Prop) (held : RecPtr → ℕ)
    (s s' : Sbi) : Prop where
  op : FileOp n dirty s s'
  inv : ∃ held', Inv held' s' ∧ (clean → held' = held)

namespace Serves

theorem refl (h : Inv held s) (hreg : (s.inodes n).iMode = .reg) : Serves n dirty clean held s s :=
  ⟨⟨.refl hreg, fun m _ _ => .refl m s⟩, held, h, fun _ => rfl⟩

theorem mono (h : Serves n dirty clean held s s') (hd : dirty ⊆ dirty') (hc : clean' → clean) :
    Serves n dirty' clean' held s s' := by
  obtain ⟨⟨hstep, hkeeps⟩, held', hinv, hheld⟩ := h
  exact ⟨⟨hstep, fun m hm hk => hkeeps m hm fun k hmem hin => hk k hmem (hd hin)⟩, held', hinv,
    fun h => hheld (hc h)⟩

theorem trans (h : Serves n dirty clean held s s₁)
    (h₁ : ∀ held₁, Inv held₁ s₁ → Serves n dirty clean' held₁ s₁ s₂) (hc : clean → clean') :
    Serves n dirty clean held s s₂ := by
  obtain ⟨hop, held₁, hinv, hheld⟩ := h
  obtain ⟨hop₁, held₂, hinv₂, hheld₂⟩ := h₁ held₁ hinv
  exact ⟨hop.trans hop₁, held₂, hinv₂, fun h => (hheld₂ (hc h)).trans (hheld h)⟩

/-- A step that loses nothing comes after. -/
theorem andThen (h : Serves n dirty clean held s s₁)
    (h₁ : ∀ held₁, Inv held₁ s₁ → Serves n dirty True held₁ s₁ s₂) :
    Serves n dirty clean held s s₂ := h.trans h₁ fun _ => trivial

theorem reg (h : Serves n dirty clean held s s') : (s'.inodes n).iMode = .reg := h.op.step.mode

end Serves

theorem Quiet.serves (hq : Quiet s s') (h : Inv held s) (h' : Inv held s')
    (hreg : (s.inodes n).iMode = .reg) : Serves n dirty clean held s s' :=
  ⟨hq.fileOp h hreg, held, h', fun _ => rfl⟩

/-- A change of the list of `n` after a quiet step. -/
theorem Quiet.serves_setInode (hq : Quiet s s₁) (h : Inv held s) (hreg : (s.inodes n).iMode = .reg)
    (l : List Iblkref) (size : UInt64) (blocks : ℕ)
    (h' : Inv held' (s₁.setInode n
      { s.inodes n with iblkrefs := l, iSize := size, iBlocks := blocks }))
    (hc : clean → held' = held) : Serves n dirty clean held s
      (s₁.setInode n { s.inodes n with iblkrefs := l, iSize := size, iBlocks := blocks }) := by
  refine ⟨(hq.fileOp h hreg).trans ?_, held', h', hc⟩
  rw [← hq.inodes] at hreg ⊢
  exact fileOp_setInode hreg l size blocks

/-- `i_size` changes. -/
theorem serves_setSize (h : Inv held s) (hreg : (s.inodes n).iMode = .reg) (size : UInt64) :
    Serves n dirty clean held s (s.setSize n size) :=
  (Quiet.refl s).serves_setInode h hreg _ _ _ (h.sameKeys (sameHold_reg hreg _ _ _) rfl)
    fun _ => rfl

/-! ## Stores -/

theorem Inv.storeAt (h : Inv held s) (bn : ℕ) (off : ℤ) (len : UInt64) (src : Bytes) :
    Inv held (s.storeAt bn off len src) := h.congr rfl rfl rfl

/-- The page of a block is not that of another one, nor of an inode. -/
theorem Inv.page_ne (h : Inv held s) {d' : RecPtr} (hd : 0 < counts s d) (hd' : 0 < counts s d')
    (hne : d' ≠ d) : s.pageOf d' ≠ s.pageOf d := by
  intro heq
  have hown : Owns s (s.pageOf d) (.data d) := ⟨hd, rfl⟩
  have hown' : Owns s (s.pageOf d) (.data d') := ⟨hd', heq⟩
  exact hne (by simpa using h.exclusive _ _ _ hown' hown)

/-- A block that is not shared is on one list, once. -/
theorem Inv.block_unique {ib' : Iblkref} (h : Inv held s) (hm : ib ∈ s.blocksOf n)
    (hle : counts s ib.dblkref ≤ 1) (hm' : ib' ∈ s.blocksOf m)
    (hpage : s.pageOf ib'.dblkref = s.pageOf ib.dblkref) : m = n ∧ ib' = ib := by
  have hkey := mem_keys_of_mem hm
  have hkey' := mem_keys_of_mem hm'
  have hd : ib'.dblkref = ib.dblkref := by
    by_contra hne
    exact h.page_ne (h.counts_pos hkey) (h.counts_pos hkey') hne hpage
  have hptr : ib'.ptr = ib.ptr :=
    h.counted.eq_of_le_one hle ⟨m, by rw [← hd]; exact hkey'⟩ ⟨n, hkey⟩
  obtain rfl : m = n := h.keysInj m n ib.ptr ib'.dblkref ib.dblkref (hptr ▸ hkey') hkey
  exact ⟨rfl, List.inj_on_of_nodup_map (h.ptrNodup m) hm' hm hptr⟩

/-- A new content for the page of a block of `n`, in place. -/
theorem serves_setPage (h : Inv held s) (hreg : (s.inodes n).iMode = .reg)
    (hm : ib ∈ s.blocksOf n) (hs' : ∃ pg, s'.mem = Function.update s.mem (s.pageOf ib.dblkref) pg)
    (hdb : s'.dblkrefs = s.dblkrefs) (hin : s'.inodes = s.inodes) (hpool : s'.pool = s.pool)
    (htab : s'.tables = s.tables) (hdirty : 1 < counts s ib.dblkref → ib.dblkref ∈ dirty) :
    Serves n dirty clean held s s' := by
  obtain ⟨pg, hmem⟩ := hs'
  have hkey := mem_keys_of_mem hm
  have hpos : 0 < counts s ib.dblkref := h.counts_pos hkey
  have hown : Owns s (s.pageOf ib.dblkref) (.data ib.dblkref) := ⟨hpos, rfl⟩
  refine ⟨⟨⟨hreg, fun m _ => by rw [hin], ?_, htab, fun bn use m hh => ?_⟩, fun m hmn hk => ?_⟩,
    held, h.congr hpool hdb hin, fun _ => rfl⟩
  · exact ⟨_, _, _, by rw [hin]⟩
  · have hne : bn ≠ s.pageOf ib.dblkref := by
      rintro rfl
      have hown' : Owns s (s.pageOf ib.dblkref) (.inode use m) := hh
      cases h.exclusive _ _ _ hown hown'
    rw [hmem, Function.update_of_ne hne]
  · refine ⟨by rw [hin], fun k hkm => ⟨by rw [Sbi.pageOf, hdb, Sbi.pageOf], ?_⟩⟩
    -- a block of `m` that is stored into is shared, and then it is dirty
    have hne : k.2 ≠ ib.dblkref := by
      intro heq
      have hk₁ : k.1 ∈ refs s ib.dblkref := ⟨m, by rw [← heq]; exact hkm⟩
      have hk₂ : ib.ptr ∈ refs s ib.dblkref := ⟨n, hkey⟩
      by_cases hle : counts s ib.dblkref ≤ 1
      · have hptr := h.counted.eq_of_le_one hle hk₁ hk₂
        refine hmn (h.keysInj m n ib.ptr k.2 ib.dblkref ?_ hkey)
        rw [← hptr]
        exact hkm
      · exact hk k hkm (heq ▸ hdirty (by omega))
    rw [hmem, Function.update_of_ne (h.page_ne hpos (h.counts_pos hkm) hne)]

/-- **A store into a block of `n`**: other files keep their data if the block is not
shared, or is counted as dirty. -/
theorem serves_storeAt (h : Inv held s) (hreg : (s.inodes n).iMode = .reg)
    (hm : ib ∈ s.blocksOf n) (hdirty : 1 < counts s ib.dblkref → ib.dblkref ∈ dirty) (off : ℤ)
    (len : UInt64) (src : Bytes) :
    Serves n dirty clean held s (s.storeAt (s.pageOf ib.dblkref) off len src) :=
  serves_setPage h hreg hm ⟨_, rfl⟩ rfl rfl rfl rfl hdirty

/-! ## Requiring blocks -/

/-- No block of `n` at the offsets `P` is shared. -/
def Unshared (P : ℤ → Prop) (n : RecPtr) (s : Sbi) : Prop :=
  ∀ ib ∈ s.blocksOf n, P ib.off → counts s ib.dblkref ≤ 1

theorem blocksOf_setInode {i : Inode} : (s.setInode n i).blocksOf n = i.iblkrefs := by
  simp [Sbi.blocksOf]

theorem counts_setInode {i : Inode} : counts (s.setInode n i) = counts s := rfl

theorem mem_retargetIblkref {l : List Iblkref} {p : RecPtr} {x : Iblkref}
    (hx : x ∈ retargetIblkref p d l) : (x.ptr = p ∧ x.dblkref = d ∧ ∃ y ∈ l, y.ptr = p ∧
      y.off = x.off) ∨ (x.ptr ≠ p ∧ x ∈ l) := by
  obtain ⟨y, hy, rfl⟩ := List.mem_map.mp hx
  by_cases hp : y.ptr = p
  · exact .inl (by simp only [hp, if_true]; exact ⟨trivial, trivial, y, hy, hp, rfl⟩)
  · exact .inr (by simp only [hp, if_false]; exact ⟨hp, hy⟩)

/-- **Requiring a block serves the file**; the reference to a shared block is lost. -/
theorem requireIblkref_serves {off : ℤ} {res : Option Iblkref} (h : Inv held s)
    (hreg : (s.inodes n).iMode = .reg) (hr : s.requireIblkref n off = (res, s')) :
    Serves n dirty (Unshared (· = offToBoff off) n s) held s s' := by
  rcases requireIblkref_cases h hreg hr with ⟨-, h', hq⟩ | ⟨ib, -, -, -, rfl⟩ |
    ⟨ib, s₁, -, -, -, hq, -, -, -, h', rfl⟩ | ⟨ib, d, s₁, -, hscan, hshared, hq, -, -, -, h', rfl⟩
  · exact hq.serves h h' hreg
  · exact .refl h hreg
  · exact hq.serves_setInode h hreg _ _ _ h' fun _ => rfl
  · refine hq.serves_setInode h hreg _ _ _ h' fun hc => ?_
    obtain ⟨hmem, hoff⟩ := scanIblkref_some hscan
    exact absurd (hc ib hmem hoff) (Nat.not_le.mpr hshared)

/-- The block that was required is on the list, at its offset, and is not shared. -/
theorem requireIblkref_block {off : ℤ} (h : Inv held s) (hreg : (s.inodes n).iMode = .reg)
    (hr : s.requireIblkref n off = (some ib, s')) :
    ib ∈ s'.blocksOf n ∧ ib.off = offToBoff off ∧ counts s' ib.dblkref ≤ 1 := by
  rcases requireIblkref_cases h hreg hr with ⟨hres, -⟩ | ⟨ib', hres, hscan, hle, rfl⟩ |
    ⟨ib', s₁, hres, -, hoff, -, -, hone, -, -, rfl⟩ |
    ⟨ib', d, s₁, hres, hscan, -, -, -, hone, -, -, rfl⟩
  · cases hres
  · obtain rfl := Option.some.inj hres
    obtain ⟨hmem, hoff⟩ := scanIblkref_some hscan
    exact ⟨hmem, hoff, hle⟩
  · obtain rfl := Option.some.inj hres
    refine ⟨?_, hoff, hone.le⟩
    rw [blocksOf_setInode]
    exact (insertIblkref_perm ib _).mem_iff.mpr List.mem_cons_self
  · obtain rfl := Option.some.inj hres
    obtain ⟨hmem, hoff⟩ := scanIblkref_some hscan
    refine ⟨?_, hoff, hone.le⟩
    rw [blocksOf_setInode]
    exact (retargetIblkref_perm (h.ptrNodup n) hmem d).mem_iff.mpr List.mem_cons_self

/-- What is not shared stays so when a block is required. -/
theorem requireIblkref_unshared {off : ℤ} {res : Option Iblkref} {P : ℤ → Prop} (h : Inv held s)
    (hreg : (s.inodes n).iMode = .reg) (hr : s.requireIblkref n off = (res, s'))
    (hu : Unshared P n s) : Unshared P n s' := by
  have hold : ∀ {s₁}, Quiet s s₁ → ∀ x ∈ s.blocksOf n, P x.off → counts s₁ x.dblkref ≤ 1 := by
    intro s₁ hq x hx hP
    rw [hq.counts_eq (h.counts_pos (mem_keys_of_mem hx))]
    exact hu x hx hP
  rcases requireIblkref_cases h hreg hr with ⟨-, -, hq⟩ | ⟨ib, -, -, -, rfl⟩ |
    ⟨ib, s₁, -, -, -, hq, -, hone, -, -, rfl⟩ | ⟨ib, d, s₁, -, -, -, hq, -, hone, -, -, rfl⟩
  · intro x hx
    rw [Sbi.blocksOf, hq.inodes] at hx
    exact hold hq x hx
  · exact hu
  · intro x hx hP
    rw [blocksOf_setInode] at hx
    rw [counts_setInode]
    rcases List.mem_cons.mp ((insertIblkref_perm ib _).mem_iff.mp hx) with rfl | hx
    · exact hone.le
    · exact hold hq x hx hP
  · intro x hx hP
    rw [blocksOf_setInode] at hx
    rw [counts_setInode]
    rcases mem_retargetIblkref hx with ⟨-, hd, -⟩ | ⟨-, hx⟩
    · rw [hd]
      exact hone.le
    · exact hold hq x hx hP

/-- The offsets of the pages of a range. -/
def InRange (off last boff : ℤ) : Prop := offToBoff off ≤ boff ∧ boff < last

/-! ## Write and fallocate -/

theorem offToBoff_le {off : ℤ} (h : 0 ≤ off) : offToBoff off ≤ off := by
  rw [offToBoff_eq h]
  have := Int.emod_nonneg off (by decide : (pageSize : ℤ) ≠ 0)
  omega

theorem nextPage_nonneg {off : ℤ} (h : 0 ≤ off) : 0 ≤ nextPage off :=
  h.trans (lt_nextPage off).le

theorem offToBoff_le_nextPage {off : ℤ} (h : 0 ≤ off) : offToBoff off ≤ offToBoff (nextPage off) := by
  rw [offToBoff_eq h, offToBoff_eq (nextPage_nonneg h), nextPage_eq h]
  unfold pageSize
  omega

theorem unshared_next {off last : ℤ} (h : 0 ≤ off) (hu : Unshared (InRange off last) n s) :
    Unshared (InRange (nextPage off) last) n s :=
  fun x hx hP => hu x hx ⟨(offToBoff_le_nextPage h).trans hP.1, hP.2⟩

theorem unshared_head {off last : ℤ} (h : 0 ≤ off) (hlt : off < last)
    (hu : Unshared (InRange off last) n s) : Unshared (· = offToBoff off) n s := by
  intro x hx hP
  have hle := offToBoff_le h
  exact hu x hx ⟨hP.ge, hP.trans_lt (hle.trans_lt hlt)⟩

/-- **The loop of `_write`.** -/
theorem writeLoop_serves {buf : Bytes} {off last : ℤ} {cnt : UInt64} {res : Except Errno UInt64}
    (hoff : 0 ≤ off) (h : Inv held s) (hreg : (s.inodes n).iMode = .reg)
    (hr : s.writeLoop n buf off last cnt = (res, s')) :
    Serves n dirty (Unshared (InRange off last) n s) held s s' := by
  fun_induction Sbi.writeLoop s n buf off last cnt generalizing held with
  | case1 s buf off cnt hlt s₁ hreq =>
    obtain ⟨-, rfl⟩ := Prod.mk.inj hr
    exact (requireIblkref_serves h hreg hreq).mono subset_rfl (unshared_head hoff hlt)
  | case2 s buf off cnt hlt ib s₁ hreq len s₂ =>
    rename_i ih
    obtain ⟨hmem, -, hle⟩ := requireIblkref_block h hreg hreq
    have hserve : Serves n dirty (Unshared (InRange off last) n s) held s s₁ :=
      (requireIblkref_serves h hreg hreq).mono subset_rfl (unshared_head hoff hlt)
    have hreg₁ := hserve.reg
    refine (hserve.trans (fun held₁ h₁ => ?_) fun hu => hu).trans
      (fun held₂ h₂ => ih (nextPage_nonneg hoff) h₂ ?_ hr) fun hu => ?_
    · exact serves_storeAt h₁ hreg₁ hmem (fun hlt => absurd hle (Nat.not_le.mpr hlt)) _ _ _
    · exact hreg₁
    · have hu₁ := requireIblkref_unshared h hreg hreq hu
      exact unshared_next hoff hu₁
  | case3 s buf off cnt hlt =>
    obtain ⟨-, rfl⟩ := Prod.mk.inj hr
    exact .refl h hreg

/-- `_check_io` and the checks above it accept no negative offset. -/
theorem checkIo_nonneg {off : ℤ} {len : UInt64} (h : checkIo off len = none) : 0 ≤ off := by
  unfold checkIo at h
  split at h
  · cases h
  · omega

/-- **What `_check_io` lets pass**: the range ends in a file of the largest size, or its end
wraps into one. -/
theorem checkIo_iff {pos len : UInt64} : checkIo (toLoff pos) len = none ↔
    0 ≤ toLoff pos ∧ toLoff pos ≤ 2 ^ 50 ∧ 0 < len.toNat ∧
    (toLoff pos + len.toNat ≤ 2 ^ 50 ∨
      (2 ^ 64 ≤ toLoff pos + len.toNat ∧ toLoff pos + len.toNat ≤ 2 ^ 64 + 2 ^ 50)) := by
  have hmax : isizeMax.toNat = 2 ^ 50 := by decide
  have hlen := len.toNat_lt
  have hpos := pos.toNat_lt
  unfold checkIo
  simp only [UInt64.lt_iff_toNat_lt, ← UInt64.toNat_inj, hmax, UInt64.toNat_add, UInt64.toNat_zero]
  rcases Int.lt_or_le (toLoff pos) 0 with hneg | hnn
  · rw [if_pos hneg]
    exact iff_of_false (by simp) (by omega)
  · have hsize : ((toSize (toLoff pos)).toNat : ℤ) = toLoff pos := by
      have hlt : toLoff pos < 2 ^ 64 := by
        unfold toLoff
        split <;> omega
      rw [toNat_toSize hnn hlt]
      omega
    rw [if_neg (by omega)]
    split_ifs <;> simp <;> omega

theorem checkRw_nonneg {apiMapMaxSize : ℕ} {off : ℤ} {len : UInt64}
    (h : checkRw apiMapMaxSize off len = none) : 0 ≤ off := by
  unfold checkRw at h
  split at h
  · cases h
  · exact checkIo_nonneg h

theorem write_serves {apiMapMaxSize : ℕ} {buf : Bytes} {off : ℤ} {len : UInt64} (h : Inv held s)
    (hreg : (s.inodes n).iMode = .reg) :
    Serves n dirty (Unshared (InRange off (off + toLoff len)) n s) held s
      (s.write apiMapMaxSize n buf off len).2 := by
  unfold Sbi.write
  split
  · exact .refl h hreg
  · next hcheck =>
    have hoff := checkRw_nonneg hcheck
    split
    · next err s₁ hr => exact writeLoop_serves hoff h hreg hr
    · next cnt s₁ hr =>
      have hserve : Serves n dirty (Unshared (InRange off (off + toLoff len)) n s) held s s₁ :=
        writeLoop_serves hoff h hreg hr
      exact hserve.trans (fun held₁ h₁ => serves_setSize h₁ hserve.reg _) fun hu => hu

/-- **The loop of `_falloc_range`.** -/
theorem fallocRangeLoop_serves {off last : ℤ} {cnt : UInt64} {res : Except Errno UInt64}
    (hoff : 0 ≤ off) (h : Inv held s) (hreg : (s.inodes n).iMode = .reg)
    (hr : s.fallocRangeLoop n off last cnt = (res, s')) :
    Serves n dirty (Unshared (InRange off last) n s) held s s' := by
  fun_induction Sbi.fallocRangeLoop s n off last cnt generalizing held with
  | case1 s off cnt hlt s₁ hreq =>
    obtain ⟨-, rfl⟩ := Prod.mk.inj hr
    exact (requireIblkref_serves h hreg hreq).mono subset_rfl (unshared_head hoff hlt)
  | case2 s off cnt hlt ib s₁ hreq ih =>
    have hserve : Serves n dirty (Unshared (InRange off last) n s) held s s₁ :=
      (requireIblkref_serves h hreg hreq).mono subset_rfl (unshared_head hoff hlt)
    exact hserve.trans (fun held₁ h₁ => ih (nextPage_nonneg hoff) h₁ hserve.reg hr)
      fun hu => unshared_next hoff (requireIblkref_unshared h hreg hreq hu)
  | case3 s off cnt hlt =>
    obtain ⟨-, rfl⟩ := Prod.mk.inj hr
    exact .refl h hreg

theorem fallocRange_serves {off : ℤ} {len : UInt64} (hoff : 0 ≤ off) (h : Inv held s)
    (hreg : (s.inodes n).iMode = .reg) :
    Serves n dirty (Unshared (InRange off (off + toLoff len)) n s) held s
      (s.fallocRange n off len).2 := by
  unfold Sbi.fallocRange
  split
  · next err s₁ hr => exact fallocRangeLoop_serves hoff h hreg hr
  · next cnt s₁ hr =>
    have hserve : Serves n dirty (Unshared (InRange off (off + toLoff len)) n s) held s s₁ :=
      fallocRangeLoop_serves hoff h hreg hr
    exact hserve.trans (fun held₁ h₁ => serves_setSize h₁ hserve.reg _) fun hu => hu

/-! ## Dropping blocks -/

/-- The reference a dropped block held, and its record, go back in either order. -/
theorem putDblkref_pushRec {p : RecPtr} :
    ((s.withPool (s.pool.pushRec .iblkref p)).putDblkref d).pool =
      (s.putDblkref d).pool.pushRec .iblkref p ∧
    ((s.withPool (s.pool.pushRec .iblkref p)).putDblkref d).dblkrefs =
      (s.putDblkref d).dblkrefs := by
  by_cases hone : (s.dblkrefs d).refcnt - 1 = 0
  · have hone' : ((s.withPool (s.pool.pushRec .iblkref p)).dblkrefs d).refcnt - 1 = 0 := hone
    rw [Sbi.putDblkref, Sbi.putDblkref, if_pos hone, if_pos hone']
    refine ⟨?_, rfl⟩
    simp only [Sbi.withPool, Sbi.freeDblkref, Sbi.releasePmemb, Sbi.releaseDblkref, Sbi.decRefcnt,
      Sbi.setDblkref, Pool.pushPmemb, Pool.pushRec, Pool.setFree, Sbi.pageOf]
    congr 1
    funext kind
    cases kind <;> simp
  · have hone' : ¬ ((s.withPool (s.pool.pushRec .iblkref p)).dblkrefs d).refcnt - 1 = 0 := hone
    rw [Sbi.putDblkref, Sbi.putDblkref, if_neg hone, if_neg hone']
    exact ⟨rfl, rfl⟩

theorem assert_putDblkref {c : Bool} : (s.assert c).putDblkref d = (s.putDblkref d).assert c := by
  by_cases hone : (s.dblkrefs d).refcnt - 1 = 0
  · have hone' : ((s.assert c).dblkrefs d).refcnt - 1 = 0 := hone
    rw [Sbi.putDblkref, Sbi.putDblkref, if_pos hone, if_pos hone']
    rfl
  · have hone' : ¬ ((s.assert c).dblkrefs d).refcnt - 1 = 0 := hone
    rw [Sbi.putDblkref, Sbi.putDblkref, if_neg hone, if_neg hone']
    rfl

/-- `_drop_iblkref`, with its assertions last. -/
theorem dropIblkref_eq : ∃ c₁ c₂, s.dropIblkref n ib =
    (((((s.setBlocks n ((s.blocksOf n).filter fun x => x.ptr ≠ ib.ptr)).putDblkref
      ib.dblkref).releaseIblkref ib.ptr).assert c₁).assert c₂).setInode n
      { s.inodes n with
        iblkrefs := (s.blocksOf n).filter fun x => x.ptr ≠ ib.ptr
        iBlocks := (s.inodes n).iBlocks - 1 } := by
  refine ⟨0 < (s.inodes n).iBlocks, 0 < (s.dblkrefs ib.dblkref).refcnt, ?_⟩
  rw [Sbi.dropIblkref, Sbi.freeIblkref, Sbi.decrefDblkref, assert_putDblkref, assert_putDblkref]
  simp only [Sbi.releaseIblkref, Sbi.assert, putDblkref_inodes, Sbi.setBlocks, setInode_inodes_self]
  rfl

theorem blocksOf_dropIblkref :
    (s.dropIblkref n ib).blocksOf n = (s.blocksOf n).filter fun x => x.ptr ≠ ib.ptr := by
  obtain ⟨c₁, c₂, heq⟩ := @dropIblkref_eq s n ib
  rw [heq, blocksOf_setInode]

/-- **A block is dropped**: its record goes back to the pool, and the reference it held. -/
theorem Inv.dropIblkref (h : Inv held s) (hreg : (s.inodes n).iMode = .reg)
    (hm : ib ∈ s.blocksOf n) : Inv held (s.dropIblkref n ib) := by
  have hperm := (filter_perm (h.ptrNodup n) hm).map fun x => (x.ptr, x.dblkref)
  obtain ⟨h₁, hspare⟩ := h.detach (sameHold_reg hreg ((s.blocksOf n).filter fun x => x.ptr ≠ ib.ptr)
    (s.inodes n).iSize (s.inodes n).iBlocks) hperm
  have h₂ := (h₁.pushRec hspare).putDblkref
  obtain ⟨c₁, c₂, heq⟩ := @dropIblkref_eq s n ib
  rw [heq]
  set s₁ := s.setBlocks n ((s.blocksOf n).filter fun x => x.ptr ≠ ib.ptr) with hs₁
  have hput := @putDblkref_pushRec s₁ ib.dblkref ib.ptr
  have hin : (s₁.putDblkref ib.dblkref).inodes n = s₁.inodes n := by rw [putDblkref_inodes]
  have h₃ : Inv held ((((s₁.putDblkref ib.dblkref).releaseIblkref ib.ptr).assert c₁).assert c₂) := by
    refine h₂.congr hput.1.symm hput.2.symm ?_
    rw [assert_inodes, assert_inodes, releaseIblkref_inodes, putDblkref_inodes, putDblkref_inodes]
    rfl
  refine h₃.sameKeys ?_ ?_
  · rw [assert_inodes, assert_inodes, releaseIblkref_inodes, hin, hs₁, Sbi.setBlocks, setInode_inodes_self]
    exact sameHold_of_reg hreg hreg rfl rfl
  · rw [assert_inodes, assert_inodes, releaseIblkref_inodes, hin, hs₁, Sbi.setBlocks, setInode_inodes_self]
    rfl

theorem dropIblkref_serves (h : Inv held s) (hreg : (s.inodes n).iMode = .reg)
    (hm : ib ∈ s.blocksOf n) : Serves n dirty clean held s (s.dropIblkref n ib) := by
  have h' := h.dropIblkref hreg hm
  obtain ⟨c₁, c₂, heq⟩ := @dropIblkref_eq s n ib
  rw [heq] at h' ⊢
  set s₁ := s.setBlocks n ((s.blocksOf n).filter fun x => x.ptr ≠ ib.ptr) with hs₁
  have hother : ∀ m, m ≠ n → (s₁.putDblkref ib.dblkref).inodes m = s.inodes m := by
    intro m hmn
    rw [putDblkref_inodes, hs₁, Sbi.setBlocks, setInode_inodes_ne hmn]
  refine ⟨⟨⟨hreg, fun m hmn => ?_, ⟨_, _, _, setInode_inodes_self⟩, ?_, fun bn use m hh => ?_⟩,
    fun m hmn hk => ⟨?_, fun k hkm => ?_⟩⟩, held, h', fun _ => rfl⟩
  · rw [setInode_inodes_ne hmn]
    exact hother m hmn
  · simp [hs₁, Sbi.setBlocks]
  · simp [hs₁, Sbi.setBlocks]
  · rw [setInode_inodes_ne hmn]
    exact hother m hmn
  · -- a block of another file has a reference left
    have hpos : 0 < counts (s₁.putDblkref ib.dblkref) k.2 := by
      refine h'.counts_pos (m := m) (k := k) ?_
      rw [setInode_inodes_ne hmn]
      exact (hother m hmn).symm ▸ hkm
    exact putDblkref_keepsBlock hpos

/-- The blocks from a list that lie at or after `pos` are dropped, one by one. -/
theorem dropBlocks_serves {pos : ℤ} (l : List Iblkref) (h : Inv held s)
    (hreg : (s.inodes n).iMode = .reg) (hnd : (l.map Iblkref.ptr).Nodup)
    (hl : ∀ ib ∈ l, ib ∈ s.blocksOf n) :
    Serves n dirty clean held s
      (l.foldl (fun s ib => if pos ≤ ib.off then s.dropIblkref n ib else s) s) := by
  induction l generalizing s held with
  | nil => exact .refl h hreg
  | cons ib rest ih =>
    rw [List.map_cons, List.nodup_cons] at hnd
    have hrest : ∀ x ∈ rest, x ∈ s.blocksOf n := fun x hx => hl x (List.mem_cons_of_mem _ hx)
    rw [List.foldl_cons]
    by_cases hpos : pos ≤ ib.off
    · rw [if_pos hpos]
      have hserve : Serves n dirty clean held s (s.dropIblkref n ib) :=
        dropIblkref_serves h hreg (hl ib List.mem_cons_self)
      refine hserve.trans (fun held₁ h₁ => ih h₁ hserve.reg hnd.2 fun x hx => ?_) fun hc => hc
      -- the blocks still to come are other ones
      rw [blocksOf_dropIblkref, List.mem_filter, decide_eq_true_eq]
      exact ⟨hrest x hx, fun heq => hnd.1 (heq ▸ List.mem_map_of_mem hx)⟩
    · rw [if_neg hpos]
      exact ih h hreg hnd.2 hrest

theorem dropRange_serves {pos : ℤ} (h : Inv held s) (hreg : (s.inodes n).iMode = .reg) :
    Serves n dirty clean held s (s.dropRange n pos) :=
  dropBlocks_serves _ h hreg (h.ptrNodup n) fun _ hm => hm

/-- What every drop of a block on the list keeps, `_drop_range` keeps. -/
theorem dropRange_induction {I : Sbi → Prop} {pos : ℤ} (h : Inv held s)
    (hreg : (s.inodes n).iMode = .reg) (hs : I s)
    (hstep : ∀ s held ib, Inv held s → (s.inodes n).iMode = .reg → ib ∈ s.blocksOf n → I s →
      I (s.dropIblkref n ib)) : I (s.dropRange n pos) := by
  have hloop : ∀ (pos : ℤ) (l : List Iblkref) (s : Sbi) (held : RecPtr → ℕ), Inv held s →
      (s.inodes n).iMode = .reg → I s → (l.map Iblkref.ptr).Nodup →
      (∀ ib ∈ l, ib ∈ s.blocksOf n) →
      I (l.foldl (fun s ib => if pos ≤ ib.off then s.dropIblkref n ib else s) s) := by
    intro pos l
    induction l with
    | nil => exact fun s _ _ _ hs _ _ => hs
    | cons ib rest ih =>
      intro s held h hreg hs hnd hl
      rw [List.map_cons, List.nodup_cons] at hnd
      have hrest : ∀ x ∈ rest, x ∈ s.blocksOf n := fun x hx => hl x (List.mem_cons_of_mem _ hx)
      have hm := hl ib List.mem_cons_self
      rw [List.foldl_cons]
      split
      · have hserve : Serves n ∅ True held s (s.dropIblkref n ib) := dropIblkref_serves h hreg hm
        obtain ⟨held₁, h₁, -⟩ := hserve.inv
        refine ih _ held₁ h₁ hserve.reg (hstep s held ib h hreg hm hs) hnd.2 fun x hx => ?_
        -- the blocks still to come are other ones
        rw [blocksOf_dropIblkref, List.mem_filter, decide_eq_true_eq]
        exact ⟨hrest x hx, fun heq => hnd.1 (heq ▸ List.mem_map_of_mem hx)⟩
      · exact ih s held h hreg hs hnd.2 hrest
  exact hloop _ _ s held h hreg hs (h.ptrNodup n) fun _ hm => hm

theorem blocksOf_dropBlocks {pos : ℤ} (l : List Iblkref) (s : Sbi) :
    (l.foldl (fun s ib => if pos ≤ ib.off then s.dropIblkref n ib else s) s).blocksOf n =
      (s.blocksOf n).filter fun x => ∀ ib ∈ l, pos ≤ ib.off → x.ptr ≠ ib.ptr := by
  induction l generalizing s with
  | nil => simp
  | cons ib rest ih =>
    rw [List.foldl_cons, ih]
    by_cases hpos : pos ≤ ib.off
    · rw [if_pos hpos, blocksOf_dropIblkref, List.filter_filter]
      refine List.filter_congr fun x _ => ?_
      simp [hpos, Bool.and_comm]
    · rw [if_neg hpos]
      refine List.filter_congr fun x _ => ?_
      simp [hpos]

/-- **`_drop_range` leaves the blocks before the position.** -/
theorem blocksOf_dropRange {pos : ℤ} (h : Inv held s) :
    (s.dropRange n pos).blocksOf n = (s.blocksOf n).filter
      fun x => x.off < if pos % pageSize ≠ 0 then nextPage pos else pos := by
  rw [Sbi.dropRange, blocksOf_dropBlocks]
  refine List.filter_congr fun x hx => ?_
  rw [decide_eq_decide]
  constructor
  · intro hall
    by_contra hlt
    exact hall x hx (Int.not_lt.mp hlt) rfl
  · intro hlt y hy hpos heq
    have hxy := List.inj_on_of_nodup_map (h.ptrNodup n) hx hy heq
    subst hxy
    omega

/-! ## Punching, zeroing and collapsing -/

section Fetch

variable {l : List Iblkref} {off : ℤ}

theorem fetchIblkref_some (h : fetchIblkref l off = some ib) : ib ∈ l ∧ ib.off = offToBoff off :=
  ⟨List.mem_of_find?_eq_some h, by simpa using List.find?_some h⟩

theorem fetchIblkref_none (h : fetchIblkref l off = none) : ∀ ib ∈ l, ib.off ≠ offToBoff off := by
  intro ib hm
  simpa using List.find?_eq_none.mp h ib hm

end Fetch

/-- The page at `boff` is covered in part by the range. -/
def PartlyIn (off last boff : ℤ) : Prop :=
  boff % pageSize = 0 ∧ boff < last ∧ off < boff + pageSize ∧
    ¬ (off ≤ boff ∧ boff + pageSize ≤ last)

theorem nextPage_emod {off : ℤ} (h : 0 ≤ off) : nextPage off % pageSize = 0 := by
  rw [nextPage_eq h]
  unfold pageSize
  omega

theorem partlyIn_next {off last boff : ℤ} (h : 0 ≤ off) (hp : PartlyIn (nextPage off) last boff) :
    PartlyIn off last boff := by
  obtain ⟨hmod, hlt, hov, hnot⟩ := hp
  have hnext := nextPage_emod h
  have hgt := lt_nextPage off
  unfold PartlyIn pageSize at *
  omega

/-- A piece shorter than a page is part of a page. -/
theorem partlyIn_of_short {off last : ℤ} (h : 0 ≤ off) (hlt : off < last)
    (hshort : (nbytesInRange off (nextPage off) last).toNat < pageSize) :
    PartlyIn off last (offToBoff off) := by
  have hmod := Int.emod_nonneg off (by decide : (pageSize : ℤ) ≠ 0)
  have hmod' := Int.emod_lt_of_pos off (by decide : (0 : ℤ) < pageSize)
  rw [nextPage_eq h] at hshort
  rw [offToBoff_eq h]
  unfold nbytesInRange at hshort
  unfold PartlyIn
  unfold pageSize at *
  split at hshort
  · rw [toNat_toSize (by omega) (by omega)] at hshort
    omega
  · rw [toNat_toSize (by omega) (by omega)] at hshort
    omega

theorem punchHoleAt_serves {off : ℤ} {len : UInt64} (h : Inv held s)
    (hreg : (s.inodes n).iMode = .reg) (hm : ib ∈ s.blocksOf n)
    (hdirty : len.toNat < pageSize → ib.dblkref ∈ dirty) :
    Serves n dirty clean held s (s.punchHoleAt n ib off len) ∧
      ∀ x ∈ (s.punchHoleAt n ib off len).blocksOf n, x ∈ s.blocksOf n := by
  unfold Sbi.punchHoleAt
  split
  · next hlt => exact ⟨serves_storeAt h hreg hm (fun _ => hdirty hlt) _ _ _, fun x hx => hx⟩
  · refine ⟨dropIblkref_serves h hreg hm, fun x hx => ?_⟩
    rw [blocksOf_dropIblkref] at hx
    exact (List.mem_filter.mp hx).1

/-- **The loop of `_punch_hole`** stores in place into the pages that are covered in part. -/
theorem punchHoleLoop_serves {off last : ℤ} (hoff : 0 ≤ off) (h : Inv held s)
    (hreg : (s.inodes n).iMode = .reg)
    (hdirty : ∀ ib ∈ s.blocksOf n, PartlyIn off last ib.off → ib.dblkref ∈ dirty) :
    Serves n dirty clean held s (s.punchHoleLoop n off last) := by
  fun_induction Sbi.punchHoleLoop s n off last generalizing held with
  | case1 s off hlt nxt s₁ =>
    rename_i ih
    have hstep : Serves n dirty clean held s s₁ ∧ ∀ x ∈ s₁.blocksOf n, x ∈ s.blocksOf n := by
      simp only [s₁]
      split
      · next ib hf =>
        obtain ⟨hm, hboff⟩ := fetchIblkref_some hf
        refine punchHoleAt_serves h hreg hm fun hshort => hdirty ib hm ?_
        rw [hboff]
        exact partlyIn_of_short hoff hlt hshort
      · exact ⟨.refl h hreg, fun x hx => hx⟩
    exact hstep.1.trans (fun held₁ h₁ => ih (nextPage_nonneg hoff) h₁ hstep.1.reg fun x hx hp =>
      hdirty x (hstep.2 x hx) (partlyIn_next hoff hp)) fun hc => hc
  | case2 s off hlt => exact .refl h hreg

theorem zeroRangeLoop_serves {off last : ℤ} (l : List Iblkref) (h : Inv held s)
    (hreg : (s.inodes n).iMode = .reg) (hl : ∀ ib ∈ l, ib ∈ s.blocksOf n)
    (hdirty : ∀ ib ∈ l, ib.off < last → ib.dblkref ∈ dirty) :
    Serves n dirty clean held s (s.zeroRangeLoop off last l) := by
  fun_induction Sbi.zeroRangeLoop s off last l generalizing held with
  | case1 s off => exact .refl h hreg
  | case2 s off ib rest hlt s₁ off' =>
    rename_i ih
    have hserve : Serves n dirty clean held s s₁ :=
      serves_storeAt h hreg (hl ib List.mem_cons_self)
        (fun _ => hdirty ib List.mem_cons_self hlt) _ _ _
    exact hserve.trans (fun held₁ h₁ => ih h₁ hserve.reg
      (fun x hx => hl x (List.mem_cons_of_mem _ hx))
      (fun x hx => hdirty x (List.mem_cons_of_mem _ hx))) fun hc => hc
  | case3 s off ib rest hlt => exact .refl h hreg

theorem toLoff_emod {len : UInt64} (h : len % 4096 = 0) : toLoff len % pageSize = 0 := by
  have hmod : len.toNat % 4096 = 0 := by
    have := congrArg UInt64.toNat h
    simpa using this
  unfold toLoff pageSize
  split <;> omega

/-- A range of whole pages covers no page in part. -/
theorem not_partlyIn_of_aligned {off boff : ℤ} {len : UInt64} (h : ispagealigned off len = true) :
    ¬ PartlyIn off (off + toLoff len) boff := by
  simp only [ispagealigned, Bool.and_eq_true, beq_iff_eq] at h
  have hlen := toLoff_emod h.2
  rintro ⟨hmod, hlt, hov, hnot⟩
  have hoff := h.1
  unfold pageSize at *
  omega

/-- `_check_falloc` lets no range that is not of whole pages be collapsed. -/
theorem checkFalloc_aligned {mode : UInt32} {off : ℤ} {len : UInt64}
    (h : checkFalloc mode off len = none) (hmode : mode &&& fallocCollapseRange ≠ 0) :
    ispagealigned off len = true := by
  unfold checkFalloc at h
  by_contra hal
  rw [Bool.not_eq_true] at hal
  simp only [hmode, hal, ne_eq, not_false_eq_true, true_and, if_true] at h
  split_ifs at h

/-- Nor any other mode with a collapse. -/
theorem checkFalloc_collapse {mode : UInt32} {off : ℤ} {len : UInt64}
    (h : checkFalloc mode off len = none) (hmode : mode &&& fallocCollapseRange ≠ 0) :
    mode = fallocCollapseRange := by
  unfold checkFalloc at h
  by_contra hne
  simp only [hmode, hne, ne_eq, not_false_eq_true, true_and, if_true] at h
  split_ifs at h

/-- Moving the blocks behind a position changes offsets only. -/
theorem keys_shift (l : List Iblkref) (boff len : ℤ) :
    (l.takeWhile (fun ib : Iblkref => ib.off < boff) ++
      (l.dropWhile fun ib : Iblkref => ib.off < boff).map
        fun ib : Iblkref => { ib with off := ib.off - len }).map
        (fun ib : Iblkref => (ib.ptr, ib.dblkref)) = l.map fun ib => (ib.ptr, ib.dblkref) := by
  rw [List.map_append, List.map_map]
  refine (List.map_append (f := fun ib : Iblkref => (ib.ptr, ib.dblkref))).symm.trans ?_
  rw [List.takeWhile_append_dropWhile]

theorem collapseRange_serves {off : ℤ} {len : UInt64} (hoff : 0 ≤ off)
    (halign : ispagealigned off len = true) (h : Inv held s) (hreg : (s.inodes n).iMode = .reg) :
    Serves n dirty clean held s (s.collapseRange n off len) := by
  have hpunch : Serves n dirty clean held s (s.punchHole n off len) :=
    punchHoleLoop_serves hoff h hreg fun ib _ hp => absurd hp (not_partlyIn_of_aligned halign)
  unfold Sbi.collapseRange
  simp only
  set s₁ := s.punchHole n off len with hs₁
  -- the size, and then the offsets of the blocks behind the range
  have hsize : Serves n dirty clean held s (if len ≤ (s₁.inodes n).iSize then
      s₁.setSize n ((s₁.inodes n).iSize - len) else s₁) := by
    split
    · exact hpunch.trans (fun held₁ h₁ => serves_setSize h₁ hpunch.reg _) fun hc => hc
    · exact hpunch
  refine hsize.trans (fun held₂ h₂ => ?_) fun hc => hc
  refine (Quiet.refl _).serves_setInode h₂ hsize.reg _ _ _ ?_ fun _ => rfl
  exact h₂.sameKeys (sameHold_reg hsize.reg _ _ _) (keys_shift _ _ _)

theorem fallocate_serves {mode : UInt32} {off : ℤ} {len : UInt64} (h : Inv held s)
    (hreg : (s.inodes n).iMode = .reg)
    (hpunch : mode &&& fallocPunchHole ≠ 0 →
      ∀ ib ∈ s.blocksOf n, PartlyIn off (off + toLoff len) ib.off → ib.dblkref ∈ dirty)
    (hzero : mode &&& fallocZeroRange ≠ 0 →
      ∀ ib ∈ fetchIblkrefFrom (s.blocksOf n) off, ib.off < off + toLoff len → ib.dblkref ∈ dirty) :
    Serves n dirty (Unshared (InRange off (off + toLoff len)) n s) held s
      (s.fallocate n mode off len).2 := by
  unfold Sbi.fallocate
  split
  · exact .refl h hreg
  · next hio =>
    have hoff := checkIo_nonneg hio
    split
    · exact .refl h hreg
    · next hcheck =>
      split
      · next hmode => exact punchHoleLoop_serves hoff h hreg (hpunch hmode)
      split
      · next hmode =>
        exact zeroRangeLoop_serves _ h hreg (fun ib hm => (List.dropWhile_sublist _).mem hm)
          (hzero hmode)
      split
      · next hmode =>
        exact collapseRange_serves hoff (checkFalloc_aligned hcheck hmode) h hreg
      · exact fallocRange_serves hoff h hreg

/-! ## Truncate -/

/-- **What `_unique_pmemb` does**: it fails and changes nothing in use; finds the block not
shared; or gives the `iblkref` a fresh copy, and takes its reference off the shared one. -/
theorem uniquePmemb_cases {res : Option ℕ} (h : Inv held s) (hreg : (s.inodes n).iMode = .reg)
    (hm : ib ∈ s.blocksOf n) (hr : s.uniquePmemb n ib = (res, s')) :
    (res = none ∧ Inv held s' ∧ Quiet s s') ∨
    (res = some (s.pageOf ib.dblkref) ∧ counts s ib.dblkref ≤ 1 ∧ s' = s) ∨
    (∃ d s₁, res = some (s₁.pageOf d) ∧ 1 < counts s ib.dblkref ∧ Quiet s s₁ ∧ counts s d = 0 ∧
      counts s₁ d = 1 ∧
      (∀ i < pageSize, s₁.mem (s₁.pageOf d) i = s.mem (s.pageOf ib.dblkref) i) ∧ Inv held s' ∧
      s' = (s₁.decRefcnt ib.dblkref).setInode n { s.inodes n with
        iblkrefs := retargetIblkref ib.ptr d (s.blocksOf n) }) := by
  unfold Sbi.uniquePmemb at hr
  split at hr
  · next hshared =>
    split at hr
    · next s₁ hn =>
      obtain ⟨rfl, rfl⟩ := Prod.mk.inj hr
      exact .inl ⟨rfl, newDblkref_none h hn⟩
    · next d s₁ hn =>
      obtain ⟨rfl, rfl⟩ := Prod.mk.inj hr
      obtain ⟨h₂, hq, hzero, hone, hmem⟩ := cloneData_spec h hm hn
      have huse : 0 < counts s ib.dblkref := h.counts_pos (mem_keys_of_mem hm)
      have hne : d ≠ ib.dblkref := by
        rintro rfl
        omega
      have hin : (s₁.cloneData d ib.dblkref).inodes = s.inodes := hq.inodes
      refine .inr (.inr ⟨d, s₁.cloneData d ib.dblkref, ?_, hshared, hq, hzero, hone, hmem, ?_, ?_⟩)
      · simp [Sbi.pageOf, Sbi.decRefcnt, Sbi.setDblkref, hne]
      · have h₃ := h₂.retargetBlock (by rw [hin]; exact hreg)
          (show ib ∈ _ by rw [Sbi.blocksOf, hin]; exact hm)
        exact h₃.decRefcnt
      · change (Sbi.decRefcnt _ _).setInode n { (s₁.cloneData d ib.dblkref).inodes n with
          iblkrefs := retargetIblkref ib.ptr d ((s₁.cloneData d ib.dblkref).inodes n).iblkrefs } = _
        rw [hin]
        rfl
  · next hone =>
    obtain ⟨rfl, rfl⟩ := Prod.mk.inj hr
    exact .inr (.inl ⟨rfl, Nat.not_lt.mp hone, rfl⟩)

/-- Making a block unique serves the file and loses nothing. -/
theorem uniquePmemb_serves {res : Option ℕ} (h : Inv held s) (hreg : (s.inodes n).iMode = .reg)
    (hm : ib ∈ s.blocksOf n) (hr : s.uniquePmemb n ib = (res, s')) :
    Serves n dirty clean held s s' := by
  rcases uniquePmemb_cases h hreg hm hr with ⟨-, h', hq⟩ | ⟨-, -, rfl⟩ |
    ⟨d, s₁, -, -, hq, -, -, -, h', rfl⟩
  · exact hq.serves h h' hreg
  · exact .refl h hreg
  · have hop : FileOp n dirty s (s₁.decRefcnt ib.dblkref) :=
      (hq.fileOp h hreg).trans (fileOp_setRefcnt (by rw [hq.inodes]; exact hreg) _ _)
    refine ⟨hop.trans ?_, held, h', fun _ => rfl⟩
    have hin : (s₁.decRefcnt ib.dblkref).inodes = s.inodes := hq.inodes
    rw [← hin] at hreg ⊢
    exact fileOp_setInode hreg _ _ _

/-- The page `_unique_pmemb` returns is that of a block of the file that is not shared. -/
theorem uniquePmemb_block {bn : ℕ} (h : Inv held s) (hreg : (s.inodes n).iMode = .reg)
    (hm : ib ∈ s.blocksOf n) (hr : s.uniquePmemb n ib = (some bn, s')) :
    ∃ ib' ∈ s'.blocksOf n, ib'.off = ib.off ∧ s'.pageOf ib'.dblkref = bn ∧
      counts s' ib'.dblkref ≤ 1 := by
  rcases uniquePmemb_cases h hreg hm hr with ⟨hres, -⟩ | ⟨hres, hle, rfl⟩ |
    ⟨d, s₁, hres, hshared, -, hzero, hone, -, -, rfl⟩
  · cases hres
  · exact ⟨ib, hm, rfl, (Option.some.inj hres).symm, hle⟩
  · have hne : d ≠ ib.dblkref := by
      rintro rfl
      omega
    refine ⟨{ ib with dblkref := d }, ?_, rfl, ?_, ?_⟩
    · rw [blocksOf_setInode]
      exact (retargetIblkref_perm (h.ptrNodup n) hm d).mem_iff.mpr List.mem_cons_self
    · rw [Option.some.inj hres]
      simp [Sbi.pageOf, Sbi.decRefcnt, Sbi.setDblkref, Sbi.setInode, hne]
    · rw [counts_setInode, Sbi.decRefcnt, counts_setDblkref_ne hne]
      exact hone.le

/-- A block is made unique and then stored into. -/
theorem uniquePmemb_store_serves {bn : ℕ} (h : Inv held s) (hreg : (s.inodes n).iMode = .reg)
    (hm : ib ∈ s.blocksOf n) (hr : s.uniquePmemb n ib = (some bn, s')) (off : ℤ) (len : UInt64)
    (src : Bytes) : Serves n dirty clean held s (s'.storeAt bn off len src) := by
  have hserve : Serves n dirty clean held s s' := uniquePmemb_serves h hreg hm hr
  obtain ⟨ib', hm', -, rfl, hle⟩ := uniquePmemb_block h hreg hm hr
  exact hserve.trans (fun held₁ h₁ => serves_storeAt h₁ hserve.reg hm'
    (fun hlt => absurd hle (Nat.not_le.mpr hlt)) _ _ _) fun hc => hc

theorem zeroAfter_serves {pos : ℤ} (h : Inv held s) (hreg : (s.inodes n).iMode = .reg) :
    Serves n dirty clean held s (s.zeroAfter n pos).2 := by
  unfold Sbi.zeroAfter
  split
  · exact .refl h hreg
  split
  · exact .refl h hreg
  · next ib hf =>
    have hm := (fetchIblkref_some hf).1
    split
    · next s₁ hr => exact uniquePmemb_serves h hreg hm hr
    · next bn s₁ hr => exact uniquePmemb_store_serves h hreg hm hr _ _ _

theorem truncate_serves {size : UInt64} (h : Inv held s) (hreg : (s.inodes n).iMode = .reg) :
    Serves n dirty clean held s (s.truncate n size).2 := by
  unfold Sbi.truncate
  rw [if_neg (by rw [hreg]; exact fun h => by cases h), if_neg (by rw [hreg]; exact fun h => h rfl)]
  split
  · have hdrop : Serves n dirty clean held s (s.dropRange n (toLoff size)) :=
      dropRange_serves h hreg
    have hzero : Serves n dirty clean held s
        ((s.dropRange n (toLoff size)).zeroAfter n (toLoff size)).2 :=
      hdrop.trans (fun held₁ h₁ => zeroAfter_serves h₁ hdrop.reg) fun hc => hc
    exact hzero.trans (fun held₂ h₂ => serves_setSize h₂ hzero.reg _) fun hc => hc
  · exact serves_setSize h hreg _

end Zus.Toyfs
