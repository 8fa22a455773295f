import Mathlib.Data.List.TakeWhile
import Zus.Toyfs.SystemStorage

/-!
# Block lists

The block list of a file has strictly increasing offsets, one for each page that has a
block, and `i_blocks` is its length. Every request on a file keeps this, whether it
succeeds or not, and then none of the assertions of `file.c` can fail: a store is inside
its page, a block that is freed is counted, and a count that is taken down is positive.

This is so for requests on file positions (`Act.InFile`). Nothing in the code sees to that for the
destination of a clone and for a fault: a clone to a position from `2 ^ 63` on puts a block before
the start of the file (`clone_before_start`). `FileOk` is the invariant of one file, with a lemma
for each operation; `FilesOk` is that of all files, kept by every request (`FilesOk.serve`).
-/

namespace Zus.Toyfs

open Zus.Lib

variable {s s' s₁ : Sbi} {held : RecPtr → ℕ} {n m d : RecPtr} {ib : Iblkref} {i : Inode}
  {l : List Iblkref} {off last : ℤ}

/-! ## Lists -/

/-- Page-aligned, non-negative, strictly increasing offsets. -/
structure OffsetsOk (l : List Iblkref) : Prop where
  sorted : l.Pairwise fun a b => a.off < b.off
  aligned : ∀ ib ∈ l, ib.off % pageSize = 0
  nonneg : ∀ ib ∈ l, 0 ≤ ib.off

/-- The block list of an inode. -/
structure BlockList (i : Inode) : Prop where
  offsets : OffsetsOk i.iblkrefs
  blocks : i.iBlocks = i.iblkrefs.length

namespace OffsetsOk

theorem nil : OffsetsOk [] := ⟨.nil, nofun, nofun⟩

/-- A list stays in order when blocks are dropped. -/
theorem sublist {l' : List Iblkref} (h : OffsetsOk l) (hs : l'.Sublist l) : OffsetsOk l' :=
  ⟨h.sorted.sublist hs, fun ib hm => h.aligned ib (hs.subset hm),
    fun ib hm => h.nonneg ib (hs.subset hm)⟩

/-- The offsets are all that counts. -/
theorem of_map {l' : List Iblkref} (h : OffsetsOk l) (hmap : l'.map Iblkref.off = l.map Iblkref.off) :
    OffsetsOk l' := by
  have hmem : ∀ ib ∈ l', ∃ x ∈ l, x.off = ib.off := by
    intro ib hm
    have hin : ib.off ∈ l.map Iblkref.off := hmap ▸ List.mem_map_of_mem hm
    exact List.mem_map.mp hin
  refine ⟨?_, fun ib hm => ?_, fun ib hm => ?_⟩
  · have hs := h.sorted
    rw [← List.pairwise_map (f := Iblkref.off) (R := (· < ·))] at hs ⊢
    rwa [hmap]
  · obtain ⟨x, hx, heq⟩ := hmem ib hm
    exact heq ▸ h.aligned x hx
  · obtain ⟨x, hx, heq⟩ := hmem ib hm
    exact heq ▸ h.nonneg x hx

/-- A block keeps its offset when it names another page. -/
theorem retarget (h : OffsetsOk l) (p : RecPtr) : OffsetsOk (retargetIblkref p d l) := by
  refine h.of_map ?_
  rw [retargetIblkref, List.map_map]
  refine List.map_congr_left fun x _ => ?_
  simp only [Function.comp_apply]
  split <;> rfl

/-- Two blocks at one offset are the same. -/
theorem eq_of_off {x y : Iblkref} (h : OffsetsOk l) (hx : x ∈ l) (hy : y ∈ l)
    (hoff : x.off = y.off) : x = y := by
  have hnd : (l.map Iblkref.off).Nodup := by
    rw [List.Nodup, List.pairwise_map]
    exact h.sorted.imp fun hlt => Int.ne_of_lt hlt
  exact List.inj_on_of_nodup_map hnd hx hy hoff

end OffsetsOk

/-- The search finds what is there. -/
theorem scanIblkref_none {boff : ℤ} (h : OffsetsOk l) (hscan : scanIblkref boff l = none) :
    ∀ ib ∈ l, ib.off ≠ boff := by
  induction l with
  | nil => exact fun _ hm => nomatch hm
  | cons x rest ih =>
    have hsorted := List.pairwise_cons.mp h.sorted
    unfold scanIblkref at hscan
    split at hscan
    · cases hscan
    · next hne =>
      intro ib hm
      rcases List.mem_cons.mp hm with rfl | hm
      · exact hne
      · split at hscan
        · next hlt =>
          -- the offsets after this one are larger still
          have := hsorted.1 ib hm
          omega
        · exact ih (h.sublist (List.sublist_cons_self x rest)) hscan ib hm

/-- A new block goes where the search stopped. -/
theorem OffsetsOk.insert (h : OffsetsOk l) (hscan : scanIblkref ib.off l = none)
    (hal : ib.off % pageSize = 0) (hnn : 0 ≤ ib.off) : OffsetsOk (insertIblkref ib l) := by
  have hmem : ∀ x, x ∈ insertIblkref ib l ↔ x = ib ∨ x ∈ l := fun x => by
    rw [(insertIblkref_perm ib l).mem_iff, List.mem_cons]
  refine ⟨?_, fun x hx => ?_, fun x hx => ?_⟩
  · have hne := scanIblkref_none h hscan
    have hsorted := h.sorted
    clear hmem hscan h
    induction l with
    | nil => exact List.pairwise_singleton _ _
    | cons x rest ih =>
      rw [List.pairwise_cons] at hsorted
      have hx := hne x List.mem_cons_self
      unfold insertIblkref
      split
      · next hlt =>
        refine List.pairwise_cons.mpr ⟨fun y hy => ?_, List.pairwise_cons.mpr hsorted⟩
        rcases List.mem_cons.mp hy with rfl | hy
        · exact hlt
        · exact hlt.trans (hsorted.1 y hy)
      · refine List.pairwise_cons.mpr ⟨fun y hy => ?_,
          ih (fun y hy => hne y (List.mem_cons_of_mem _ hy)) hsorted.2⟩
        rcases List.mem_cons.mp ((insertIblkref_perm ib rest).mem_iff.mp hy) with rfl | hy
        · omega
        · exact hsorted.1 y hy
  · rcases (hmem x).mp hx with rfl | hx
    · exact hal
    · exact h.aligned x hx
  · rcases (hmem x).mp hx with rfl | hx
    · exact hnn
    · exact h.nonneg x hx

/-- `i_blocks` goes up by one with the list. -/
theorem length_insertIblkref : (insertIblkref ib l).length = l.length + 1 :=
  (insertIblkref_perm ib l).length_eq

theorem length_retargetIblkref {p : RecPtr} : (retargetIblkref p d l).length = l.length :=
  List.length_map _

/-! ## Assertions of the pool -/

/-- Taking a block from the pool asserts nothing that could fail. -/
theorem newDblkref_panicked : s.newDblkref.2.panicked = s.panicked := by
  unfold Sbi.newDblkref
  split
  · rfl
  · next bn s₁ ha =>
    have h₁ := (acquirePmemb_eq ha).2.2.2
    split
    · exact h₁
    · next d s₂ hd =>
      obtain ⟨_, -, rfl⟩ := Sbi.acquireDblkref_some hd
      exact h₁

@[simp] theorem putDblkref_panicked : (s.putDblkref d).panicked = s.panicked := by
  unfold Sbi.putDblkref
  split <;> rfl

theorem assert_panicked {c : Bool} (hc : c = true) : (s.assert c).panicked = s.panicked := by
  subst hc
  exact Bool.or_false _

/-- A block that is counted may be put. -/
theorem decrefDblkref_panicked (hd : 0 < counts s d) :
    (s.decrefDblkref d).panicked = s.panicked := by
  rw [Sbi.decrefDblkref, putDblkref_panicked]
  exact assert_panicked (decide_eq_true hd)

/-- `_new_iblkref` puts only the block it took. -/
theorem newIblkref_panicked (h : Inv held s) : (s.newIblkref n off).2.panicked = s.panicked := by
  have hnew := @newDblkref_panicked s
  unfold Sbi.newIblkref
  split
  · next s₁ heq =>
    rw [heq] at hnew
    exact hnew
  · next d s₁ heq =>
    rw [heq] at hnew
    obtain ⟨-, -, -, hone, -⟩ := newDblkref_some h heq
    split
    · exact (decrefDblkref_panicked (by omega)).trans hnew
    · next r s₂ hr =>
      obtain ⟨_, -, rfl⟩ := Sbi.acquireIblkref_some hr
      exact hnew

/-- A store inside the page is what its assertion asks for. -/
theorem storeAt_panicked {bn : ℕ} {poff : ℤ} {len : UInt64} {src : Bytes} (h₀ : 0 ≤ poff)
    (h₁ : poff + len.toNat ≤ pageSize) : (s.storeAt bn poff len src).panicked = s.panicked := by
  refine assert_panicked ?_
  rw [Bool.and_eq_true, decide_eq_true_eq, decide_eq_true_eq]
  exact ⟨h₀, h₁⟩

theorem cloneData_panicked (d d' : RecPtr) : (s.cloneData d d').panicked = s.panicked :=
  storeAt_panicked (Int.le_refl 0) (by decide)

/-- No assertion of `_require_iblkref` fails. -/
theorem requireIblkref_panicked (h : Inv held s) :
    (s.requireIblkref n off).2.panicked = s.panicked := by
  unfold Sbi.requireIblkref
  split
  · have hnew := @newIblkref_panicked s held n (offToBoff off) h
    split
    · next s₁ heq =>
      rw [heq] at hnew
      exact hnew
    · next ib s₁ heq =>
      rw [heq] at hnew
      exact hnew
  · next ib hscan =>
    split
    · have hnew := @newDblkref_panicked s
      split
      · next s₁ heq =>
        rw [heq] at hnew
        exact hnew
      · next d s₁ heq =>
        rw [heq] at hnew
        rw [← hnew]
        exact cloneData_panicked d ib.dblkref
    · rfl

theorem uniquePmemb_panicked : (s.uniquePmemb n ib).2.panicked = s.panicked := by
  unfold Sbi.uniquePmemb
  split
  · have hnew := @newDblkref_panicked s
    split
    · next s₁ heq =>
      rw [heq] at hnew
      exact hnew
    · next d s₁ heq =>
      rw [heq] at hnew
      rw [← hnew]
      exact cloneData_panicked d ib.dblkref
  · rfl

/-! ## Requests -/

/-- The block list of a file is in order, and no assertion has failed. -/
structure FileOk (n : RecPtr) (s : Sbi) : Prop where
  list : BlockList (s.inodes n)
  running : s.panicked = false

namespace FileOk

theorem congr (h : FileOk n s) (hi : s'.inodes n = s.inodes n) (hp : s'.panicked = s.panicked) :
    FileOk n s' :=
  ⟨hi ▸ h.list, hp.trans h.running⟩

theorem setInode (h : FileOk n s) (hi : BlockList i) : FileOk n (s.setInode n i) :=
  ⟨by rwa [setInode_inodes_self], h.running⟩

theorem setSize (h : FileOk n s) {size : UInt64} : FileOk n (s.setSize n size) :=
  h.setInode ⟨h.list.offsets, h.list.blocks⟩

/-- A store within a page. -/
theorem storeAt {bn : ℕ} {poff : ℤ} {len : UInt64} {src : Bytes} (h : FileOk n s) (h₀ : 0 ≤ poff)
    (h₁ : poff + len.toNat ≤ pageSize) : FileOk n (s.storeAt bn poff len src) :=
  h.congr rfl (storeAt_panicked h₀ h₁)

/-- **`_require_iblkref`** inserts at the place the search stopped, or changes no offset. -/
theorem requireIblkref {res : Option Iblkref} (h : FileOk n s) (hinv : Inv held s)
    (hreg : (s.inodes n).iMode = .reg) (hoff : 0 ≤ off) (hr : s.requireIblkref n off = (res, s')) :
    FileOk n s' := by
  have hp := @requireIblkref_panicked s held n off hinv
  rw [hr] at hp
  have hlist := h.list
  rcases requireIblkref_cases hinv hreg hr with ⟨-, -, hq⟩ | ⟨ib, -, -, -, rfl⟩ |
    ⟨ib, s₁, -, hscan, hib, -, -, -, -, -, rfl⟩ | ⟨ib, d, s₁, -, -, -, -, -, -, -, -, rfl⟩
  · exact h.congr (congrFun hq.inodes n) hp
  · exact h
  · refine ⟨?_, hp.trans h.running⟩
    rw [setInode_inodes_self]
    refine ⟨hlist.offsets.insert (by rwa [hib]) ?_ ?_, ?_⟩
    · rw [hib]
      exact offToBoff_emod off
    · rw [hib]
      exact offToBoff_nonneg hoff
    · rw [length_insertIblkref]
      exact congrArg (· + 1) hlist.blocks
  · refine ⟨?_, hp.trans h.running⟩
    rw [setInode_inodes_self]
    refine ⟨hlist.offsets.retarget _, ?_⟩
    rw [length_retargetIblkref]
    exact hlist.blocks

/-- **The loop of `_write`**: every piece lies in a page, and the list stays in order. -/
theorem writeLoop {buf : Bytes} {cnt : UInt64} {res : Except Errno UInt64} (hoff : 0 ≤ off)
    (h : FileOk n s) (hinv : Inv held s) (hreg : (s.inodes n).iMode = .reg)
    (hr : s.writeLoop n buf off last cnt = (res, s')) : FileOk n s' := by
  fun_induction Sbi.writeLoop s n buf off last cnt generalizing held with
  | case1 s buf off cnt hlt s₁ hreq =>
    obtain ⟨-, rfl⟩ := Prod.mk.inj hr
    exact h.requireIblkref hinv hreg hoff hreq
  | case2 s buf off cnt hlt ib s₁ hreq len s₂ =>
    rename_i ih
    have h₁ := h.requireIblkref hinv hreg hoff hreq
    have hserve : Serves n ∅ _ held s s₁ := requireIblkref_serves hinv hreg hreq
    obtain ⟨held₁, hinv₁, -⟩ := hserve.inv
    exact ih (nextPage_nonneg hoff) (h₁.storeAt (offInPage_nonneg hoff) (piece_fits hoff hlt))
      (hinv₁.storeAt _ _ _ _) hserve.reg hr
  | case3 s buf off cnt hlt =>
    obtain ⟨-, rfl⟩ := Prod.mk.inj hr
    exact h

theorem write {apiMapMaxSize : ℕ} {buf : Bytes} {len : UInt64} (h : FileOk n s) (hinv : Inv held s)
    (hreg : (s.inodes n).iMode = .reg) : FileOk n (s.write apiMapMaxSize n buf off len).2 := by
  unfold Sbi.write
  split
  · exact h
  · next hcheck =>
    have hoff := checkRw_nonneg hcheck
    split
    · next err s₁ hr => exact h.writeLoop hoff hinv hreg hr
    · next cnt s₁ hr => exact (h.writeLoop hoff hinv hreg hr).setSize

/-- **The loop of `_falloc_range`.** -/
theorem fallocRangeLoop {cnt : UInt64} {res : Except Errno UInt64} (hoff : 0 ≤ off)
    (h : FileOk n s) (hinv : Inv held s) (hreg : (s.inodes n).iMode = .reg)
    (hr : s.fallocRangeLoop n off last cnt = (res, s')) : FileOk n s' := by
  fun_induction Sbi.fallocRangeLoop s n off last cnt generalizing held with
  | case1 s off cnt hlt s₁ hreq =>
    obtain ⟨-, rfl⟩ := Prod.mk.inj hr
    exact h.requireIblkref hinv hreg hoff hreq
  | case2 s off cnt hlt ib s₁ hreq ih =>
    have h₁ := h.requireIblkref hinv hreg hoff hreq
    have hserve : Serves n ∅ _ held s s₁ := requireIblkref_serves hinv hreg hreq
    obtain ⟨held₁, hinv₁, -⟩ := hserve.inv
    exact ih (nextPage_nonneg hoff) h₁ hinv₁ hserve.reg hr
  | case3 s off cnt hlt =>
    obtain ⟨-, rfl⟩ := Prod.mk.inj hr
    exact h

theorem fallocRange {len : UInt64} (hoff : 0 ≤ off) (h : FileOk n s) (hinv : Inv held s)
    (hreg : (s.inodes n).iMode = .reg) : FileOk n (s.fallocRange n off len).2 := by
  unfold Sbi.fallocRange
  split
  · next err s₁ hr => exact h.fallocRangeLoop hoff hinv hreg hr
  · next cnt s₁ hr => exact (h.fallocRangeLoop hoff hinv hreg hr).setSize

/-- **`_drop_iblkref`** of a block on the list. -/
theorem dropIblkref (h : FileOk n s) (hinv : Inv held s) (hm : ib ∈ s.blocksOf n) :
    FileOk n (s.dropIblkref n ib) := by
  have hlist := h.list
  have hlen : 0 < (s.blocksOf n).length := List.length_pos_of_mem hm
  have hperm := (filter_perm (hinv.ptrNodup n) hm).length_eq
  rw [List.length_cons] at hperm
  have hblocks : (s.inodes n).iBlocks = (s.blocksOf n).length := hlist.blocks
  refine ⟨?_, ?_⟩
  · obtain ⟨c₁, c₂, heq⟩ := @dropIblkref_eq s n ib
    rw [heq, setInode_inodes_self]
    refine ⟨hlist.offsets.sublist List.filter_sublist, ?_⟩
    change (s.inodes n).iBlocks - 1 = ((s.blocksOf n).filter fun x => x.ptr ≠ ib.ptr).length
    omega
  · have hcount : 0 < counts s ib.dblkref := hinv.counts_pos (mem_keys_of_mem hm)
    unfold Sbi.dropIblkref Sbi.freeIblkref
    have hpos : ((s.setBlocks n ((s.blocksOf n).filter fun x => x.ptr ≠ ib.ptr)).inodes n).iBlocks =
        (s.inodes n).iBlocks := by
      rw [Sbi.setBlocks, setInode_inodes_self]
    rw [hpos]
    have hc : decide (0 < (s.inodes n).iBlocks) = true := decide_eq_true (by omega)
    refine Eq.trans (decrefDblkref_panicked hcount) ?_
    exact (assert_panicked hc).trans h.running

/-- `_drop_range` makes the list shorter. -/
theorem dropRange {pos : ℤ} (h : FileOk n s) (hinv : Inv held s)
    (hreg : (s.inodes n).iMode = .reg) : FileOk n (s.dropRange n pos) :=
  dropRange_induction hinv hreg h fun _ _ _ hinv₁ _ hm h₁ => h₁.dropIblkref hinv₁ hm

/-! ### Zeroing -/

/-- The piece that is zeroed lies in the page, wherever the range starts. -/
theorem zeroRangeAt {len : UInt64} (h : FileOk n s) (hoff : 0 ≤ off) (hlen : 0 < toLoff len) :
    FileOk n (s.zeroRangeAt ib off len) := by
  have h₀ := offInPage_nonneg hoff
  have hlt := offInPage_lt hoff
  have hself : offInPage (offInPage off) = offInPage off := by
    rw [offInPage_eq h₀, Int.emod_eq_of_lt h₀ hlt]
  have hfits := @piece_fits (offInPage off) h₀ (offInPage off + toLoff len) (by omega)
  rw [hself] at hfits
  exact h.storeAt h₀ hfits

/-- **The loop of `_punch_hole`** zeroes in a page or makes the list shorter. -/
theorem punchHoleLoop (h : FileOk n s) (hinv : Inv held s) (hreg : (s.inodes n).iMode = .reg)
    (hoff : 0 ≤ off) : FileOk n (s.punchHoleLoop n off last) := by
  fun_induction Sbi.punchHoleLoop s n off last generalizing held with
  | case1 s off hlt nxt s₁ =>
    rename_i ih
    obtain ⟨⟨held₁, hinv₁⟩, hreg₁, h₁⟩ : (∃ held₁, Inv held₁ s₁) ∧ (s₁.inodes n).iMode = .reg ∧
        FileOk n s₁ := by
      simp only [s₁]
      split
      · next ib hf =>
        have hm := (fetchIblkref_some hf).1
        unfold Sbi.punchHoleAt
        split
        · exact ⟨⟨held, hinv.storeAt _ _ _ _⟩, hreg,
            h.zeroRangeAt hoff (nbytesInRange_pos (lt_nextPage off) hlt (nextPage_le off))⟩
        · have hserve : Serves n ∅ True held s (s.dropIblkref n ib) :=
            dropIblkref_serves hinv hreg hm
          obtain ⟨held₁, hinv₁, -⟩ := hserve.inv
          exact ⟨⟨held₁, hinv₁⟩, hserve.reg, h.dropIblkref hinv hm⟩
      · exact ⟨⟨held, hinv⟩, hreg, h⟩
    exact ih h₁ hinv₁ hreg₁ (nextPage_nonneg hoff)
  | case2 s off hlt => exact h

/-- In the first turn the range may start before the block, later it starts with it. -/
theorem zeroRangeLoop (h : FileOk n s) (hoff : 0 ≤ off) (hlast : last < 2 ^ 63)
    (hnn : ∀ ib ∈ l, 0 ≤ ib.off)
    (hhead : ∀ ib ∈ l.head?, off < nextPage ib.off ∧ (ib.off < last → off < last)) :
    FileOk n (s.zeroRangeLoop off last l) := by
  fun_induction Sbi.zeroRangeLoop s off last l with
  | case1 s off => exact h
  | case2 s off ib rest hlt s₁ off' =>
    rename_i ih
    obtain ⟨hnext, hlt'⟩ := hhead ib rfl
    have h₁ : FileOk n s₁ :=
      h.zeroRangeAt hoff (toLoff_nbytesInRange_pos hnext (hlt' hlt) (by omega))
    have hrest : ∀ x ∈ rest, 0 ≤ x.off := fun x hx => hnn x (List.mem_cons_of_mem _ hx)
    cases rest with
    | nil => exact ih h₁ hoff hrest fun x hx => by cases hx
    | cons ib' rest' =>
      refine ih h₁ (hrest ib' List.mem_cons_self) hrest fun x hx => ?_
      obtain rfl := Option.some.inj hx
      exact ⟨lt_nextPage _, id⟩
  | case3 s off ib rest hlt => exact h

end FileOk

/-- The list from the first block at or after the page of an offset. -/
theorem offToBoff_le_of_mem_fetchFrom (h : OffsetsOk l) (hm : ib ∈ fetchIblkrefFrom l off) :
    offToBoff off ≤ ib.off := by
  induction l with
  | nil => cases hm
  | cons x rest ih =>
    have hsorted := List.pairwise_cons.mp h.sorted
    unfold fetchIblkrefFrom at hm
    rw [List.dropWhile_cons] at hm
    split at hm
    · exact ih (h.sublist (List.sublist_cons_self x rest)) hm
    · next hge =>
      rw [decide_eq_true_eq, Int.not_lt] at hge
      rcases List.mem_cons.mp hm with rfl | hm
      · exact hge
      · exact hge.trans (hsorted.1 ib hm).le

namespace FileOk

/-- `_zero_range` starts with a block that does not lie before the range. -/
theorem zeroRange {len : UInt64} (h : FileOk n s) (hoff : 0 ≤ off) (hlen : 0 < toLoff len)
    (hlast : off + toLoff len < 2 ^ 63) : FileOk n (s.zeroRange n off len) := by
  have hlist := h.list.offsets
  have hsub : (fetchIblkrefFrom (s.blocksOf n) off).Sublist (s.blocksOf n) :=
    List.dropWhile_sublist _
  refine h.zeroRangeLoop hoff hlast (fun ib hm => hlist.nonneg ib (hsub.subset hm))
    fun ib hm => ⟨?_, fun _ => by omega⟩
  have hm' : ib ∈ fetchIblkrefFrom (s.blocksOf n) off := List.mem_of_mem_head? hm
  have hle := offToBoff_le_of_mem_fetchFrom hlist hm'
  have hal := hlist.aligned ib (hsub.subset hm')
  rw [nextPage_of_aligned hal]
  rw [offToBoff_eq hoff] at hle
  have hlt : off % pageSize < pageSize := Int.emod_lt_of_pos _ (by decide)
  omega

/-- An aligned range that was punched has no blocks left. -/
theorem punched (h : FileOk n s) (hinv : Inv held s) (hreg : (s.inodes n).iMode = .reg)
    (hoff : 0 ≤ off) (hal : off % pageSize = 0) (hlast : last % pageSize = 0) :
    ∀ ib ∈ (s.punchHoleLoop n off last).blocksOf n,
      ib ∈ s.blocksOf n ∧ (ib.off < off ∨ last ≤ ib.off) := by
  fun_induction Sbi.punchHoleLoop s n off last generalizing held with
  | case1 s off hlt nxt s₁ =>
    rename_i ih
    have hnxt : nxt = off + pageSize := nextPage_of_aligned hal
    obtain ⟨held₁, hinv₁, hreg₁, h₁, hgone⟩ : ∃ held₁, Inv held₁ s₁ ∧ (s₁.inodes n).iMode = .reg ∧
        FileOk n s₁ ∧ ∀ x ∈ s₁.blocksOf n, x ∈ s.blocksOf n ∧ x.off ≠ off := by
      simp only [s₁]
      split
      · next ib hf =>
        obtain ⟨hm, hboff⟩ := fetchIblkref_some hf
        rw [offToBoff_of_aligned hal] at hboff
        have hlen : nbytesInRange off nxt last = 4096 := nbytesInRange_of_aligned hal hlast hlt
        have hat : s.punchHoleAt n ib off (nbytesInRange off nxt last) = s.dropIblkref n ib := by
          rw [hlen]
          exact if_neg (by decide)
        rw [hat]
        have hserve : Serves n ∅ True held s (s.dropIblkref n ib) :=
          dropIblkref_serves hinv hreg hm
        obtain ⟨held₁, hinv₁, -⟩ := hserve.inv
        refine ⟨held₁, hinv₁, hserve.reg, h.dropIblkref hinv hm, fun x hx => ?_⟩
        rw [blocksOf_dropIblkref, List.mem_filter, decide_eq_true_eq] at hx
        refine ⟨hx.1, fun heq => hx.2 ?_⟩
        rw [h.list.offsets.eq_of_off hx.1 hm (heq.trans hboff.symm)]
      · next hf =>
        refine ⟨held, hinv, hreg, h, fun x hx => ⟨hx, ?_⟩⟩
        have hne := fetchIblkref_none hf x hx
        rwa [offToBoff_of_aligned hal] at hne
    intro x hx
    have hnn : 0 ≤ nxt := nextPage_nonneg hoff
    have hnal : nxt % pageSize = 0 := nextPage_emod hoff
    obtain ⟨hx₁, hout⟩ := ih h₁ hinv₁ hreg₁ hnn hnal x hx
    obtain ⟨hx₀, hne⟩ := hgone x hx₁
    refine ⟨hx₀, ?_⟩
    have hxal := h.list.offsets.aligned x hx₀
    unfold pageSize at hxal hal hnxt
    omega
  | case2 s off hlt =>
    intro x hx
    exact ⟨hx, by omega⟩

/-- **`_collapse_range`** moves the blocks after the range down to where it started. -/
theorem collapseRange {len : UInt64} (h : FileOk n s) (hinv : Inv held s)
    (hreg : (s.inodes n).iMode = .reg) (hoff : 0 ≤ off) (hal : ispagealigned off len = true) :
    FileOk n (s.collapseRange n off len) := by
  simp only [ispagealigned, Bool.and_eq_true, beq_iff_eq] at hal
  have hlal := toLoff_emod hal.2
  have hlast : (off + toLoff len) % pageSize = 0 := by
    rw [Int.add_emod, hal.1, hlal]
    rfl
  have h₁ : FileOk n (s.punchHole n off len) := h.punchHoleLoop hinv hreg hoff
  have hout := h.punched hinv hreg hoff hal.1 hlast
  set s₁ := s.punchHole n off len with hs₁
  -- the list is cut at the range, and its tail is moved
  have hlist : ∀ l', l' = s₁.blocksOf n → OffsetsOk (l'.takeWhile (fun ib => ib.off < offToBoff off) ++
      (fetchIblkrefFrom l' off).map fun ib => { ib with off := ib.off - toLoff len }) := by
    rintro _ rfl
    have hoffs : OffsetsOk (s₁.blocksOf n) := h₁.list.offsets
    have hboff : offToBoff off = off := offToBoff_of_aligned hal.1
    have htail : ∀ ib ∈ fetchIblkrefFrom (s₁.blocksOf n) off, ib ∈ s₁.blocksOf n ∧
        off + toLoff len ≤ ib.off := by
      intro ib hm
      have hm' : ib ∈ s₁.blocksOf n := (List.dropWhile_sublist _).subset hm
      have hge := offToBoff_le_of_mem_fetchFrom hoffs hm
      rw [hboff] at hge
      exact ⟨hm', ((hout ib hm').2.resolve_left (by omega))⟩
    have hheadlt : ∀ ib ∈ (s₁.blocksOf n).takeWhile (fun ib => ib.off < offToBoff off),
        ib ∈ s₁.blocksOf n ∧ ib.off < off := by
      intro ib hm
      have hlt := List.mem_takeWhile_imp hm
      rw [decide_eq_true_eq, hboff] at hlt
      exact ⟨(List.takeWhile_sublist _).subset hm, hlt⟩
    refine ⟨List.pairwise_append.mpr ⟨?_, ?_, ?_⟩, ?_, ?_⟩
    · exact hoffs.sorted.sublist (List.takeWhile_sublist _)
    · rw [List.pairwise_map]
      exact (hoffs.sorted.sublist (List.dropWhile_sublist _)).imp fun hlt => by
        simp only
        omega
    · intro x hx y hy
      obtain ⟨z, hz, rfl⟩ := List.mem_map.mp hy
      have hx' := (hheadlt x hx).2
      have hz' := (htail z hz).2
      simp only
      omega
    · intro ib hm
      rcases List.mem_append.mp hm with hm | hm
      · exact hoffs.aligned ib (hheadlt ib hm).1
      · obtain ⟨z, hz, rfl⟩ := List.mem_map.mp hm
        have hzal := hoffs.aligned z (htail z hz).1
        simp only
        rw [Int.sub_emod, hzal, hlal]
        rfl
    · intro ib hm
      rcases List.mem_append.mp hm with hm | hm
      · exact hoffs.nonneg ib (hheadlt ib hm).1
      · obtain ⟨z, hz, rfl⟩ := List.mem_map.mp hm
        have hz' := (htail z hz).2
        simp only
        omega
  have hlength : ∀ l' : List Iblkref,
      (l'.takeWhile (fun ib : Iblkref => ib.off < offToBoff off) ++ (fetchIblkrefFrom l' off).map
        fun ib : Iblkref => { ib with off := ib.off - toLoff len }).length = l'.length := by
    intro l'
    rw [List.length_append, List.length_map, fetchIblkrefFrom, ← List.length_append,
      List.takeWhile_append_dropWhile]
  unfold Sbi.collapseRange
  rw [← hs₁]
  simp only
  split
  · have hblk : (s₁.setSize n ((s₁.inodes n).iSize - len)).blocksOf n = s₁.blocksOf n :=
      blocksOf_setInode
    refine h₁.setSize.setInode ⟨hlist _ hblk, ?_⟩
    rw [hlength, hblk]
    rw [Sbi.setSize, setInode_inodes_self]
    exact h₁.list.blocks
  · exact h₁.setInode ⟨hlist _ rfl, (h₁.list.blocks).trans (hlength _).symm⟩

theorem fallocate {mode : UInt32} {len : UInt64} (h : FileOk n s) (hinv : Inv held s)
    (hreg : (s.inodes n).iMode = .reg) (hlen : 0 < toLoff len)
    (hlast : off + toLoff len < 2 ^ 63) : FileOk n (s.fallocate n mode off len).2 := by
  unfold Sbi.fallocate
  split
  · exact h
  · next hcheck =>
    have hoff := checkIo_nonneg hcheck
    split
    · exact h
    · next hfalloc =>
      split
      · exact h.punchHoleLoop hinv hreg hoff
      split
      · exact h.zeroRange hoff hlen hlast
      split
      · next hcollapse =>
        exact h.collapseRange hinv hreg hoff (checkFalloc_aligned hfalloc hcollapse)
      · exact h.fallocRange hoff hinv hreg

/-! ### Truncate -/

/-- `_unique_pmemb` changes the page of a block. -/
theorem uniquePmemb {res : Option ℕ} (h : FileOk n s) (hinv : Inv held s)
    (hreg : (s.inodes n).iMode = .reg) (hm : ib ∈ s.blocksOf n)
    (hr : s.uniquePmemb n ib = (res, s')) : FileOk n s' := by
  have hp := @uniquePmemb_panicked s n ib
  rw [hr] at hp
  have hlist := h.list
  rcases uniquePmemb_cases hinv hreg hm hr with ⟨-, -, hq⟩ | ⟨-, -, rfl⟩ |
    ⟨d, s₁, -, -, -, -, -, -, -, rfl⟩
  · exact h.congr (congrFun hq.inodes n) hp
  · exact h
  · refine ⟨?_, hp.trans h.running⟩
    rw [setInode_inodes_self]
    refine ⟨hlist.offsets.retarget _, ?_⟩
    rw [length_retargetIblkref]
    exact hlist.blocks

/-- Zeroes to the end of the page; there is no block to zero at a negative offset. -/
theorem zeroAfter {pos : ℤ} (h : FileOk n s) (hinv : Inv held s)
    (hreg : (s.inodes n).iMode = .reg) (hpos : 0 ≤ pos ∨ s.blocksOf n = []) :
    FileOk n (s.zeroAfter n pos).2 := by
  unfold Sbi.zeroAfter
  split
  · exact h
  split
  · exact h
  · next ib hf =>
    have hm := (fetchIblkref_some hf).1
    have hpos' : 0 ≤ pos := hpos.resolve_right (List.ne_nil_of_mem hm)
    have h₀ := offInPage_nonneg hpos'
    have hlt := offInPage_lt hpos'
    have hlen : ((toSize (pageSize - offInPage pos)).toNat : ℤ) = pageSize - offInPage pos := by
      have hp : (pageSize : ℤ) = 4096 := rfl
      rw [toNat_toSize (by omega) (by omega)]
      omega
    split
    · next s₁ hr => exact h.uniquePmemb hinv hreg hm hr
    · next bn s₁ hr => exact (h.uniquePmemb hinv hreg hm hr).storeAt h₀ (by omega)

/-- `toyfs_truncate` makes the list shorter, and may zero in a page. -/
theorem truncate {size : UInt64} (h : FileOk n s) (hinv : Inv held s)
    (hreg : (s.inodes n).iMode = .reg) : FileOk n (s.truncate n size).2 := by
  unfold Sbi.truncate
  rw [if_neg (by rw [hreg]; exact nofun), if_neg (by rw [hreg]; exact fun h => h rfl)]
  split
  · have hdrop : Serves n ∅ True held s (s.dropRange n (toLoff size)) := dropRange_serves hinv hreg
    obtain ⟨held₁, hinv₁, -⟩ := hdrop.inv
    refine ((h.dropRange hinv hreg).zeroAfter hinv₁ hdrop.reg ?_).setSize
    -- a size that is negative as an offset drops every block
    rcases Int.lt_or_le (toLoff size) 0 with hneg | hpos
    · right
      rw [blocksOf_dropRange hinv, List.filter_eq_nil_iff]
      intro ib hm
      have hnn := h.list.offsets.nonneg ib hm
      have hle : (if toLoff size % pageSize ≠ 0 then nextPage (toLoff size) else toLoff size) ≤ 0 := by
        split
        · exact nextPage_nonpos hneg
        · exact hneg.le
      rw [decide_eq_true_eq]
      omega
    · exact .inl hpos
  · exact h.setSize

/-! ### Clone -/

/-- The source's offsets come one after the other. -/
theorem cloneEntireLoop (h : FileOk n s) (hl : OffsetsOk (s.blocksOf n ++ l)) :
    FileOk n (s.cloneEntireLoop n l).2 := by
  fun_induction Sbi.cloneEntireLoop s n l with
  | case1 s => exact h
  | case2 s ib rest ha => exact h
  | case3 s ib rest r s₁ ha s₂ i ih =>
    have hin : s₁.inodes = s.inodes ∧ s₁.panicked = s.panicked := by
      obtain ⟨_, -, rfl⟩ := Sbi.acquireIblkref_some ha
      exact ⟨rfl, rfl⟩
    have hi : i = s.inodes n := congrFun hin.1 n
    have happ : OffsetsOk ((s.blocksOf n ++ [⟨r, ib.dblkref, ib.off⟩]) ++ rest) :=
      hl.of_map (by simp)
    refine ih ⟨?_, hin.2.trans h.running⟩ ?_
    · rw [setInode_inodes_self, hi]
      refine ⟨happ.sublist (List.sublist_append_left _ _), ?_⟩
      simp only [List.length_append, List.length_singleton]
      exact congrArg (· + 1) h.list.blocks
    · rw [blocksOf_setInode, hi]
      exact happ

/-- **A whole file is cloned**, after the destination is cut to nothing. -/
theorem cloneEntireFileRange (hne : m ≠ n) (h : FileOk n s) (hsrc : BlockList (s.inodes m))
    (hinv : Inv held s) (hreg : (s.inodes n).iMode = .reg) :
    FileOk n (s.cloneEntireFileRange m n).2 := by
  have hdrop : Serves n ∅ True held s (s.dropRange n 0) := dropRange_serves hinv hreg
  have hnil : (s.dropRange n 0).blocksOf n = [] := by
    rw [blocksOf_dropRange hinv, List.filter_eq_nil_iff]
    intro ib hm
    have hnn := h.list.offsets.nonneg ib hm
    rw [if_neg (by decide), decide_eq_true_eq]
    omega
  have hsame : (s.dropRange n 0).blocksOf m = s.blocksOf m := by
    rw [Sbi.blocksOf, hdrop.op.step.others m hne, Sbi.blocksOf]
  have hloop : FileOk n ((s.dropRange n 0).cloneEntireLoop n ((s.dropRange n 0).blocksOf m)).2 := by
    refine (h.dropRange hinv hreg).cloneEntireLoop ?_
    rw [hnil, hsame]
    exact hsrc.offsets
  unfold Sbi.cloneEntireFileRange
  simp only
  split
  · next s₂ heq =>
    rw [heq] at hloop
    exact hloop
  · next s₂ heq =>
    rw [heq] at hloop
    exact hloop.setSize

theorem growTo {size : UInt64} (h : FileOk n s) : FileOk n (s.growTo n size) := by
  unfold Sbi.growTo
  split
  · exact h.setSize
  · exact h

/-- A block gets the page of another one. -/
theorem sharePage {srcIb dstIb : Iblkref} (h : FileOk n s) :
    FileOk n (s.sharePage n srcIb dstIb) := by
  have h₁ : FileOk n (s.putDblkref dstIb.dblkref) :=
    h.congr (congrFun putDblkref_inodes n) putDblkref_panicked
  refine FileOk.congr (h₁.setInode ⟨h₁.list.offsets.retarget _, ?_⟩) rfl rfl
  rw [length_retargetIblkref]
  exact h₁.list.blocks

theorem cloneRange {srcOff dstOff : ℤ} {len : UInt64} (h : FileOk n s) (hinv : Inv held s)
    (hreg : (s.inodes n).iMode = .reg) (hs : srcOff % pageSize = 0) (hd : dstOff % pageSize = 0)
    (hdst : 0 ≤ dstOff) (hlen : len = 4096) :
    FileOk n (s.cloneRange m n srcOff dstOff len).2 := by
  have hentire : Sbi.isEntirePage srcOff dstOff len = true := by
    rw [Sbi.isEntirePage, hlen, offInPage_of_aligned hs, offInPage_of_aligned hd]
    rfl
  have h₀ : FileOk n (s.assert (Sbi.isEntirePage srcOff dstOff len)) :=
    h.congr rfl (assert_panicked hentire)
  have hinv₀ : Inv held (s.assert (Sbi.isEntirePage srcOff dstOff len)) := hinv.congr rfl rfl rfl
  unfold Sbi.cloneRange
  simp only
  set s₀ := s.assert (Sbi.isEntirePage srcOff dstOff len)
  split
  · split
    · next s₁ hr => exact h₀.requireIblkref hinv₀ hreg hdst hr
    · next dstIb s₁ hr => exact (h₀.requireIblkref hinv₀ hreg hdst hr).sharePage.growTo
  · split
    · exact h₀
    · next dstIb hf =>
      have hm := (fetchIblkref_some hf).1
      split
      · next s₁ hr => exact h₀.uniquePmemb hinv₀ hreg hm hr
      · next bn s₁ hr =>
        refine ((h₀.uniquePmemb hinv₀ hreg hm hr).storeAt (offInPage_nonneg hdst) ?_).growTo
        rw [offInPage_of_aligned hd, hlen]
        decide

/-- **A ranged clone**: the places it goes through are whole pages. -/
theorem cloneSubLoop {srcOff srcEnd dstOff dstEnd : ℤ} (hne : m ≠ n) (h : FileOk n s)
    (hinv : Inv held s) (hreg : (s.inodes n).iMode = .reg) (hs : srcOff % pageSize = 0)
    (hse : srcEnd % pageSize = 0) (hd : dstOff % pageSize = 0) (hde : dstEnd % pageSize = 0)
    (hdst : 0 ≤ dstOff) : FileOk n (s.cloneSubLoop m n srcOff srcEnd dstOff dstEnd).2 := by
  fun_induction Sbi.cloneSubLoop s m n srcOff srcEnd dstOff dstEnd generalizing held with
  | case1 s srcOff dstOff hlt len err s₁ =>
    rename_i hr
    have h₁ : FileOk n (s.cloneRange m n srcOff dstOff len).2 :=
      h.cloneRange hinv hreg hs hd hdst (cloneStep_of_aligned hs hse hd hde hlt.1 hlt.2)
    rw [hr] at h₁
    exact h₁
  | case2 s srcOff dstOff hlt len s₁ hr =>
    rename_i ih
    have hlen : len = 4096 := cloneStep_of_aligned hs hse hd hde hlt.1 hlt.2
    have hlen' : toLoff len = pageSize := by
      rw [hlen]
      rfl
    have h₁ : FileOk n (s.cloneRange m n srcOff dstOff len).2 :=
      h.cloneRange hinv hreg hs hd hdst hlen
    have hserve := @cloneRange_serves s held m n ∅ srcOff dstOff len hne hinv hreg
    rw [hr] at h₁ hserve
    obtain ⟨held₁, hinv₁, -⟩ := hserve.inv
    refine ih h₁ hinv₁ hserve.reg ?_ ?_ ?_
    · rw [hlen', Int.add_emod_right]
      exact hs
    · rw [hlen', Int.add_emod_right]
      exact hd
    · rw [hlen']
      omega
  | case3 s srcOff dstOff hlt => exact h

theorem clone {srcPos dstPos : ℤ} {len : UInt64} (h : FileOk n s) (hsrc : BlockList (s.inodes m))
    (hinv : Inv held s) (hdst : 0 ≤ dstPos) : FileOk n (s.clone m n srcPos dstPos len).2 := by
  unfold Sbi.clone
  split
  · exact h
  · next hreg =>
    rw [not_or, not_not, not_not] at hreg
    split
    · exact h
    · next hne =>
      split
      · exact h.cloneEntireFileRange hne hsrc hinv hreg.2
      split
      · exact h
      · next hal =>
        simp only [not_or, Bool.not_eq_false, ispagealigned, Bool.and_eq_true, beq_iff_eq] at hal
        obtain ⟨⟨hs, hlen⟩, hd, -⟩ := hal
        have hlen' := toLoff_emod hlen
        refine h.cloneSubLoop hne hinv hreg.2 hs ?_ hd ?_ hdst
        · rw [Int.add_emod, hs, hlen']
          rfl
        · rw [Int.add_emod, hd, hlen']
          rfl

/-! ### Blocks for mmap -/

theorem mmapStore {poff len : ℕ} {data : Bytes} (h : FileOk n s) (hinv : Inv held s)
    (hreg : (s.inodes n).iMode = .reg) (hoff : 0 ≤ off) :
    FileOk n (s.mmapStore n off poff len data) := by
  have hget : FileOk n (s.getBlockWr n off).2 := by
    rcases hr : s.requireIblkref n off with ⟨res, s₁⟩
    have h₁ := h.requireIblkref hinv hreg hoff hr
    unfold Sbi.getBlockWr Sbi.requirePmemBn
    rw [hr]
    cases fetchIblkref (s.blocksOf n) off with
    | some ib => exact h
    | none =>
      cases res with
      | none => exact h₁
      | some ib =>
        simp only
        split
        · next heq =>
          obtain ⟨-, rfl⟩ := Prod.mk.inj heq
          exact h₁
        · next heq =>
          obtain ⟨-, rfl⟩ := Prod.mk.inj heq
          exact h₁
  unfold Sbi.mmapStore
  split
  · next err s₁ heq =>
    rw [heq] at hget
    exact hget
  · next bn s₁ heq =>
    rw [heq] at hget
    exact hget.congr rfl rfl

end FileOk

/-! ## Reading -/

/-- The assertions of `_copy_out` in the loop of `_read`. -/
def Sbi.readLoopAsserts (s : Sbi) (n : RecPtr) (off last : ℤ) : Bool :=
  if off < last then
    let nxt := nextPage off
    let len := nbytesInRange off nxt last
    let ok :=
      match s.fetchPmemb n off with
      | some _ => 0 ≤ offInPage off && offInPage off + len.toNat ≤ pageSize
      | none => true
    ok && readLoopAsserts s n nxt last
  else true
termination_by (last - off).toNat
decreasing_by
  have := lt_nextPage off
  omega

/-- No assertion of the loop of `_read` fails. -/
theorem readLoopAsserts_eq_true (s : Sbi) (n : RecPtr) (hoff : 0 ≤ off) :
    s.readLoopAsserts n off last = true := by
  fun_induction Sbi.readLoopAsserts s n off last with
  | case1 off hlt nxt len ok ih =>
    have hok : ok = true := by
      simp only [ok]
      split
      · rw [Bool.and_eq_true, decide_eq_true_eq, decide_eq_true_eq]
        exact ⟨offInPage_nonneg hoff, piece_fits hoff hlt⟩
      · rfl
    rw [hok, ih (nextPage_nonneg hoff)]
    rfl
  | case2 off hlt => rfl

/-! ## Runs -/

/-- Positions and ranges are those of files: the position a block may be put at is not
negative, and the range of `fallocate` not empty. -/
def Act.InFile : Act → Prop
  | .fallocate _ _ filepos lastPos => 0 ≤ toLoff filepos ∧ toLoff filepos < toLoff lastPos
  | .clone _ _ _ posOut _ => 0 ≤ toLoff posOut
  | .mmapStore _ filepos .. => 0 ≤ toLoff filepos
  | _ => True

instance : (a : Act) → Decidable a.InFile
  | .fallocate .. => inferInstanceAs (Decidable (_ ∧ _))
  | .clone _ _ _ posOut _ => inferInstanceAs (Decidable (0 ≤ toLoff posOut))
  | .mmapStore _ filepos .. => inferInstanceAs (Decidable (0 ≤ toLoff filepos))
  | .newInode .. | .iget .. | .evict .. | .addDentry .. | .removeDentry .. | .rename ..
  | .write .. | .truncate .. | .setxattr .. => inferInstanceAs (Decidable True)

section Run

variable {x : Sys} {a : Act} {apiMapMaxSize : ℕ}

/-- **A request on a file keeps its block list, and no assertion fails.** -/
theorem FileOk.serve (hlists : ∀ m, (x.sbi.inodes m).iMode = .reg → BlockList (x.sbi.inodes m))
    (hrun : x.sbi.panicked = false) (hinv : Inv held x.sbi) (hsend : x.Sends a) (hfile : a.InFile)
    (ht : a.target = some n) (hs : x.serve apiMapMaxSize a = some s') : FileOk n s' := by
  cases a with
  | write m buf filepos len =>
    obtain rfl := Option.some.inj ht
    obtain rfl := Option.some.inj hs
    exact FileOk.write ⟨hlists m hsend, hrun⟩ hinv hsend
  | fallocate m mode filepos lastPos =>
    obtain rfl := Option.some.inj ht
    obtain rfl := Option.some.inj hs
    obtain ⟨hpos, hlt⟩ := hfile
    have hbound : toLoff lastPos < 2 ^ 63 := by
      have := lastPos.toNat_lt
      unfold toLoff
      split <;> omega
    have hlen : toLoff (toSize (toLoff lastPos - toLoff filepos)) =
        toLoff lastPos - toLoff filepos := toLoff_toSize (by omega) (by omega)
    refine FileOk.fallocate ⟨hlists m hsend, hrun⟩ hinv hsend ?_ ?_
    · rw [hlen]
      omega
    · rw [hlen]
      omega
  | truncate m size =>
    obtain rfl := Option.some.inj ht
    obtain rfl := Option.some.inj hs
    exact FileOk.truncate ⟨hlists m hsend, hrun⟩ hinv hsend
  | clone src dst posIn posOut len =>
    obtain rfl := Option.some.inj ht
    obtain rfl := Option.some.inj hs
    exact FileOk.clone ⟨hlists dst hsend.2, hrun⟩ (hlists src hsend.1) hinv hfile
  | mmapStore m filepos poff len data =>
    obtain rfl := Option.some.inj ht
    obtain rfl := Option.some.inj hs
    exact FileOk.mmapStore ⟨hlists m hsend.1, hrun⟩ hinv hsend.1 hfile
  | _ => cases ht

theorem SameFile.blockList {i' : Inode} (h : SameFile i i') (hreg : i.iMode = .reg)
    (hl : BlockList i) : BlockList i' := by
  have hdir : i.iMode ≠ .dir := by
    rw [hreg]
    exact nofun
  obtain ⟨hoffs, hblk⟩ := hl
  exact ⟨by rwa [h.iblkrefs], by rwa [h.blocks hdir, h.iblkrefs]⟩

/-- **One request keeps all block lists.** -/
theorem blockLists_serve
    (hlists : ∀ m, (x.sbi.inodes m).iMode = .reg → BlockList (x.sbi.inodes m))
    (hrun : x.sbi.panicked = false) (hok : StoreOk x.sbi) (hsend : x.Sends a) (hfile : a.InFile)
    (hs : x.serve apiMapMaxSize a = some s') (hreg : (s'.inodes m).iMode = .reg) :
    BlockList (s'.inodes m) := by
  obtain ⟨held, hinv⟩ := hok.store
  rcases ht : a.target with _ | n
  · rcases hok.sameFile hsend ht hs m with hsame | hfresh
    · rw [hsame.mode] at hreg
      exact hsame.blockList hreg (hlists m hreg)
    · refine ⟨?_, ?_⟩
      · rw [hfresh.iblkrefs]
        exact .nil
      · rw [hfresh.blocks, hfresh.iblkrefs]
        rfl
  · obtain rfl | hne := eq_or_ne m n
    · exact (FileOk.serve hlists hrun hinv hsend hfile ht hs).list
    · obtain ⟨s₁, hs₁, hserve⟩ := @Sys.serves held n apiMapMaxSize x a hinv hsend ht
      obtain rfl := Option.some.inj (hs₁.symm.trans hs)
      have hsame := hserve.op.step.others m hne
      rw [hsame] at hreg ⊢
      exact hlists m hreg

/-- What holds of the files in every run over positions of files. -/
structure FilesOk (s : Sbi) : Prop where
  store : StoreOk s
  lists : ∀ m, (s.inodes m).iMode = .reg → BlockList (s.inodes m)
  running : s.panicked = false

/-- **One request** keeps all files in order. -/
theorem FilesOk.serve (h : FilesOk x.sbi) (hsend : x.Sends a) (hfile : a.InFile)
    (hs : x.serve apiMapMaxSize a = some s') (hrun : s'.panicked = false) : FilesOk s' :=
  ⟨h.store.serve hsend hs,
    fun _ hreg => blockLists_serve h.lists h.running h.store hsend hfile hs hreg, hrun⟩

/-- There is no file after a mount. -/
theorem mounted_filesOk {nblocks addr : ℕ} (h : mounted nblocks addr = some x) : FilesOk x.sbi := by
  obtain ⟨n, hmount⟩ := mounted_spec h
  exact ⟨mounted_storeOk h, fun m hreg => absurd hreg (hmount.notReg m), hmount.panicked⟩

/-- **All files are in order** in every run on file positions. -/
theorem toyfs_filesOk (h : ((toyfs apiMapMaxSize).restrict fun _ a => a.InFile).Reachable x) :
    FilesOk x.sbi := by
  refine h.invariant (I := fun x => FilesOk x.sbi) ?_ ?_
  · rintro x ⟨nblocks, addr, -, hm⟩
    exact mounted_filesOk hm
  · rintro x a x' hok ⟨hfile, hn⟩
    obtain ⟨hsend, hs, hp, -⟩ := Sys.next_cases hn
    exact hok.serve hsend hfile hs hp

/-- The block list of a file: page-aligned, non-negative, strictly increasing offsets,
counted by `i_blocks`, and every element names a block with a count and a page. -/
structure FileInOrder (s : Sbi) (n : RecPtr) : Prop where
  aligned : ∀ ib ∈ s.blocksOf n, ib.off % pageSize = 0
  nonneg : ∀ ib ∈ s.blocksOf n, 0 ≤ ib.off
  sorted : (s.blocksOf n).Pairwise fun a b => a.off < b.off
  blocks : (s.inodes n).iBlocks = (s.blocksOf n).length
  refcnt : ∀ ib ∈ s.blocksOf n,
    1 ≤ (s.dblkrefs ib.dblkref).refcnt ∧ ib.dblkref.bn ≠ 0 ∧ s.pageOf ib.dblkref ≠ 0

/-- What a file in order is, in the words of its list, its size and its blocks. -/
theorem FilesOk.inOrder (h : FilesOk s) (hreg : (s.inodes n).iMode = .reg) : FileInOrder s n := by
  obtain ⟨held, hinv⟩ := h.store.store
  obtain ⟨⟨hsorted, hal, hnn⟩, hblk⟩ := h.lists n hreg
  refine ⟨hal, hnn, hsorted, hblk, fun ib hm => ?_⟩
  have hpos : 0 < counts s ib.dblkref := hinv.counts_pos (mem_keys_of_mem hm)
  have hrec : Owns s ib.dblkref.bn (.recs .dblkref) := ⟨ib.dblkref, rfl, .inr hpos⟩
  have hdata : Owns s (s.pageOf ib.dblkref) (.data ib.dblkref) := ⟨hpos, rfl⟩
  exact ⟨hpos, hinv.nonzero _ _ hrec, hinv.nonzero _ _ hdata⟩

/-- **The block lists stay in order**, in every state toyfs reaches by requests on positions
of files, and none of the assertions on the way of a request on a file can fail. -/
theorem toyfs_filesInOrder (apiMapMaxSize : ℕ) (x : Sys)
    (h : ((toyfs apiMapMaxSize).restrict fun _ a => a.InFile).Reachable x) :
    (∀ n, (x.sbi.inodes n).iMode = .reg → FileInOrder x.sbi n) ∧
    (∀ a n, x.Sends a → a.InFile → a.target = some n →
      ∃ s, x.serve apiMapMaxSize a = some s ∧ s.panicked = false) ∧
    (∀ n off len, checkRw apiMapMaxSize off len = none →
      x.sbi.readLoopAsserts n off (tinOffset off len (x.sbi.inodes n).iSize) = true) := by
  have hok := toyfs_filesOk h
  obtain ⟨held, hinv⟩ := hok.store.store
  refine ⟨fun n hreg => hok.inOrder hreg, fun a n hsend hfile ht => ?_, fun n off len hcheck => ?_⟩
  · obtain ⟨s, hs, -⟩ := @Sys.serves held n apiMapMaxSize x a hinv hsend ht
    exact ⟨s, hs, (FileOk.serve hok.lists hok.running hinv hsend hfile ht hs).running⟩
  · exact readLoopAsserts_eq_true x.sbi n (checkRw_nonneg hcheck)

/-- Two blocks are written, the file is cloned over another one, and the first page of the
original is collapsed: the offsets are those of one page, and of two with a hole. -/
theorem toyfs_filesInOrder_clone :
    ∃ x, ((toyfs 65536).restrict fun _ a => a.InFile).Reachable x ∧
      ((x.sbi.blocksOf ⟨1023, 1⟩).map Iblkref.off = [4096] ∧
        (x.sbi.blocksOf ⟨1023, 2⟩).map Iblkref.off = [0, 8192]) ∧
      ∀ n, (x.sbi.inodes n).iMode = .reg → FileInOrder x.sbi n := by
  obtain ⟨x, hx, hp⟩ := exists_restrict_of_mounted 65536 (fun _ a => a.InFile)
    [.newInode ⟨1023, 0⟩ ⟨.reg, 0, 0, [], fun _ => 0, false⟩ (some 2),
      .newInode ⟨1023, 0⟩ ⟨.reg, 0, 0, [], fun _ => 0, false⟩ (some 3),
      .write ⟨1023, 1⟩ (fun _ => 7) 0 5, .write ⟨1023, 1⟩ (fun _ => 8) 8192 5,
      .clone ⟨1023, 1⟩ ⟨1023, 2⟩ 0 0 12288,
      .fallocate ⟨1023, 1⟩ fallocCollapseRange 0 4096]
    (p := fun x => (x.sbi.blocksOf ⟨1023, 1⟩).map Iblkref.off == [4096] &&
      (x.sbi.blocksOf ⟨1023, 2⟩).map Iblkref.off == [0, 8192]) (by decide +kernel)
  simp only [Bool.and_eq_true, beq_iff_eq] at hp
  exact ⟨x, hx, hp, (toyfs_filesInOrder 65536 x hx).1⟩

/-- The range of `fallocate` is one of the file; other positions are whatever is sent. -/
def Act.FallocInFile : Act → Prop
  | .fallocate _ _ filepos lastPos => 0 ≤ toLoff filepos ∧ toLoff filepos < toLoff lastPos
  | _ => True

instance : (a : Act) → Decidable a.FallocInFile
  | .fallocate .. => inferInstanceAs (Decidable (_ ∧ _))
  | .newInode .. | .iget .. | .evict .. | .addDentry .. | .removeDentry .. | .rename ..
  | .write .. | .truncate .. | .clone .. | .mmapStore .. | .setxattr .. =>
    inferInstanceAs (Decidable True)

/-- A clone to a position before the file puts a block there. -/
theorem clone_before_start : ¬ ∀ x, ((toyfs 65536).restrict fun _ a => a.FallocInFile).Reachable x →
    ∀ n, (x.sbi.inodes n).iMode = .reg → FileInOrder x.sbi n := by
  intro hall
  obtain ⟨x, hx, hp⟩ := exists_restrict_of_mounted 65536 (fun _ a => a.FallocInFile)
    [.newInode ⟨1023, 0⟩ ⟨.reg, 0, 0, [], fun _ => 0, false⟩ (some 2),
      .newInode ⟨1023, 0⟩ ⟨.reg, 0, 0, [], fun _ => 0, false⟩ (some 3),
      .write ⟨1023, 1⟩ (fun _ => 7) 0 4096, .clone ⟨1023, 1⟩ ⟨1023, 2⟩ 0 (-4096) 4096]
    (p := fun x => (x.sbi.inodes ⟨1023, 2⟩).iMode == .reg &&
      (x.sbi.blocksOf ⟨1023, 2⟩).any fun ib => decide (ib.off < 0)) (by decide +kernel)
  simp only [Bool.and_eq_true, beq_iff_eq, List.any_eq_true, decide_eq_true_eq] at hp
  obtain ⟨hreg, ib, hm, hneg⟩ := hp
  exact absurd ((hall x hx _ hreg).nonneg ib hm) (Int.not_le.mpr hneg)

end Run

end Zus.Toyfs
