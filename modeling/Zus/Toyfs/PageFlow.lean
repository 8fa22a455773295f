import Zus.Toyfs.InodeStorage

/-!
# Where pages come from

A request takes pages from the pool only, and gives back only pages it finds named in a
record. So a page that no list and no record names any more, such as one cut into records,
never comes back (`Within.pages`). And while a page moves between the pool and its user
together with `f_bfree`, a page cut into records leaves the pool alone: `f_bfree` stays
ahead of the pool (`Within.bfree`). So it is the pool that decides whether a page can be
had, not the counters.

Both are kept by every request, by the same walk through the code: from the pool over the
allocations of `file.c` to its operations, and from there to directories and inodes, in the order
of the source. `N` is any set with the pages there are at first, and `k` is how far ahead `f_bfree`
is at least: by one from the mount on, when a page was cut for the root inode.
-/

namespace Zus.Toyfs

open Zus.Lib

variable {N : Set ℕ} {k : ℕ} {s s' : Sbi} {held : RecPtr → ℕ} {n m d r : RecPtr} {bn : ℕ} {i : Inode}

/-- The pages an inode names. -/
def Inode.PagesIn (N : Set ℕ) (i : Inode) : Prop :=
  (∀ bn ∈ i.childs, bn ∈ N) ∧ i.iXattr ∈ N ∧ Sbi.dppToBn i.iSymDpp ∈ N

/-- All pages named are in `N`, and `f_bfree` is ahead of the pool by at least `k`. A
block that is not in use names no page. -/
structure Within (N : Set ℕ) (k : ℕ) (s : Sbi) : Prop where
  zero : 0 ∈ N
  pages : ∀ bn ∈ s.pool.pages, bn ∈ N
  data : ∀ d, s.pageOf d ∈ N
  unused : ∀ d, counts s d = 0 → s.pageOf d = 0
  inodes : ∀ n, (s.inodes n).PagesIn N
  bfree : s.pool.pages.length + k ≤ s.fBfree
  bavail : s.fBavail = s.fBfree

namespace Within

/-- The claim is about the pool, the records and the counters only. -/
theorem congr (h : Within N k s) (hp : s'.pool = s.pool) (hd : s'.dblkrefs = s.dblkrefs)
    (hi : s'.inodes = s.inodes) (hb : (s'.fBfree, s'.fBavail) = (s.fBfree, s.fBavail)) :
    Within N k s' where
  zero := h.zero
  pages := by
    rw [hp]
    exact h.pages
  data d := by
    rw [Sbi.pageOf, hd]
    exact h.data d
  unused d := by
    rw [Sbi.pageOf, counts, hd]
    exact h.unused d
  inodes n := by
    rw [hi]
    exact h.inodes n
  bfree := by
    rw [hp, (Prod.mk.inj hb).1]
    exact h.bfree
  bavail := by
    obtain ⟨hfree, havail⟩ := Prod.mk.inj hb
    rw [hfree, havail]
    exact h.bavail

/-! ## Primitive changes -/

/-- A new content of an inode record, if the pages it names are known. -/
theorem setInode (h : Within N k s) (hi : i.PagesIn N) : Within N k (s.setInode n i) :=
  ⟨h.zero, h.pages, h.data, h.unused,
    forall_setInode (P := fun _ j => j.PagesIn N) hi fun m _ => h.inodes m, h.bfree, h.bavail⟩

/-- The fields that name no page may change. -/
theorem setFields (h : Within N k s) (hc : i.childs = (s.inodes n).childs)
    (hx : i.iXattr = (s.inodes n).iXattr) (hs : i.iSymDpp = (s.inodes n).iSymDpp) :
    Within N k (s.setInode n i) := by
  refine h.setInode ?_
  rw [Inode.PagesIn, hc, hx, hs]
  exact h.inodes n

/-- A new content of a block record: an unused one names no page. -/
theorem setDblkref {r : Dblkref} (h : Within N k s) (hr : r.bn ∈ N) (hz : r.refcnt = 0 → r.bn = 0) :
    Within N k (s.setDblkref d r) := by
  refine ⟨h.zero, h.pages, fun e => ?_, fun e => ?_, h.inodes, h.bfree, h.bavail⟩
  · obtain rfl | he := eq_or_ne e d
    · simpa [Sbi.pageOf, Sbi.setDblkref] using hr
    · simpa [Sbi.pageOf, Sbi.setDblkref, he] using h.data e
  · obtain rfl | he := eq_or_ne e d
    · simpa [Sbi.pageOf, counts, Sbi.setDblkref] using hz
    · simpa [Sbi.pageOf, counts, Sbi.setDblkref, he] using h.unused e

theorem assert {c : Bool} (h : Within N k s) : Within N k (s.assert c) := h.congr rfl rfl rfl rfl

/-- What is written to a page does not matter. -/
theorem setPage {pg : Bytes} (h : Within N k s) : Within N k (s.setPage bn pg) :=
  h.congr rfl rfl rfl rfl

theorem storeAt {off : ℤ} {len : UInt64} {src : Bytes} (h : Within N k s) :
    Within N k (s.storeAt bn off len src) := h.congr rfl rfl rfl rfl

/-- A page taken from the pool is one of those named before. -/
theorem acquirePmemb (h : Within N k s) (ha : s.acquirePmemb = some (bn, s')) :
    bn ∈ N ∧ Within N k s' := by
  obtain ⟨-, -, p, hpop, rfl⟩ := Sbi.acquirePmemb_some ha
  obtain ⟨rest, hpages, rfl⟩ := Pool.popPmemb_eq hpop
  have hin := h.pages
  have hlen := h.bfree
  rw [hpages] at hin hlen
  rw [List.length_cons] at hlen
  refine ⟨hin _ List.mem_cons_self, h.zero, fun x hx => hin x (List.mem_cons_of_mem _ hx), h.data,
    h.unused, h.inodes, ?_, congrArg (· - 1) h.bavail⟩
  change rest.length + k ≤ s.fBfree - 1
  omega

/-- A page goes back to the pool together with `f_bfree`, if it was known. -/
theorem releasePmemb (h : Within N k s) (hb : bn ∈ N) : Within N k (s.releasePmemb bn) := by
  refine ⟨h.zero, fun x hx => ?_, h.data, h.unused, h.inodes, ?_, congrArg (· + 1) h.bavail⟩
  · rcases List.mem_cons.mp hx with rfl | hx
    · exact hb
    · exact h.pages x hx
  · have hlen := h.bfree
    change (bn :: s.pool.pages).length + k ≤ s.fBfree + 1
    rw [List.length_cons]
    omega

/-- The pool may lose pages and change its free lists. -/
theorem withPool {p : Pool} (h : Within N k s) (hp : p.pages.Sublist s.pool.pages) :
    Within N k (s.withPool p) := by
  refine ⟨h.zero, fun x hx => h.pages x (hp.subset hx), h.data, h.unused, h.inodes, ?_,
    h.bavail⟩
  have hlen := h.bfree
  have hle := hp.length_le
  change p.pages.length + k ≤ s.fBfree
  omega

end Within

/-- Taking a free record takes no page. -/
theorem Pool.popFree_pages {p q : Pool} {kind : RecKind} (h : p.popFree kind = some (r, q)) :
    q.pages = p.pages := by
  unfold Pool.popFree at h
  split at h
  · cases h
  · obtain ⟨-, rfl⟩ := Prod.mk.inj (Option.some.inj h)
    rfl

/-- A record comes from its free list, or a page of the pool is cut. -/
theorem Pool.popRec_pages {p q : Pool} {kind : RecKind} (h : p.popRec kind = some (r, q)) :
    q.pages.Sublist p.pages := by
  unfold Pool.popRec at h
  split at h
  · next x hx =>
    obtain rfl := Option.some.inj h
    rw [Pool.popFree_pages hx]
  · split at h
    · cases h
    · next q' hadd =>
      rw [Pool.popFree_pages h]
      unfold Pool.addFree at hadd
      split at hadd
      · cases hadd
      · next b p' hpop =>
        obtain rfl := Option.some.inj hadd
        obtain ⟨rest, hpages, rfl⟩ := Pool.popPmemb_eq hpop
        rw [hpages]
        exact List.sublist_cons_self b rest

namespace Within

/-! ## Blocks of files -/

/-- Records come from the pool, and with them at most a page that is cut. -/
theorem acquireDblkref (h : Within N k s) (ha : s.acquireDblkref = some (d, s')) :
    Within N k s' := by
  obtain ⟨p, hpop, rfl⟩ := Sbi.acquireDblkref_some ha
  exact ((h.withPool (Pool.popRec_pages hpop)).setDblkref h.zero fun _ => rfl).congr rfl rfl rfl rfl

theorem acquireIblkref (h : Within N k s) (ha : s.acquireIblkref = some (r, s')) :
    Within N k s' := by
  obtain ⟨p, hpop, rfl⟩ := Sbi.acquireIblkref_some ha
  exact h.withPool (Pool.popRec_pages hpop)

theorem acquireInode (h : Within N k s) (ha : s.acquireInode = some (n, s')) : Within N k s' := by
  obtain ⟨p, hpop, rfl⟩ := Sbi.acquireInode_some ha
  exact h.withPool (Pool.popRec_pages hpop)

/-- A record that is given back does not bring its page back. -/
theorem pushRec (h : Within N k s) (kind : RecKind) (r : RecPtr) :
    Within N k (s.withPool (s.pool.pushRec kind r)) := h.withPool (List.Sublist.refl _)

/-- An inode that is given back names no page any more. -/
theorem releaseInode (h : Within N k s) : Within N k (s.releaseInode n) := by
  have hset : Within N k (s.setInode n {}) :=
    h.setInode ⟨fun _ hb => absurd hb List.not_mem_nil, h.zero, h.zero⟩
  exact (hset.pushRec .inode n).congr rfl rfl rfl rfl

/-- `_new_dblkref` takes a page and a record, or gives the page back. -/
theorem newDblkref (h : Within N k s) : Within N k s.newDblkref.2 := by
  unfold Sbi.newDblkref
  split
  · exact h
  · next b s₁ ha =>
    obtain ⟨hb, h₁⟩ := h.acquirePmemb ha
    split
    · exact h₁.releasePmemb hb
    · next d s₂ hd => exact (h₁.acquireDblkref hd).setDblkref hb fun hc => by cases hc

/-- A count that stays above zero. -/
theorem setRefcnt {c : ℕ} (h : Within N k s) (hc : c ≠ 0) :
    Within N k (s.setDblkref d { s.dblkrefs d with refcnt := c }) :=
  h.setDblkref (h.data d) fun hz => absurd hz hc

/-- A block whose last reference is put gives its page back, and names it no more. -/
theorem putDblkref (h : Within N k s) : Within N k (s.putDblkref d) := by
  unfold Sbi.putDblkref
  split
  · have hset : Within N k (s.setDblkref d ⟨(s.dblkrefs d).refcnt - 1, 0⟩) :=
      h.setDblkref h.zero fun _ => rfl
    refine ((hset.pushRec .dblkref d).releasePmemb (h.data d)).congr ?_ ?_ rfl rfl
    · simp [Sbi.freeDblkref, Sbi.releasePmemb, Sbi.releaseDblkref, Sbi.decRefcnt, Sbi.setDblkref,
        Sbi.pageOf, Sbi.withPool]
    · simp [Sbi.freeDblkref, Sbi.releasePmemb, Sbi.releaseDblkref, Sbi.decRefcnt, Sbi.setDblkref,
        Sbi.withPool]
  · next hne => exact h.setRefcnt hne

theorem decrefDblkref (h : Within N k s) : Within N k (s.decrefDblkref d) := h.assert.putDblkref

theorem setBlocks {l : List Iblkref} (h : Within N k s) : Within N k (s.setBlocks n l) :=
  h.setFields rfl rfl rfl

theorem setSize {size : UInt64} (h : Within N k s) : Within N k (s.setSize n size) :=
  h.setFields rfl rfl rfl

/-- `_new_iblkref` takes a block and a record, or gives the block back. -/
theorem newIblkref {off : ℤ} (h : Within N k s) : Within N k (s.newIblkref n off).2 := by
  have hd := h.newDblkref
  unfold Sbi.newIblkref
  split
  · next s₁ heq =>
    rw [heq] at hd
    exact hd
  · next d s₁ heq =>
    rw [heq] at hd
    split
    · exact hd.decrefDblkref
    · next r s₂ ha =>
      have h₂ := hd.acquireIblkref ha
      exact h₂.setFields rfl rfl rfl

/-- `_drop_iblkref` gives back a page that a block named. -/
theorem dropIblkref {ib : Iblkref} (h : Within N k s) : Within N k (s.dropIblkref n ib) := by
  unfold Sbi.dropIblkref Sbi.freeIblkref
  simp only
  set s₁ := (s.setBlocks n ((s.blocksOf n).filter fun x => x.ptr ≠ ib.ptr)).assert
    (0 < ((s.setBlocks n ((s.blocksOf n).filter fun x => x.ptr ≠ ib.ptr)).inodes n).iBlocks)
  have h₁ : Within N k s₁ := h.setBlocks.assert
  have h₂ : Within N k (s₁.decrefDblkref ib.dblkref) := h₁.decrefDblkref
  exact (h₂.pushRec .iblkref ib.ptr).setFields rfl rfl rfl

/-! ## Requests on files -/

/-- `_require_iblkref` takes what a new block or a copy needs. -/
theorem requireIblkref {off : ℤ} (h : Within N k s) : Within N k (s.requireIblkref n off).2 := by
  unfold Sbi.requireIblkref
  split
  · have hnew : Within N k (s.newIblkref n (offToBoff off)).2 := h.newIblkref
    split
    · next s₁ heq =>
      rw [heq] at hnew
      exact hnew
    · next ib s₁ heq =>
      rw [heq] at hnew
      exact hnew.setBlocks
  · split
    · have hnew := h.newDblkref
      split
      · next s₁ heq =>
        rw [heq] at hnew
        exact hnew
      · next d s₁ heq =>
        rw [heq] at hnew
        exact hnew.storeAt.setBlocks
    · exact h

/-- Every turn of the loop of `_write` requires a block. -/
theorem writeLoop {buf : Bytes} {off last : ℤ} {cnt : UInt64} (h : Within N k s) :
    Within N k (s.writeLoop n buf off last cnt).2 := by
  fun_induction Sbi.writeLoop s n buf off last cnt with
  | case1 s buf off cnt hlt s₁ hreq =>
    have h₁ : Within N k (s.requireIblkref n off).2 := h.requireIblkref
    rw [hreq] at h₁
    exact h₁
  | case2 s buf off cnt hlt ib s₁ hreq len s₂ ih =>
    have h₁ : Within N k (s.requireIblkref n off).2 := h.requireIblkref
    rw [hreq] at h₁
    exact ih h₁.storeAt
  | case3 s buf off cnt hlt => exact h

theorem write {apiMapMaxSize : ℕ} {buf : Bytes} {off : ℤ} {len : UInt64} (h : Within N k s) :
    Within N k (s.write apiMapMaxSize n buf off len).2 := by
  unfold Sbi.write
  split
  · exact h
  · have hloop : Within N k (s.writeLoop n buf off (off + toLoff len) 0).2 := h.writeLoop
    split
    · next err s₁ heq =>
      rw [heq] at hloop
      exact hloop
    · next cnt s₁ heq =>
      rw [heq] at hloop
      exact hloop.setSize

theorem zeroRangeAt {ib : Iblkref} {off : ℤ} {len : UInt64} (h : Within N k s) :
    Within N k (s.zeroRangeAt ib off len) := h.storeAt

/-- A turn of the loop of `_punch_hole` zeroes or drops. -/
theorem punchHoleLoop {off last : ℤ} (h : Within N k s) :
    Within N k (s.punchHoleLoop n off last) := by
  fun_induction Sbi.punchHoleLoop s n off last with
  | case1 s off hlt nxt s₁ ih =>
    refine ih ?_
    simp only [s₁]
    split
    · unfold Sbi.punchHoleAt
      split
      · exact h.zeroRangeAt
      · exact h.dropIblkref
    · exact h
  | case2 s off hlt => exact h

theorem zeroRangeLoop {off last : ℤ} {l : List Iblkref} (h : Within N k s) :
    Within N k (s.zeroRangeLoop off last l) := by
  fun_induction Sbi.zeroRangeLoop s off last l with
  | case1 s off => exact h
  | case2 s off ib rest hlt s₁ off' ih => exact ih h.zeroRangeAt
  | case3 s off ib rest hlt => exact h

/-- `_collapse_range` punches, and moves blocks without their pages. -/
theorem collapseRange {off : ℤ} {len : UInt64} (h : Within N k s) :
    Within N k (s.collapseRange n off len) := by
  have h₁ : Within N k (s.punchHole n off len) := h.punchHoleLoop
  unfold Sbi.collapseRange
  simp only
  split
  · exact h₁.setSize.setBlocks
  · exact h₁.setBlocks

/-- Every turn of the loop of `_falloc_range` requires a block. -/
theorem fallocRangeLoop {off last : ℤ} {cnt : UInt64} (h : Within N k s) :
    Within N k (s.fallocRangeLoop n off last cnt).2 := by
  fun_induction Sbi.fallocRangeLoop s n off last cnt with
  | case1 s off cnt hlt s₁ hreq =>
    have h₁ : Within N k (s.requireIblkref n off).2 := h.requireIblkref
    rw [hreq] at h₁
    exact h₁
  | case2 s off cnt hlt ib s₁ hreq ih =>
    have h₁ : Within N k (s.requireIblkref n off).2 := h.requireIblkref
    rw [hreq] at h₁
    exact ih h₁
  | case3 s off cnt hlt => exact h

theorem fallocRange {off : ℤ} {len : UInt64} (h : Within N k s) :
    Within N k (s.fallocRange n off len).2 := by
  have hloop : Within N k (s.fallocRangeLoop n off (off + toLoff len) 0).2 := h.fallocRangeLoop
  unfold Sbi.fallocRange
  split
  · next err s₁ heq =>
    rw [heq] at hloop
    exact hloop
  · next cnt s₁ heq =>
    rw [heq] at hloop
    exact hloop.setSize

/-- The modes of `_fallocate`. -/
theorem fallocate {mode : UInt32} {off : ℤ} {len : UInt64} (h : Within N k s) :
    Within N k (s.fallocate n mode off len).2 := by
  unfold Sbi.fallocate
  split
  · exact h
  split
  · exact h
  split
  · exact h.punchHoleLoop
  split
  · exact h.zeroRangeLoop
  split
  · exact h.collapseRange
  · exact h.fallocRange

/-- `_drop_range` drops block after block. -/
theorem dropRange {pos : ℤ} (h : Within N k s) : Within N k (s.dropRange n pos) := by
  have hloop : ∀ (pos : ℤ) (l : List Iblkref) (s : Sbi), Within N k s → Within N k
      (l.foldl (fun s ib => if pos ≤ ib.off then s.dropIblkref n ib else s) s) := by
    intro pos l
    induction l with
    | nil => exact fun s h => h
    | cons ib rest ih =>
      intro s h
      rw [List.foldl_cons]
      refine ih _ ?_
      split
      · exact h.dropIblkref
      · exact h
  exact hloop _ _ s h

/-- The block a copy is made of is shared, so it stays in use. -/
theorem uniquePmemb {ib : Iblkref} (h : Within N k s) (hinv : Inv held s) :
    Within N k (s.uniquePmemb n ib).2 := by
  unfold Sbi.uniquePmemb
  split
  · next hshared =>
    have hnew := h.newDblkref
    split
    · next s₁ heq =>
      rw [heq] at hnew
      exact hnew
    · next d s₁ heq =>
      rw [heq] at hnew
      obtain ⟨-, hq, -⟩ := newDblkref_some hinv heq
      have hcount : counts s₁ ib.dblkref = counts s ib.dblkref :=
        hq.counts_eq (Nat.zero_lt_of_lt hshared)
      have hmany : 1 < counts (s₁.cloneData d ib.dblkref) ib.dblkref := hcount.symm ▸ hshared
      have hcopy : Within N k ((s₁.cloneData d ib.dblkref).decRefcnt ib.dblkref) :=
        hnew.storeAt.setRefcnt (by unfold counts at hmany; omega)
      exact hcopy.setBlocks
  · exact h

/-- `_zero_after` may take a copy. -/
theorem zeroAfter {pos : ℤ} (h : Within N k s) (hinv : Inv held s) :
    Within N k (s.zeroAfter n pos).2 := by
  unfold Sbi.zeroAfter
  split
  · exact h
  split
  · exact h
  · next ib hf =>
    have hu : Within N k (s.uniquePmemb n ib).2 := h.uniquePmemb hinv
    split
    · next s₁ heq =>
      rw [heq] at hu
      exact hu
    · next b s₁ heq =>
      rw [heq] at hu
      exact hu.storeAt

/-- `toyfs_truncate` drops, and may take a copy. -/
theorem truncate {size : UInt64} (h : Within N k s) (hinv : Inv held s) :
    Within N k (s.truncate n size).2 := by
  unfold Sbi.truncate
  split
  · exact h
  split
  · exact h
  · next hreg =>
    split
    · obtain ⟨held', hinv', -⟩ := (@dropRange_serves s held n ∅ True (toLoff size) hinv
        (not_not.mp hreg)).inv
      have hz : Within N k ((s.dropRange n (toLoff size)).zeroAfter n (toLoff size)).2 :=
        h.dropRange.zeroAfter hinv'
      exact hz.setSize
    · exact h.setSize

/-- Each block of the source gets a record more and no page. -/
theorem cloneEntireLoop {l : List Iblkref} (h : Within N k s) :
    Within N k (s.cloneEntireLoop n l).2 := by
  fun_induction Sbi.cloneEntireLoop s n l with
  | case1 s => exact h
  | case2 s ib rest ha => exact h
  | case3 s ib rest r s₁ ha s₂ i ih =>
    have h₂ : Within N k s₂ := (h.acquireIblkref ha).setRefcnt (Nat.succ_ne_zero _)
    exact ih (h₂.setFields rfl rfl rfl)

theorem cloneEntireFileRange (h : Within N k s) : Within N k (s.cloneEntireFileRange m n).2 := by
  have hloop : Within N k ((s.dropRange n 0).cloneEntireLoop n ((s.dropRange n 0).blocksOf m)).2 :=
    h.dropRange.cloneEntireLoop
  unfold Sbi.cloneEntireFileRange
  simp only
  split
  · next s₂ heq =>
    rw [heq] at hloop
    exact hloop
  · next s₂ heq =>
    rw [heq] at hloop
    exact hloop.setSize

theorem growTo {size : UInt64} (h : Within N k s) : Within N k (s.growTo n size) := by
  unfold Sbi.growTo
  split
  · exact h.setSize
  · exact h

/-- A page of a ranged clone: a block is shared, or a page is zeroed. -/
theorem cloneRange {srcOff dstOff : ℤ} {len : UInt64} (h : Within N k s) (hinv : Inv held s) :
    Within N k (s.cloneRange m n srcOff dstOff len).2 := by
  have h₀ : Within N k (s.assert (Sbi.isEntirePage srcOff dstOff len)) := h.assert
  have hinv₀ : Inv held (s.assert (Sbi.isEntirePage srcOff dstOff len)) := hinv.congr rfl rfl rfl
  unfold Sbi.cloneRange
  simp only
  set s₀ := s.assert (Sbi.isEntirePage srcOff dstOff len)
  split
  · have hreq : Within N k (s₀.requireIblkref n dstOff).2 := h₀.requireIblkref
    split
    · next s₁ heq =>
      rw [heq] at hreq
      exact hreq
    · next srcIb hf dstIb s₁ heq =>
      rw [heq] at hreq
      have hput : Within N k (s₁.putDblkref dstIb.dblkref) := hreq.putDblkref
      exact (hput.setBlocks.setRefcnt (Nat.succ_ne_zero _)).growTo
  · split
    · exact h₀
    · next dstIb hf =>
      have hu : Within N k (s₀.uniquePmemb n dstIb).2 := h₀.uniquePmemb hinv₀
      split
      · next s₁ heq =>
        rw [heq] at hu
        exact hu
      · next b s₁ heq =>
        rw [heq] at hu
        exact hu.storeAt.growTo

/-- A ranged clone, page after page. -/
theorem cloneSubLoop {srcOff srcEnd dstOff dstEnd : ℤ} (h : Within N k s) (hinv : Inv held s)
    (hne : m ≠ n) (hreg : (s.inodes n).iMode = .reg) :
    Within N k (s.cloneSubLoop m n srcOff srcEnd dstOff dstEnd).2 := by
  fun_induction Sbi.cloneSubLoop s m n srcOff srcEnd dstOff dstEnd generalizing held with
  | case1 s srcOff dstOff hlt len err s₁ =>
    rename_i heq
    have h₁ : Within N k (s.cloneRange m n srcOff dstOff len).2 := h.cloneRange hinv
    rw [heq] at h₁
    exact h₁
  | case2 s srcOff dstOff hlt len s₁ heq =>
    rename_i ih
    have h₁ : Within N k (s.cloneRange m n srcOff dstOff len).2 := h.cloneRange hinv
    have hserve := @cloneRange_serves s held m n ∅ srcOff dstOff len hne hinv hreg
    rw [heq] at h₁ hserve
    obtain ⟨held', hinv', -⟩ := hserve.inv
    exact ih h₁ hinv' hserve.reg
  | case3 s srcOff dstOff hlt => exact h

/-- `toyfs_clone`, whole or in part. -/
theorem clone {srcPos dstPos : ℤ} {len : UInt64} (h : Within N k s) (hinv : Inv held s) :
    Within N k (s.clone m n srcPos dstPos len).2 := by
  unfold Sbi.clone
  split
  · exact h
  · next hreg =>
    rw [not_or, not_not, not_not] at hreg
    split
    · exact h
    · next hne =>
      split
      · exact h.cloneEntireFileRange
      split
      · exact h
      · exact h.cloneSubLoop hinv hne hreg.2

/-- A write fault requires a block. -/
theorem getBlockWr {off : ℤ} (h : Within N k s) : Within N k (s.getBlockWr n off).2 := by
  have hreq : Within N k (s.requirePmemBn n off).2 := by
    have hreq : Within N k (s.requireIblkref n off).2 := h.requireIblkref
    unfold Sbi.requirePmemBn
    split
    · next s₁ heq =>
      rw [heq] at hreq
      exact hreq
    · next ib s₁ heq =>
      rw [heq] at hreq
      exact hreq
  unfold Sbi.getBlockWr
  split
  · exact h
  split
  · next s₁ heq =>
    rw [heq] at hreq
    exact hreq
  · next b s₁ _ heq =>
    rw [heq] at hreq
    exact hreq

theorem mmapStore {off : ℤ} {poff len : ℕ} {data : Bytes} (h : Within N k s) :
    Within N k (s.mmapStore n off poff len data) := by
  have hget : Within N k (s.getBlockWr n off).2 := h.getBlockWr
  unfold Sbi.mmapStore
  split
  · next err s₁ heq =>
    rw [heq] at hget
    exact hget
  · next b s₁ heq =>
    rw [heq] at hget
    exact hget.setPage

/-! ## Requests on directories -/

theorem setDirSize {size : UInt64} (h : Within N k s) : Within N k (s.setDirSize n size) :=
  h.setFields rfl rfl rfl

theorem addNlink {add : UInt32} (h : Within N k s) : Within N k (s.addNlink n add) :=
  h.setFields rfl rfl rfl

theorem stdAddDentry (h : Within N k s) : Within N k (s.stdAddDentry m n) := by
  unfold Sbi.stdAddDentry
  simp only
  split
  · exact h.addNlink.addNlink
  · exact h.addNlink

theorem stdRemoveDentry (h : Within N k s) : Within N k (s.stdRemoveDentry m n) := by
  unfold Sbi.stdRemoveDentry
  simp only
  split
  · exact h.addNlink.addNlink.addNlink
  · exact h.addNlink

/-- A directory may take a page for its entries. -/
theorem acquireDirent {nlen : ℕ} {place : ℕ × ℕ × ℕ} (h : Within N k s)
    (ha : s.acquireDirent m nlen = some (place, s')) : Within N k s' := by
  rcases acquireDirent_cases ha with ⟨-, rfl⟩ | ⟨s₁, -, hb, -, rfl⟩
  · exact h
  · obtain ⟨hin, h₁⟩ := h.acquirePmemb hb
    refine h₁.setInode ⟨fun b hb => ?_, (h₁.inodes m).2⟩
    rcases List.mem_append.mp hb with hb | hb
    · exact (h₁.inodes m).1 b hb
    · rw [List.mem_singleton] at hb
      exact hb ▸ hin

/-- `toyfs_add_dirent` writes to a page of the directory. -/
theorem addDirent {name : List UInt8} (h : Within N k s) :
    Within N k (s.addDirent m n name).2 := by
  unfold Sbi.addDirent
  split
  · exact h
  · next b j off s₁ ha =>
    have h₁ : Within N k s₁ := h.acquireDirent ha
    exact h₁.setPage.setDirSize.stdAddDentry

theorem removeDirent {j : ℕ} (h : Within N k s) : Within N k (s.removeDirent m n bn j) := by
  unfold Sbi.removeDirent
  exact h.assert.setPage.setDirSize.stdRemoveDentry

/-- `toyfs_remove_dentry` takes and gives no page. -/
theorem removeDentry {name : List UInt8} (h : Within N k s) :
    Within N k (s.removeDentry m n name).2 := by
  unfold Sbi.removeDentry
  split
  · exact h
  · next b j hl =>
    split
    · exact h
    · have h₁ : Within N k (s.removeDirent m n b j) := h.removeDirent
      simp only
      split
      · exact h₁.setFields rfl rfl rfl
      · exact h₁

/-- `toyfs_rename` adds an entry and removes one. -/
theorem rename {oldDir newDir old : RecPtr} {oldName newName : List UInt8} {time : UInt64}
    {flags : UInt32} (h : Within N k s) :
    Within N k (s.rename oldDir newDir old oldName newName time flags).2 := by
  refine Sbi.rename_rule flags h h.addDirent fun {s₁ bn j} _ h₁ => ?_
  set s₂ := s₁.removeDirent oldDir old bn j
  set s₃ := if (s₂.inodes old).iMode = .dir then s₂.addNlink old 1 else s₂ with hs₃
  have h₃ : Within N k s₃ := by
    rw [hs₃]
    split
    · exact h₁.removeDirent.addNlink
    · exact h₁.removeDirent
  have h₃' : Within N k (s₃.touch oldDir time) := h₃.setFields rfl rfl rfl
  have h₄ : Within N k ((s₃.touch oldDir time).touch newDir time) := h₃'.setFields rfl rfl rfl
  exact h₄.setFields rfl rfl rfl

/-! ## Requests on inodes -/

/-- An inode may take a page for its attributes. -/
theorem setxattr {ioc : IocXattr} {res : Except Errno Unit} (h : Within N k s)
    (hr : s.setxattr n ioc = some (res, s')) : Within N k s' := by
  rcases Sbi.setxattr_some hr with rfl | ⟨s₁, pg, hx, rfl⟩
  · exact h
  · have h₁ : Within N k s₁ := by
      rcases Sbi.requireXattr_some hx with ⟨-, rfl⟩ | ⟨-, b, s₂, ha, rfl⟩
      · exact h
      · obtain ⟨hb, h₂⟩ := h.acquirePmemb ha
        exact h₂.setInode ⟨(h₂.inodes n).1, hb, (h₂.inodes n).2.2⟩
    exact h₁.setPage

/-- The page of the attributes goes back. -/
theorem dropXattr (h : Within N k s) : Within N k (s.dropXattr n) := by
  unfold Sbi.dropXattr
  split
  · have h₁ : Within N k (s.releasePmemb (s.inodes n).iXattr) := h.releasePmemb (h.inodes n).2.1
    exact h₁.setInode ⟨(h₁.inodes n).1, h.zero, (h₁.inodes n).2.2⟩
  · exact h

/-- The page of a long symlink goes back. -/
theorem releaseSymlink (h : Within N k s) : Within N k (s.releaseSymlink n) := by
  have hzero : ∀ {s : Sbi}, Within N k s →
      Within N k (s.setInode n { s.inodes n with iSize := 0, iSymDpp := 0 }) := by
    intro s h
    have hdpp : Sbi.dppToBn 0 = 0 := rfl
    exact h.setInode ⟨(h.inodes n).1, (h.inodes n).2.1, hdpp ▸ h.zero⟩
  unfold Sbi.releaseSymlink
  simp only
  split
  · exact hzero (h.releasePmemb (h.inodes n).2.2)
  · exact hzero h

/-- The pages a directory gives up are on its list when the loop starts. -/
theorem releaseDir (h : Within N k s) : Within N k (s.releaseDir n) := by
  have hloop : ∀ (l : List ℕ) (s : Sbi), (∀ b ∈ l, b ∈ N) → Within N k s →
      Within N k (l.foldl (fun s bn => s.releaseDirPage n bn) s) := by
    intro l
    induction l with
    | nil => exact fun s _ h => h
    | cons b rest ih =>
      intro s hl h
      refine ih _ (fun x hx => hl x (List.mem_cons_of_mem _ hx)) ?_
      have h₁ : Within N k (s.assert (0 < (s.inodes n).iBlocks)) := h.assert
      unfold Sbi.releaseDirPage
      simp only
      refine Within.releasePmemb (h₁.setInode ⟨fun x hx => ?_, (h₁.inodes n).2⟩)
        (hl b List.mem_cons_self)
      exact (h₁.inodes n).1 x (List.mem_of_mem_erase hx)
  exact (hloop _ s (h.inodes n).1 h).assert

/-- `toyfs_free_inode` gives back what the inode names. -/
theorem freeInode (h : Within N k s) (hinv : Inv held s) : Within N k (s.freeInode n) := by
  unfold Sbi.freeInode
  simp only
  split
  · split
    · exact h
    · exact h.releaseDir.dropXattr.releaseInode
  · exact h.releaseSymlink.dropXattr.releaseInode
  · exact (h.truncate hinv).dropXattr.releaseInode
  · exact h.dropXattr.releaseInode

/-- The tables of infos and inodes name no page. -/
theorem tableStep (h : Within N k s) (hs : TableStep s s') : Within N k s' :=
  h.congr hs.pool hs.dblkrefs hs.inodes hs.bfree

/-- `toyfs_evict` frees an inode or nothing. -/
theorem evict {a : ℕ} (h : Within N k s) (hinv : Inv held s) (he : s.evict a = some s') :
    Within N k s' := by
  obtain ⟨info, -, ⟨-, rfl⟩ | ⟨-, n, s₂, -, hs₂, hstep, -⟩⟩ := evict_cases he
  · exact h.congr rfl rfl rfl rfl
  · have h₁ : Within N k (s.setTii a { info with ref := info.ref - 1 }) := h.congr rfl rfl rfl rfl
    have hinv₁ : Inv held (s.setTii a { info with ref := info.ref - 1 }) := hinv.congr rfl rfl rfl
    have h₂ : Within N k s₂ := by
      rw [hs₂]
      split
      · exact h₁.freeInode hinv₁
      · exact h₁
    exact h₂.tableStep hstep

theorem iget {ino : UInt64} {addr : Option ℕ} (h : Within N k s) :
    Within N k (s.iget ino addr).2 := by
  unfold Sbi.iget
  split
  · exact h
  · split
    · split <;> exact h.congr rfl rfl rfl rfl
    · split
      · exact h
      · next a s₁ ha =>
        obtain ⟨-, rfl⟩ := Sbi.allocIi_some ha
        exact h.congr rfl rfl rfl rfl

/-- `_setup_inode` may take a page for a long symlink. -/
theorem setupInode {ioc : IocNewInode} {ino : UInt64} (h : Within N k s)
    (hr : s.setupInode m n ioc ino = some s') : Within N k s' := by
  obtain ⟨i, hi, ⟨-, hdpp, rfl⟩ | ⟨-, b, s₁, ha, hdpp, rfl⟩⟩ := Sbi.setupInode_some hr
  · refine h.setInode ⟨?_, hi.xattr ▸ h.zero, ?_⟩
    · rw [hi.childs]
      exact fun _ hb => absurd hb List.not_mem_nil
    · rw [hdpp]
      exact h.zero
  · obtain ⟨hb, h₁⟩ := h.acquirePmemb ha
    refine h₁.setPage.setInode ⟨?_, hi.xattr ▸ h.zero, ?_⟩
    · rw [hi.childs]
      exact fun _ hb => absurd hb List.not_mem_nil
    · have hbn : Sbi.dppToBn (b * pageSize) = b := by simp [Sbi.dppToBn, pageSize]
      rw [hdpp, hbn]
      exact hb

/-- `toyfs_new_inode` takes a record, and gives it back when something fails. -/
theorem newInode {ioc : IocNewInode} {addr : Option ℕ} (h : Within N k s) :
    Within N k (s.newInode m ioc addr).2 := by
  have hinfo : ∀ {a s₁}, s.allocIi addr = some (a, s₁) → Within N k s₁ := by
    intro a s₁ ha
    obtain ⟨-, rfl⟩ := Sbi.allocIi_some ha
    exact h.congr rfl rfl rfl rfl
  rcases hr : s.newInode m ioc addr with ⟨res, s'⟩
  cases Sbi.newInode_ends hr with
  | noInfo => exact h
  | noRecord ha => exact (hinfo ha).congr rfl rfl rfl rfl
  | @noPage a n s₁ s₂ ha hn =>
    have h₂ : Within N k s₂.nextIno.2 := ((hinfo ha).acquireInode hn).congr rfl rfl rfl rfl
    exact h₂.releaseInode.congr rfl rfl rfl rfl
  | @made a n s₁ s₂ s₃ ha _ _ hn hs =>
    have h₂ : Within N k s₂.nextIno.2 := ((hinfo ha).acquireInode hn).congr rfl rfl rfl rfl
    exact (h₂.setupInode hs).congr rfl rfl rfl rfl

end Within

end Zus.Toyfs
