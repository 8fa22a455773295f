import Zus.Toyfs.CloneContent

/-!
# Room for a clone

How far `_clone_sub_file_range` comes is decided before it starts too. It takes a block and
gives one back with almost every page, so it is not enough to count: `Stock` is what the pool
has, and `clonePages` goes through the pages of the ranges with it and with the reference
counts, and says for how many of them there is room.
-/

namespace Zus.Toyfs

open Zus.Lib

variable {s s' s₁ : Sbi} {held : RecPtr → ℕ} {n d src dst r : RecPtr} {ib : Iblkref} {kind : RecKind}
  {off srcOff dstOff : ℤ} {N : Set ℕ} {p q : Pool} {j : ℕ}

/-! ## What the pool has -/

/-- The pages of the pool, and the records of blocks and of references it has ready. -/
structure Stock where
  pages : ℕ
  dblkrefs : ℕ
  iblkrefs : ℕ
  deriving DecidableEq

namespace Stock

/-- A record is taken: one that is ready, or one of a page that is cut. -/
def cut (kind : RecKind) (pages recs : ℕ) : Option (ℕ × ℕ) :=
  if 0 < recs then some (pages, recs - 1)
  else if 0 < pages then some (pages - 1, kind.perPage - 1)
  else none

/-- A block is taken, for a copy of a shared one. -/
def copy (k : Stock) : Option Stock :=
  if k.pages = 0 then none
  else (cut .dblkref (k.pages - 1) k.dblkrefs).map fun x => ⟨x.1, x.2, k.iblkrefs⟩

/-- A block and a reference to it are taken, for a page that has none. -/
def fresh (k : Stock) : Option Stock :=
  k.copy.bind fun k => (cut .iblkref k.pages k.iblkrefs).map fun x => ⟨x.1, k.dblkrefs, x.2⟩

/-- A block is given back. -/
def free (k : Stock) : Stock := ⟨k.pages + 1, k.dblkrefs + 1, k.iblkrefs⟩

end Stock

/-- What is left of the pool. -/
def Pool.stock (p : Pool) : Stock :=
  ⟨p.pages.length, (p.free .dblkref).length, (p.free .iblkref).length⟩

theorem Pool.popRec_stock : Stock.cut kind p.pages.length (p.free kind).length =
    (p.popRec kind).map fun x => (x.2.pages.length, (x.2.free kind).length) := by
  unfold Stock.cut
  rcases hpop : p.popRec kind with _ | ⟨r, q⟩
  · obtain ⟨hfree, hpages⟩ := Pool.popRec_none hpop
    simp [hfree, hpages]
  · obtain ⟨hlist | ⟨hempty, hlen, hpages⟩, -⟩ := Pool.popRec_cases hpop
    · rw [if_pos (by omega), hlist.1, ← hlist.2]
      rfl
    · have hlast : kind.perPage - 1 = (q.free kind).length := by omega
      rw [hempty, hpages, hlast]
      simp

/-- **`_new_dblkref`** takes a block. -/
theorem newDblkref_stock {res : Option RecPtr} (hw : Within N j s) (hr : s.newDblkref = (res, s')) :
    s.pool.stock.copy = res.map fun _ => s'.pool.stock := by
  unfold Sbi.newDblkref at hr
  split at hr
  · next ha =>
    obtain ⟨rfl, rfl⟩ := Prod.mk.inj hr
    simp [Stock.copy, Pool.stock, acquirePmemb_none hw ha]
  · next bn s₁ ha =>
    obtain ⟨hpages, hfree⟩ := acquirePmemb_pool ha
    have hcut := @Pool.popRec_stock .dblkref s₁.pool
    have hstock : s.pool.stock.copy = (Stock.cut .dblkref s₁.pool.pages.length
        (s₁.pool.free .dblkref).length).map fun x => ⟨x.1, x.2, (s.pool.free .iblkref).length⟩ := by
      have hne : s.pool.stock.pages ≠ 0 := by
        change s.pool.pages.length ≠ 0
        omega
      rw [Stock.copy, if_neg hne]
      simp only [Pool.stock]
      rw [hfree, hpages, Nat.add_sub_cancel]
    rw [hstock, hcut]
    split at hr
    · next hd =>
      obtain ⟨rfl, rfl⟩ := Prod.mk.inj hr
      rw [Sbi.acquireDblkref_none hd]
      rfl
    · next e s₂ hd =>
      obtain ⟨rfl, rfl⟩ := Prod.mk.inj hr
      obtain ⟨p, hpop, rfl⟩ := Sbi.acquireDblkref_some hd
      have hib := (Pool.popRec_cases hpop).2 .iblkref (by decide)
      rw [hpop, ← hfree, ← hib]
      rfl

/-- **`_new_iblkref`** takes a block and a reference. -/
theorem newIblkref_stock {res : Option Iblkref} (hw : Within N j s)
    (hr : s.newIblkref n off = (res, s')) :
    s.pool.stock.fresh = res.map fun _ => s'.pool.stock := by
  unfold Sbi.newIblkref at hr
  split at hr
  · next s₁ hd =>
    obtain ⟨rfl, rfl⟩ := Prod.mk.inj hr
    rw [Stock.fresh, newDblkref_stock hw hd]
    rfl
  · next e s₁ hd =>
    rw [Stock.fresh, newDblkref_stock hw hd]
    have hcut := @Pool.popRec_stock .iblkref s₁.pool
    simp only [Option.map_some, Option.bind_some, Pool.stock]
    rw [hcut]
    split at hr
    · next ha =>
      obtain ⟨rfl, rfl⟩ := Prod.mk.inj hr
      rw [Sbi.acquireIblkref_none ha]
      rfl
    · next r s₂ ha =>
      obtain ⟨rfl, rfl⟩ := Prod.mk.inj hr
      obtain ⟨p, hpop, rfl⟩ := Sbi.acquireIblkref_some ha
      have hdb := (Pool.popRec_cases hpop).2 .dblkref (by decide)
      rw [hpop, ← hdb]
      rfl

/-! ## The blocks of a page -/

/-- The search that inserts finds what the other one finds. -/
theorem scanIblkref_eq_fetch {l : List Iblkref} (h : OffsetsOk l) :
    scanIblkref (offToBoff off) l = fetchIblkref l off := by
  rcases hscan : scanIblkref (offToBoff off) l with _ | x
  · rcases hf : fetchIblkref l off with _ | y
    · rfl
    · obtain ⟨hy, hyoff⟩ := fetchIblkref_some hf
      exact absurd hyoff (scanIblkref_none h hscan y hy)
  · obtain ⟨hx, hxoff⟩ := scanIblkref_some hscan
    rcases hf : fetchIblkref l off with _ | y
    · exact absurd hxoff (fetchIblkref_none hf x hx)
    · obtain ⟨hy, hyoff⟩ := fetchIblkref_some hf
      rw [h.eq_of_off hx hy (hxoff.trans hyoff.symm)]

/-- **`_require_iblkref`** takes a block for a hole, and for one that is shared. -/
theorem requireIblkref_stock {res : Option Iblkref} (h : OnFile n s) (hw : Within N j s)
    (hr : s.requireIblkref n off = (res, s')) :
    (match fetchIblkref (s.blocksOf n) off with
      | none => s.pool.stock.fresh
      | some ib => if 1 < counts s ib.dblkref then s.pool.stock.copy else some s.pool.stock) =
      res.map fun _ => s'.pool.stock := by
  unfold Sbi.requireIblkref at hr
  rw [scanIblkref_eq_fetch h.offsets] at hr
  generalize fetchIblkref (s.blocksOf n) off = found at hr ⊢
  cases found with
  | none =>
    simp only at hr ⊢
    split at hr
    · next s₁ hn =>
      obtain ⟨rfl, rfl⟩ := Prod.mk.inj hr
      exact newIblkref_stock hw hn
    · next ib s₁ hn =>
      obtain ⟨rfl, rfl⟩ := Prod.mk.inj hr
      have hstock := newIblkref_stock hw hn
      exact hstock
  | some ib =>
    have hcount : (s.dblkrefs ib.dblkref).refcnt = counts s ib.dblkref := rfl
    simp only [hcount] at hr ⊢
    by_cases hmany : 1 < counts s ib.dblkref
    · rw [if_pos hmany] at hr ⊢
      split at hr
      · next s₁ hn =>
        obtain ⟨rfl, rfl⟩ := Prod.mk.inj hr
        exact newDblkref_stock hw hn
      · next d s₁ hn =>
        obtain ⟨rfl, rfl⟩ := Prod.mk.inj hr
        have hstock := newDblkref_stock hw hn
        exact hstock
    · rw [if_neg hmany] at hr ⊢
      obtain ⟨rfl, rfl⟩ := Prod.mk.inj hr
      rfl

/-- **`_unique_pmemb`** takes a block for one that is shared. -/
theorem uniquePmemb_stock {res : Option ℕ} (hw : Within N j s)
    (hr : s.uniquePmemb n ib = (res, s')) :
    (if 1 < counts s ib.dblkref then s.pool.stock.copy else some s.pool.stock) =
      res.map fun _ => s'.pool.stock := by
  have hcount : (s.dblkrefs ib.dblkref).refcnt = counts s ib.dblkref := rfl
  unfold Sbi.uniquePmemb at hr
  rw [hcount] at hr
  by_cases hmany : 1 < counts s ib.dblkref
  · rw [if_pos hmany] at hr ⊢
    split at hr
    · next s₁ hn =>
      obtain ⟨rfl, rfl⟩ := Prod.mk.inj hr
      exact newDblkref_stock hw hn
    · next d s₁ hn =>
      obtain ⟨rfl, rfl⟩ := Prod.mk.inj hr
      have hstock := newDblkref_stock hw hn
      exact hstock
  · rw [if_neg hmany] at hr ⊢
    obtain ⟨rfl, rfl⟩ := Prod.mk.inj hr
    rfl

/-- **`_share_page`** gives the block back that only the destination had. -/
theorem sharePage_stock {srcIb dstIb : Iblkref} (hone : counts s dstIb.dblkref ≤ 1) :
    (s.sharePage n srcIb dstIb).pool.stock = s.pool.stock.free := by
  obtain ⟨hpages, hdb, hib⟩ := @regains_putDblkref s dstIb.dblkref
  rw [if_pos hone] at hpages hdb
  change (s.putDblkref dstIb.dblkref).pool.stock = _
  simp only [Pool.stock, Stock.free, hpages, hdb, hib, Nat.add_zero]

/-! ## Page after page -/

/-- One page of a clone, with the blocks that the source and the destination have for it: what
is left in stock, and the counts of the blocks. -/
def Stock.clonePage (k : Stock) (refs : RecPtr → ℕ) :
    Option Iblkref → Option Iblkref → Option (Stock × (RecPtr → ℕ))
  | some a, none =>
    k.fresh.map fun k' => (k'.free, Function.update refs a.dblkref (refs a.dblkref + 1))
  | some a, some b =>
    (if 1 < refs b.dblkref then k.copy else some k).map fun k' =>
      (k'.free, Function.update refs a.dblkref (refs a.dblkref + 1))
  | none, some b =>
    if 1 < refs b.dblkref then
      k.copy.map fun k' => (k', Function.update refs b.dblkref (refs b.dblkref - 1))
    else some (k, refs)
  | none, none => some (k, refs)

/-- The number of pages of two ranges for which there is room, one after the other. -/
def Stock.clonePages (k : Stock) (refs : RecPtr → ℕ) (srcBlocks dstBlocks : List Iblkref)
    (srcOff dstOff : ℤ) : ℕ → ℕ
  | 0 => 0
  | pages + 1 =>
    match k.clonePage refs (fetchIblkref srcBlocks srcOff) (fetchIblkref dstBlocks dstOff) with
    | none => 0
    | some (k', refs') =>
      k'.clonePages refs' srcBlocks dstBlocks (srcOff + pageSize) (dstOff + pageSize) pages + 1

theorem Stock.clonePages_le (k : Stock) (refs : RecPtr → ℕ) (srcBlocks dstBlocks : List Iblkref)
    (srcOff dstOff : ℤ) (pages : ℕ) :
    k.clonePages refs srcBlocks dstBlocks srcOff dstOff pages ≤ pages := by
  induction pages generalizing k refs srcOff dstOff with
  | zero => exact Nat.le_refl 0
  | succ pages ih =>
    rw [Stock.clonePages]
    split
    · exact Nat.zero_le _
    · exact Nat.succ_le_succ (ih ..)

/-- The blocks that are still to come are what they were, and the counts are known. -/
structure KnownFrom (dst : RecPtr) (dstBlocks : List Iblkref) (refs : RecPtr → ℕ) (dstOff : ℤ)
    (s : Sbi) : Prop where
  blocks : ∀ x, dstOff ≤ x.off → (x ∈ s.blocksOf dst ↔ x ∈ dstBlocks)
  refs : ∀ x ∈ dstBlocks, dstOff ≤ x.off → counts s x.dblkref = refs x.dblkref

theorem KnownFrom.fetch {l : List Iblkref} {refs : RecPtr → ℕ} (h : KnownFrom dst l refs dstOff s)
    (hl : OffsetsOk l) (hal : dstOff % pageSize = 0) :
    fetchIblkref (s.blocksOf dst) dstOff = fetchIblkref l dstOff := by
  have hboff := offToBoff_of_aligned hal
  rcases hf : fetchIblkref (s.blocksOf dst) dstOff with _ | x
  · rcases hg : fetchIblkref l dstOff with _ | y
    · rfl
    · obtain ⟨hy, hyoff⟩ := fetchIblkref_some hg
      exact absurd hyoff (fetchIblkref_none hf y ((h.blocks y (by omega)).mpr hy))
  · obtain ⟨hx, hxoff⟩ := fetchIblkref_some hf
    have hx' := (h.blocks x (by omega)).mp hx
    rcases hg : fetchIblkref l dstOff with _ | y
    · exact absurd hxoff (fetchIblkref_none hg x hx')
    · obtain ⟨hy, hyoff⟩ := fetchIblkref_some hg
      rw [hl.eq_of_off hx' hy (hxoff.trans hyoff.symm)]

/-! ### One page -/

theorem Stock.clonePage_some {k : Stock} {refs : RecPtr → ℕ} {a : Iblkref} (x : Option Iblkref) :
    k.clonePage refs (some a) x = (match x with
      | none => k.fresh
      | some b => if 1 < refs b.dblkref then k.copy else some k).map fun k' : Stock =>
        (k'.free, Function.update refs a.dblkref (refs a.dblkref + 1)) := by
  cases x <;> rfl

theorem pool_growTo {size : UInt64} : (s.growTo n size).pool = s.pool := by
  unfold Sbi.growTo
  split <;> rfl

/-- The blocks of the other pages stay when one of them is another one. -/
theorem mem_retarget_of_off {l : List Iblkref} (hnd : (l.map Iblkref.ptr).Nodup) {x y : Iblkref}
    (hx : x ∈ l) (hne : y.off ≠ x.off) : y ∈ retargetIblkref x.ptr d l ↔ y ∈ l := by
  have hkeep : ∀ z ∈ l, z.off ≠ x.off → z.ptr ≠ x.ptr := by
    intro z hz hzoff hptr
    rw [List.inj_on_of_nodup_map hnd hz hx hptr] at hzoff
    exact hzoff rfl
  rw [retargetIblkref, List.mem_map]
  constructor
  · rintro ⟨z, hz, rfl⟩
    have hzoff : z.off ≠ x.off := by
      intro heq
      refine hne ?_
      split <;> exact heq
    rwa [if_neg (hkeep z hz hzoff)]
  · exact fun hin => ⟨y, hin, if_neg (hkeep y hin hne)⟩

theorem counts_sharePage {srcIb dstIb : Iblkref} : counts (s.sharePage n srcIb dstIb) d =
    if d = srcIb.dblkref then counts (s.putDblkref dstIb.dblkref) d + 1
    else counts (s.putDblkref dstIb.dblkref) d := by
  split
  · next heq =>
    subst heq
    simp [counts, Sbi.sharePage, Sbi.incRefcnt, Sbi.setDblkref, Sbi.setBlocks, Sbi.setInode]
  · next hne => exact sharePage_counts hne

section Page

variable {l : List Iblkref} {refs : RecPtr → ℕ}

theorem KnownFrom.congr (ha : KnownFrom dst l refs dstOff s) (hb : s'.blocksOf dst = s.blocksOf dst)
    (hc : counts s' = counts s) : KnownFrom dst l refs dstOff s' :=
  ⟨fun x hx => by rw [hb, ha.blocks x hx], fun x hx hpast => by rw [hc, ha.refs x hx hpast]⟩

/-- The counts of the blocks that are still to come, after a page is shared. -/
theorem KnownFrom.sharePage {srcIb dstIb : Iblkref} {size : UInt64} (ha : KnownFrom dst l refs dstOff s)
    (h : OnFile dst s) (hal : dstOff % pageSize = 0)
    (hd : 0 ≤ dstOff) (hr : s.requireIblkref dst dstOff = (some dstIb, s₁)) :
    KnownFrom dst l (Function.update refs srcIb.dblkref (refs srcIb.dblkref + 1)) (dstOff + pageSize)
      ((s₁.sharePage dst srcIb dstIb).growTo dst size) := by
  obtain ⟨held, hinv⟩ := h.inv
  have h₁ : OnFile dst s₁ := h.requireIblkref hd hr
  obtain ⟨held₁, hinv₁⟩ := h₁.inv
  obtain ⟨hm, hoff, hle⟩ := requireIblkref_block hinv h.reg hr
  have hboff := offToBoff_of_aligned hal
  have hpos : (0 : ℤ) < pageSize := by decide
  have hold : ∀ x, dstOff + pageSize ≤ x.off → (x ∈ s₁.blocksOf dst ↔ x ∈ l) := by
    intro x hx
    rw [mem_requireIblkref hinv h.reg hr (by omega), ha.blocks x (by omega)]
  refine ⟨fun x hx => ?_, fun x hx hpast => ?_⟩
  · rw [growTo_blocksOf, blocksOf_sharePage, mem_retarget_of_off (hinv₁.ptrNodup dst) hm (by omega),
      hold x hx]
  · have hx₁ := (hold x hpast).mpr hx
    have hx₀ := (ha.blocks x (by omega)).mpr hx
    -- the block that is given up is no other one's
    have hne : x.dblkref ≠ dstIb.dblkref := by
      intro heq
      obtain ⟨-, rfl⟩ := hinv₁.block_unique hm hle hx₁ (by rw [heq])
      omega
    have hcount : counts (s₁.putDblkref dstIb.dblkref) x.dblkref = refs x.dblkref := by
      rw [counts, putDblkref_dblkrefs_ne hne,
        requireIblkref_dblkrefs hinv h.reg hr (h.counts_pos hx₀)]
      exact ha.refs x hx (by omega)
    rw [growTo_counts, counts_sharePage, hcount]
    by_cases heq : x.dblkref = srcIb.dblkref
    · rw [if_pos heq, heq, Function.update_self]
    · rw [if_neg heq, Function.update_of_ne heq]

/-- The same after zeros are put in a page. -/
theorem KnownFrom.uniquePmemb {bn : ℕ} {dstIb : Iblkref} (ha : KnownFrom dst l refs dstOff s)
    (h : OnFile dst s) (hal : dstOff % pageSize = 0)
    (hf : fetchIblkref (s.blocksOf dst) dstOff = some dstIb)
    (hr : s.uniquePmemb dst dstIb = (some bn, s₁)) :
    KnownFrom dst l (if 1 < counts s dstIb.dblkref then
        Function.update refs dstIb.dblkref (refs dstIb.dblkref - 1) else refs)
      (dstOff + pageSize) s₁ := by
  obtain ⟨held, hinv⟩ := h.inv
  obtain ⟨hm, hoff⟩ := fetchIblkref_some hf
  rw [offToBoff_of_aligned hal] at hoff
  have hpos : (0 : ℤ) < pageSize := by decide
  have hlater : KnownFrom dst l refs (dstOff + pageSize) s :=
    ⟨fun x hx => ha.blocks x (by omega), fun x hx hpast => ha.refs x hx (by omega)⟩
  rcases uniquePmemb_cases hinv h.reg hm hr with ⟨hnone, -⟩ | ⟨-, hone, rfl⟩ |
    ⟨d, s₂, -, hmany, hq, hunused, -, -, -, rfl⟩
  · cases hnone
  · rw [if_neg (by omega)]
    exact hlater
  · rw [if_pos hmany]
    refine ⟨fun x hx => ?_, fun x hx hpast => ?_⟩
    · rw [blocksOf_setInode, ← hlater.blocks x hx]
      exact mem_retarget_of_off (hinv.ptrNodup dst) hm (by omega)
    · have hx₀ := (hlater.blocks x hpast).mpr hx
      have hcount : counts s₂ x.dblkref = refs x.dblkref := by
        rw [counts, hq.dblkrefs _ (h.counts_pos hx₀)]
        exact hlater.refs x hx hpast
      by_cases heq : x.dblkref = dstIb.dblkref
      · rw [heq] at hcount ⊢
        rw [Function.update_self, ← hcount]
        simp [counts, Sbi.setInode, Sbi.decRefcnt, Sbi.setDblkref]
      · rw [Function.update_of_ne heq, ← hcount]
        simp [counts, Sbi.setInode, Sbi.decRefcnt, Sbi.setDblkref, heq]

/-- **One page of a clone**: it takes from the stock and changes the counts as was said before,
or there is no room for it. -/
theorem cloneRange_room {len : UInt64} {res : Option Errno} (ha : KnownFrom dst l refs dstOff s)
    (h : OnFile dst s) (hw : Within N j s) (hl : OffsetsOk l) (hlen : len = 4096)
    (hsal : srcOff % pageSize = 0) (hd : 0 ≤ dstOff) (hal : dstOff % pageSize = 0)
    (hr : s.cloneRange src dst srcOff dstOff len = (res, s')) :
    (res ≠ none → s.pool.stock.clonePage refs (fetchIblkref (s.blocksOf src) srcOff)
      (fetchIblkref l dstOff) = none) ∧
    (res = none → ∃ refs', s.pool.stock.clonePage refs (fetchIblkref (s.blocksOf src) srcOff)
      (fetchIblkref l dstOff) = some (s'.pool.stock, refs') ∧
      KnownFrom dst l refs' (dstOff + pageSize) s') := by
  have hfetch := ha.fetch hl hal
  have hpos : (0 : ℤ) < pageSize := by decide
  have hcount : ∀ x ∈ fetchIblkref l dstOff, counts s x.dblkref = refs x.dblkref := by
    intro x hx
    obtain ⟨hm, hoff⟩ := fetchIblkref_some hx
    rw [offToBoff_of_aligned hal] at hoff
    exact ha.refs x hm (by omega)
  rw [← hfetch] at hcount ⊢
  -- what `_require_iblkref` takes, in terms of the counts
  have hrequire : ∀ {res : Option Iblkref} {s₁ : Sbi}, s.requireIblkref dst dstOff = (res, s₁) →
      (match fetchIblkref (s.blocksOf dst) dstOff with
        | none => s.pool.stock.fresh
        | some b => if 1 < refs b.dblkref then s.pool.stock.copy else some s.pool.stock) =
        res.map fun _ => s₁.pool.stock := by
    intro res s₁ hreq
    rw [← requireIblkref_stock h hw hreq]
    split
    · rfl
    · next b hb => rw [hcount b hb]
  rcases cloneRange_cases hlen hsal hal hr with ⟨srcIb, dstIb, s₁, hf, hreq, rfl, rfl⟩ |
    ⟨srcIb, hf, hreq, rfl⟩ | ⟨hf, hf', rfl, rfl⟩ | ⟨dstIb, bn, s₁, hf, hf', huniq, rfl, rfl⟩ |
    ⟨dstIb, hf, hf', huniq, rfl⟩
  · obtain ⟨held, hinv⟩ := h.inv
    obtain ⟨-, -, hle⟩ := requireIblkref_block hinv h.reg hreq
    refine ⟨nofun, fun _ => ⟨_, ?_, ha.sharePage h hal hd hreq⟩⟩
    rw [hf, Stock.clonePage_some, hrequire hreq, pool_growTo, sharePage_stock hle]
    rfl
  · refine ⟨fun _ => ?_, nofun⟩
    rw [hf, Stock.clonePage_some, hrequire hreq]
    rfl
  · refine ⟨nofun, fun _ => ⟨refs, by rw [hf, hf']; rfl, ?_⟩⟩
    exact ⟨fun x hx => ha.blocks x (by omega), fun x hx hpast => ha.refs x hx (by omega)⟩
  · have hstock := uniquePmemb_stock hw huniq
    have hagree : KnownFrom dst l _ (dstOff + pageSize)
        ((s₁.storeAt bn (offInPage dstOff) len fun _ => 0).growTo dst (toSize dstOff + len)) :=
      (ha.uniquePmemb h hal hf' huniq).congr growTo_blocksOf growTo_counts
    rw [hcount dstIb hf'] at hstock hagree
    refine ⟨nofun, fun _ => ⟨_, ?_, hagree⟩⟩
    rw [hf, hf', Stock.clonePage, pool_growTo]
    by_cases hmany : 1 < refs dstIb.dblkref
    · simp only [if_pos hmany] at hstock ⊢
      rw [hstock]
      rfl
    · simp only [if_neg hmany] at hstock ⊢
      rw [Option.some.inj hstock]
      rfl
  · have hstock := uniquePmemb_stock hw huniq
    rw [hcount dstIb hf'] at hstock
    refine ⟨fun _ => ?_, nofun⟩
    rw [hf, hf', Stock.clonePage]
    by_cases hmany : 1 < refs dstIb.dblkref
    · rw [if_pos hmany] at hstock ⊢
      rw [hstock]
      rfl
    · rw [if_neg hmany] at hstock
      cases hstock

end Page

/-- **The loop of `_clone_sub_file_range`** comes as far as there is room, and copies what it
comes by. -/
theorem cloneSubLoop_room {l : List Iblkref} {refs : RecPtr → ℕ} {pages : ℕ} {res : Option Errno}
    (ha : KnownFrom dst l refs dstOff s) (hl : OffsetsOk l) (hw : Within N j s) (hne : src ≠ dst)
    (h : OnFile dst s) (hs : 0 ≤ srcOff) (hsal : srcOff % pageSize = 0) (hd : 0 ≤ dstOff)
    (hdal : dstOff % pageSize = 0) (hend : dstOff + pages * pageSize < 2 ^ 64)
    (hr : s.cloneSubLoop src dst srcOff (srcOff + pages * pageSize) dstOff
      (dstOff + pages * pageSize) = (res, s')) :
    let done := s.pool.stock.clonePages refs (s.blocksOf src) l srcOff dstOff pages
    (res = none ↔ done = pages) ∧ Copied src dst srcOff dstOff (done * pageSize) s s' := by
  induction pages generalizing s srcOff dstOff refs with
  | zero =>
    rw [Sbi.cloneSubLoop, if_neg (by simp)] at hr
    obtain ⟨rfl, rfl⟩ := Prod.mk.inj hr
    refine ⟨iff_of_true rfl rfl, ?_⟩
    have hzero : ((0 : ℕ) : ℤ) * pageSize = 0 := by simp
    rw [Stock.clonePages, hzero]
    exact .none (.refl src s) rfl (fun _ _ => rfl) fun _ _ => Iff.rfl
  | succ pages ih =>
    have hpage : dstOff + pageSize + pages * pageSize < 2 ^ 64 ∧ dstOff + pageSize < 2 ^ 64 := by
      unfold pageSize at *
      omega
    have hpos : (0 : ℤ) < pageSize := by decide
    rw [cloneSubLoop_succ rfl hsal hdal] at hr
    rw [Stock.clonePages]
    split at hr
    · next err s₁ hstep =>
      obtain ⟨rfl, rfl⟩ := Prod.mk.inj hr
      obtain ⟨-, hcopy⟩ := copied_cloneRange hne h rfl hs hsal hd hdal hpage.2 hstep
      rw [(cloneRange_room ha h hw hl rfl hsal hd hdal hstep).1 nofun]
      refine ⟨iff_of_false nofun (Nat.succ_ne_zero pages).symm, ?_⟩
      simpa using hcopy
    · next s₁ hstep =>
      obtain ⟨h₁, hcopy⟩ := copied_cloneRange hne h rfl hs hsal hd hdal hpage.2 hstep
      rw [if_pos rfl] at hcopy
      obtain ⟨refs', hstock, ha₁⟩ := (cloneRange_room ha h hw hl rfl hsal hd hdal hstep).2 rfl
      obtain ⟨held, hinv⟩ := h.inv
      have hw₁ : Within N j (s.cloneRange src dst srcOff dstOff 4096).2 := hw.cloneRange hinv
      rw [hstep] at hw₁
      have hsrc : s₁.blocksOf src = s.blocksOf src := by
        rw [Sbi.blocksOf, hcopy.source.1, Sbi.blocksOf]
      obtain ⟨hres, hrest⟩ := ih ha₁ hw₁ h₁ (by omega) (by rwa [Int.add_emod_right]) (by omega)
        (by rwa [Int.add_emod_right]) hpage.1 hr
      rw [hsrc] at hres hrest
      rw [hstock]
      have hsum : ∀ done : ℕ, ((done + 1 : ℕ) : ℤ) * pageSize = pageSize + done * pageSize := by
        intro done
        push_cast
        ring
      refine ⟨hres.trans Nat.succ_inj.symm, ?_⟩
      simp only [hsum]
      exact hcopy.trans hrest rfl (by omega) (by unfold pageSize; omega) hd

end Zus.Toyfs
