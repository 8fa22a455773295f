import Zus.Toyfs.BlockList

/-!
# Room for blocks

A request that adds blocks to a file or copies shared ones stops half-way when the pool
runs out. How far it comes is decided before it starts: a block takes a page, and a page
more is cut whenever the records of a kind are used up. `Room` counts them, and every step
that takes a block uses up exactly the room it was counted for.

What is put back counts too. A clone over a whole file and a truncate first drop blocks,
and the pages of those that no other file shares are there for what comes next (`lastPut`).
-/

namespace Zus.Toyfs

open Zus.Lib

variable {s s' s₁ : Sbi} {held : RecPtr → ℕ} {n m d r : RecPtr} {ib : Iblkref} {kind : RecKind}
  {off last : ℤ} {N : Set ℕ} {k fresh copies : ℕ} {p q : Pool}

/-! ## Records and pages -/

namespace Pool

/-- The pages that are cut before `k` records of a kind are handed out. -/
def cuts (p : Pool) (kind : RecKind) (k : ℕ) : ℕ :=
  (k - (p.free kind).length + (kind.perPage - 1)) / kind.perPage

/-- The records of a kind the pool can hand out. -/
def recsLeft (p : Pool) (kind : RecKind) : ℕ :=
  (p.free kind).length + kind.perPage * p.pages.length

/-- There is room for `fresh` new blocks and for copies of `copies` shared ones. -/
def Room (p : Pool) (fresh copies : ℕ) : Prop :=
  fresh + copies + p.cuts .dblkref (fresh + copies) + p.cuts .iblkref fresh ≤ p.pages.length

instance : Decidable (p.Room fresh copies) := inferInstanceAs (Decidable (_ ≤ _))

theorem popFree_eq (h : p.popFree kind = some (r, q)) :
    p.free kind = r :: q.free kind ∧ ∀ kind', kind' ≠ kind → q.free kind' = p.free kind' := by
  unfold popFree at h
  split at h
  · cases h
  · next x rest hfree =>
    obtain ⟨rfl, rfl⟩ := Prod.mk.inj (Option.some.inj h)
    refine ⟨?_, fun kind' hne => Function.update_of_ne hne _ _⟩
    simp only [setFree, Function.update_self]
    exact hfree

@[simp] theorem length_recsOf (bn : ℕ) : (recsOf kind bn).length = kind.perPage := by
  simp [recsOf]

/-- A record is handed out from the free list, or it is the first one of a page. -/
theorem popRec_cases (h : p.popRec kind = some (r, q)) :
    ((p.free kind).length = (q.free kind).length + 1 ∧ q.pages = p.pages ∨
      p.free kind = [] ∧ (q.free kind).length + 1 = kind.perPage ∧
        p.pages.length = q.pages.length + 1) ∧
      ∀ kind', kind' ≠ kind → q.free kind' = p.free kind' := by
  unfold popRec at h
  split at h
  · next x hx =>
    obtain rfl := Option.some.inj h
    obtain ⟨hfree, hrest⟩ := popFree_eq hx
    refine ⟨.inl ⟨?_, popFree_pages hx⟩, hrest⟩
    rw [hfree, List.length_cons]
  · next hnone =>
    have hempty : p.free kind = [] := by
      unfold popFree at hnone
      split at hnone
      · assumption
      · cases hnone
    split at h
    · cases h
    · next p' hadd =>
      obtain ⟨hfree, hrest⟩ := popFree_eq h
      have hpages := popFree_pages h
      unfold addFree at hadd
      split at hadd
      · cases hadd
      · next b p₀ hpop =>
        obtain rfl := Option.some.inj hadd
        obtain ⟨rest, hp, rfl⟩ := popPmemb_eq hpop
        have hlen := congrArg List.length hfree
        simp only [setFree, Function.update_self, hempty, List.nil_append, length_recsOf,
          List.length_cons] at hlen
        refine ⟨.inr ⟨hempty, hlen.symm, ?_⟩, fun kind' hne => ?_⟩
        · rw [hpages, hp]
          rfl
        · rw [hrest kind' hne]
          exact Function.update_of_ne hne _ _

/-- There is no record to hand out when neither the list nor the pages have one. -/
theorem popRec_none (h : p.popRec kind = none) : p.free kind = [] ∧ p.pages = [] := by
  unfold popRec popFree at h
  cases hfree : p.free kind with
  | cons x rest =>
    rw [hfree] at h
    cases h
  | nil =>
    rw [hfree] at h
    refine ⟨rfl, ?_⟩
    unfold addFree popPmemb at h
    cases hpages : p.pages with
    | nil => rfl
    | cons b rest =>
      have hlen : 0 < (recsOf kind b).length := by
        rw [length_recsOf]
        cases kind <;> decide
      simp only [hpages, setFree, Function.update_self, hfree, List.nil_append] at h
      split at h
      · next heq =>
        rw [heq] at hlen
        cases hlen
      · cases h

/-- A record that is handed out is one of those counted, and cuts a page if it was counted to. -/
theorem cuts_popRec (h : p.popRec kind = some (r, q)) (k : ℕ) :
    q.pages.length + p.cuts kind (k + 1) = p.pages.length + q.cuts kind k := by
  unfold cuts
  obtain ⟨hlist | ⟨hempty, hlen, hpages⟩, -⟩ := popRec_cases h
  · rw [hlist.1, hlist.2, Nat.add_sub_add_right]
  · rw [hempty, List.length_nil]
    cases kind <;> simp only [RecKind.perPage] at * <;> omega

theorem cuts_pos (h : p.free kind = []) : 0 < p.cuts kind (k + 1) := by
  unfold cuts
  rw [h, List.length_nil]
  cases kind <;> simp only [RecKind.perPage] <;> omega

theorem cuts_congr (h : q.free kind = p.free kind) : q.cuts kind k = p.cuts kind k := by
  rw [cuts, cuts, h]

theorem recsLeft_popRec (h : p.popRec kind = some (r, q)) :
    q.recsLeft kind + 1 = p.recsLeft kind := by
  unfold recsLeft
  obtain ⟨hlist | ⟨hempty, hlen, hpages⟩, -⟩ := popRec_cases h
  · rw [hlist.1, hlist.2]
    omega
  · rw [hempty, hpages, List.length_nil, Nat.mul_add]
    omega

theorem recsLeft_eq_zero (h : p.popRec kind = none) : p.recsLeft kind = 0 := by
  obtain ⟨hfree, hpages⟩ := popRec_none h
  rw [recsLeft, hfree, hpages]
  rfl

end Pool

/-! ## Taking blocks -/

/-- It is the pool that decides whether there is a page. -/
theorem acquirePmemb_none (h : Within N k s) (ha : s.acquirePmemb = none) :
    s.pool.pages = [] := by
  have hfree := h.bfree
  have havail := h.bavail
  unfold Sbi.acquirePmemb at ha
  split at ha
  · exact List.length_eq_zero_iff.mp (by omega)
  split at ha
  · exact List.length_eq_zero_iff.mp (by omega)
  split at ha
  · next hpop =>
    unfold Pool.popPmemb at hpop
    split at hpop
    · assumption
    · cases hpop
  · cases ha

theorem acquirePmemb_pool {bn : ℕ} (ha : s.acquirePmemb = some (bn, s')) :
    s.pool.pages.length = s'.pool.pages.length + 1 ∧ s'.pool.free = s.pool.free := by
  obtain ⟨-, -, p, hpop, rfl⟩ := Sbi.acquirePmemb_some ha
  obtain ⟨rest, hpages, rfl⟩ := Pool.popPmemb_eq hpop
  exact ⟨by rw [hpages]; rfl, rfl⟩

/-- A block is made of a page and a record. -/
theorem newDblkref_pool (h : s.newDblkref = (some d, s')) :
    (∀ k, s'.pool.pages.length + 1 + s.pool.cuts .dblkref (k + 1) =
      s.pool.pages.length + s'.pool.cuts .dblkref k) ∧
      s'.pool.free .iblkref = s.pool.free .iblkref := by
  unfold Sbi.newDblkref at h
  split at h
  · cases (Prod.mk.inj h).1
  · next bn s₁ ha =>
    obtain ⟨hpages, hfree⟩ := acquirePmemb_pool ha
    split at h
    · cases (Prod.mk.inj h).1
    · next e s₂ hd =>
      obtain ⟨-, rfl⟩ := Prod.mk.inj h
      obtain ⟨p, hpop, rfl⟩ := Sbi.acquireDblkref_some hd
      refine ⟨fun k => ?_, ?_⟩
      · have hcut := Pool.cuts_popRec hpop k
        rw [Pool.cuts_congr (congrFun hfree .dblkref)] at hcut
        change p.pages.length + 1 + s.pool.cuts .dblkref (k + 1) =
          s.pool.pages.length + p.cuts .dblkref k
        omega
      · change p.free .iblkref = s.pool.free .iblkref
        rw [(Pool.popRec_cases hpop).2 _ (by decide), hfree]

theorem newDblkref_none_pool (h : Within N k s) (hn : s.newDblkref = (none, s')) (l : ℕ) :
    s.pool.pages.length < l + 1 + s.pool.cuts .dblkref (l + 1) := by
  unfold Sbi.newDblkref at hn
  split at hn
  · next ha =>
    rw [acquirePmemb_none h ha, List.length_nil]
    omega
  · next bn s₁ ha =>
    obtain ⟨hpages, hfree⟩ := acquirePmemb_pool ha
    split at hn
    · next hd =>
      -- the one page there was would have had to be cut
      obtain ⟨hempty, hnil⟩ := Pool.popRec_none (Sbi.acquireDblkref_none hd)
      rw [hnil, List.length_nil] at hpages
      rw [hfree] at hempty
      have hpos := @Pool.cuts_pos .dblkref l s.pool hempty
      omega
    · cases (Prod.mk.inj hn).1

/-- **A copy of a block** uses the room of one copy. -/
theorem newDblkref_room (h : s.newDblkref = (some d, s')) :
    s'.pool.Room fresh copies ↔ s.pool.Room fresh (copies + 1) := by
  obtain ⟨hcut, hfree⟩ := newDblkref_pool h
  have hcut := hcut (fresh + copies)
  have hib := @Pool.cuts_congr .iblkref fresh _ _ hfree
  unfold Pool.Room
  rw [hib, ← Nat.add_assoc]
  omega

theorem newDblkref_none_room (h : Within N k s) (hn : s.newDblkref = (none, s')) :
    ¬ s.pool.Room fresh (copies + 1) := by
  have hlt := newDblkref_none_pool h hn (fresh + copies)
  unfold Pool.Room
  rw [← Nat.add_assoc]
  omega

/-- **A new block** uses the room of one new block. -/
theorem newIblkref_room (h : s.newIblkref n off = (some ib, s')) :
    s'.pool.Room fresh copies ↔ s.pool.Room (fresh + 1) copies := by
  unfold Sbi.newIblkref at h
  split at h
  · cases (Prod.mk.inj h).1
  · next d s₁ hd =>
    obtain ⟨hcut, hfree⟩ := newDblkref_pool hd
    split at h
    · cases (Prod.mk.inj h).1
    · next r s₂ hr =>
      obtain ⟨-, rfl⟩ := Prod.mk.inj h
      obtain ⟨p, hpop, rfl⟩ := Sbi.acquireIblkref_some hr
      have hcut := hcut (fresh + copies)
      have hib := Pool.cuts_popRec hpop fresh
      have hdb : p.cuts .dblkref (fresh + copies) = s₁.pool.cuts .dblkref (fresh + copies) :=
        Pool.cuts_congr ((Pool.popRec_cases hpop).2 _ (by decide))
      rw [Pool.cuts_congr hfree] at hib
      have hsum : fresh + 1 + copies = fresh + copies + 1 := by omega
      unfold Pool.Room
      rw [hsum]
      change fresh + copies + p.cuts .dblkref (fresh + copies) + p.cuts .iblkref fresh ≤
        p.pages.length ↔ _
      omega

theorem newIblkref_none_room (h : Within N k s) (hn : s.newIblkref n off = (none, s')) :
    ¬ s.pool.Room (fresh + 1) copies := by
  have hsum : fresh + 1 + copies = fresh + copies + 1 := by omega
  unfold Pool.Room
  rw [hsum]
  unfold Sbi.newIblkref at hn
  split at hn
  · next s₁ hd =>
    have hlt := newDblkref_none_pool h hd (fresh + copies)
    omega
  · next d s₁ hd =>
    obtain ⟨hcut, hfree⟩ := newDblkref_pool hd
    split at hn
    · next hr =>
      -- the records of this kind would have needed a page too
      obtain ⟨hempty, hnil⟩ := Pool.popRec_none (Sbi.acquireIblkref_none hr)
      have hcut := hcut (fresh + copies)
      rw [hfree] at hempty
      have hpos := @Pool.cuts_pos .iblkref fresh s.pool hempty
      rw [hnil, List.length_nil] at hcut
      omega
    · cases (Prod.mk.inj hn).1

/-! ## Ranges of a file -/

/-- The pages of a range, by the offsets of their blocks. -/
def pagesIn (off last : ℤ) : List ℤ :=
  if off < last then offToBoff off :: pagesIn (nextPage off) last else []
termination_by (last - off).toNat
decreasing_by
  have := lt_nextPage off
  omega

theorem pagesIn_of_lt (h : off < last) :
    pagesIn off last = offToBoff off :: pagesIn (nextPage off) last := by
  rw [pagesIn, if_pos h]

theorem pagesIn_of_ge (h : last ≤ off) : pagesIn off last = [] := by
  rw [pagesIn, if_neg (Int.not_lt.mpr h)]

theorem le_of_mem_pagesIn {boff : ℤ} (hoff : 0 ≤ off) (hm : boff ∈ pagesIn off last) :
    offToBoff off ≤ boff := by
  fun_induction pagesIn off last with
  | case1 off hlt ih =>
    rcases List.mem_cons.mp hm with rfl | hm
    · exact Int.le_refl _
    · exact (offToBoff_le_nextPage hoff).trans (ih (nextPage_nonneg hoff) hm)
  | case2 off hge => cases hm

/-- The pages after the first one are other pages. -/
theorem ne_of_mem_pagesIn_next {boff : ℤ} (hoff : 0 ≤ off)
    (hm : boff ∈ pagesIn (nextPage off) last) : boff ≠ offToBoff off := by
  have hle := le_of_mem_pagesIn (nextPage_nonneg hoff) hm
  rw [offToBoff_of_aligned (nextPage_emod hoff)] at hle
  have hlt := lt_nextPage off
  have hboff := offToBoff_le hoff
  omega

theorem length_pagesIn {boff : ℤ} (hal : boff % pageSize = 0) (pages : ℕ) :
    (pagesIn boff (boff + pages * pageSize)).length = pages := by
  induction pages generalizing boff with
  | zero => simp [pagesIn_of_ge]
  | succ pages ih =>
    have hpos : (0 : ℤ) < pageSize := by decide
    have hend : boff + (pages + 1 : ℕ) * pageSize = boff + pageSize + pages * pageSize := by
      push_cast
      ring
    have hlt : boff < boff + pageSize + pages * pageSize := by
      have := Int.mul_nonneg (Int.natCast_nonneg pages) hpos.le
      omega
    rw [hend, pagesIn_of_lt hlt, nextPage_of_aligned hal, List.length_cons,
      ih (by rwa [Int.add_emod_right])]

namespace Sbi

variable (s : Sbi) (n : RecPtr)

/-- The file has no block for a page. -/
def MissingAt (boff : ℤ) : Prop := ∀ ib ∈ s.blocksOf n, ib.off ≠ boff

/-- The file shares its block for a page. -/
def SharedAt (boff : ℤ) : Prop :=
  ∃ ib ∈ s.blocksOf n, ib.off = boff ∧ 1 < (s.dblkrefs ib.dblkref).refcnt

instance (boff : ℤ) : Decidable (s.MissingAt n boff) :=
  inferInstanceAs (Decidable (∀ ib ∈ s.blocksOf n, ib.off ≠ boff))

instance (boff : ℤ) : Decidable (s.SharedAt n boff) :=
  inferInstanceAs (Decidable (∃ ib ∈ s.blocksOf n, _))

/-- There is room for the blocks a store to a range needs: new ones for the pages that have
none, and copies of the shared ones. -/
def Fits (off last : ℤ) : Prop :=
  s.pool.Room ((pagesIn off last).countP fun b => s.MissingAt n b)
    ((pagesIn off last).countP fun b => s.SharedAt n b)

instance (off last : ℤ) : Decidable (s.Fits n off last) :=
  inferInstanceAs (Decidable (Pool.Room _ _ _))

end Sbi

section Require

variable {res : Option Iblkref}

/-- The blocks in use keep their counts and pages. -/
theorem requireIblkref_dblkrefs (h : Inv held s) (hreg : (s.inodes n).iMode = .reg)
    (hr : s.requireIblkref n off = (res, s')) (hd : 0 < counts s d) :
    s'.dblkrefs d = s.dblkrefs d := by
  rcases requireIblkref_cases h hreg hr with ⟨-, -, hq⟩ | ⟨ib, -, -, -, rfl⟩ |
    ⟨ib, s₁, -, -, -, hq, -, -, -, -, rfl⟩ | ⟨ib, e, s₁, -, -, -, hq, -, -, -, -, rfl⟩
  · exact hq.dblkrefs d hd
  · rfl
  · exact hq.dblkrefs d hd
  · exact hq.dblkrefs d hd

/-- The blocks of the other pages stay. -/
theorem mem_requireIblkref (h : Inv held s) (hreg : (s.inodes n).iMode = .reg)
    (hr : s.requireIblkref n off = (res, s')) (hne : ib.off ≠ offToBoff off) :
    ib ∈ s'.blocksOf n ↔ ib ∈ s.blocksOf n := by
  rcases requireIblkref_cases h hreg hr with ⟨-, -, hq⟩ | ⟨x, -, -, -, rfl⟩ |
    ⟨x, s₁, -, -, hx, -, -, -, -, -, rfl⟩ | ⟨x, e, s₁, -, hscan, -, -, -, -, -, -, rfl⟩
  · rw [Sbi.blocksOf, hq.inodes, Sbi.blocksOf]
  · rfl
  · rw [blocksOf_setInode, (insertIblkref_perm x _).mem_iff, List.mem_cons, or_iff_right]
    rintro rfl
    exact hne hx
  · obtain ⟨hm, hx⟩ := scanIblkref_some hscan
    have hkeep : ∀ y ∈ s.blocksOf n, y.off ≠ offToBoff off → y.ptr ≠ x.ptr := by
      intro y hy hyoff hptr
      refine hyoff ?_
      rw [List.inj_on_of_nodup_map (h.ptrNodup n) hy hm hptr, hx]
    rw [blocksOf_setInode, retargetIblkref, List.mem_map]
    refine ⟨?_, fun hin => ⟨ib, hin, if_neg (hkeep ib hin hne)⟩⟩
    rintro ⟨y, hy, rfl⟩
    have hyoff : y.off ≠ offToBoff off := by
      intro heq
      refine hne ?_
      split <;> exact heq
    rw [if_neg (hkeep y hy hyoff)]
    exact hy

/-- The pages after the one required need what they needed before. -/
theorem countP_requireIblkref (hoff : 0 ≤ off) (h : Inv held s) (hreg : (s.inodes n).iMode = .reg)
    (hr : s.requireIblkref n off = (res, s')) :
    (pagesIn (nextPage off) last).countP (fun b => s'.MissingAt n b) =
      (pagesIn (nextPage off) last).countP (fun b => s.MissingAt n b) ∧
    (pagesIn (nextPage off) last).countP (fun b => s'.SharedAt n b) =
      (pagesIn (nextPage off) last).countP (fun b => s.SharedAt n b) := by
  refine ⟨List.countP_congr fun b hb => ?_, List.countP_congr fun b hb => ?_⟩
  · have hne := ne_of_mem_pagesIn_next hoff hb
    rw [decide_eq_true_eq, decide_eq_true_eq]
    refine forall_congr' fun x => ⟨fun hx hin heq => ?_, fun hx hin heq => ?_⟩
    · exact hx ((mem_requireIblkref h hreg hr (by rwa [heq])).mpr hin) heq
    · exact hx ((mem_requireIblkref h hreg hr (by rwa [heq])).mp hin) heq
  · have hne := ne_of_mem_pagesIn_next hoff hb
    rw [decide_eq_true_eq, decide_eq_true_eq]
    have hcnt : ∀ x ∈ s.blocksOf n, (s'.dblkrefs x.dblkref).refcnt = (s.dblkrefs x.dblkref).refcnt :=
      fun x hx => congrArg Dblkref.refcnt
        (requireIblkref_dblkrefs h hreg hr (h.counts_pos (mem_keys_of_mem hx)))
    constructor
    · rintro ⟨x, hin, heq, hlt⟩
      have hx := (mem_requireIblkref h hreg hr (by rwa [heq])).mp hin
      exact ⟨x, hx, heq, by rwa [hcnt x hx] at hlt⟩
    · rintro ⟨x, hx, heq, hlt⟩
      exact ⟨x, (mem_requireIblkref h hreg hr (by rwa [heq])).mpr hx, heq, by rwa [hcnt x hx]⟩

/-- **Room for a range**, page by page: what a page needs is what requiring it takes. -/
theorem requireIblkref_fits (hoff : 0 ≤ off) (hlt : off < last) (h : Inv held s)
    (hoffs : OffsetsOk (s.blocksOf n)) (hw : Within N k s) (hreg : (s.inodes n).iMode = .reg)
    (hr : s.requireIblkref n off = (res, s')) :
    s.Fits n off last ↔ res.isSome ∧ s'.Fits n (nextPage off) last := by
  obtain ⟨hmiss, hshare⟩ := @countP_requireIblkref s s' held n off last res hoff h hreg hr
  unfold Sbi.Fits
  rw [hmiss, hshare, pagesIn_of_lt hlt, List.countP_cons, List.countP_cons]
  generalize (pagesIn (nextPage off) last).countP (fun b => s.MissingAt n b) = fresh
  generalize (pagesIn (nextPage off) last).countP (fun b => s.SharedAt n b) = copies
  unfold Sbi.requireIblkref at hr
  split at hr
  · next hscan =>
    have hnone : ∀ ib ∈ s.blocksOf n, ib.off ≠ offToBoff off := scanIblkref_none hoffs hscan
    have hmissing : s.MissingAt n (offToBoff off) := hnone
    have hshared : ¬ s.SharedAt n (offToBoff off) := fun ⟨x, hx, heq, _⟩ => hnone x hx heq
    rw [decide_eq_true hmissing, decide_eq_false hshared]
    split at hr
    · next s₁ hn =>
      obtain ⟨rfl, rfl⟩ := Prod.mk.inj hr
      simpa using newIblkref_none_room hw hn
    · next ib s₁ hn =>
      obtain ⟨rfl, rfl⟩ := Prod.mk.inj hr
      have hroom : s₁.pool.Room fresh copies ↔ _ := newIblkref_room hn
      change _ ↔ _ ∧ s₁.pool.Room fresh copies
      simpa using hroom.symm
  · next ib hscan =>
    obtain ⟨hm, hib⟩ := scanIblkref_some hscan
    have hmissing : ¬ s.MissingAt n (offToBoff off) := fun hall => hall ib hm hib
    rw [decide_eq_false hmissing]
    split at hr
    · next hmany =>
      have hshared : s.SharedAt n (offToBoff off) := ⟨ib, hm, hib, hmany⟩
      rw [decide_eq_true hshared]
      split at hr
      · next s₁ hn =>
        obtain ⟨rfl, rfl⟩ := Prod.mk.inj hr
        simpa using newDblkref_none_room hw hn
      · next d s₁ hn =>
        obtain ⟨rfl, rfl⟩ := Prod.mk.inj hr
        have hroom : s₁.pool.Room fresh copies ↔ _ := newDblkref_room hn
        change _ ↔ _ ∧ s₁.pool.Room fresh copies
        simpa using hroom.symm
    · next hone =>
      obtain ⟨rfl, rfl⟩ := Prod.mk.inj hr
      have hshared : ¬ s.SharedAt n (offToBoff off) := by
        rintro ⟨x, hx, heq, hmany⟩
        obtain rfl := hoffs.eq_of_off hx hm (heq.trans hib.symm)
        exact hone hmany
      rw [decide_eq_false hshared]
      simp

end Require

/-- An empty range needs nothing. -/
theorem fits_of_ge (h : last ≤ off) : s.Fits n off last := by
  unfold Sbi.Fits Pool.Room Pool.cuts
  rw [pagesIn_of_ge h]
  simp [RecKind.perPage]

/-- A store changes nothing that counts. -/
theorem fits_congr (hp : s'.pool = s.pool) (hb : s'.blocksOf n = s.blocksOf n)
    (hd : s'.dblkrefs = s.dblkrefs) : s'.Fits n off last ↔ s.Fits n off last := by
  have hmiss : ∀ b, s'.MissingAt n b ↔ s.MissingAt n b := fun b => by
    rw [Sbi.MissingAt, hb, Sbi.MissingAt]
  have hshare : ∀ b, s'.SharedAt n b ↔ s.SharedAt n b := fun b => by
    rw [Sbi.SharedAt, hb, hd, Sbi.SharedAt]
  unfold Sbi.Fits
  simp only [hp, hmiss, hshare]

/-- In an empty file there is room for as many pages as there are blocks and records for. -/
theorem fits_empty_iff (hnil : s.blocksOf n = []) (pages : ℕ) :
    s.Fits n 0 (pages * pageSize) ↔ s.pool.Room pages 0 := by
  have hmiss : (pagesIn 0 (pages * pageSize)).countP (fun b => s.MissingAt n b) = pages := by
    have hlen := length_pagesIn (Int.zero_emod pageSize) pages
    rw [Int.zero_add] at hlen
    rw [List.countP_eq_length.mpr, hlen]
    simp [Sbi.MissingAt, hnil]
  have hshare : (pagesIn 0 (pages * pageSize)).countP (fun b => s.SharedAt n b) = 0 := by
    rw [List.countP_eq_zero]
    simp [Sbi.SharedAt, hnil]
  rw [Sbi.Fits, hmiss, hshare]

/-- **`_falloc_range` comes to its end exactly when there is room.** -/
theorem fallocRangeLoop_result {cnt : UInt64} (hoff : 0 ≤ off) (h : FileOk n s)
    (hinv : Inv held s) (hw : Within N k s) (hreg : (s.inodes n).iMode = .reg) :
    (s.fallocRangeLoop n off last cnt).1 =
      if s.Fits n off last then .ok (cnt + toSize (max (last - off) 0)) else .error .enospc := by
  fun_induction Sbi.fallocRangeLoop s n off last cnt generalizing held with
  | case1 s off cnt hlt s₁ hreq =>
    rw [if_neg]
    simp [requireIblkref_fits hoff hlt hinv h.list.offsets hw hreg hreq]
  | case2 s off cnt hlt ib s₁ hreq ih =>
    have hserve : Serves n ∅ _ held s s₁ := requireIblkref_serves hinv hreg hreq
    obtain ⟨held₁, hinv₁, -⟩ := hserve.inv
    have hw₁ : Within N k (s.requireIblkref n off).2 := hw.requireIblkref
    rw [hreq] at hw₁
    have hfits : s.Fits n off last ↔ s₁.Fits n (nextPage off) last := by
      simp [requireIblkref_fits hoff hlt hinv h.list.offsets hw hreg hreq]
    rw [ih (nextPage_nonneg hoff) (h.requireIblkref hinv hreg hoff hreq) hinv₁ hw₁ hserve.reg,
      UInt64.add_assoc, nbytesInRange_add _ hlt]
    simp [hfits]
  | case3 s off cnt hlt =>
    have hend : max (last - off) 0 = 0 := by omega
    rw [if_pos (fits_of_ge (Int.not_lt.mp hlt)), hend]
    exact congrArg Except.ok (UInt64.add_zero cnt).symm

/-- **`_write` comes to its end exactly when there is room.** -/
theorem writeLoop_result {buf : Bytes} {cnt : UInt64} (hoff : 0 ≤ off) (h : FileOk n s)
    (hinv : Inv held s) (hw : Within N k s) (hreg : (s.inodes n).iMode = .reg) :
    (s.writeLoop n buf off last cnt).1 =
      if s.Fits n off last then .ok (cnt + toSize (max (last - off) 0)) else .error .enospc := by
  fun_induction Sbi.writeLoop s n buf off last cnt generalizing held with
  | case1 s buf off cnt hlt s₁ hreq =>
    rw [if_neg]
    simp [requireIblkref_fits hoff hlt hinv h.list.offsets hw hreg hreq]
  | case2 s buf off cnt hlt ib s₁ hreq len s₂ =>
    rename_i ih
    have hserve : Serves n ∅ _ held s s₁ := requireIblkref_serves hinv hreg hreq
    obtain ⟨held₁, hinv₁, -⟩ := hserve.inv
    have hw₁ : Within N k (s.requireIblkref n off).2 := hw.requireIblkref
    rw [hreq] at hw₁
    have h₁ := h.requireIblkref hinv hreg hoff hreq
    -- the store takes no room
    have hstore : s₂.Fits n (nextPage off) last ↔ s₁.Fits n (nextPage off) last :=
      fits_congr rfl rfl rfl
    have hfits : s.Fits n off last ↔ s₂.Fits n (nextPage off) last := by
      simp [requireIblkref_fits hoff hlt hinv h.list.offsets hw hreg hreq, hstore]
    rw [ih (nextPage_nonneg hoff) (h₁.storeAt (offInPage_nonneg hoff) (piece_fits hoff hlt))
        (hinv₁.storeAt _ _ _ _) hw₁.storeAt hserve.reg,
      UInt64.add_assoc, nbytesInRange_add _ hlt]
    simp [hfits]
  | case3 s buf off cnt hlt =>
    have hend : max (last - off) 0 = 0 := by omega
    rw [if_pos (fits_of_ge (Int.not_lt.mp hlt)), hend]
    exact congrArg Except.ok (UInt64.add_zero cnt).symm

/-! ## Dropping blocks -/

/-- What the pool gets back, page by page and record by record. -/
structure Regains (freed recs : ℕ) (s s' : Sbi) : Prop where
  pages : s'.pool.pages.length = s.pool.pages.length + freed
  dblkrefs : (s'.pool.free .dblkref).length = (s.pool.free .dblkref).length + freed
  iblkrefs : (s'.pool.free .iblkref).length = (s.pool.free .iblkref).length + recs

namespace Regains

variable {freed freed' recs recs' : ℕ}

theorem refl (s : Sbi) : Regains 0 0 s s := ⟨rfl, rfl, rfl⟩

theorem trans (h : Regains freed recs s s₁) (h₁ : Regains freed' recs' s₁ s') :
    Regains (freed + freed') (recs + recs') s s' where
  pages := by rw [h₁.pages, h.pages, Nat.add_assoc]
  dblkrefs := by rw [h₁.dblkrefs, h.dblkrefs, Nat.add_assoc]
  iblkrefs := by rw [h₁.iblkrefs, h.iblkrefs, Nat.add_assoc]

/-- The records that are left afterwards. -/
theorem recsLeft (h : Regains freed recs s s') :
    s'.pool.recsLeft .iblkref = s.pool.recsLeft .iblkref + recs + 128 * freed := by
  unfold Pool.recsLeft
  rw [h.pages, h.iblkrefs]
  change _ + recs + 128 * _ = _ + 128 * _ + recs + _
  ring

/-- What comes back makes room for a copy. -/
theorem room (h : Regains freed recs s s') (hroom : 0 < freed ∨ s.pool.Room 0 1) :
    s'.pool.Room 0 1 := by
  unfold Pool.Room Pool.cuts at *
  rw [h.pages, h.dblkrefs]
  simp only [RecKind.perPage] at *
  omega

end Regains

theorem regains_putDblkref :
    Regains (if counts s d ≤ 1 then 1 else 0) 0 s (s.putDblkref d) := by
  unfold Sbi.putDblkref
  by_cases hone : counts s d ≤ 1
  · rw [if_pos hone, if_pos (by unfold counts at hone; omega)]
    refine ⟨rfl, ?_, rfl⟩
    simp [Sbi.freeDblkref, Sbi.releasePmemb, Sbi.releaseDblkref, Sbi.decRefcnt, Sbi.setDblkref,
      Pool.pushRec, Pool.pushPmemb, Pool.setFree]
  · rw [if_neg hone, if_neg (by unfold counts at hone; omega)]
    exact ⟨rfl, rfl, rfl⟩

theorem regains_dropIblkref :
    Regains (if counts s ib.dblkref ≤ 1 then 1 else 0) 1 s (s.dropIblkref n ib) := by
  obtain ⟨c₁, c₂, heq⟩ := @dropIblkref_eq s n ib
  set s₁ := s.setBlocks n ((s.blocksOf n).filter fun x => x.ptr ≠ ib.ptr)
  have hput : Regains (if counts s ib.dblkref ≤ 1 then 1 else 0) 0 s (s₁.putDblkref ib.dblkref) := by
    obtain ⟨hp, hd, hi⟩ := @regains_putDblkref s₁ ib.dblkref
    exact ⟨hp, hd, hi⟩
  have hpush : Regains 0 1 (s₁.putDblkref ib.dblkref) (s.dropIblkref n ib) := by
    rw [heq]
    refine ⟨rfl, rfl, ?_⟩
    simp [Sbi.releaseIblkref, Sbi.assert, Sbi.setInode, Pool.pushRec, Pool.setFree]
  exact hput.trans hpush

theorem counts_dropIblkref :
    counts (s.dropIblkref n ib) =
      Function.update (counts s) ib.dblkref (counts s ib.dblkref - 1) := by
  obtain ⟨c₁, c₂, heq⟩ := @dropIblkref_eq s n ib
  set s₁ := s.setBlocks n ((s.blocksOf n).filter fun x => x.ptr ≠ ib.ptr)
  have hput : counts (s.dropIblkref n ib) = counts (s₁.putDblkref ib.dblkref) := by
    rw [heq]
    rfl
  rw [hput]
  funext e
  by_cases he : e = ib.dblkref
  · rw [he, Function.update_self]
    exact putDblkref_counts_self
  · rw [Function.update_of_ne he]
    exact congrArg Dblkref.refcnt (putDblkref_dblkrefs_ne he)

/-- **Dropping blocks** gives back their records, and the pages that had no other user. -/
theorem regains_dropBlocks (l : List Iblkref) (h : Inv held s) (hreg : (s.inodes n).iMode = .reg)
    (hnd : (l.map Iblkref.ptr).Nodup) (hl : ∀ ib ∈ l, ib ∈ s.blocksOf n) :
    let s' := l.foldl (fun s ib => s.dropIblkref n ib) s
    let ds := l.map Iblkref.dblkref
    Regains (lastRefs (counts s) ds) l.length s s' ∧
      ∀ d, ds.count d + counts s' d = counts s d := by
  induction l generalizing s held with
  | nil => exact ⟨.refl s, fun d => by simp⟩
  | cons ib rest ih =>
    rw [List.map_cons, List.nodup_cons] at hnd
    have hm := hl ib List.mem_cons_self
    have hpos : 0 < counts s ib.dblkref := h.counts_pos (mem_keys_of_mem hm)
    have hserve : Serves n ∅ True held s (s.dropIblkref n ib) := dropIblkref_serves h hreg hm
    obtain ⟨held₁, h₁, -⟩ := hserve.inv
    obtain ⟨hregain, hcount⟩ := ih h₁ hserve.reg hnd.2 fun x hx => by
      -- the blocks still to come are other ones
      rw [blocksOf_dropIblkref, List.mem_filter, decide_eq_true_eq]
      exact ⟨hl x (List.mem_cons_of_mem _ hx), fun heq => hnd.1 (heq ▸ List.mem_map_of_mem hx)⟩
    rw [counts_dropIblkref] at hregain hcount
    have hself := hcount ib.dblkref
    rw [Function.update_self] at hself
    have hlast := @lastRefs_cons _ (counts s) ib.dblkref _ (rest.map Iblkref.dblkref) (by omega)
    have hone : counts s ib.dblkref ≤ 1 ↔ counts s ib.dblkref = 1 := by omega
    refine ⟨?_, fun d => ?_⟩
    · have hboth := (@regains_dropIblkref s n ib).trans hregain
      simp only [hone] at hboth
      rw [List.map_cons, hlast, List.length_cons, Nat.add_comm rest.length]
      exact hboth
    · have hd := hcount d
      rw [List.map_cons, List.count_cons]
      by_cases he : d = ib.dblkref
      · subst he
        simp only [beq_self_eq_true, if_true, List.foldl_cons]
        omega
      · rw [Function.update_of_ne he] at hd
        have hne : (ib.dblkref == d) = false := beq_false_of_ne (Ne.symm he)
        simp only [hne, List.foldl_cons]
        simpa using hd

/-- The blocks `_drop_range` drops. -/
def Sbi.dropped (s : Sbi) (n : RecPtr) (pos : ℤ) : List Iblkref :=
  (s.blocksOf n).filter fun ib => pos ≤ ib.off

/-- **`_drop_range`** of a position at the start of a page. -/
theorem regains_dropRange {pos : ℤ} (h : Inv held s) (hreg : (s.inodes n).iMode = .reg) :
    let pos' := if pos % pageSize ≠ 0 then nextPage pos else pos
    let ds := (s.dropped n pos').map Iblkref.dblkref
    Regains (lastRefs (counts s) ds) (s.dropped n pos').length s (s.dropRange n pos) ∧
      ∀ d, ds.count d + counts (s.dropRange n pos) d = counts s d := by
  intro pos' ds
  have hfold : s.dropRange n pos = (s.dropped n pos').foldl (fun s ib => s.dropIblkref n ib) s := by
    rw [Sbi.dropRange, Sbi.dropped, List.foldl_filter]
    simp only [decide_eq_true_eq]
    rfl
  rw [hfold]
  have hsub : (s.dropped n pos').Sublist (s.blocksOf n) := List.filter_sublist
  exact regains_dropBlocks _ h hreg ((h.ptrNodup n).sublist (hsub.map _)) fun ib hm => hsub.subset hm

end Zus.Toyfs
