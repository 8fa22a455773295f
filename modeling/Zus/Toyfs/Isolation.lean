import Mathlib.Data.List.Find
import Zus.Toyfs.Atomic

/-!
# What other files see of a request

Clones share blocks. `_write`, `toyfs_truncate`, `toyfs_clone` and the allocation of a range
give a file a block of its own before they store into it, and `_collapse_range` stores nothing.
The other ways to store do not ask whether a block is shared: `_punch_hole` in a page that is
covered in part, `_zero_range`, and an application in a block that `_get_block_wr` found. What
they store shows in every file that has the block.
-/

namespace Zus.Toyfs

open Zus.Lib

variable {s s' s₁ : Sbi} {held : RecPtr → ℕ} {n m : RecPtr} {ib : Iblkref} {l : List Iblkref}
  {Z Z' : Set (RecPtr × ℕ)} {v : ℕ → UInt8} {P Q : ℤ → Prop} {off last p : ℤ}

/-! ## Stores, seen from a file -/

/-- What a file sees of stores: `v`, by the place in the page, at the places `Z` of blocks, and
the bytes that were there at all others. -/
structure Overlaid (m : RecPtr) (Z : Set (RecPtr × ℕ)) (v : ℕ → UInt8) (s s' : Sbi) : Prop where
  inode : s'.inodes m = s.inodes m
  page : ∀ k ∈ (s.inodes m).keys, s'.pageOf k.2 = s.pageOf k.2
  stored : ∀ k ∈ (s.inodes m).keys, ∀ i, (k.2, i) ∈ Z → s'.mem (s.pageOf k.2) i = v i
  kept : ∀ k ∈ (s.inodes m).keys, ∀ i, (k.2, i) ∉ Z →
    s'.mem (s.pageOf k.2) i = s.mem (s.pageOf k.2) i

/-- The file reads the same with the stores. -/
def Sbi.Spares (s : Sbi) (m : RecPtr) (Z : Set (RecPtr × ℕ)) (v : ℕ → UInt8) : Prop :=
  ∀ p : ℤ, 0 ≤ p → p < (s.inodes m).iSize.toNat → ∀ ib ∈ fetchIblkref (s.blocksOf m) p,
    (ib.dblkref, (offInPage p).toNat) ∈ Z → s.byteAt m p = v (offInPage p).toNat

theorem KeepsFile.overlaid (h : KeepsFile m s s') : Overlaid m ∅ v s s' where
  inode := h.1
  page k hk := (h.2 k hk).1
  stored _ _ _ hi := absurd hi (Set.notMem_empty _)
  kept k hk i _ := congrFun (h.2 k hk).2 i

theorem Overlaid.trans (h : Overlaid m Z v s s₁) (h₁ : Overlaid m Z' v s₁ s') :
    Overlaid m (Z ∪ Z') v s s' := by
  have hkey : ∀ k ∈ (s.inodes m).keys, k ∈ (s₁.inodes m).keys := by
    rw [h.inode]
    exact fun k hk => hk
  refine ⟨h₁.inode.trans h.inode, fun k hk => ?_, fun k hk i hi => ?_, fun k hk i hi => ?_⟩
  · rw [h₁.page k (hkey k hk), h.page k hk]
  · rw [← h.page k hk]
    by_cases hlate : (k.2, i) ∈ Z'
    · exact h₁.stored k (hkey k hk) i hlate
    · rw [h₁.kept k (hkey k hk) i hlate, h.page k hk]
      exact h.stored k hk i (hi.resolve_right hlate)
  · rw [Set.mem_union, not_or] at hi
    rw [← h.page k hk, h₁.kept k (hkey k hk) i hi.2, h.page k hk]
    exact h.kept k hk i hi.1

/-- **A file reads the same just when** what is stored was there. -/
theorem Overlaid.readsSame_iff (h : Overlaid m Z v s s') : ReadsSame m s s' ↔ s.Spares m Z v := by
  have hblocks : s'.blocksOf m = s.blocksOf m := by rw [Sbi.blocksOf, h.inode, Sbi.blocksOf]
  rw [ReadsSame.iff_bytes (by rw [h.inode])]
  refine forall_congr' fun p => forall_congr' fun _ => forall_congr' fun _ => ?_
  unfold Sbi.byteAt
  rw [hblocks]
  rcases hf : fetchIblkref (s.blocksOf m) p with _ | ib
  · simp
  · have hk := mem_keys_of_mem (fetchIblkref_some hf).1
    have hpage := h.page _ hk
    simp only [Option.mem_some_iff, forall_eq']
    rw [hpage]
    by_cases hi : (ib.dblkref, (offInPage p).toNat) ∈ Z
    · rw [h.stored _ hk _ hi]
      exact ⟨fun heq _ => heq.symm, fun heq => (heq hi).symm⟩
    · rw [h.kept _ hk _ hi]
      exact iff_of_true rfl fun hin => absurd hin hi

/-- **A store into a block** of any file. -/
theorem overlaid_setPage {o len : ℕ} {src : Bytes} (h : Inv held s) (hm : ib ∈ s.blocksOf n)
    (hsrc : ∀ i, o ≤ i → i < o + len → src (i - o) = v i)
    (hmem : s'.mem = Function.update s.mem (s.pageOf ib.dblkref)
      ((s.mem (s.pageOf ib.dblkref)).store o len src))
    (hdb : s'.dblkrefs = s.dblkrefs) (hin : s'.inodes = s.inodes) :
    Overlaid m { q | q.1 = ib.dblkref ∧ o ≤ q.2 ∧ q.2 < o + len } v s s' := by
  refine ⟨by rw [hin], fun k _ => by rw [Sbi.pageOf, hdb, Sbi.pageOf], ?_, ?_⟩
  · rintro k - i ⟨hd, hlo, hhi⟩
    replace hd : k.2 = ib.dblkref := hd
    rw [hmem, hd, Function.update_self, Bytes.store_of_mem _ _ hlo hhi]
    exact hsrc i hlo hhi
  · intro k hk i hi
    rw [hmem]
    by_cases hd : k.2 = ib.dblkref
    · rw [hd, Function.update_self]
      exact if_neg fun hin => hi ⟨hd, hin⟩
    · have hpos := h.counts_pos (mem_keys_of_mem hm)
      rw [Function.update_of_ne (h.page_ne hpos (h.counts_pos hk) hd)]

/-! ## Zeros -/

/-- The places `_zero_range_at` stores to. -/
def zeroedAt (d : RecPtr) (off : ℤ) (len : UInt64) : Set (RecPtr × ℕ) :=
  let poff := offInPage off
  { q | q.1 = d ∧ poff.toNat ≤ q.2 ∧
    q.2 < poff.toNat + (nbytesInRange poff (nextPage poff) (poff + toLoff len)).toNat }

theorem overlaid_zeroRangeAt {len : UInt64} (h : Inv held s) (hm : ib ∈ s.blocksOf n) :
    Overlaid m (zeroedAt ib.dblkref off len) (fun _ => 0) s (s.zeroRangeAt ib off len) :=
  overlaid_setPage h hm (fun _ _ _ => rfl) rfl rfl rfl

/-- The places where the bytes of a file at some positions are. -/
def Sbi.placesOf (s : Sbi) (n : RecPtr) (P : ℤ → Prop) : Set (RecPtr × ℕ) :=
  { q | ∃ p, P p ∧ ∃ ib ∈ fetchIblkref (s.blocksOf n) p, q = (ib.dblkref, (offInPage p).toNat) }

theorem Sbi.placesOf_or (s : Sbi) (n : RecPtr) (P Q : ℤ → Prop) :
    s.placesOf n (fun p => P p ∨ Q p) = s.placesOf n P ∪ s.placesOf n Q := by
  ext q
  simp only [Sbi.placesOf, Set.mem_ofPred_eq, Set.mem_union, or_and_right, exists_or]

theorem placesOf_congr
    (h : ∀ p, P p → fetchIblkref (s'.blocksOf n) p = fetchIblkref (s.blocksOf n) p) :
    s'.placesOf n P = s.placesOf n P := by
  ext q
  refine exists_congr fun p => and_congr_right fun hp => ?_
  rw [h p hp]

/-- The bytes of a range that lie in pages it covers in part. -/
def InPart (off last p : ℤ) : Prop := off ≤ p ∧ p < last ∧ PartlyIn off last (offToBoff p)

/-- The places `_zero_range` stores to: at each turn of its loop, from the cursor on. -/
def Sbi.zeroedIn (s : Sbi) (n : RecPtr) (off last : ℤ) : Set (RecPtr × ℕ) :=
  let l := fetchIblkrefFrom (s.blocksOf n) off
  { q | ∃ e ∈ (zeroRangeCursors off last l).zip l,
    q ∈ zeroedAt e.2.dblkref e.1 (nbytesInRange e.1 (nextPage e.2.off) last) }

/-! ## Punching -/

theorem offToBoff_within (hoff : 0 ≤ off) (hp : off ≤ p) (hlt : p < nextPage off) :
    offToBoff p = offToBoff off := by
  have hboff := offToBoff_le hoff
  have hnext := nextPage_eq hoff
  have hpage := offToBoff_eq hoff
  exact (offToBoff_eq_iff (hoff.trans hp) (offToBoff_emod off)).mpr ⟨by omega, by omega⟩

theorem fetchIblkref_within (hoff : 0 ≤ off) (hp : off ≤ p) (hlt : p < nextPage off) :
    fetchIblkref l p = fetchIblkref l off := by
  unfold fetchIblkref
  rw [offToBoff_within hoff hp hlt]

/-- The piece of a page that `_punch_hole` stores zeros to. -/
theorem zeroedAt_eq (hoff : 0 ≤ off) (hlt : off < last)
    (hf : fetchIblkref (s.blocksOf n) off = some ib)
    (hshort : (nbytesInRange off (nextPage off) last).toNat < pageSize) :
    zeroedAt ib.dblkref off (nbytesInRange off (nextPage off) last) =
      s.placesOf n fun p => InPart off last p ∧ p < nextPage off := by
  have hlen := @toNat_nbytesInRange off last hlt
  have hto := toLoff_of_lt (x := nbytesInRange off (nextPage off) last) (by
    unfold pageSize at hshort
    omega)
  have hnext := lt_nextPage off
  have hend := nextPage_eq hoff
  have hboff := offToBoff_eq hoff
  have hpoff := offInPage_eq hoff
  have hnn := offInPage_nonneg hoff
  have hpiece := @toNat_nbytesInRange (offInPage off)
    (offInPage off + toLoff (nbytesInRange off (nextPage off) last)) (by omega)
  have hpage := nextPage_offInPage hoff
  have hpart := partlyIn_of_short hoff hlt hshort
  ext ⟨d, i⟩
  constructor
  · rintro ⟨hd, hlo, hhi⟩
    replace hd : d = ib.dblkref := hd
    replace hlo : (offInPage off).toNat ≤ i := hlo
    replace hhi : i < (offInPage off).toNat + (nbytesInRange (offInPage off)
      (nextPage (offInPage off)) (offInPage off +
        toLoff (nbytesInRange off (nextPage off) last))).toNat := hhi
    have hin : off ≤ offToBoff off + i ∧ offToBoff off + i < last ∧
        offToBoff off + i < nextPage off := by omega
    obtain ⟨hge, hlast, hup⟩ := hin
    have hat := offToBoff_within hoff hge hup
    refine ⟨offToBoff off + i, ⟨⟨hge, hlast, ?_⟩, hup⟩, ib, ?_, ?_⟩
    · rw [hat]
      exact hpart
    · rw [fetchIblkref_within hoff hge hup]
      exact hf
    · have hsum := offToBoff_add_offInPage (hoff.trans hge)
      have hi : (offInPage (offToBoff off + i)).toNat = i := by omega
      rw [hd, hi]
  · rintro ⟨p, ⟨⟨hge, hlast, -⟩, hup⟩, x, hx, hq⟩
    obtain ⟨rfl, rfl⟩ := Prod.mk.inj hq
    rw [fetchIblkref_within hoff hge hup, hf] at hx
    obtain rfl := Option.some.inj hx
    have hat := offToBoff_within hoff hge hup
    have hsum := offToBoff_add_offInPage (hoff.trans hge)
    have hnn' := offInPage_nonneg (hoff.trans hge)
    refine ⟨rfl, ?_, ?_⟩
    · change (offInPage off).toNat ≤ (offInPage p).toNat
      omega
    · change (offInPage p).toNat < (offInPage off).toNat + (nbytesInRange (offInPage off)
        (nextPage (offInPage off)) (offInPage off +
          toLoff (nbytesInRange off (nextPage off) last))).toNat
      omega

/-- **One turn of the loop of `_punch_hole`.** -/
theorem overlaid_punchTurn (h : Inv held s) (hreg : (s.inodes n).iMode = .reg) (hne : m ≠ n)
    (hoff : 0 ≤ off) (hlt : off < last) :
    Overlaid m (s.placesOf n fun p => InPart off last p ∧ p < nextPage off) (fun _ => 0) s
      (s.punchTurn n off last) := by
  have hempty : (∀ p, off ≤ p → p < nextPage off → ∀ ib ∈ fetchIblkref (s.blocksOf n) p,
      ¬ PartlyIn off last (offToBoff off)) →
      s.placesOf n (fun p => InPart off last p ∧ p < nextPage off) = ∅ := by
    intro hnone
    refine Set.eq_empty_iff_forall_notMem.mpr ?_
    rintro q ⟨p, ⟨⟨hge, -, hpart⟩, hup⟩, ib, hf, -⟩
    rw [offToBoff_within hoff hge hup] at hpart
    exact hnone p hge hup ib hf hpart
  unfold Sbi.punchTurn
  split
  · next ib hf =>
    have hm := (fetchIblkref_some hf).1
    unfold Sbi.punchHoleAt
    split
    · next hshort =>
      rw [← zeroedAt_eq hoff hlt hf hshort]
      exact overlaid_zeroRangeAt h hm
    · next hlong =>
      have hserve : Serves n ∅ True held s (s.dropIblkref n ib) := dropIblkref_serves h hreg hm
      rw [hempty]
      · exact (hserve.op.keeps m hne fun _ _ => Set.notMem_empty _).overlaid
      · -- the page lies in the range
        rintro p hge hup x - ⟨-, -, -, hnot⟩
        have hlen := @toNat_nbytesInRange off last hlt
        have hnext := nextPage_eq hoff
        have hboff := offToBoff_eq hoff
        have hmod := Int.emod_nonneg off (by decide : (pageSize : ℤ) ≠ 0)
        omega
  · next hf =>
    rw [hempty]
    · exact (KeepsFile.refl m s).overlaid
    · intro p hge hup x hx
      rw [fetchIblkref_within hoff hge hup, hf] at hx
      cases hx

theorem punchTurn_serves (h : Inv held s) (hreg : (s.inodes n).iMode = .reg) :
    Serves n Set.univ True held s (s.punchTurn n off last) := by
  unfold Sbi.punchTurn
  split
  · next ib hf =>
    exact (punchHoleAt_serves h hreg (fetchIblkref_some hf).1 fun _ => Set.mem_univ _).1
  · exact .refl h hreg

/-- A turn leaves the blocks of the other pages. -/
theorem fetch_punchTurn (h : Inv held s) (hp : offToBoff p ≠ offToBoff off) :
    fetchIblkref ((s.punchTurn n off last).blocksOf n) p = fetchIblkref (s.blocksOf n) p := by
  unfold Sbi.punchTurn
  split
  · next ib hf =>
    obtain ⟨hm, hib⟩ := fetchIblkref_some hf
    unfold Sbi.punchHoleAt
    split
    · rfl
    · rw [blocksOf_dropIblkref, fetchIblkref, List.find?_filter, fetchIblkref]
      refine List.find?_congr fun x hx => ?_
      by_cases hxp : x.off = offToBoff p
      · have hptr : x.ptr ≠ ib.ptr := by
          intro hsame
          obtain rfl := List.inj_on_of_nodup_map (h.ptrNodup n) hx hm hsame
          exact hp (hxp.symm.trans hib)
        simp [hxp, hptr]
      · simp [hxp]
  · rfl

/-- The positions of a range are those of its first page and those of the rest. -/
theorem inPart_iff (hoff : 0 ≤ off) : InPart off last p ↔
    (InPart off last p ∧ p < nextPage off) ∨ InPart (nextPage off) last p := by
  have hnext := lt_nextPage off
  constructor
  · intro h
    refine (lt_or_ge p (nextPage off)).imp (fun hlt => ⟨h, hlt⟩) fun hge => ?_
    obtain ⟨-, hlast, hmod, hlt, -, hnot⟩ := h
    have hle := offToBoff_add_offInPage ((nextPage_nonneg hoff).trans hge)
    have hin := offInPage_lt ((nextPage_nonneg hoff).trans hge)
    have hal := nextPage_emod hoff
    refine ⟨hge, hlast, hmod, hlt, by omega, ?_⟩
    unfold pageSize at *
    omega
  · rintro (h | ⟨hge, hlast, hpart⟩)
    · exact h.1
    · exact ⟨hnext.le.trans hge, hlast, partlyIn_next hoff hpart⟩

/-- **The loop of `_punch_hole`** stores zeros in the pages that are covered in part. -/
theorem overlaid_punchHoleLoop (h : Inv held s) (hreg : (s.inodes n).iMode = .reg) (hne : m ≠ n)
    (hoff : 0 ≤ off) : Overlaid m (s.placesOf n (InPart off last)) (fun _ => 0) s
      (s.punchHoleLoop n off last) := by
  fun_induction Sbi.punchHoleLoop s n off last generalizing held with
  | case1 s off hlt nxt s₁ =>
    rename_i ih
    have hturn : Overlaid m (s.placesOf n fun p => InPart off last p ∧ p < nxt) (fun _ => 0) s s₁ :=
      overlaid_punchTurn h hreg hne hoff hlt
    have hserve : Serves n Set.univ True held s s₁ := punchTurn_serves h hreg
    obtain ⟨held₁, h₁, -⟩ := hserve.inv
    have hrest := ih h₁ hserve.reg (nextPage_nonneg hoff)
    have hlater : s₁.placesOf n (InPart nxt last) = s.placesOf n (InPart nxt last) := by
      refine placesOf_congr fun p hp => fetch_punchTurn h fun hat => ?_
      have hsum := offToBoff_add_offInPage ((nextPage_nonneg hoff).trans hp.1)
      have hin := offInPage_lt ((nextPage_nonneg hoff).trans hp.1)
      have hnext := nextPage_eq hoff
      have hboff := offToBoff_eq hoff
      have hge : nxt ≤ p := hp.1
      omega
    rw [hlater] at hrest
    have hsplit := s.placesOf_or n (fun p => InPart off last p ∧ p < nxt) (InPart nxt last)
    simp only [nxt, ← inPart_iff hoff] at hsplit
    rw [hsplit]
    exact hturn.trans hrest
  | case2 s off hge =>
    have hempty : s.placesOf n (InPart off last) = ∅ := by
      refine Set.eq_empty_iff_forall_notMem.mpr ?_
      rintro q ⟨p, ⟨hlo, hhi, -⟩, -⟩
      omega
    rw [hempty]
    exact (KeepsFile.refl m s).overlaid

/-! ## Zeroing -/

/-- **The loop of `_zero_range`** stores zeros from the cursors on. -/
theorem overlaid_zeroRangeAts (es : List (ℤ × Iblkref)) (len : ℤ × Iblkref → UInt64)
    (h : Inv held s) (hes : ∀ e ∈ es, e.2 ∈ s.blocksOf n) :
    Overlaid m { q | ∃ e ∈ es, q ∈ zeroedAt e.2.dblkref e.1 (len e) } (fun _ => 0) s
      (es.foldl (fun s e => s.zeroRangeAt e.2 e.1 (len e)) s) := by
  induction es generalizing s with
  | nil =>
    simp only [List.not_mem_nil, false_and, exists_false]
    exact (KeepsFile.refl m s).overlaid
  | cons e es ih =>
    have hhead : Overlaid m (zeroedAt e.2.dblkref e.1 (len e)) (fun _ => 0) s
        (s.zeroRangeAt e.2 e.1 (len e)) := overlaid_zeroRangeAt h (hes e List.mem_cons_self)
    have hrest := ih (s := s.zeroRangeAt e.2 e.1 (len e)) (h.storeAt _ _ _ _)
      fun x hx => hes x (List.mem_cons_of_mem _ hx)
    have hsplit : { q | ∃ x ∈ e :: es, q ∈ zeroedAt x.2.dblkref x.1 (len x) } =
        zeroedAt e.2.dblkref e.1 (len e) ∪
          { q | ∃ x ∈ es, q ∈ zeroedAt x.2.dblkref x.1 (len x) } := by
      ext q
      simp only [Set.mem_ofPred_eq, Set.mem_union, List.exists_mem_cons_iff]
    rw [hsplit, List.foldl_cons]
    exact hhead.trans hrest

theorem overlaid_zeroRange {len : UInt64} (h : Inv held s) :
    Overlaid m (s.zeroedIn n off (off + toLoff len)) (fun _ => 0) s (s.zeroRange n off len) := by
  unfold Sbi.zeroRange
  rw [zeroRangeLoop_eq_foldl]
  have hes : ∀ e ∈ (zeroRangeCursors off (off + toLoff len) (fetchIblkrefFrom (s.blocksOf n) off)).zip
      (fetchIblkrefFrom (s.blocksOf n) off), e.2 ∈ s.blocksOf n :=
    fun e he => mem_of_mem_fetchFrom (List.of_mem_zip he).2
  exact overlaid_zeroRangeAts _ (fun e => nbytesInRange e.1 (nextPage e.2.off) _) h hes

/-! ## Requests -/

/-- The places a request stores to in blocks it has not made the file's own. -/
def Act.inPlace (s : Sbi) : Act → Set (RecPtr × ℕ)
  | .fallocate n mode filepos lastPos =>
    let off := toLoff filepos
    let len := fallocLen filepos lastPos
    if checkIo off len ≠ none ∨ checkFalloc mode off len ≠ none then ∅
    else if mode &&& fallocPunchHole ≠ 0 then s.placesOf n (InPart off (off + toLoff len))
    else if mode &&& fallocZeroRange ≠ 0 then s.zeroedIn n off (off + toLoff len)
    else ∅
  | .mmapStore n filepos poff len _ =>
    { q | ∃ ib ∈ fetchIblkref (s.blocksOf n) (toLoff filepos),
      q.1 = ib.dblkref ∧ poff ≤ q.2 ∧ q.2 < poff + len }
  | _ => ∅

/-- The bytes it stores there, by the place in the page. -/
def Act.stored : Act → ℕ → UInt8
  | .mmapStore _ _ poff _ data => fun i => data (i - poff)
  | _ => fun _ => 0

/-- A request that stores to no block of another file. -/
theorem Serves.overlaid {clean : Prop} (h : Serves n ∅ clean held s s') (hne : m ≠ n) :
    Overlaid m ∅ v s s' := (h.op.keeps m hne fun _ _ => Set.notMem_empty _).overlaid

theorem overlaid_fallocate {mode : UInt32} {pos lastPos : UInt64} (h : Inv held s)
    (hreg : (s.inodes n).iMode = .reg) (hne : m ≠ n) :
    Overlaid m (Act.inPlace s (.fallocate n mode pos lastPos)) (fun _ => 0) s
      (s.fallocate n mode (toLoff pos) (fallocLen pos lastPos)).2 := by
  have hself : Overlaid m ∅ (fun _ => 0) s s := (KeepsFile.refl m s).overlaid
  rcases hio : checkIo (toLoff pos) (fallocLen pos lastPos) with _ | err
  swap
  · simp only [Act.inPlace, Sbi.fallocate, hio]
    rw [if_pos (.inl (Option.some_ne_none err))]
    exact hself
  have hoff := checkIo_nonneg hio
  rcases hcheck : checkFalloc mode (toLoff pos) (fallocLen pos lastPos) with _ | err
  swap
  · simp only [Act.inPlace, Sbi.fallocate, hio, hcheck]
    rw [if_pos (.inr (Option.some_ne_none err))]
    exact hself
  simp only [Act.inPlace, Sbi.fallocate, hio, hcheck, ne_eq, not_true_eq_false, or_self, if_false]
  by_cases hpunch : mode &&& fallocPunchHole = 0
  swap
  · rw [if_pos hpunch, if_pos hpunch]
    exact overlaid_punchHoleLoop h hreg hne hoff
  rw [if_neg (not_not.mpr hpunch), if_neg (not_not.mpr hpunch)]
  by_cases hzero : mode &&& fallocZeroRange = 0
  swap
  · rw [if_pos hzero, if_pos hzero]
    exact overlaid_zeroRange h
  rw [if_neg (not_not.mpr hzero), if_neg (not_not.mpr hzero)]
  split
  · next hmode =>
    have hserve : Serves n ∅ True held s (s.collapseRange n (toLoff pos) (fallocLen pos lastPos)) :=
      collapseRange_serves hoff (checkFalloc_aligned hcheck hmode) h hreg
    exact hserve.overlaid hne
  · have hserve : Serves n ∅ _ held s (s.fallocRange n (toLoff pos) (fallocLen pos lastPos)).2 :=
      fallocRange_serves hoff h hreg
    exact hserve.overlaid hne

theorem overlaid_mmapStore {pos : UInt64} {poff len : ℕ} {data : Bytes} (h : Inv held s)
    (hreg : (s.inodes n).iMode = .reg) (hne : m ≠ n) :
    Overlaid m (Act.inPlace s (.mmapStore n pos poff len data)) (fun i => data (i - poff)) s
      (s.mmapStore n (toLoff pos) poff len data) := by
  simp only [Act.inPlace]
  rcases hf : fetchIblkref (s.blocksOf n) (toLoff pos) with _ | ib
  · have hserve : Serves n ∅ True held s (s.mmapStore n (toLoff pos) poff len data) :=
      mmapStore_serves h hreg fun ib hib => by rw [hf] at hib; cases hib
    simp only [Option.mem_def, reduceCtorEq, false_and, exists_false]
    exact hserve.overlaid hne
  · simp only [Option.mem_some_iff, exists_eq_left']
    have hm := (fetchIblkref_some hf).1
    unfold Sbi.mmapStore Sbi.getBlockWr
    rw [hf]
    exact overlaid_setPage h hm (fun _ _ _ => rfl) rfl rfl rfl

/-- **Another file reads the same after a request just when** what the request stores in blocks
it has not made the file's own was there. -/
theorem cloneIsolation_iff (apiMapMaxSize : ℕ) (x : Sys) (h : (toyfs apiMapMaxSize).Reachable x)
    (a : Act) (n m : RecPtr) (ht : a.target = some n) (hne : m ≠ n) (hsend : x.Sends a) (s' : Sbi)
    (hs : x.serve apiMapMaxSize a = some s') :
    ReadsSame m x.sbi s' ↔ x.sbi.Spares m (a.inPlace x.sbi) a.stored := by
  obtain ⟨held, hinv⟩ := (toyfs_storeOk h).store
  refine Overlaid.readsSame_iff ?_
  cases a with
  | write n' buf filepos len =>
    obtain rfl := Option.some.inj ht
    obtain rfl := Option.some.inj hs
    have hserve : Serves n' ∅ _ held x.sbi (x.sbi.write apiMapMaxSize n' buf (toLoff filepos) len).2 :=
      write_serves hinv hsend
    exact hserve.overlaid hne
  | fallocate n' mode filepos lastPos =>
    obtain rfl := Option.some.inj ht
    obtain rfl := Option.some.inj hs
    exact overlaid_fallocate hinv hsend hne
  | truncate n' size =>
    obtain rfl := Option.some.inj ht
    obtain rfl := Option.some.inj hs
    have hserve : Serves n' ∅ True held x.sbi (x.sbi.truncate n' size).2 := truncate_serves hinv hsend
    exact hserve.overlaid hne
  | clone src dst posIn posOut len =>
    obtain rfl := Option.some.inj ht
    obtain rfl := Option.some.inj hs
    have hserve : Serves dst ∅ _ held x.sbi
        (x.sbi.clone src dst (toLoff posIn) (toLoff posOut) len).2 := clone_serves hinv hsend.2
    exact hserve.overlaid hne
  | mmapStore n' filepos poff len data =>
    obtain rfl := Option.some.inj ht
    obtain rfl := Option.some.inj hs
    exact overlaid_mmapStore hinv hsend.1 hne
  | _ => cases ht

/-- A byte that is zero is punched out of a block that is shared. -/
theorem cloneIsolation_iff_zero : ∃ x, (toyfs 65536).Reachable x ∧
    (x.sbi.blocksOf ⟨1023, 1⟩).map Iblkref.dblkref = (x.sbi.blocksOf ⟨1023, 2⟩).map Iblkref.dblkref ∧
    ∃ s', x.serve 65536 (.fallocate ⟨1023, 1⟩ 3 0 1) = some s' ∧ ReadsSame ⟨1023, 2⟩ x.sbi s' := by
  obtain ⟨x, hx, hp⟩ := exists_reachable_of_mounted 65536
    [.newInode ⟨1023, 0⟩ ⟨.reg, 0, 0, [], fun _ => 0, false⟩ (some 2),
      .newInode ⟨1023, 0⟩ ⟨.reg, 0, 0, [], fun _ => 0, false⟩ (some 3),
      .write ⟨1023, 1⟩ (fun _ => 0) 0 1, .clone ⟨1023, 1⟩ ⟨1023, 2⟩ 0 0 0]
    (p := fun x => (x.sbi.inodes ⟨1023, 1⟩).iMode == .reg &&
      (x.sbi.blocksOf ⟨1023, 1⟩).map Iblkref.dblkref == (x.sbi.blocksOf ⟨1023, 2⟩).map Iblkref.dblkref &&
      (x.sbi.inodes ⟨1023, 2⟩).iSize == 1 && x.sbi.byteAt ⟨1023, 2⟩ 0 == 0)
    (by decide +kernel)
  simp only [Bool.and_eq_true, beq_iff_eq] at hp
  obtain ⟨⟨⟨hreg, hshared⟩, hsize⟩, hzero⟩ := hp
  refine ⟨x, hx, hshared, _, rfl, (cloneIsolation_iff 65536 x hx (.fallocate ⟨1023, 1⟩ 3 0 1)
    ⟨1023, 1⟩ ⟨1023, 2⟩ rfl (by decide) hreg _ rfl).mpr fun p hlo hhi _ _ _ => ?_⟩
  rw [hsize] at hhi
  obtain rfl : p = 0 := Int.le_antisymm (Int.lt_add_one_iff.mp hhi) hlo
  exact hzero

/-- A byte is punched out of a file, and of its clone. -/
theorem punch_shows_in_clone : ¬ ∀ x, (toyfs 65536).Reachable x → ∀ a n m, a.target = some n →
    (x.sbi.inodes m).iMode = .reg → m ≠ n → x.Sends a → ∀ s', x.serve 65536 a = some s' →
      ReadsSame m x.sbi s' := by
  intro hall
  obtain ⟨x, hx, hp⟩ := exists_reachable_of_mounted 65536
    [.newInode ⟨1023, 0⟩ ⟨.reg, 0, 0, [], fun _ => 0, false⟩ (some 2),
      .newInode ⟨1023, 0⟩ ⟨.reg, 0, 0, [], fun _ => 0, false⟩ (some 3),
      .write ⟨1023, 1⟩ (fun _ => 7) 0 1, .clone ⟨1023, 1⟩ ⟨1023, 2⟩ 0 0 0]
    (p := fun x => (x.sbi.inodes ⟨1023, 1⟩).iMode == .reg &&
      (x.sbi.inodes ⟨1023, 2⟩).iMode == .reg && x.sbi.readByte ⟨1023, 2⟩ 0 == 7 &&
      (x.sbi.fallocate ⟨1023, 1⟩ 3 (toLoff 0) (fallocLen 0 1)).2.readByte ⟨1023, 2⟩ 0 == 0)
    (by decide +kernel)
  simp only [Bool.and_eq_true, beq_iff_eq] at hp
  obtain ⟨⟨⟨hreg, hreg'⟩, hold⟩, hnew⟩ := hp
  have hsame := hall x hx (.fallocate ⟨1023, 1⟩ 3 0 1) ⟨1023, 1⟩ ⟨1023, 2⟩ rfl hreg' (by decide) hreg
    _ rfl
  have hbyte : (x.sbi.fallocate ⟨1023, 1⟩ 3 (toLoff 0) (fallocLen 0 1)).2.readByte ⟨1023, 2⟩ 0 =
      x.sbi.readByte ⟨1023, 2⟩ 0 := hsame.bytes 0 (le_refl 0)
  rw [hold, hnew] at hbyte
  cases hbyte

end Zus.Toyfs
