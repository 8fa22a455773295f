import Mathlib.Data.List.TakeWhile
import Zus.PaRuns
import Zus.SlabRaceSafety

/-!
# The end of the slabs

`zus_slab_fini` goes through the lists of all slabs. It takes the first element of a list, unlinks
all elements of its page and puts the page, until the list is empty or the first element is of a
page with elements in users' hands: that is a leak, and the loop ends there, whatever else is on
the list. What the page allocator misses at its own end, `pa_fini` counts.
-/

namespace Zus.Slab

open Zus.Lib Zus.Pa

/-- The `while` of `_slab_fini` over a list. -/
def slabFiniLoop (c k : ℕ) : ℕ → Gsa × Pa → Gsa × Pa
  | 0, x => x
  | fuel + 1, x =>
    match (x.1.slab c k).head with
    | [] => x
    | se :: _ =>
      let bn := x.1.virtToPage se
      -- the slab leaks
      if (x.1.page bn).slabUc ≠ 0 then x
      else slabFiniLoop c k fuel (x.1.slabPageFini c bn k, paPutPage x.2 bn)

/-- `_slab_fini` on one list. A turn of the loop unlinks an element at least. -/
def slabFiniList (c : ℕ) (x : Gsa × Pa) (k : ℕ) : Gsa × Pa :=
  let r := slabFiniLoop c k (x.1.slab c k).head.length x
  (r.1.setList c k { r.1.slab c k with nused := 0, nfreeWant := 0 }, r.2)

/-- `_slab_fini`. -/
def slabFini (x : Gsa × Pa) (c : ℕ) : Gsa × Pa := (List.range slabLists).foldl (slabFiniList c) x

/-- `zus_slab_fini`, up to `pa_fini`. -/
def zusSlabFini (x : Gsa × Pa) : Gsa × Pa := (List.range x.1.nslabs).foldl slabFini x

/-- The pages that `pa_fini` reports. -/
def paFiniLeaks (pa : Pa) : ℕ := pa.size - pa.head.length

/-! ## The pages of a list -/

section Pages

variable {α β : Type*} {v : α → β} {ok : β → Bool} {l : List α} {b : β}

/-- The pages of the elements before the first one whose page is not good. -/
def goodPages (v : α → β) (ok : β → Bool) (l : List α) : List β :=
  (l.takeWhile fun e => ok (v e)).map v

theorem goodPages_cons {e : α} (he : ok (v e) = true) :
    goodPages v ok (e :: l) = v e :: goodPages v ok l := by
  rw [goodPages, List.takeWhile_cons_of_pos (p := fun e => ok (v e)) he]
  rfl

theorem goodPages_stop {e : α} (he : ¬ ok (v e) = true) : goodPages v ok (e :: l) = [] := by
  rw [goodPages, List.takeWhile_cons_of_neg (p := fun e => ok (v e)) he]
  rfl

theorem ok_of_mem_goodPages (hb : b ∈ goodPages v ok l) : ok b = true := by
  obtain ⟨e, he, rfl⟩ := List.mem_map.mp hb
  exact List.mem_takeWhile_imp (p := fun e => ok (v e)) he

theorem goodPages_congr {ok' : β → Bool} (h : ∀ e ∈ l, ok (v e) = ok' (v e)) :
    goodPages v ok l = goodPages v ok' l := by
  induction l with
  | nil => rfl
  | cons e l ih =>
    have he := h e List.mem_cons_self
    by_cases hok : ok (v e) = true
    · rw [goodPages_cons hok, goodPages_cons (he ▸ hok),
        ih fun x hx => h x (List.mem_cons_of_mem _ hx)]
    · have hok' : ¬ ok' (v e) = true := he ▸ hok
      rw [goodPages_stop hok, goodPages_stop hok']

/-- The elements of a good page are not in the way of the others. -/
theorem mem_goodPages_filter [DecidableEq β] {b' : β} (hb : ok b = true) (hne : b' ≠ b) :
    b' ∈ goodPages v ok (l.filter fun e => v e ≠ b) ↔ b' ∈ goodPages v ok l := by
  induction l with
  | nil => rfl
  | cons e l ih =>
    by_cases he : v e = b
    · rw [List.filter_cons_of_neg (by simpa using he), ih, goodPages_cons (he ▸ hb), List.mem_cons,
        he]
      exact (or_iff_right hne).symm
    · rw [List.filter_cons_of_pos (by simpa using he)]
      by_cases hok : ok (v e) = true
      · rw [goodPages_cons hok, goodPages_cons hok, List.mem_cons, List.mem_cons, ih]
      · rw [goodPages_stop hok, goodPages_stop hok]

/-- The pages before the first bad one are those of all elements when no page is bad. -/
theorem mem_goodPages_of_all (h : ∀ e ∈ l, ok (v e) = true) :
    b ∈ goodPages v ok l ↔ ∃ e ∈ l, v e = b := by
  rw [goodPages, List.takeWhile_eq_self_iff.mpr h, List.mem_map]

end Pages

/-- The pages that `_slab_fini` takes off a list. -/
def cleared (g : Gsa) (c k : ℕ) : List ℕ :=
  goodPages g.virtToPage (fun bn => (g.page bn).slabUc == 0) (g.slab c k).head

theorem cleared_stop {g : Gsa} {c k se : ℕ} {rest : List ℕ}
    (hhead : (g.slab c k).head = se :: rest) (huc : (g.page (g.virtToPage se)).slabUc ≠ 0) :
    cleared g c k = [] := by
  rw [cleared, hhead]
  exact goodPages_stop fun heq => huc (beq_iff_eq.mp heq)

theorem mem_cleared_cons {g : Gsa} {c k se : ℕ} {rest : List ℕ}
    (hhead : (g.slab c k).head = se :: rest) (huc : (g.page (g.virtToPage se)).slabUc = 0) :
    g.virtToPage se ∈ cleared g c k := by
  have hgood : ((g.page (g.virtToPage se)).slabUc == 0) = true := beq_iff_eq.mpr huc
  rw [cleared, hhead]
  refine (goodPages_cons (v := g.virtToPage) ?_).symm ▸ List.mem_cons_self
  exact hgood

theorem uc_of_mem_cleared {g : Gsa} {c k bn : ℕ} (h : bn ∈ cleared g c k) :
    (g.page bn).slabUc = 0 := by
  have hok := ok_of_mem_goodPages h
  exact beq_iff_eq.mp hok

/-! ## What the loops keep -/

/-- The same elements on the lists and the same pages; the counters of the lists may differ. -/
structure SameHeads (g g₀ : Gsa) : Prop where
  head : ∀ c k, (g.slab c k).head = (g₀.slab c k).head
  page : g.page = g₀.page
  owned : g.owned = g₀.owned
  dataPtr : g.dataPtr = g₀.dataPtr

/-- The lists are those of some slabs in order, and the page allocator has the other pages. -/
structure FiniOk (g : Gsa) (pa : Pa) (live : List Alloc) : Prop where
  slab : ∃ g₀, Inv g₀ live ∧ SameHeads g g₀
  free : FreeExact pa
  owned : ∀ bn, g.owned bn = true ↔ bn < pa.size ∧ pa.refcount bn ≠ 0
  one : ∀ bn, g.owned bn = true → pa.refcount bn = 1

variable {g g₀ : Gsa} {pa : Pa} {live : List Alloc} {c k bn : ℕ}

theorem SameHeads.virtToPage (h : SameHeads g g₀) (e : ℕ) : g.virtToPage e = g₀.virtToPage e := by
  rw [Gsa.virtToPage, Gsa.virtToPage, h.dataPtr]

theorem SameHeads.cutFor (h : SameHeads g g₀) : CutFor g bn c k ↔ CutFor g₀ bn c k := by
  constructor
  · rintro ⟨ho, hi, hc⟩
    exact ⟨h.owned ▸ ho, h.page ▸ hi, h.page ▸ hc⟩
  · rintro ⟨ho, hi, hc⟩
    exact ⟨h.owned ▸ ho, h.page ▸ hi, h.page ▸ hc⟩

theorem SameHeads.pageFini (h : SameHeads g g₀) (c bn k : ℕ) :
    SameHeads (g.slabPageFini c bn k) (g₀.slabPageFini c bn k) where
  head c' k' := by
    have helems : g.pageElems bn k = g₀.pageElems bn k := by
      rw [Gsa.pageElems, Gsa.pageElems, Gsa.pageAddress, Gsa.pageAddress, h.dataPtr]
    by_cases hck : c' = c ∧ k' = k
    · obtain ⟨rfl, rfl⟩ := hck
      rw [pageFini_slab_self, pageFini_slab_self, helems]
      exact congrArg (List.diff · _) (h.head c' k')
    · rw [pageFini_slab_ne hck, pageFini_slab_ne hck]
      exact h.head c' k'
  page := by
    change Function.update g.page bn _ = Function.update g₀.page bn _
    rw [h.page]
  owned := by
    change Function.update g.owned bn false = Function.update g₀.owned bn false
    rw [h.owned]
  dataPtr := h.dataPtr

theorem FiniOk.listed (h : FiniOk g pa live) {e : ℕ} (he : e ∈ (g.slab c k).head) :
    CutFor g (g.virtToPage e) c k := by
  obtain ⟨g₀, hinv, hsame⟩ := h.slab
  rw [hsame.head] at he
  rw [hsame.virtToPage, hsame.cutFor]
  exact (hinv.listed_page he).1

/-- The elements of the page leave the list, in place. -/
theorem FiniOk.head_pageFini (h : FiniOk g pa live) (hcut : CutFor g bn c k) :
    ((g.slabPageFini c bn k).slab c k).head =
      (g.slab c k).head.filter fun e => g.virtToPage e ≠ bn := by
  obtain ⟨g₀, hinv, hsame⟩ := h.slab
  have hnodup : (g.slab c k).head.Nodup := hsame.head c k ▸ hinv.nodup c k
  have hmem := @Inv.mem_pageFini_head g₀ live c k bn hinv (hsame.cutFor.mp hcut) c k
  rw [pageFini_slab_self]
  change (g.slab c k).head.diff _ = _
  rw [hnodup.sdiff_eq_filter]
  refine List.filter_congr fun e he => ?_
  have hiff := @hmem e
  rw [← (hsame.pageFini c bn k).head c k, ← hsame.head c k, ← hsame.virtToPage, pageFini_slab_self,
    hnodup.mem_sdiff_iff] at hiff
  have hpage : e ∉ g.pageElems bn k ↔ g.virtToPage e ≠ bn :=
    ⟨fun hnot => (hiff.mp ⟨he, hnot⟩).2, fun hne => (hiff.mpr ⟨he, hne⟩).2⟩
  exact decide_eq_decide.mpr hpage

/-- A page without users goes back. -/
theorem FiniOk.pageFini (h : FiniOk g pa live) (hcut : CutFor g bn c k)
    (huc : (g.page bn).slabUc = 0) :
    FiniOk (g.slabPageFini c bn k) (paPutPage pa bn) live := by
  obtain ⟨g₀, hinv, hsame⟩ := h.slab
  have hone := h.one bn hcut.owned
  have hhead : (paPutPage pa bn).head = bn :: pa.head := by
    rw [paPutPage, paPutPageDec, hone]
    rfl
  have hcnt : (paPutPage pa bn).refcount = Function.update pa.refcount bn 0 := by
    rw [paPutPage_refcount, hone]
  have hsize : (paPutPage pa bn).size = pa.size := by
    rw [paPutPage, paPutPageDec, hone]
    rfl
  have howned : (g.slabPageFini c bn k).owned = Function.update g.owned bn false := rfl
  have hcut₀ := hsame.cutFor.mp hcut
  have hzero : heldIn g₀ live bn = 0 := by
    have hcount := hinv.uc bn hcut₀.owned
    rw [← hsame.page, huc] at hcount
    exact_mod_cast hcount.symm
  refine ⟨⟨_, hinv.pageFini hcut₀ hzero, hsame.pageFini c bn k⟩, ⟨?_, fun p => ?_⟩, fun p => ?_,
    fun p hp => ?_⟩
  · rw [hhead]
    refine List.nodup_cons.mpr ⟨fun hmem => ?_, h.free.nodup⟩
    have hfree := ((h.free.mem bn).mp hmem).2
    omega
  · rw [hhead, hcnt, hsize]
    by_cases hpb : p = bn
    · subst hpb
      refine iff_of_true List.mem_cons_self ⟨((h.owned p).mp hcut.owned).1, ?_⟩
      exact Function.update_self _ _ _
    · rw [List.mem_cons, or_iff_right hpb, h.free.mem, Function.update_of_ne hpb]
  · rw [howned, hcnt, hsize]
    by_cases hpb : p = bn
    · subst hpb
      rw [Function.update_self, Function.update_self]
      exact iff_of_false Bool.false_ne_true fun hp => hp.2 rfl
    · rw [Function.update_of_ne hpb, Function.update_of_ne hpb, h.owned p]
  · rw [howned] at hp
    have hpb : p ≠ bn := by
      rintro rfl
      rw [Function.update_self] at hp
      cases hp
    rw [Function.update_of_ne hpb] at hp
    rw [hcnt, Function.update_of_ne hpb]
    exact h.one p hp

/-! ## The loops -/

/-- Lists are emptied from `x` to `y`: their pages before a leak are given back, and nothing else
changes. -/
structure Emptied (lists : ℕ → ℕ → Prop) (live : List Alloc) (x y : Gsa × Pa) : Prop where
  ok : FiniOk y.1 y.2 live
  nslabs : y.1.nslabs = x.1.nslabs
  dataPtr : y.1.dataPtr = x.1.dataPtr
  size : y.2.size = x.2.size
  uc : ∀ bn, y.1.owned bn = true → (y.1.page bn).slabUc = (x.1.page bn).slabUc
  head : ∀ c k, ¬ lists c k → (y.1.slab c k).head = (x.1.slab c k).head
  owned : ∀ bn, y.1.owned bn = true ↔
    x.1.owned bn = true ∧ ∀ c k, lists c k → bn ∉ cleared x.1 c k

namespace Emptied

variable {lists lists' : ℕ → ℕ → Prop} {x y z : Gsa × Pa}

theorem refl (h : FiniOk x.1 x.2 live) : Emptied (fun _ _ => False) live x x :=
  ⟨h, rfl, rfl, rfl, fun _ _ => rfl, fun _ _ _ => rfl,
    fun _ => ⟨fun ho => ⟨ho, fun _ _ hf => hf.elim⟩, And.left⟩⟩

/-- A list that is still there has the same pages in front of a leak. -/
theorem cleared_eq (h : Emptied lists live x y) (hck : ¬ lists c k) :
    cleared y.1 c k = cleared x.1 c k := by
  have hv : y.1.virtToPage = x.1.virtToPage := by
    funext e
    rw [Gsa.virtToPage, Gsa.virtToPage, h.dataPtr]
  have hsame : ∀ e ∈ (y.1.slab c k).head,
      ((y.1.page (y.1.virtToPage e)).slabUc == 0) =
        ((x.1.page (x.1.virtToPage e)).slabUc == 0) := by
    intro e he
    rw [h.uc _ (h.ok.listed he).owned, hv]
  rw [hv] at hsame
  rw [cleared, cleared, hv, ← h.head c k hck]
  exact goodPages_congr hsame

theorem trans (h : Emptied lists live x y) (h' : Emptied lists' live y z)
    (hapart : ∀ c k, lists' c k → ¬ lists c k) :
    Emptied (fun c k => lists c k ∨ lists' c k) live x z where
  ok := h'.ok
  nslabs := h'.nslabs.trans h.nslabs
  dataPtr := h'.dataPtr.trans h.dataPtr
  size := h'.size.trans h.size
  uc bn ho := (h'.uc bn ho).trans (h.uc bn ((h'.owned bn).mp ho).1)
  head c k hck := (h'.head c k fun hc => hck (.inr hc)).trans (h.head c k fun hc => hck (.inl hc))
  owned bn := by
    rw [h'.owned, h.owned, and_assoc]
    refine and_congr_right fun _ => ⟨?_, fun hall => ⟨fun c k hck => hall c k (.inl hck), ?_⟩⟩
    · rintro ⟨hfirst, hsecond⟩ c k (hck | hck)
      · exact hfirst c k hck
      · rw [← h.cleared_eq (hapart c k hck)]
        exact hsecond c k hck
    · intro c k hck
      rw [h.cleared_eq (hapart c k hck)]
      exact hall c k (.inr hck)

theorem congr (h : Emptied lists live x y) (heq : ∀ c k, lists c k ↔ lists' c k) :
    Emptied lists' live x y := by
  obtain rfl : lists = lists' := funext fun c => funext fun k => propext (heq c k)
  exact h

end Emptied

/-- Where nothing is in front of a leak, nothing is given back. -/
theorem Emptied.stop {x : Gsa × Pa} (h : FiniOk x.1 x.2 live) (hnil : cleared x.1 c k = []) :
    Emptied (fun c' k' => c' = c ∧ k' = k) live x x := by
  refine ⟨h, rfl, rfl, rfl, fun _ _ => rfl, fun _ _ _ => rfl,
    fun bn => ⟨fun ho => ⟨ho, ?_⟩, And.left⟩⟩
  rintro c' k' ⟨rfl, rfl⟩
  rw [hnil]
  exact List.not_mem_nil

/-- The first page of a list, and then the others. -/
theorem Emptied.page {x z : Gsa × Pa} {b : ℕ} (h : FiniOk x.1 x.2 live) (hcut : CutFor x.1 b c k)
    (huc : (x.1.page b).slabUc = 0) (hb : b ∈ cleared x.1 c k)
    (hrest : Emptied (fun c' k' => c' = c ∧ k' = k) live
      (x.1.slabPageFini c b k, paPutPage x.2 b) z) :
    Emptied (fun c' k' => c' = c ∧ k' = k) live x z := by
  have hone := h.one b hcut.owned
  have hsize : (paPutPage x.2 b).size = x.2.size := by
    rw [paPutPage, paPutPageDec, hone]
    rfl
  have hfini : (x.1.slabPageFini c b k).page = Function.update x.1.page b ⟨0, 0, 0⟩ := rfl
  have hpage : ∀ bn, ((x.1.slabPageFini c b k).page bn).slabUc = (x.1.page bn).slabUc := by
    intro bn
    by_cases hbn : bn = b
    · subst hbn
      rw [hfini, Function.update_self, huc]
    · rw [hfini, Function.update_of_ne hbn]
  have hcleared : ∀ bn, bn ≠ b →
      (bn ∈ cleared (x.1.slabPageFini c b k) c k ↔ bn ∈ cleared x.1 c k) := by
    intro bn hbn
    have hok : (fun bn => ((x.1.slabPageFini c b k).page bn).slabUc == 0) =
        fun bn => (x.1.page bn).slabUc == 0 := funext fun bn => by rw [hpage]
    rw [cleared, cleared, h.head_pageFini hcut, hok]
    exact mem_goodPages_filter (beq_iff_eq.mpr huc) hbn
  refine ⟨hrest.ok, hrest.nslabs, hrest.dataPtr, hrest.size.trans hsize,
    fun bn ho => (hrest.uc bn ho).trans (hpage bn), fun c' k' hck => ?_, fun bn => ?_⟩
  · exact (hrest.head c' k' hck).trans (congrArg SlabList.head (pageFini_slab_ne hck))
  · rw [hrest.owned]
    change Function.update x.1.owned b false bn = true ∧ _ ↔ _
    by_cases hbn : bn = b
    · subst hbn
      rw [Function.update_self]
      exact iff_of_false (fun hf => Bool.false_ne_true hf.1) fun hall => hall.2 c k ⟨rfl, rfl⟩ hb
    · rw [Function.update_of_ne hbn]
      refine and_congr_right fun _ => ⟨fun hall => ?_, fun hall => ?_⟩
      · rintro c' k' ⟨rfl, rfl⟩
        rw [← hcleared bn hbn]
        exact hall c' k' ⟨rfl, rfl⟩
      · rintro c' k' ⟨rfl, rfl⟩
        rw [hcleared bn hbn]
        exact hall c' k' ⟨rfl, rfl⟩

theorem slabFiniLoop_spec (fuel : ℕ) {x : Gsa × Pa} (h : FiniOk x.1 x.2 live)
    (hfuel : (x.1.slab c k).head.length ≤ fuel) :
    Emptied (fun c' k' => c' = c ∧ k' = k) live x (slabFiniLoop c k fuel x) := by
  induction fuel generalizing x with
  | zero =>
    refine .stop h ?_
    rw [cleared, List.length_eq_zero_iff.mp (Nat.le_zero.mp hfuel)]
    rfl
  | succ fuel ih =>
    rw [slabFiniLoop]
    rcases hhead : (x.1.slab c k).head with _ | ⟨se, rest⟩
    · refine .stop h ?_
      rw [cleared, hhead]
      rfl
    · dsimp only
      have hcut := h.listed (hhead ▸ List.mem_cons_self)
      split_ifs with huc
      · refine .stop h ?_
        exact cleared_stop hhead huc
      · have hzero := not_not.mp huc
        refine .page h hcut hzero ?_ (ih (h.pageFini hcut hzero) ?_)
        · exact mem_cleared_cons hhead hzero
        · -- the page is off the list, with the first element at least
          dsimp only
          rw [h.head_pageFini hcut, hhead, List.filter_cons_of_neg (by simp)]
          have hle := List.length_filter_le
            (fun e => decide (x.1.virtToPage e ≠ x.1.virtToPage se)) rest
          rw [hhead, List.length_cons] at hfuel
          omega

theorem slabFiniList_spec {x : Gsa × Pa} (h : FiniOk x.1 x.2 live) (c k : ℕ) :
    Emptied (fun c' k' => c' = c ∧ k' = k) live x (slabFiniList c x k) := by
  have hloop := slabFiniLoop_spec (x.1.slab c k).head.length h (Nat.le_refl _)
  rw [slabFiniList]
  set r := slabFiniLoop c k (x.1.slab c k).head.length x
  obtain ⟨g₀, hinv, hsame⟩ := hloop.ok.slab
  -- the counters are nobody's any more
  have hhead : ∀ c' k', ((r.1.setList c k { r.1.slab c k with nused := 0, nfreeWant := 0 }).slab
      c' k').head = (r.1.slab c' k').head := by
    intro c' k'
    by_cases hck : c' = c ∧ k' = k
    · obtain ⟨rfl, rfl⟩ := hck
      rw [setList_slab_self]
    · rw [setList_slab_ne _ _ _ _ hck]
  exact ⟨⟨⟨g₀, hinv, fun c' k' => (hhead c' k').trans (hsame.head c' k'), hsame.page, hsame.owned,
      hsame.dataPtr⟩, hloop.ok.free, hloop.ok.owned, hloop.ok.one⟩, hloop.nslabs, hloop.dataPtr,
    hloop.size, hloop.uc, fun c' k' hck => (hhead c' k').trans (hloop.head c' k' hck), hloop.owned⟩

/-- Lists one after the other. -/
theorem foldl_emptied {ι : Type*} {f : Gsa × Pa → ι → Gsa × Pa} {lists : ι → ℕ → ℕ → Prop}
    (hf : ∀ x i, FiniOk x.1 x.2 live → Emptied (lists i) live x (f x i))
    (hapart : ∀ i j c k, lists i c k → lists j c k → i = j) {is : List ι} (hnodup : is.Nodup)
    {x : Gsa × Pa} (h : FiniOk x.1 x.2 live) :
    Emptied (fun c k => ∃ i ∈ is, lists i c k) live x (is.foldl f x) := by
  induction is generalizing x with
  | nil => exact (Emptied.refl h).congr fun c k => iff_of_false id fun ⟨_, hi, _⟩ => nomatch hi
  | cons i is ih =>
    obtain ⟨hi, hrest⟩ := List.nodup_cons.mp hnodup
    have hfirst := hf x i h
    refine (hfirst.trans (ih hrest hfirst.ok) ?_).congr fun c k => ?_
    · rintro c k ⟨j, hj, hck⟩ hck'
      exact hi (hapart i j c k hck' hck ▸ hj)
    · simp only [List.mem_cons, exists_eq_or_imp]

theorem slabFini_spec {x : Gsa × Pa} (h : FiniOk x.1 x.2 live) (c : ℕ) :
    Emptied (fun c' k => c' = c ∧ k < slabLists) live x (slabFini x c) := by
  refine (foldl_emptied (fun x k h => slabFiniList_spec h c k) ?_ List.nodup_range h).congr
    fun c' k' => ?_
  · rintro k₁ k₂ c' k' ⟨-, rfl⟩ ⟨-, rfl⟩
    rfl
  · simp only [List.mem_range]
    exact ⟨fun ⟨k, hk, hc, hkk⟩ => ⟨hc, hkk ▸ hk⟩, fun ⟨hc, hk⟩ => ⟨k', hk, hc, rfl⟩⟩

theorem zusSlabFini_spec {x : Gsa × Pa} (h : FiniOk x.1 x.2 live) :
    Emptied (fun c k => c < x.1.nslabs ∧ k < slabLists) live x (zusSlabFini x) := by
  refine (foldl_emptied (fun x c h => slabFini_spec h c) ?_ List.nodup_range h).congr
    fun c' k' => ?_
  · rintro c₁ c₂ c' k' ⟨rfl, -⟩ ⟨rfl, -⟩
    rfl
  · simp only [List.mem_range]
    exact ⟨fun ⟨c, hc, hcc, hk⟩ => ⟨hcc ▸ hc, hk⟩, fun ⟨hc, hk⟩ => ⟨c', hc, rfl, hk⟩⟩

/-! ## The report -/

/-- What the page allocator misses are the pages that the slabs have. -/
theorem FiniOk.paFiniLeaks_eq (h : FiniOk g pa live) :
    paFiniLeaks pa = ((Finset.range pa.size).filter fun bn => g.owned bn = true).card := by
  have hhead : pa.head.toFinset = (Finset.range pa.size).filter fun bn => ¬ g.owned bn = true := by
    ext bn
    rw [List.mem_toFinset, h.free.mem, Finset.mem_filter, Finset.mem_range, h.owned]
    refine and_congr_right fun hbn => ?_
    rw [not_and, not_not]
    exact ⟨fun hzero _ => hzero, fun hall => hall hbn⟩
  have hcard := Finset.card_filter_add_card_filter_not
    (s := Finset.range pa.size) fun bn => g.owned bn = true
  rw [← hhead, List.toFinset_card_of_nodup h.free.nodup, Finset.card_range] at hcard
  rw [paFiniLeaks]
  omega

theorem FiniOk.paFiniLeaks_eq_zero (h : FiniOk g pa live) :
    paFiniLeaks pa = 0 ↔ ∀ bn, g.owned bn = false := by
  rw [h.paFiniLeaks_eq, Finset.card_eq_zero, Finset.filter_eq_empty_iff]
  refine ⟨fun hnone bn => ?_, fun hall bn _ => Bool.eq_false_iff.mp (hall bn)⟩
  refine Bool.eq_false_iff.mpr fun ho => ?_
  exact hnone (Finset.mem_range.mpr ((h.owned bn).mp ho).1) ho

/-- A page with a live allocation is never given back. -/
theorem Inv.notMem_cleared (h : Inv g live) {a : Alloc} (ha : a ∈ live) :
    g.virtToPage a.ptr ∉ cleared g c k := by
  intro hmem
  obtain ⟨c', k', hcut, -⟩ := h.held_page ha
  have huc := h.uc _ hcut.owned
  rw [uc_of_mem_cleared hmem] at huc
  have hpos : 0 < heldIn g live (g.virtToPage a.ptr) :=
    List.countP_pos_iff.mpr ⟨a, ha, decide_eq_true rfl⟩
  omega

/-- Without live allocations every page is on its list, and no leak is in front of it. -/
theorem Inv.mem_cleared (h : Inv g []) (hcut : CutFor g bn c k) : bn ∈ cleared g c k := by
  have hk := (h.cut_lt hcut).2
  have helem : IsElem g.dataPtr bn k (g.dataPtr + bn * blockSize) :=
    ⟨0, slabsCount_pos hk, by rw [Nat.zero_mul, Nat.add_zero]⟩
  refine (mem_goodPages_of_all fun e he => ?_).mpr ⟨_, ?_, helem.virtToPage hk⟩
  · exact beq_iff_eq.mpr (h.uc _ (h.listed_page he).1.owned)
  · exact (h.complete bn c k _ hcut helem).resolve_right List.not_mem_nil

end Zus.Slab

namespace Zus.SlabRace

open Zus.Slab Zus.Pa

variable {nslabs nthreads : ℕ} {s : Race} {given : List Alloc}

/-- When no thread is in a call, nothing is in a thread's hands. -/
theorem RaceInv.finiOk (h : RaceInv nslabs nthreads s given) (hidle : ∀ t, s.pc t = .idle) :
    FiniOk s.gsa s.mem.pa given := by
  have hput : ∀ t p, s.mem.putting t ≠ some p := fun t p => by
    rw [h.putting t, hidle t]
    exact nofun
  refine ⟨⟨s.gsa, h.slab, fun _ _ => rfl, rfl, rfl, rfl⟩, ⟨h.mem.nodup, fun p => ?_⟩,
    fun bn => ⟨fun ho => ?_, fun hbn => ?_⟩, h.pages.owned⟩
  · exact ⟨fun hp => ⟨h.mem.lt p hp, (h.mem.idle p hp).refcount⟩,
      fun hp => h.mem.linked p hp.1 hp.2 fun t => hput t p⟩
  · have hone := h.pages.owned bn ho
    exact ⟨lt_size_of_refcount h.mem (by omega), by omega⟩
  · refine (h.pages.used bn hbn.2).resolve_right fun ⟨t, ht⟩ => ?_
    rw [hidle t] at ht
    cases ht

/-- **The slabs report a leak when something is live, and only then**: after any interleaving in
which all calls have returned, `zus_slab_fini` gives back the pages that come before the first leak
of their list and no others; the pages that `pa_fini` then counts as leaked are those it has kept,
and there is none exactly when nothing is live. -/
theorem zusSlabFini_leaks (paSize nslabs nthreads : ℕ) (s : Race)
    (hreach : (slabThreads paSize nslabs nthreads).Reachable s) (hidle : ∀ t, s.pc t = .idle) :
    (∀ bn, (zusSlabFini (s.gsa, s.mem.pa)).1.owned bn = true ↔
      s.gsa.owned bn = true ∧ ∀ c < nslabs, ∀ k < slabLists, bn ∉ cleared s.gsa c k) ∧
    paFiniLeaks (zusSlabFini (s.gsa, s.mem.pa)).2 = ((Finset.range s.mem.pa.size).filter fun bn =>
      (zusSlabFini (s.gsa, s.mem.pa)).1.owned bn = true).card ∧
    (paFiniLeaks (zusSlabFini (s.gsa, s.mem.pa)).2 = 0 ↔ s.live = []) := by
  obtain ⟨given, h⟩ := exists_raceInv hreach
  have hspec := zusSlabFini_spec (x := (s.gsa, s.mem.pa)) (h.finiOk hidle)
  have howned : ∀ bn, (zusSlabFini (s.gsa, s.mem.pa)).1.owned bn = true ↔
      s.gsa.owned bn = true ∧ ∀ c < nslabs, ∀ k < slabLists, bn ∉ cleared s.gsa c k := by
    intro bn
    rw [hspec.owned, h.nslabs_eq]
    exact and_congr_right fun _ => ⟨fun hall c hc k hk => hall c k ⟨hc, hk⟩,
      fun hall c k hck => hall c hck.1 k hck.2⟩
  have hgiven : ∀ a, a ∈ given ↔ a ∈ s.live := fun a => by
    refine (h.users.split a).trans (or_iff_left fun ⟨t, ht⟩ => ?_)
    rw [hidle t] at ht
    cases ht
  refine ⟨howned, ?_, hspec.ok.paFiniLeaks_eq_zero.trans ⟨fun hnone => ?_, fun hlive bn => ?_⟩⟩
  · rw [hspec.ok.paFiniLeaks_eq, hspec.size]
  · refine List.eq_nil_iff_forall_not_mem.mpr fun a ha => ?_
    have ha' := (hgiven a).mpr ha
    have hkept := (howned _).mpr ⟨h.owned_of_given ha', fun _ _ _ _ => h.slab.notMem_cleared ha'⟩
    rw [hnone] at hkept
    cases hkept
  · obtain rfl : given = [] := List.eq_nil_iff_forall_not_mem.mpr fun a ha => by
      rw [hgiven a, hlive] at ha
      cases ha
    refine Bool.eq_false_iff.mpr fun hkept => ?_
    obtain ⟨ho, hnot⟩ := (howned bn).mp hkept
    obtain ⟨-, c, hc, k, hk, hcut⟩ := h.slab.cut bn ho
    exact hnot c (h.nslabs_eq ▸ hc) k hk (h.slab.mem_cleared hcut)

/-- One live allocation, and its page is missed. -/
theorem zusSlabFini_leaks_one : ∃ s, (slabThreads (1 <<< 32) 2 2).Reachable s ∧
    s.live ≠ [] ∧ paFiniLeaks (zusSlabFini (s.gsa, s.mem.pa)).2 ≠ 0 := by
  have h₀ : (slabThreads (1 <<< 32) 2 2).Reachable (start 2 4096) :=
    .init ⟨4096, by decide, by decide, rfl⟩
  obtain ⟨s, hs, hp⟩ := h₀.exists_of_runAll [.malloc 0 0 100, .turn 0, .turn 0, .turn 0, .turn 0]
    (p := fun s => !s.live.isEmpty && (s.pc 0 == .idle && s.pc 1 == .idle)) (by decide +kernel)
  rw [Bool.and_eq_true, Bool.and_eq_true, beq_iff_eq, beq_iff_eq, Bool.not_eq_true',
    List.isEmpty_eq_false_iff] at hp
  have hidle : ∀ t, s.pc t = .idle := by
    obtain ⟨given, h⟩ := exists_raceInv hs
    rintro (_ | _ | t)
    · exact hp.2.1
    · exact hp.2.2
    · exact h.idle _ (by omega)
  exact ⟨s, hs, hp.1, fun hzero => hp.1 ((zusSlabFini_leaks _ _ _ s hs hidle).2.2.mp hzero)⟩

end Zus.SlabRace
