import Mathlib.Data.List.Perm.Subperm
import Zus.Slab

/-!
# Safety of the slab allocator

The counters of a list, the counter of a page and the live allocations are three
views of one thing: every element of a page the slabs hold is *either* on the list
named by its page *or* in a user's hands. `Inv` states this partition together with
the counts, and one lemma for each of the four primitive updates (a page cut into
elements, an element taken, an element given back, a page given back) keeps it.
Disjointness of live allocations is then geometry: two elements of one page have the
same size and different indices.
-/

namespace Zus.Slab

open Zus.Lib Gsa

/-! ## Elements of a page -/

/-- `e` is one of the elements of page `bn` cut for list `k`. -/
def IsElem (dataPtr bn k e : ℕ) : Prop :=
  ∃ j < slabsCount k, e = dataPtr + bn * blockSize + j * elemSize k

theorem mem_pageElems {g : Gsa} {bn k e : ℕ} :
    e ∈ g.pageElems bn k ↔ IsElem g.dataPtr bn k e := by
  simp only [pageElems, List.mem_map, List.mem_range, IsElem, pageAddress]
  constructor
  · rintro ⟨j, hj, rfl⟩
    exact ⟨j, hj, rfl⟩
  · rintro ⟨j, hj, rfl⟩
    exact ⟨j, hj, rfl⟩

theorem pageElems_nodup (g : Gsa) (bn k : ℕ) : (g.pageElems bn k).Nodup := by
  refine List.Nodup.map ?_ List.nodup_range
  intro i j hij
  have hmul : i * elemSize k = j * elemSize k := Nat.add_left_cancel hij
  exact Nat.eq_of_mul_eq_mul_right (elemSize_pos k) hmul

/-- An element lies in its page. -/
theorem IsElem.virtToPage {g : Gsa} {bn k e : ℕ} (hk : k < slabLists)
    (h : IsElem g.dataPtr bn k e) : g.virtToPage e = bn := by
  obtain ⟨j, hj, rfl⟩ := h
  have hend := elem_end hk hj
  have hpos := elemSize_pos k
  have hsub : g.dataPtr + bn * blockSize + j * elemSize k - g.dataPtr =
      j * elemSize k + bn * blockSize := by omega
  rw [Gsa.virtToPage, hsub, Nat.add_mul_div_right _ _ (by decide),
    Nat.div_eq_of_lt (by omega), Nat.zero_add]

/-- Two different elements of one page do not overlap. -/
theorem IsElem.apart {dataPtr bn k e e' : ℕ} (h : IsElem dataPtr bn k e)
    (h' : IsElem dataPtr bn k e') (hne : e ≠ e') :
    e + elemSize k ≤ e' ∨ e' + elemSize k ≤ e := by
  obtain ⟨i, -, rfl⟩ := h
  obtain ⟨j, -, rfl⟩ := h'
  rcases Nat.lt_trichotomy i j with hij | rfl | hij
  · have := Nat.mul_le_mul_right (elemSize k) hij
    rw [Nat.succ_mul] at this
    exact .inl (by omega)
  · exact absurd rfl hne
  · have := Nat.mul_le_mul_right (elemSize k) hij
    rw [Nat.succ_mul] at this
    exact .inr (by omega)

/-- The bytes of an element are bytes of its page. -/
theorem IsElem.range {dataPtr bn k e : ℕ} (hk : k < slabLists) (h : IsElem dataPtr bn k e) :
    dataPtr + bn * blockSize ≤ e ∧ e + elemSize k ≤ dataPtr + (bn + 1) * blockSize := by
  obtain ⟨j, hj, rfl⟩ := h
  have hend := elem_end hk hj
  rw [Nat.succ_mul]
  omega

/-! ## Updates of the state -/

section Updates

variable (g : Gsa) (c k bn : ℕ) (l : SlabList) (p : SlabPage)

@[simp] theorem setList_slab_self : (g.setList c k l).slab c k = l := by
  simp [setList]

theorem setList_slab_ne {c' k' : ℕ} (h : ¬ (c' = c ∧ k' = k)) :
    (g.setList c k l).slab c' k' = g.slab c' k' := by
  unfold setList
  by_cases hc : c' = c
  · subst hc
    have hk : k' ≠ k := fun hk => h ⟨rfl, hk⟩
    simp [hk]
  · simp [hc]

variable {g c k l} in
/-- What holds of the list that is set and of the others holds of all. -/
theorem forall_slab {g' : Gsa} {P : ℕ → ℕ → SlabList → Prop}
    (hg' : g'.slab = (g.setList c k l).slab) (hself : P c k l)
    (hother : ∀ c' k', ¬ (c' = c ∧ k' = k) → P c' k' (g.slab c' k')) (c' k' : ℕ) :
    P c' k' (g'.slab c' k') := by
  rw [hg']
  by_cases hck : c' = c ∧ k' = k
  · obtain ⟨rfl, rfl⟩ := hck
    rwa [setList_slab_self]
  · rw [setList_slab_ne _ _ _ _ hck]
    exact hother c' k' hck

variable {g c k l} in
/-- What is on the lists when one of them has got more elements at its end. -/
theorem mem_head_of_append {g' : Gsa} {more : List ℕ} (hg' : g'.slab = (g.setList c k l).slab)
    (hhead : l.head = (g.slab c k).head ++ more) {c' k' e : ℕ} :
    e ∈ (g'.slab c' k').head ↔ e ∈ (g.slab c' k').head ∨ (c' = c ∧ k' = k ∧ e ∈ more) := by
  rw [hg']
  by_cases h : c' = c ∧ k' = k
  · obtain ⟨rfl, rfl⟩ := h
    rw [setList_slab_self, hhead, List.mem_append, and_iff_right rfl, and_iff_right rfl]
  · rw [setList_slab_ne _ _ _ _ h]
    constructor
    · exact .inl
    · rintro (he | ⟨hc, hk, -⟩)
      · exact he
      · exact absurd ⟨hc, hk⟩ h

@[simp] theorem setList_page : (g.setList c k l).page = g.page := rfl
@[simp] theorem setList_dataPtr : (g.setList c k l).dataPtr = g.dataPtr := rfl
@[simp] theorem setList_nslabs : (g.setList c k l).nslabs = g.nslabs := rfl
@[simp] theorem setList_owned : (g.setList c k l).owned = g.owned := rfl
@[simp] theorem setList_paSize : (g.setList c k l).paSize = g.paSize := rfl
@[simp] theorem setPage_slab : (g.setPage bn p).slab = g.slab := rfl
@[simp] theorem setPage_dataPtr : (g.setPage bn p).dataPtr = g.dataPtr := rfl
@[simp] theorem setPage_nslabs : (g.setPage bn p).nslabs = g.nslabs := rfl
@[simp] theorem setPage_owned : (g.setPage bn p).owned = g.owned := rfl
@[simp] theorem setPage_paSize : (g.setPage bn p).paSize = g.paSize := rfl
@[simp] theorem setPage_page : (g.setPage bn p).page = Function.update g.page bn p := rfl

end Updates

/-! ## The invariant -/

/-- The live allocations on the pages of list `k` of slab `c`. -/
def heldOn (g : Gsa) (live : List Alloc) (c k : ℕ) : ℕ :=
  live.countP fun a =>
    (g.page (g.virtToPage a.ptr)).slabCpu = c ∧ (g.page (g.virtToPage a.ptr)).useCount = k + 1

/-- The live allocations in page `bn`. -/
def heldIn (g : Gsa) (live : List Alloc) (bn : ℕ) : ℕ :=
  live.countP fun a => g.virtToPage a.ptr = bn

/-- Page `bn` is held by the slabs and cut for list `k` of slab `c`. -/
structure CutFor (g : Gsa) (bn c k : ℕ) : Prop where
  owned : g.owned bn = true
  index : (g.page bn).useCount = k + 1
  cpu : (g.page bn).slabCpu = c

/-- The invariant of the allocator with the live allocations. -/
structure Inv (g : Gsa) (live : List Alloc) : Prop where
  aligned : g.dataPtr % blockSize = 0
  pos : 0 < g.dataPtr
  /-- a page the slabs hold is cut for some list of some slab -/
  cut : ∀ bn, g.owned bn = true → bn < g.paSize ∧ ∃ c < g.nslabs, ∃ k < slabLists, CutFor g bn c k
  /-- a free element is an element of a page cut for its list -/
  listed : ∀ c k, ∀ e ∈ (g.slab c k).head, ∃ bn, CutFor g bn c k ∧ IsElem g.dataPtr bn k e
  nodup : ∀ c k, (g.slab c k).head.Nodup
  /-- a live allocation is an element of a cut page, and is not on its list -/
  held : ∀ a ∈ live, ∃ bn c k, CutFor g bn c k ∧ IsElem g.dataPtr bn k a.ptr ∧ 0 < a.size ∧
    a.size ≤ elemSize k ∧ a.ptr ∉ (g.slab c k).head
  liveNodup : (live.map Alloc.ptr).Nodup
  /-- every element of a cut page is free or live -/
  complete : ∀ bn c k e, CutFor g bn c k → IsElem g.dataPtr bn k e →
    e ∈ (g.slab c k).head ∨ e ∈ live.map Alloc.ptr
  nfree : ∀ c k, (g.slab c k).nfree = (g.slab c k).head.length
  nused : ∀ c k, (g.slab c k).nused = heldOn g live c k
  uc : ∀ bn, g.owned bn = true → (g.page bn).slabUc = heldIn g live bn

variable {g : Gsa} {live : List Alloc}

theorem CutFor.unique {bn c k c' k' : ℕ} (h : CutFor g bn c k) (h' : CutFor g bn c' k') :
    c = c' ∧ k = k' := by
  have hi := h.index.symm.trans h'.index
  exact ⟨h.cpu.symm.trans h'.cpu, by omega⟩

theorem Inv.cut_lt (h : Inv g live) {bn c k : ℕ} (hc : CutFor g bn c k) :
    c < g.nslabs ∧ k < slabLists := by
  obtain ⟨-, c', hc', k', hk', hcut⟩ := h.cut bn hc.owned
  obtain ⟨rfl, rfl⟩ := hc.unique hcut
  exact ⟨hc', hk'⟩

/-- The page a free element names is the page it is cut from. -/
theorem Inv.listed_page (h : Inv g live) {c k e : ℕ} (he : e ∈ (g.slab c k).head) :
    CutFor g (g.virtToPage e) c k ∧ IsElem g.dataPtr (g.virtToPage e) k e := by
  obtain ⟨bn, hcut, helem⟩ := h.listed c k e he
  rw [helem.virtToPage (h.cut_lt hcut).2]
  exact ⟨hcut, helem⟩

/-- The page a live allocation names is the page it is cut from. -/
theorem Inv.held_page (h : Inv g live) {a : Alloc} (ha : a ∈ live) :
    ∃ c k, CutFor g (g.virtToPage a.ptr) c k ∧ IsElem g.dataPtr (g.virtToPage a.ptr) k a.ptr ∧
      0 < a.size ∧ a.size ≤ elemSize k ∧ a.ptr ∉ (g.slab c k).head := by
  obtain ⟨bn, c, k, hcut, helem, hrest⟩ := h.held a ha
  rw [helem.virtToPage (h.cut_lt hcut).2]
  exact ⟨c, k, hcut, helem, hrest⟩

/-- A live allocation is not on the list that its page is cut for. -/
theorem Inv.held_notMem (h : Inv g live) {a : Alloc} {bn c k : ℕ} (ha : a ∈ live)
    (hcut : CutFor g bn c k) (helem : IsElem g.dataPtr bn k a.ptr) :
    a.ptr ∉ (g.slab c k).head := by
  obtain ⟨c', k', hcut', -, -, -, hnot⟩ := h.held_page ha
  rw [helem.virtToPage (h.cut_lt hcut).2] at hcut'
  obtain ⟨rfl, rfl⟩ := hcut'.unique hcut
  exact hnot

/-- Two elements do not overlap: either their pages differ, or they are different elements of one
page. -/
theorem Inv.elem_apart (h : Inv g live) {bn c k bn' c' k' e e' : ℕ} (hcut : CutFor g bn c k)
    (he : IsElem g.dataPtr bn k e) (hcut' : CutFor g bn' c' k') (he' : IsElem g.dataPtr bn' k' e')
    (hne : e ≠ e') : e + elemSize k ≤ e' ∨ e' + elemSize k' ≤ e := by
  obtain ⟨hlow, hhigh⟩ := he.range (h.cut_lt hcut).2
  obtain ⟨hlow', hhigh'⟩ := he'.range (h.cut_lt hcut').2
  rcases Nat.lt_trichotomy bn bn' with hlt | heq | hlt
  · have := Nat.mul_le_mul_right blockSize (Nat.succ_le_of_lt hlt)
    rw [Nat.succ_eq_add_one] at this
    exact .inl (by omega)
  · rw [← heq] at hcut' he'
    obtain ⟨rfl, rfl⟩ := hcut.unique hcut'
    exact he.apart he' hne
  · have := Nat.mul_le_mul_right blockSize (Nat.succ_le_of_lt hlt)
    rw [Nat.succ_eq_add_one] at this
    exact .inr (by omega)

/-- An element lies in the part of the mapping that the pool has grown to. -/
theorem Inv.elem_range (h : Inv g live) {bn c k e : ℕ} (hcut : CutFor g bn c k)
    (he : IsElem g.dataPtr bn k e) :
    g.dataPtr ≤ e ∧ e + elemSize k ≤ g.dataPtr + g.paSize * blockSize := by
  obtain ⟨hlow, hhigh⟩ := he.range (h.cut_lt hcut).2
  have hbound : (bn + 1) * blockSize ≤ g.paSize * blockSize :=
    Nat.mul_le_mul_right _ (h.cut _ hcut.owned).1
  omega

/-- So the page of an element is looked up. -/
theorem Inv.inrange (h : Inv g live) {bn c k e : ℕ} (hcut : CutFor g bn c k)
    (he : IsElem g.dataPtr bn k e) : g.paAddrInrange e = true := by
  obtain ⟨hlow, hhigh⟩ := h.elem_range hcut he
  have hk := elemSize_pos k
  rw [paAddrInrange, Bool.and_eq_true, decide_eq_true_eq, decide_eq_true_eq]
  omega

theorem inv_init (nslabs dataPtr : ℕ) (ha : dataPtr % blockSize = 0) (hp : 0 < dataPtr) :
    Inv (initGsa nslabs dataPtr) [] where
  aligned := ha
  pos := hp
  cut _ h := by cases h
  listed _ _ _ h := by cases h
  nodup _ _ := List.nodup_nil
  held _ h := by cases h
  liveNodup := List.nodup_nil
  complete _ _ _ _ h := by cases h.owned
  nfree _ _ := rfl
  nused _ _ := rfl
  uc _ h := by cases h

/-! ## A page is cut into elements -/

/-- The state in which the page allocator has handed out page `bn`. -/
def takePage (g : Gsa) (bn paSize : ℕ) : Gsa :=
  { g with paSize := paSize, owned := Function.update g.owned bn true }

section PageInit

variable {c k bn paSize : ℕ}

/-- A page other than the new one is cut as before. -/
theorem cutFor_pageInit {bn' c' k' : ℕ} (hne : bn' ≠ bn) :
    CutFor ((takePage g bn paSize).slabPageInit c bn k) bn' c' k' ↔ CutFor g bn' c' k' := by
  constructor
  · rintro ⟨ho, hi, hc⟩
    exact ⟨by simpa [slabPageInit, takePage, hne] using ho,
      by simpa [slabPageInit, takePage, hne] using hi,
      by simpa [slabPageInit, takePage, hne] using hc⟩
  · rintro ⟨ho, hi, hc⟩
    exact ⟨by simpa [slabPageInit, takePage, hne] using ho,
      by simpa [slabPageInit, takePage, hne] using hi,
      by simpa [slabPageInit, takePage, hne] using hc⟩

theorem cutFor_pageInit_self {c' k' : ℕ} :
    CutFor ((takePage g bn paSize).slabPageInit c bn k) bn c' k' ↔ c' = c ∧ k' = k := by
  constructor
  · rintro ⟨-, hi, hc⟩
    simp only [slabPageInit, takePage, setList_page, setPage_page, Function.update_self] at hi hc
    exact ⟨hc.symm, by omega⟩
  · rintro ⟨rfl, rfl⟩
    exact ⟨by simp [slabPageInit, takePage], by simp [slabPageInit, takePage],
      by simp [slabPageInit, takePage]⟩

theorem mem_pageInit_head {c' k' e : ℕ} :
    e ∈ (((takePage g bn paSize).slabPageInit c bn k).slab c' k').head ↔
      e ∈ (g.slab c' k').head ∨ (c' = c ∧ k' = k ∧ IsElem g.dataPtr bn k e) := by
  rw [← mem_pageElems]
  exact mem_head_of_append rfl rfl

/-- A fresh page is cut into free elements. -/
theorem Inv.pageInit (h : Inv g live) (hbn : g.owned bn = false) (hlt : bn < paSize)
    (hgrow : g.paSize ≤ paSize) (hc : c < g.nslabs) (hk : k < slabLists) :
    Inv ((takePage g bn paSize).slabPageInit c bn k) live := by
  have hne : ∀ {bn' c' k'}, CutFor g bn' c' k' → bn' ≠ bn := by
    rintro bn' c' k' hcut rfl
    rw [hcut.owned] at hbn
    cases hbn
  -- no live allocation is in the new page, so the counts of the live ones stand
  have hpage : ∀ a ∈ live, g.virtToPage a.ptr ≠ bn := by
    intro a ha
    obtain ⟨c', k', hcut, -⟩ := h.held_page ha
    exact hne hcut
  have hnotin : ∀ e, IsElem g.dataPtr bn k e → e ∉ (g.slab c k).head := by
    intro e he hmem
    obtain ⟨hcut, -⟩ := h.listed_page hmem
    rw [he.virtToPage hk] at hcut
    exact hne hcut rfl
  refine ⟨h.aligned, h.pos, ?_, ?_, ?_, ?_, h.liveNodup, ?_, ?_, ?_, ?_⟩
  · intro bn' ho
    by_cases hb : bn' = bn
    · subst hb
      exact ⟨hlt, c, hc, k, hk, cutFor_pageInit_self.mpr ⟨rfl, rfl⟩⟩
    · obtain ⟨hlt', c', hc', k', hk', hcut⟩ :=
        h.cut bn' (by simpa [slabPageInit, takePage, hb] using ho)
      exact ⟨Nat.lt_of_lt_of_le hlt' hgrow, c', hc', k', hk', (cutFor_pageInit hb).mpr hcut⟩
  · intro c' k' e he
    rcases mem_pageInit_head.mp he with he | ⟨rfl, rfl, he⟩
    · obtain ⟨bn', hcut, helem⟩ := h.listed c' k' e he
      exact ⟨bn', (cutFor_pageInit (hne hcut)).mpr hcut, helem⟩
    · exact ⟨bn, cutFor_pageInit_self.mpr ⟨rfl, rfl⟩, he⟩
  · refine forall_slab (g := g) (c := c) (k := k) (P := fun _ _ l => l.head.Nodup) rfl ?_
      fun c' k' _ => h.nodup c' k'
    refine (h.nodup c k).append (pageElems_nodup g bn k) ?_
    intro e he he'
    exact hnotin e (mem_pageElems.mp he') he
  · intro a ha
    obtain ⟨c', k', hcut, helem, hpos, hle, hnot⟩ := h.held_page ha
    refine ⟨_, c', k', (cutFor_pageInit (hne hcut)).mpr hcut, helem, hpos, hle, fun hmem => ?_⟩
    rcases mem_pageInit_head.mp hmem with hmem | ⟨-, rfl, he⟩
    · exact hnot hmem
    · exact hpage a ha (he.virtToPage hk)
  · intro bn' c' k' e hcut he
    by_cases hb : bn' = bn
    · subst hb
      obtain ⟨rfl, rfl⟩ := cutFor_pageInit_self.mp hcut
      exact .inl (mem_pageInit_head.mpr (.inr ⟨rfl, rfl, he⟩))
    · rcases h.complete bn' c' k' e ((cutFor_pageInit hb).mp hcut) he with hmem | hmem
      · exact .inl (mem_pageInit_head.mpr (.inl hmem))
      · exact .inr hmem
  · refine forall_slab (g := g) (c := c) (k := k) (P := fun _ _ l => l.nfree = l.head.length) rfl ?_
      fun c' k' _ => h.nfree c' k'
    rw [List.length_append, Nat.cast_add]
    exact congrArg (· + ((g.pageElems bn k).length : ℤ)) (h.nfree c k)
  · intro c' k'
    have hcount : heldOn ((takePage g bn paSize).slabPageInit c bn k) live c' k' =
        heldOn g live c' k' := by
      refine List.countP_congr fun a ha => ?_
      have hp : g.virtToPage a.ptr ≠ bn := hpage a ha
      change decide ((Function.update g.page bn _ (g.virtToPage a.ptr)).slabCpu = c' ∧
        (Function.update g.page bn _ (g.virtToPage a.ptr)).useCount = k' + 1) = true ↔ _
      rw [Function.update_of_ne hp]
    rw [hcount]
    by_cases hck : c' = c ∧ k' = k
    · obtain ⟨rfl, rfl⟩ := hck
      simpa [slabPageInit, takePage] using h.nused c' k'
    · rw [slabPageInit, setList_slab_ne _ _ _ _ hck]
      exact h.nused c' k'
  · intro bn' ho
    by_cases hb : bn' = bn
    · subst hb
      have hzero : heldIn ((takePage g bn' paSize).slabPageInit c bn' k) live bn' = 0 := by
        refine List.countP_eq_zero.mpr fun a ha => ?_
        rw [decide_eq_true_eq]
        exact hpage a ha
      rw [hzero]
      simp [slabPageInit, takePage]
    · have ho' : g.owned bn' = true := by simpa [slabPageInit, takePage, hb] using ho
      have hpg : ((takePage g bn paSize).slabPageInit c bn k).page bn' = g.page bn' := by
        simp [slabPageInit, takePage, hb]
      rw [hpg]
      exact h.uc bn' ho'

end PageInit

/-! ## Elements are taken and given back

Taking an element and giving one back change one list and one page counter; which
page is cut for which list stays. -/

/-- Two states that cut the same pages in the same way. -/
structure SameCut (g g' : Gsa) : Prop where
  nslabs : g'.nslabs = g.nslabs
  dataPtr : g'.dataPtr = g.dataPtr
  paSize : g'.paSize = g.paSize
  owned : g'.owned = g.owned
  index : ∀ bn, (g'.page bn).useCount = (g.page bn).useCount
  cpu : ∀ bn, (g'.page bn).slabCpu = (g.page bn).slabCpu

namespace SameCut

variable {g' : Gsa}

theorem cutFor (h : SameCut g g') {bn c k : ℕ} : CutFor g' bn c k ↔ CutFor g bn c k := by
  constructor
  · rintro ⟨ho, hi, hc⟩
    exact ⟨h.owned ▸ ho, h.index bn ▸ hi, h.cpu bn ▸ hc⟩
  · rintro ⟨ho, hi, hc⟩
    exact ⟨h.owned ▸ ho, (h.index bn).trans hi, (h.cpu bn).trans hc⟩

theorem virtToPage (h : SameCut g g') (e : ℕ) : g'.virtToPage e = g.virtToPage e := by
  rw [Gsa.virtToPage, Gsa.virtToPage, h.dataPtr]

theorem heldOn (h : SameCut g g') (live : List Alloc) (c k : ℕ) :
    heldOn g' live c k = Slab.heldOn g live c k := by
  refine List.countP_congr fun a _ => ?_
  rw [h.virtToPage, h.index, h.cpu]

theorem heldIn (h : SameCut g g') (live : List Alloc) (bn : ℕ) :
    heldIn g' live bn = Slab.heldIn g live bn := by
  refine List.countP_congr fun a _ => ?_
  rw [h.virtToPage]

theorem cut (h : SameCut g g') (hinv : Inv g live) {bn : ℕ} (ho : g'.owned bn = true) :
    bn < g'.paSize ∧ ∃ c < g'.nslabs, ∃ k < slabLists, CutFor g' bn c k := by
  obtain ⟨hlt, c, hc, k, hk, hcut⟩ := hinv.cut bn (h.owned ▸ ho)
  rw [h.paSize, h.nslabs]
  exact ⟨hlt, c, hc, k, hk, h.cutFor.mpr hcut⟩

end SameCut

/-- Changing a list and the user count of a page cuts nothing anew. -/
theorem sameCut_update (g : Gsa) (c k bn : ℕ) (l : SlabList) (uc : ℤ) :
    SameCut g ((g.setList c k l).setPage bn { g.page bn with slabUc := uc }) where
  nslabs := rfl
  dataPtr := rfl
  paSize := rfl
  owned := rfl
  index bn' := by
    by_cases hb : bn' = bn
    · subst hb
      simp
    · simp [hb]
  cpu bn' := by
    by_cases hb : bn' = bn
    · subst hb
      simp
    · simp [hb]

/-- What holds of the page with another user count and of the others holds of all. -/
theorem forall_page_update {P : ℕ → ℤ → Prop} {c k bn : ℕ} {l : SlabList} {uc : ℤ}
    (hself : P bn uc) (hother : ∀ bn', bn' ≠ bn → P bn' (g.page bn').slabUc) (bn' : ℕ) :
    P bn' (((g.setList c k l).setPage bn { g.page bn with slabUc := uc }).page bn').slabUc := by
  by_cases hb : bn' = bn
  · subst hb
    simpa using hself
  · simpa [hb] using hother bn' hb

/-- An allocation counts for the list its page is cut for. -/
theorem heldOn_cons (live : List Alloc) {a : Alloc} {bn c k : ℕ} (hk : k < slabLists)
    (hcut : CutFor g bn c k) (helem : IsElem g.dataPtr bn k a.ptr) (c' k' : ℕ) :
    heldOn g (a :: live) c' k' = heldOn g live c' k' + if c' = c ∧ k' = k then 1 else 0 := by
  rw [heldOn, List.countP_cons, helem.virtToPage hk, hcut.cpu, hcut.index, heldOn]
  have hiff : (c = c' ∧ k + 1 = k' + 1) ↔ (c' = c ∧ k' = k) := by omega
  simp only [hiff, decide_eq_true_eq]

/-- An allocation counts for its page. -/
theorem heldIn_cons (live : List Alloc) {a : Alloc} {bn k : ℕ} (hk : k < slabLists)
    (helem : IsElem g.dataPtr bn k a.ptr) (bn' : ℕ) :
    heldIn g (a :: live) bn' = heldIn g live bn' + if bn' = bn then 1 else 0 := by
  have hiff : (bn = bn') ↔ (bn' = bn) := eq_comm
  rw [heldIn, List.countP_cons, helem.virtToPage hk, heldIn]
  simp only [hiff, decide_eq_true_eq]

/-- The live allocations of a list are those that are left and the one given back. -/
theorem heldOn_erase {a : Alloc} {bn c k : ℕ} (ha : a ∈ live) (hk : k < slabLists)
    (hcut : CutFor g bn c k) (helem : IsElem g.dataPtr bn k a.ptr) (c' k' : ℕ) :
    heldOn g live c' k' = heldOn g (live.erase a) c' k' + if c' = c ∧ k' = k then 1 else 0 := by
  rw [← heldOn_cons _ hk hcut helem]
  exact (List.perm_cons_erase ha).countP_eq _

/-- And those of a page. -/
theorem heldIn_erase {a : Alloc} {bn k : ℕ} (ha : a ∈ live) (hk : k < slabLists)
    (helem : IsElem g.dataPtr bn k a.ptr) (bn' : ℕ) :
    heldIn g live bn' = heldIn g (live.erase a) bn' + if bn' = bn then 1 else 0 := by
  rw [← heldIn_cons _ hk helem]
  exact (List.perm_cons_erase ha).countP_eq _

section Elem

variable {c k : ℕ}

/-- The first free element of a list goes to a user. -/
theorem Inv.allocElem (h : Inv g live) {se size : ℕ} {rest : List ℕ}
    (hhead : (g.slab c k).head = se :: rest) (hpos : 0 < size) (hle : size ≤ elemSize k) :
    Inv (g.slabAllocElem c k).2 (⟨se, size⟩ :: live) := by
  have hmem : se ∈ (g.slab c k).head := by
    rw [hhead]
    exact List.mem_cons_self
  obtain ⟨hcut, helem⟩ := h.listed_page hmem
  have hk := (h.cut_lt hcut).2
  set bn := g.virtToPage se with hbn
  set l : SlabList := { g.slab c k with
    head := rest, nfree := (g.slab c k).nfree - 1, nused := (g.slab c k).nused + 1 } with hl
  have hg' : (g.slabAllocElem c k).2 = (g.setList c k l).setPage bn
      { g.page bn with slabUc := (g.page bn).slabUc + 1 } := by
    rw [slabAllocElem, hhead]
  rw [hg']
  have hsame := sameCut_update g c k bn l ((g.page bn).slabUc + 1)
  set g' := (g.setList c k l).setPage bn { g.page bn with slabUc := (g.page bn).slabUc + 1 }
  have hself : g'.slab c k = l := by
    simp [g']
  have hother : ∀ c' k', ¬ (c' = c ∧ k' = k) → g'.slab c' k' = g.slab c' k' :=
    fun c' k' hck => setList_slab_ne _ _ _ _ hck
  have hsub : ∀ c' k' e, e ∈ (g'.slab c' k').head → e ∈ (g.slab c' k').head := by
    intro c' k' e he
    by_cases hck : c' = c ∧ k' = k
    · obtain ⟨rfl, rfl⟩ := hck
      rw [hself] at he
      rw [hhead]
      exact List.mem_cons_of_mem _ he
    · rwa [hother c' k' hck] at he
  have hnd : se ∉ rest ∧ rest.Nodup := by
    have := h.nodup c k
    rw [hhead] at this
    exact List.nodup_cons.mp this
  have hnotlive : ∀ a ∈ live, a.ptr ≠ se := by
    rintro a ha rfl
    exact h.held_notMem ha hcut helem hmem
  refine ⟨h.aligned, h.pos, fun bn' ho => hsame.cut h ho, ?_, ?_, ?_, ?_, ?_, ?_, ?_, ?_⟩
  · intro c' k' e he
    obtain ⟨bn', hc', he'⟩ := h.listed c' k' e (hsub c' k' e he)
    exact ⟨bn', hsame.cutFor.mpr hc', he'⟩
  · exact forall_slab (P := fun _ _ l => l.head.Nodup) rfl hnd.2 fun c' k' _ => h.nodup c' k'
  · intro a ha
    rcases List.mem_cons.mp ha with rfl | ha
    · refine ⟨bn, c, k, hsame.cutFor.mpr hcut, helem, hpos, hle, ?_⟩
      rw [hself]
      exact hnd.1
    · obtain ⟨bn', c', k', hc', he', hp', hl', hnot⟩ := h.held a ha
      exact ⟨bn', c', k', hsame.cutFor.mpr hc', he', hp', hl', fun hm => hnot (hsub c' k' _ hm)⟩
  · rw [List.map_cons, List.nodup_cons]
    refine ⟨fun hm => ?_, h.liveNodup⟩
    obtain ⟨a, ha, hae⟩ := List.mem_map.mp hm
    exact hnotlive a ha hae
  · intro bn' c' k' e hc' he'
    rcases h.complete bn' c' k' e (hsame.cutFor.mp hc') he' with hm | hm
    · by_cases hck : c' = c ∧ k' = k
      · obtain ⟨rfl, rfl⟩ := hck
        rw [hhead] at hm
        rcases List.mem_cons.mp hm with rfl | hm
        · exact .inr List.mem_cons_self
        · rw [hself]
          exact .inl hm
      · rw [hother c' k' hck]
        exact .inl hm
    · exact .inr (List.mem_cons_of_mem _ hm)
  · refine forall_slab (P := fun _ _ l => l.nfree = l.head.length) rfl ?_
      fun c' k' _ => h.nfree c' k'
    have hn := h.nfree c k
    rw [hhead, List.length_cons] at hn
    push_cast at hn
    linarith
  · refine forall_slab (P := fun c' k' l => l.nused = heldOn g' (⟨se, size⟩ :: live) c' k') rfl ?_
      fun c' k' hck => ?_
    · rw [hsame.heldOn, heldOn_cons live hk hcut helem, if_pos ⟨rfl, rfl⟩]
      have hn := h.nused c k
      push_cast
      linarith
    · rw [hsame.heldOn, heldOn_cons live hk hcut helem, if_neg hck]
      exact h.nused c' k'
  · refine forall_page_update (P := fun bn' uc => g.owned bn' = true →
      uc = heldIn g' (⟨se, size⟩ :: live) bn') (fun ho => ?_) fun bn' hb ho => ?_
    · rw [hsame.heldIn, heldIn_cons live hk helem, if_pos rfl]
      have hn := h.uc bn ho
      push_cast
      linarith
    · rw [hsame.heldIn, heldIn_cons live hk helem, if_neg hb]
      exact h.uc bn' ho

/-- A live element goes back to its list. -/
theorem Inv.freeElem (h : Inv g live) {a : Alloc} {bn : ℕ} (ha : a ∈ live)
    (hcut : CutFor g bn c k) (helem : IsElem g.dataPtr bn k a.ptr) :
    Inv (g.slabFreeElem c k bn a.ptr) (live.erase a) := by
  -- the live allocations are the freed one and the others
  have hperm : live.Perm (a :: live.erase a) := List.perm_cons_erase ha
  have hk := (h.cut_lt hcut).2
  set l : SlabList := { g.slab c k with
    head := (g.slab c k).head ++ [a.ptr]
    nfree := (g.slab c k).nfree + 1
    nused := (g.slab c k).nused - 1 } with hl
  have hg' : g.slabFreeElem c k bn a.ptr = (g.setList c k l).setPage bn
      { g.page bn with slabUc := (g.page bn).slabUc - 1 } := rfl
  rw [hg']
  have hsame := sameCut_update g c k bn l ((g.page bn).slabUc - 1)
  set g' := (g.setList c k l).setPage bn { g.page bn with slabUc := (g.page bn).slabUc - 1 }
  have hmem : ∀ c' k' e, e ∈ (g'.slab c' k').head ↔
      e ∈ (g.slab c' k').head ∨ (c' = c ∧ k' = k ∧ e = a.ptr) := by
    intro c' k' e
    have happend := @mem_head_of_append g c k l g' [a.ptr] rfl rfl c' k' e
    rwa [List.mem_singleton] at happend
  have hnd : ((a :: live.erase a).map Alloc.ptr).Nodup :=
    (hperm.map Alloc.ptr).nodup_iff.mp h.liveNodup
  rw [List.map_cons, List.nodup_cons] at hnd
  refine ⟨h.aligned, h.pos, fun bn' ho => hsame.cut h ho, ?_, ?_, ?_, hnd.2, ?_, ?_, ?_, ?_⟩
  · intro c' k' e he
    rcases (hmem c' k' e).mp he with he | ⟨rfl, rfl, rfl⟩
    · obtain ⟨bn', hc', he'⟩ := h.listed c' k' e he
      exact ⟨bn', hsame.cutFor.mpr hc', he'⟩
    · exact ⟨bn, hsame.cutFor.mpr hcut, helem⟩
  · refine forall_slab (P := fun _ _ l => l.head.Nodup) rfl ?_ fun c' k' _ => h.nodup c' k'
    refine (h.nodup c k).append (List.nodup_singleton _) ?_
    intro e he he'
    rw [List.mem_singleton] at he'
    exact h.held_notMem ha hcut helem (he' ▸ he)
  · intro b hb
    have hne : b.ptr ≠ a.ptr := fun he => hnd.1 (he ▸ List.mem_map_of_mem hb)
    obtain ⟨bn', c', k', hc', he', hp', hl', hnot⟩ := h.held b (List.mem_of_mem_erase hb)
    refine ⟨bn', c', k', hsame.cutFor.mpr hc', he', hp', hl', fun hm => ?_⟩
    rcases (hmem c' k' _).mp hm with hm | ⟨-, -, hm⟩
    · exact hnot hm
    · exact hne hm
  · intro bn' c' k' e hc' he'
    rw [hmem]
    rcases h.complete bn' c' k' e (hsame.cutFor.mp hc') he' with hm | hm
    · exact .inl (.inl hm)
    · rcases List.mem_cons.mp ((hperm.map Alloc.ptr).mem_iff.mp hm) with rfl | hm
      · -- the freed element is on the list its page is cut for
        have hbn : bn' = bn := by
          have hk' := (h.cut_lt (hsame.cutFor.mp hc')).2
          exact (IsElem.virtToPage (g := g) hk' he').symm.trans (helem.virtToPage hk)
        subst hbn
        obtain ⟨rfl, rfl⟩ := (hsame.cutFor.mp hc').unique hcut
        exact .inl (.inr ⟨rfl, rfl, rfl⟩)
      · exact .inr hm
  · refine forall_slab (P := fun _ _ l => l.nfree = l.head.length) rfl ?_
      fun c' k' _ => h.nfree c' k'
    have hn := h.nfree c k
    rw [hl, List.length_append, List.length_singleton]
    push_cast
    linarith
  · refine forall_slab (P := fun c' k' l => l.nused = heldOn g' (live.erase a) c' k') rfl ?_
      fun c' k' hck => ?_
    · have hn := h.nused c k
      rw [heldOn_erase ha hk hcut helem, if_pos ⟨rfl, rfl⟩] at hn
      rw [hsame.heldOn]
      push_cast at hn
      linarith
    · have hn := h.nused c' k'
      rw [heldOn_erase ha hk hcut helem, if_neg hck] at hn
      rw [hsame.heldOn]
      exact hn
  · refine forall_page_update (P := fun bn' uc => g.owned bn' = true →
      uc = heldIn g' (live.erase a) bn') (fun ho => ?_) fun bn' hb ho => ?_
    · have hn := h.uc bn ho
      rw [heldIn_erase ha hk helem, if_pos rfl] at hn
      rw [hsame.heldIn]
      push_cast at hn
      linarith
    · have hn := h.uc bn' ho
      rw [heldIn_erase ha hk helem, if_neg hb] at hn
      rw [hsame.heldIn]
      exact hn

end Elem

/-! ## A page is given back -/

section PageFini

variable {c k bn : ℕ}

theorem cutFor_pageFini {bn' c' k' : ℕ} :
    CutFor (g.slabPageFini c bn k) bn' c' k' ↔ bn' ≠ bn ∧ CutFor g bn' c' k' := by
  by_cases hb : bn' = bn
  · subst hb
    constructor
    · rintro ⟨ho, -, -⟩
      simp [slabPageFini] at ho
    · rintro ⟨hne, -⟩
      exact absurd rfl hne
  · constructor
    · rintro ⟨ho, hi, hc⟩
      exact ⟨hb, by simpa [slabPageFini, hb] using ho, by simpa [slabPageFini, hb] using hi,
        by simpa [slabPageFini, hb] using hc⟩
    · rintro ⟨-, ho, hi, hc⟩
      exact ⟨by simpa [slabPageFini, hb] using ho, by simpa [slabPageFini, hb] using hi,
        by simpa [slabPageFini, hb] using hc⟩

theorem pageFini_slab_self : (g.slabPageFini c bn k).slab c k =
    { g.slab c k with
      head := (g.slab c k).head.diff (g.pageElems bn k)
      nfree := (g.slab c k).nfree - (g.pageElems bn k).length } := by
  rw [List.diff_eq_foldl]
  exact setList_slab_self _ _ _ _

theorem pageFini_slab_ne {c' k' : ℕ} (h : ¬ (c' = c ∧ k' = k)) :
    (g.slabPageFini c bn k).slab c' k' = g.slab c' k' := setList_slab_ne _ _ _ _ h

/-- What stays on the lists are the elements of the other pages. -/
theorem Inv.mem_pageFini_head (h : Inv g live) (hcut : CutFor g bn c k) {c' k' e : ℕ} :
    e ∈ ((g.slabPageFini c bn k).slab c' k').head ↔
      e ∈ (g.slab c' k').head ∧ g.virtToPage e ≠ bn := by
  by_cases hck : c' = c ∧ k' = k
  · obtain ⟨rfl, rfl⟩ := hck
    rw [pageFini_slab_self, (h.nodup c' k').mem_sdiff_iff, mem_pageElems]
    refine and_congr_right fun he => not_congr ⟨fun helem => ?_, ?_⟩
    · exact helem.virtToPage (h.cut_lt hcut).2
    · rintro rfl
      exact (h.listed_page he).2
  · rw [pageFini_slab_ne hck]
    refine ⟨fun he => ⟨he, ?_⟩, And.left⟩
    rintro rfl
    exact hck ((h.listed_page he).1.unique hcut)

/-- When no element of a page is in a user's hands, all of them are on its list. -/
theorem Inv.pageElems_subset (h : Inv g live) (hcut : CutFor g bn c k)
    (hzero : heldIn g live bn = 0) : g.pageElems bn k ⊆ (g.slab c k).head := by
  intro e he
  have helem := mem_pageElems.mp he
  rcases h.complete bn c k e hcut helem with hm | hm
  · exact hm
  · obtain ⟨a, ha, rfl⟩ := List.mem_map.mp hm
    have hnot := List.countP_eq_zero.mp hzero a ha
    rw [decide_eq_true_eq] at hnot
    exact absurd (helem.virtToPage (h.cut_lt hcut).2) hnot

/-- A page without users leaves its list with all its elements. -/
theorem Inv.pageFini (h : Inv g live) (hcut : CutFor g bn c k) (hzero : heldIn g live bn = 0) :
    Inv (g.slabPageFini c bn k) live := by
  have hnone : ∀ a ∈ live, g.virtToPage a.ptr ≠ bn := by
    intro a ha
    have hnot := List.countP_eq_zero.mp hzero a ha
    rwa [decide_eq_true_eq] at hnot
  have hpage : ∀ bn', bn' ≠ bn → (g.slabPageFini c bn k).page bn' = g.page bn' := by
    intro bn' hb
    simp [slabPageFini, hb]
  have howned : ∀ bn', (g.slabPageFini c bn k).owned bn' = true → bn' ≠ bn ∧ g.owned bn' = true := by
    intro bn' ho
    by_cases hb : bn' = bn
    · subst hb
      simp [slabPageFini] at ho
    · exact ⟨hb, by simpa [slabPageFini, hb] using ho⟩
  refine ⟨h.aligned, h.pos, ?_, ?_, ?_, ?_, h.liveNodup, ?_, ?_, ?_, ?_⟩
  · intro bn' ho
    obtain ⟨hb, ho⟩ := howned bn' ho
    obtain ⟨hlt, c', hc', k', hk', hcut'⟩ := h.cut bn' ho
    exact ⟨hlt, c', hc', k', hk', cutFor_pageFini.mpr ⟨hb, hcut'⟩⟩
  · intro c' k' e he
    obtain ⟨he, hb⟩ := (h.mem_pageFini_head hcut).mp he
    obtain ⟨hcut', helem'⟩ := h.listed_page he
    exact ⟨_, cutFor_pageFini.mpr ⟨hb, hcut'⟩, helem'⟩
  · refine forall_slab (g := g) (c := c) (k := k) (P := fun _ _ l => l.head.Nodup) rfl ?_
      fun c' k' _ => h.nodup c' k'
    rw [← List.diff_eq_foldl]
    exact (h.nodup c k).diff
  · intro a ha
    obtain ⟨c', k', hcut', helem', hpos, hle, hnot⟩ := h.held_page ha
    exact ⟨_, c', k', cutFor_pageFini.mpr ⟨hnone a ha, hcut'⟩, helem', hpos, hle,
      fun hm => hnot ((h.mem_pageFini_head hcut).mp hm).1⟩
  · intro bn' c' k' e hcut' he'
    obtain ⟨hb, hcut'⟩ := cutFor_pageFini.mp hcut'
    have hv : g.virtToPage e = bn' := IsElem.virtToPage (g := g) (h.cut_lt hcut').2 he'
    rcases h.complete bn' c' k' e hcut' he' with hm | hm
    · exact .inl ((h.mem_pageFini_head hcut).mpr ⟨hm, hv ▸ hb⟩)
    · exact .inr hm
  · refine forall_slab (g := g) (c := c) (k := k) (P := fun _ _ l => l.nfree = l.head.length) rfl ?_
      fun c' k' _ => h.nfree c' k'
    -- the free elements are those of the page and those that stay
    have hperm : (g.pageElems bn k ++ (g.slab c k).head.diff (g.pageElems bn k)).Perm
        (g.slab c k).head :=
      List.subperm_append_diff_self_of_count_le (List.subperm_ext_iff.mp
        ((pageElems_nodup g bn k).subperm (h.pageElems_subset hcut hzero)))
    have hlen := hperm.length_eq
    have hn := h.nfree c k
    rw [List.length_append] at hlen
    rw [← List.diff_eq_foldl]
    simp only
    omega
  · intro c' k'
    have hcount : heldOn (g.slabPageFini c bn k) live c' k' = heldOn g live c' k' := by
      refine List.countP_congr fun a ha => ?_
      have hp : (g.slabPageFini c bn k).page (g.virtToPage a.ptr) = g.page (g.virtToPage a.ptr) :=
        hpage _ (hnone a ha)
      change decide (((g.slabPageFini c bn k).page (g.virtToPage a.ptr)).slabCpu = c' ∧
        ((g.slabPageFini c bn k).page (g.virtToPage a.ptr)).useCount = k' + 1) = true ↔ _
      rw [hp]
    rw [hcount]
    by_cases hck : c' = c ∧ k' = k
    · obtain ⟨rfl, rfl⟩ := hck
      rw [pageFini_slab_self]
      exact h.nused c' k'
    · rw [pageFini_slab_ne hck]
      exact h.nused c' k'
  · intro bn' ho
    obtain ⟨hb, ho⟩ := howned bn' ho
    rw [hpage bn' hb]
    exact h.uc bn' ho

end PageFini

/-! ## The calls -/

section Calls

variable {c k size : ℕ}

theorem Inv.slabAllocElem (h : Inv g live) (hpos : 0 < size) (hle : size ≤ elemSize k) :
    Inv (g.slabAllocElem c k).2 (noteAlloc live size (g.slabAllocElem c k).1) := by
  rcases hhead : (g.slab c k).head with _ | ⟨se, rest⟩
  · have hnone : g.slabAllocElem c k = (none, g) := by
      rw [Gsa.slabAllocElem, hhead]
    rw [hnone]
    exact h
  · have hsome : (g.slabAllocElem c k).1 = some se := by
      rw [Gsa.slabAllocElem, hhead]
    rw [hsome]
    exact h.allocElem hhead hpos hle

theorem Inv.slabAlloc (h : Inv g live) (hc : c < g.nslabs) (hsize : slabSizeValid size = true)
    {paAlloc : Option (ℕ × ℕ)} (hpa : PaAllocOk g paAlloc) :
    Inv (g.slabAlloc c size paAlloc).2 (noteAlloc live size (g.slabAlloc c size paAlloc).1) := by
  obtain ⟨hk, hle⟩ := slabListIndex_spec hsize
  have hpos : 0 < size := by
    rw [slabSizeValid, Bool.and_eq_true, decide_eq_true_eq] at hsize
    exact hsize.1
  rw [Gsa.slabAlloc]
  by_cases hempty : g.slabListEmpty c size = true
  · rw [if_pos hempty]
    rcases paAlloc with _ | ⟨bn, paSize⟩
    · exact h
    · obtain ⟨howned, hlt, hgrow⟩ := hpa
      exact (h.pageInit howned hlt hgrow hc hk).slabAllocElem hpos hle
  · rw [if_neg hempty]
    exact h.slabAllocElem hpos hle

theorem Inv.zusGsaMalloc (h : Inv g live) {cpu : ℕ} (hcpu : cpu < g.nslabs)
    (hsize : slabSizeValid size = true) (tryLock : ℕ → Bool) {paAlloc : Option (ℕ × ℕ)}
    (hpa : PaAllocOk g paAlloc) :
    Inv (g.zusGsaMalloc cpu size tryLock paAlloc).2
      (noteAlloc live size (g.zusGsaMalloc cpu size tryLock paAlloc).1) := by
  have hmod : ∀ i, (cpu + i) % g.nslabs < g.nslabs := fun i => Nat.mod_lt _ (by omega)
  rw [Gsa.zusGsaMalloc]
  by_cases hcold : g.slabIscold cpu size = true
  · rw [if_pos hcold]
    exact h.slabAlloc hcpu hsize hpa
  · rw [if_neg hcold]
    split
    · exact h.slabAlloc (hmod _) hsize hpa
    · exact h.slabAlloc (hmod _) hsize hpa

theorem Inv.slabFreeAt (h : Inv g live) {a : Alloc} {bn : ℕ} (ha : a ∈ live)
    (hcut : CutFor g bn c k) (helem : IsElem g.dataPtr bn k a.ptr) :
    Inv (g.slabFreeAt c k bn a.ptr) (live.erase a) := by
  have hfree := h.freeElem ha hcut helem
  have hcut' : CutFor (g.slabFreeElem c k bn a.ptr) bn c k :=
    (sameCut_update g c k bn _ _).cutFor.mpr hcut
  rw [Gsa.slabFreeAt]
  split
  · exact hfree
  · next hzero =>
    split
    · exact hfree
    · refine hfree.pageFini hcut' ?_
      have huc := hfree.uc bn hcut'.owned
      rw [not_not] at hzero
      rw [hzero] at huc
      exact_mod_cast huc.symm

/-- A live pointer leads back to the slab that serves it. -/
theorem Inv.zusGsaCpuOf (h : Inv g live) {a : Alloc}
    (hcut : CutFor g (g.virtToPage a.ptr) c k)
    (helem : IsElem g.dataPtr (g.virtToPage a.ptr) k a.ptr) : g.zusGsaCpuOf a.ptr = some c := by
  have hlow := (h.elem_range hcut helem).1
  have hpos := h.pos
  have halign : a.ptr % (1 <<< minSlabShift) = 0 := by
    obtain ⟨j, -, hj⟩ := helem
    have hd : 32 ∣ g.dataPtr :=
      Nat.dvd_trans (by decide : 32 ∣ blockSize) (Nat.dvd_of_mod_eq_zero h.aligned)
    have hb : 32 ∣ g.virtToPage a.ptr * blockSize :=
      Dvd.dvd.mul_left (by decide : 32 ∣ blockSize) _
    have he : 32 ∣ j * elemSize k :=
      Dvd.dvd.mul_left (Nat.dvd_of_mod_eq_zero (elemSize_mod k)) _
    have hsum := Nat.dvd_add (Nat.dvd_add hd hb) he
    rw [← hj] at hsum
    exact Nat.mod_eq_zero_of_dvd hsum
  rw [Gsa.zusGsaCpuOf, if_neg (by omega), if_neg (by simpa using halign), h.inrange hcut helem,
    hcut.cpu]
  rfl

theorem Inv.zusGsaFree (h : Inv g live) {a : Alloc} (ha : a ∈ live) :
    Inv (g.zusGsaFree a.ptr) (live.erase a) := by
  obtain ⟨c, k, hcut, helem, -⟩ := h.held_page ha
  have hk := (h.cut_lt hcut).2
  have hidx := hcut.index
  rw [Gsa.zusGsaFree, h.zusGsaCpuOf hcut helem]
  simp only [slabFree]
  rw [if_neg (by omega), hidx, Nat.add_sub_cancel]
  exact h.slabFreeAt ha hcut helem

end Calls

/-! ## Safety -/

/-- The invariant holds in every state of every run. -/
theorem inv_reachable (nslabs : ℕ) {s : Sys} (h : (slabSys nslabs).Reachable s) :
    Inv s.gsa s.live := by
  refine h.invariant (I := fun s => Inv s.gsa s.live) ?_ ?_
  · rintro s ⟨dataPtr, ha, hp, rfl⟩
    exact inv_init nslabs dataPtr ha hp
  · intro s call s' hinv hstep
    cases hstep with
    | malloc hcpu hsize hpa => exact hinv.zusGsaMalloc hcpu hsize _ hpa
    | free ha => exact hinv.zusGsaFree ha

/-- What the slabs promise of one state. -/
structure SlabSafe (s : Sys) : Prop where
  /-- a list's counters: its free elements, and its elements held by users -/
  nfree : ∀ c k, (s.gsa.slab c k).nfree = (s.gsa.slab c k).head.length
  nused : ∀ c k, (s.gsa.slab c k).nused = heldOn s.gsa s.live c k
  /-- a slab page counts its elements held by users -/
  uc : ∀ bn, s.gsa.owned bn = true → (s.gsa.page bn).slabUc = heldIn s.gsa s.live bn
  /-- a free element is an element of a slab page, on the list this page names -/
  oneList : ∀ c k, ∀ e ∈ (s.gsa.slab c k).head, CutFor s.gsa (s.gsa.virtToPage e) c k ∧
    IsElem s.gsa.dataPtr (s.gsa.virtToPage e) k e
  /-- the elements of a slab page that no user holds are all on that list, once -/
  allListed : ∀ bn c k, CutFor s.gsa bn c k → ∀ e, IsElem s.gsa.dataPtr bn k e →
    (s.gsa.slab c k).head.count e = if e ∈ s.live.map Alloc.ptr then 0 else 1
  /-- a page the page allocator has back holds no user's element and no listed one -/
  givenBack : ∀ bn, s.gsa.owned bn = false → heldIn s.gsa s.live bn = 0 ∧
    ∀ c k, ∀ e ∈ (s.gsa.slab c k).head, s.gsa.virtToPage e ≠ bn
  /-- live allocations are pairwise disjoint -/
  disjoint : s.live.Pairwise fun a b => a.ptr + a.size ≤ b.ptr ∨ b.ptr + b.size ≤ a.ptr
  /-- a live allocation lies in one page, which the slabs hold -/
  inPage : ∀ a ∈ s.live, ∃ bn, s.gsa.owned bn = true ∧ s.gsa.pageAddress bn ≤ a.ptr ∧
    a.ptr + a.size ≤ s.gsa.pageAddress bn + blockSize

/-- Two live allocations do not overlap. -/
theorem Inv.live_apart (h : Inv g live) {a b : Alloc} (ha : a ∈ live) (hb : b ∈ live)
    (hne : a.ptr ≠ b.ptr) : a.ptr + a.size ≤ b.ptr ∨ b.ptr + b.size ≤ a.ptr := by
  obtain ⟨c, k, hcut, helem, -, hle, -⟩ := h.held_page ha
  obtain ⟨c', k', hcut', helem', -, hle', -⟩ := h.held_page hb
  rcases h.elem_apart hcut helem hcut' helem' hne with hap | hap
  · exact .inl (by omega)
  · exact .inr (by omega)

/-- **The slab allocator is safe**: over any number of slabs, in every state of every
run of allocations and frees, the counters are exact, the elements of a page are on the
one list it names, only pages without users go back, and live allocations are disjoint. -/
theorem slabSys_safe (nslabs : ℕ) (s : Sys) (hreach : (slabSys nslabs).Reachable s) :
    SlabSafe s := by
  have h := inv_reachable nslabs hreach
  refine ⟨h.nfree, h.nused, h.uc, fun c k e he => h.listed_page he, ?_, ?_, ?_, ?_⟩
  · intro bn c k hcut e he
    by_cases hlive : e ∈ s.live.map Alloc.ptr
    · obtain ⟨a, ha, rfl⟩ := List.mem_map.mp hlive
      rw [if_pos hlive, List.count_eq_zero]
      exact h.held_notMem ha hcut he
    · rw [if_neg hlive]
      have hmem := (h.complete bn c k e hcut he).resolve_right hlive
      exact List.count_eq_one_of_mem (h.nodup c k) hmem
  · intro bn ho
    constructor
    · refine List.countP_eq_zero.mpr fun a ha => ?_
      rw [decide_eq_true_eq]
      rintro rfl
      obtain ⟨c, k, hcut, -⟩ := h.held_page ha
      rw [hcut.owned] at ho
      cases ho
    · rintro c k e he rfl
      rw [(h.listed_page he).1.owned] at ho
      cases ho
  · have hnd : s.live.Pairwise fun a b => a.ptr ≠ b.ptr := List.pairwise_map.mp h.liveNodup
    refine hnd.imp_of_mem ?_
    intro a b ha hb hne
    exact h.live_apart ha hb hne
  · intro a ha
    obtain ⟨c, k, hcut, helem, -, hle, -⟩ := h.held_page ha
    obtain ⟨hlow, hhigh⟩ := helem.range (h.cut_lt hcut).2
    refine ⟨_, hcut.owned, hlow, ?_⟩
    rw [pageAddress]
    rw [Nat.succ_mul] at hhigh
    omega

/-- The state after one allocation of 100 bytes on cpu 1 of two, which cuts page 5. -/
theorem slabSys_safe_malloc : SlabSafe
    { gsa := ((initGsa 2 4096).zusGsaMalloc 1 100 (fun _ => true) (some (5, 64))).2
      live := noteAlloc [] 100
        ((initGsa 2 4096).zusGsaMalloc 1 100 (fun _ => true) (some (5, 64))).1 } := by
  have hinit : (slabSys 2).Reachable ⟨initGsa 2 4096, []⟩ :=
    .init ⟨4096, by decide, by decide, rfl⟩
  refine slabSys_safe 2 _ (hinit.step (a := .malloc 1 100 (fun _ => true) (some (5, 64))) ?_)
  refine Step.malloc (by decide) (by decide) ⟨rfl, by decide, by decide⟩

end Zus.Slab
