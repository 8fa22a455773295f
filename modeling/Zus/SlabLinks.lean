import Zus.AList
import Zus.SlabSafety

/-!
# The slabs and their links

The free lists of the slabs go through the free elements: the first bytes of an element hold its
links while it is free, and belong to whoever has it while it is not. Here the slabs are as they
are in memory, with the heads of the lists and the links of the elements, and everybody else may
write where no free element is. In every run these slabs do what the slabs with lists of addresses
do.
-/

namespace Zus.Slab

open Zus.Lib Zus.AList

/-- Where an `a_list_head` is: in a slab, or at the start of an element. -/
inductive Loc
  | head (cpu index : ℕ)
  | elem (addr : ℕ)
  deriving DecidableEq

/-- The address of the element that a link is in. -/
def Loc.addr : Loc → ℕ
  | .head _ _ => 0
  | .elem addr => addr

/-- The counts of a `struct zus_slab_list`. -/
structure Counts where
  nused : ℤ
  nfree : ℤ
  nfreeWant : ℤ

/-- `struct zus_global_slab_allocator` with the memory of the links. -/
structure Linked where
  nslabs : ℕ
  /-- `slab[cpu].list[index]`, without its `head` -/
  counts : ℕ → ℕ → Counts
  /-- the links, wherever there may be some -/
  nodes : Nodes Loc
  page : ℕ → SlabPage
  dataPtr : ℕ
  paSize : ℕ
  owned : ℕ → Bool

namespace Linked

def setCounts (p : Linked) (c k : ℕ) (l : Counts) : Linked :=
  { p with counts := Function.update p.counts c (Function.update (p.counts c) k l) }

def setPage (p : Linked) (bn : ℕ) (pg : SlabPage) : Linked :=
  { p with page := Function.update p.page bn pg }

def pageAddress (p : Linked) (bn : ℕ) : ℕ := p.dataPtr + bn * blockSize

def virtToPage (p : Linked) (addr : ℕ) : ℕ := (addr - p.dataPtr) / blockSize

def paAddrInrange (p : Linked) (addr : ℕ) : Bool :=
  p.dataPtr ≤ addr && addr < p.dataPtr + p.paSize * blockSize

/-- The links of the elements of a page. -/
def pageElems (p : Linked) (bn k : ℕ) : List Loc :=
  (List.range (slabsCount k)).map fun i => .elem (p.pageAddress bn + i * elemSize k)

/-- `_slab_page_init`. -/
def slabPageInit (p : Linked) (c bn k : ℕ) : Linked :=
  let l := p.counts c k
  let elems := p.pageElems bn k
  ({ p with nodes := elems.foldl (fun h se => aListAddTail h se (.head c k)) p.nodes }.setPage bn
    ⟨k + 1, 0, c⟩).setCounts c k { l with nfree := l.nfree + elems.length }

/-- `_slab_increase`. -/
def slabIncrease (p : Linked) (c k : ℕ) (paAlloc : Option (ℕ × ℕ)) : Option Linked :=
  match paAlloc with
  | none => none
  | some (bn, paSize) =>
    some (({ p with paSize := paSize, owned := Function.update p.owned bn true }).slabPageInit
      c bn k)

/-- `_slab_iscold`. -/
def slabIscold (p : Linked) (c size : ℕ) : Bool :=
  let l := p.counts c (slabListIndex size)
  l.nfree == 0 && l.nused == 0

/-- `_slab_list_empty`, which goes by the count. -/
def slabListEmpty (p : Linked) (c size : ℕ) : Bool :=
  (p.counts c (slabListIndex size)).nfree == 0

/-- `_slab_alloc_elem` and the count of the element's page. -/
def slabAllocElem (p : Linked) (c k : ℕ) : Option ℕ × Linked :=
  if aListEmpty p.nodes (.head c k) then (none, p)
  else
    let l := p.counts c k
    let se := aListFirstEntry p.nodes (.head c k)
    let bn := p.virtToPage se.addr
    let pg := p.page bn
    (some se.addr, ({ p with nodes := aListDelInit p.nodes se }.setCounts c k
      { l with nfree := l.nfree - 1, nused := l.nused + 1 }).setPage bn
        { pg with slabUc := pg.slabUc + 1 })

/-- `_slab_alloc`. -/
def slabAlloc (p : Linked) (c size : ℕ) (paAlloc : Option (ℕ × ℕ)) : Option ℕ × Linked :=
  let k := slabListIndex size
  if p.slabListEmpty c size then
    match p.slabIncrease c k paAlloc with
    | none => (none, p)
    | some p' => p'.slabAllocElem c k
  else p.slabAllocElem c k

/-- `_zus_gsa_malloc` on a cpu. -/
def zusGsaMalloc (p : Linked) (cpu size : ℕ) (tryLock : ℕ → Bool) (paAlloc : Option (ℕ × ℕ)) :
    Option ℕ × Linked :=
  if p.slabIscold cpu size then p.slabAlloc cpu size paAlloc
  else
    match (List.range p.nslabs).find? fun i =>
        tryLock i && !p.slabListEmpty ((cpu + i) % p.nslabs) size with
    | some i => p.slabAlloc ((cpu + i) % p.nslabs) size paAlloc
    | none => p.slabAlloc ((cpu + p.nslabs) % p.nslabs) size paAlloc

/-- `_slab_page_fini` and the `pa_put_page` after it. -/
def slabPageFini (p : Linked) (c bn k : ℕ) : Linked :=
  let l := p.counts c k
  let elems := p.pageElems bn k
  let p' := ({ p with nodes := elems.foldl aListDelInit p.nodes }.setCounts c k
    { l with nfree := l.nfree - elems.length }).setPage bn ⟨0, 0, 0⟩
  { p' with owned := Function.update p'.owned bn false }

/-- `_slab_free_elem` and `_page_slab_uc_dec`. -/
def slabFreeElem (p : Linked) (c k bn addr : ℕ) : Linked :=
  let l := p.counts c k
  let pg := p.page bn
  ({ p with nodes := aListAddTail p.nodes (.elem addr) (.head c k) }.setCounts c k
    { l with nfree := l.nfree + 1, nused := l.nused - 1 }).setPage bn
      { pg with slabUc := pg.slabUc - 1 }

/-- `__slab_free`. -/
def slabFreeAt (p : Linked) (c k bn addr : ℕ) : Linked :=
  let p' := p.slabFreeElem c k bn addr
  if (p'.page bn).slabUc ≠ 0 then p'
  else if (p'.counts c k).nfree < (p'.counts c k).nfreeWant then p'
  else p'.slabPageFini c bn k

/-- `_slab_free`. -/
def slabFree (p : Linked) (c addr : ℕ) : Linked :=
  let bn := p.virtToPage addr
  let useCount := (p.page bn).useCount
  if useCount = 0 ∨ slabLists < useCount then p
  else p.slabFreeAt c (useCount - 1) bn addr

/-- `_zus_gsa_cpu_of`. -/
def zusGsaCpuOf (p : Linked) (ptr : ℕ) : Option ℕ :=
  if ptr = 0 then none
  else if ptr % (1 <<< minSlabShift) ≠ 0 then none
  else if !p.paAddrInrange ptr then none
  else some (p.page (p.virtToPage ptr)).slabCpu

/-- `_zus_gsa_free`. -/
def zusGsaFree (p : Linked) (ptr : ℕ) : Linked :=
  match p.zusGsaCpuOf ptr with
  | none => p
  | some cpu => p.slabFree cpu ptr

end Linked

/-! ## The system -/

/-- The size of an `a_list_head`. -/
def listHeadSize : ℕ := 16

/-- The slabs in memory with the live allocations. -/
structure LinkedSys where
  linked : Linked
  live : List Alloc

/-- A call, or a write of somebody who has some memory. -/
inductive LinkedCall
  | call (c : Call)
  | write (nodes : Nodes Loc)

/-- Links that the slabs have: those of the lists, and those in their pages where no live
allocation is. -/
def KeptLink (s : LinkedSys) : Loc → Prop
  | .head _ _ => True
  | .elem e => s.linked.owned (s.linked.virtToPage e) = true ∧
    ∀ a ∈ s.live, e + listHeadSize ≤ a.ptr ∨ a.ptr + a.size ≤ e

/-- One call, or writes to memory that is live or not in a page of the slabs. -/
inductive LinkedStep : LinkedSys → LinkedCall → LinkedSys → Prop
  | malloc {s : LinkedSys} {cpu size : ℕ} {tryLock : ℕ → Bool} {paAlloc : Option (ℕ × ℕ)} :
      cpu < s.linked.nslabs → slabSizeValid size = true →
      (∀ bn paSize, paAlloc = some (bn, paSize) →
        s.linked.owned bn = false ∧ bn < paSize ∧ s.linked.paSize ≤ paSize) →
      LinkedStep s (.call (.malloc cpu size tryLock paAlloc))
        { linked := (s.linked.zusGsaMalloc cpu size tryLock paAlloc).2
          live := noteAlloc s.live size (s.linked.zusGsaMalloc cpu size tryLock paAlloc).1 }
  | free {s : LinkedSys} {a : Alloc} : a ∈ s.live →
      LinkedStep s (.call (.free a))
        { linked := s.linked.zusGsaFree a.ptr, live := s.live.erase a }
  | write {s : LinkedSys} {nodes : Nodes Loc} :
      (∀ x, KeptLink s x → nodes x = s.linked.nodes x) →
      LinkedStep s (.write nodes) { s with linked := { s.linked with nodes := nodes } }

/-- `_slab_init` of the heads; the links elsewhere are whatever the memory holds. -/
def initLinked (nslabs dataPtr : ℕ) (memory : Nodes Loc) : Linked where
  nslabs := nslabs
  counts _ _ := ⟨0, 0, slabNfreeWant⟩
  nodes
    | .head c k => aListInit memory (.head c k) (.head c k)
    | .elem e => memory (.elem e)
  page _ := ⟨0, 0, 0⟩
  dataPtr := dataPtr
  paSize := 0
  owned _ := false

/-- The slabs in memory under any sequence of calls and writes. -/
def linkedSys (nslabs : ℕ) : Lts LinkedSys LinkedCall where
  init s := ∃ dataPtr memory, dataPtr % blockSize = 0 ∧ 0 < dataPtr ∧
    s = ⟨initLinked nslabs dataPtr memory, []⟩
  step := LinkedStep

/-! ## What the links are for -/

/-- The head of a list. -/
def headOf (i : ℕ × ℕ) : Loc := .head i.1 i.2

/-- The links that a list goes through. -/
def listOf (g : Gsa) (i : ℕ × ℕ) : List Loc := (g.slab i.1 i.2).head.map .elem

/-- The slabs in memory are those with lists of addresses. -/
structure Refines (p : Linked) (g : Gsa) : Prop where
  nslabs : p.nslabs = g.nslabs
  counts : ∀ c k, p.counts c k =
    ⟨(g.slab c k).nused, (g.slab c k).nfree, (g.slab c k).nfreeWant⟩
  page : p.page = g.page
  dataPtr : p.dataPtr = g.dataPtr
  paSize : p.paSize = g.paSize
  owned : p.owned = g.owned
  /-- every list is a ring through its elements in order, and no two have a link in common -/
  rings : Rings p.nodes headOf (listOf g)

variable {p : Linked} {g : Gsa} {live : List Alloc} {c k bn e size : ℕ}

theorem Refines.virtToPage (h : Refines p g) (addr : ℕ) :
    p.virtToPage addr = g.virtToPage addr := by
  rw [Linked.virtToPage, Gsa.virtToPage, h.dataPtr]

theorem Refines.pageElems (h : Refines p g) (bn k : ℕ) :
    p.pageElems bn k = (g.pageElems bn k).map .elem := by
  rw [Linked.pageElems, Gsa.pageElems, List.map_map, Linked.pageAddress, Gsa.pageAddress, h.dataPtr]
  rfl

theorem listOf_setList {g' : Gsa} {l : SlabList} (h : g'.slab = (g.setList c k l).slab) :
    listOf g' = Function.update (listOf g) (c, k) (l.head.map .elem) := by
  funext ⟨c', k'⟩
  by_cases hck : c' = c ∧ k' = k
  · obtain ⟨rfl, rfl⟩ := hck
    rw [Function.update_self, listOf, h, setList_slab_self]
  · have hne : (c', k') ≠ (c, k) := fun heq => hck (Prod.mk.inj heq)
    rw [Function.update_of_ne hne, listOf, h, setList_slab_ne _ _ _ _ hck]
    rfl

/-- An element that is not on a list has no link that a list goes through. -/
theorem elem_notMem (h : ∀ c k, e ∉ (g.slab c k).head) :
    ∀ i, Loc.elem e ∉ headOf i :: listOf g i := by
  intro i hmem
  rcases List.mem_cons.mp hmem with heq | hmem
  · cases heq
  · obtain ⟨e', he', heq⟩ := List.mem_map.mp hmem
    obtain rfl := Loc.elem.inj heq
    exact h i.1 i.2 he'

/-- **One list and one page at a time.** -/
theorem Refines.update (h : Refines p g) {nodes : Nodes Loc} (l : SlabList) (bn : ℕ)
    (pg : SlabPage)
    (hrings : Rings nodes headOf (Function.update (listOf g) (c, k) (l.head.map .elem))) :
    Refines
      (({ p with nodes := nodes }.setCounts c k ⟨l.nused, l.nfree, l.nfreeWant⟩).setPage bn pg)
      ((g.setList c k l).setPage bn pg) where
  nslabs := h.nslabs
  counts c' k' := by
    by_cases hck : c' = c ∧ k' = k
    · obtain ⟨rfl, rfl⟩ := hck
      rw [setPage_slab, setList_slab_self]
      simp [Linked.setPage, Linked.setCounts]
    · rw [setPage_slab, setList_slab_ne _ _ _ _ hck, ← h.counts]
      by_cases hc : c' = c
      · subst hc
        have hk : k' ≠ k := fun hk => hck ⟨rfl, hk⟩
        simp [Linked.setPage, Linked.setCounts, hk]
      · simp [Linked.setPage, Linked.setCounts, hc]
  page := by
    rw [setPage_page]
    exact congrArg (fun page => Function.update page bn pg) h.page
  dataPtr := h.dataPtr
  paSize := h.paSize
  owned := h.owned
  rings := by
    have hlist : listOf ((g.setList c k l).setPage bn pg) = _ := listOf_setList rfl
    rw [hlist]
    exact hrings

/-! ## One operation -/

theorem Refines.slabPageInit (h : Refines p g)
    (hfresh : ∀ e ∈ g.pageElems bn k, ∀ c' k', e ∉ (g.slab c' k').head) :
    Refines (p.slabPageInit c bn k) (g.slabPageInit c bn k) := by
  have hrings := rings_foldl_addTail h.rings (c, k)
    ((pageElems_nodup g bn k).map fun a b hab => Loc.elem.inj hab) fun x hx => by
      obtain ⟨e, he, rfl⟩ := List.mem_map.mp hx
      exact elem_notMem (hfresh e he)
  rw [listOf, ← List.map_append] at hrings
  have hlen : (p.pageElems bn k).length = (g.pageElems bn k).length := by
    rw [h.pageElems, List.length_map]
  have hupdate := h.update
    { g.slab c k with
      head := (g.slab c k).head ++ g.pageElems bn k
      nfree := (g.slab c k).nfree + (g.pageElems bn k).length }
    bn ⟨k + 1, 0, c⟩ hrings
  rw [Linked.slabPageInit, h.counts c k, hlen, h.pageElems]
  exact hupdate

theorem Refines.slabAllocElem (h : Refines p g) :
    (p.slabAllocElem c k).1 = (g.slabAllocElem c k).1 ∧
      Refines (p.slabAllocElem c k).2 (g.slabAllocElem c k).2 := by
  have hempty : aListEmpty p.nodes (.head c k) = true ↔ listOf g (c, k) = [] :=
    aListEmpty_iff (i := (c, k)) h.rings
  rcases hhead : (g.slab c k).head with _ | ⟨se, rest⟩
  · have hlist : listOf g (c, k) = [] := by
      rw [listOf, hhead, List.map_nil]
    rw [Linked.slabAllocElem, Gsa.slabAllocElem, hhead, if_pos (hempty.mpr hlist)]
    exact ⟨rfl, h⟩
  · have hlist : listOf g (c, k) = .elem se :: rest.map .elem := by
      rw [listOf, hhead, List.map_cons]
    have hfirst := aListFirstEntry_eq h.rings hlist
    have hrings := rings_delInit h.rings (i := (c, k)) (e := .elem se) (by
      rw [hlist]
      exact List.mem_cons_self)
    rw [hlist, List.erase_cons_head] at hrings
    have hnot : ¬ aListEmpty p.nodes (.head c k) = true := by
      intro hnil
      rw [hempty.mp hnil] at hlist
      cases hlist
    have hupdate := h.update
      { g.slab c k with
        head := rest
        nfree := (g.slab c k).nfree - 1
        nused := (g.slab c k).nused + 1 }
      (g.virtToPage se)
      { g.page (g.virtToPage se) with slabUc := (g.page (g.virtToPage se)).slabUc + 1 } hrings
    have hfirst' : aListFirstEntry p.nodes (.head c k) = .elem se := hfirst
    have haddr : (Loc.elem se).addr = se := rfl
    rw [Linked.slabAllocElem, Gsa.slabAllocElem, hhead, if_neg hnot, hfirst', h.counts c k]
    simp only [haddr, h.virtToPage, congrFun h.page (g.virtToPage se)]
    exact ⟨trivial, hupdate⟩

theorem Refines.slabFreeElem (h : Refines p g) (c k bn : ℕ)
    (hfree : ∀ c' k', e ∉ (g.slab c' k').head) :
    Refines (p.slabFreeElem c k bn e) (g.slabFreeElem c k bn e) := by
  have hrings := rings_addTail h.rings (c, k) (elem_notMem hfree)
  have hsplit : listOf g (c, k) ++ [.elem e] = ((g.slab c k).head ++ [e]).map .elem := by
    rw [listOf, List.map_append, List.map_singleton]
  rw [hsplit] at hrings
  have hupdate := h.update
    { g.slab c k with
      head := (g.slab c k).head ++ [e]
      nfree := (g.slab c k).nfree + 1
      nused := (g.slab c k).nused - 1 }
    bn { g.page bn with slabUc := (g.page bn).slabUc - 1 } hrings
  rw [Linked.slabFreeElem, h.counts c k, congrFun h.page bn]
  exact hupdate

theorem foldl_erase_map (xs es : List ℕ) :
    (es.map Loc.elem).foldl List.erase (xs.map .elem) = (es.foldl List.erase xs).map .elem := by
  induction es generalizing xs with
  | nil => rfl
  | cons e es ih =>
    rw [List.map_cons, List.foldl_cons, List.foldl_cons, ← ih, List.map_erase]
    exact fun a b hab => Loc.elem.inj hab

theorem Refines.slabPageFini (h : Refines p g) (hsubset : g.pageElems bn k ⊆ (g.slab c k).head) :
    Refines (p.slabPageFini c bn k) (g.slabPageFini c bn k) := by
  have hrings := rings_foldl_delInit h.rings (i := (c, k))
    ((pageElems_nodup g bn k).map fun a b hab => Loc.elem.inj hab) (List.map_subset _ hsubset)
  rw [listOf, foldl_erase_map] at hrings
  have hlen : (p.pageElems bn k).length = (g.pageElems bn k).length := by
    rw [h.pageElems, List.length_map]
  have hupdate := h.update
    { g.slab c k with
      head := (g.pageElems bn k).foldl List.erase (g.slab c k).head
      nfree := (g.slab c k).nfree - (g.pageElems bn k).length }
    bn ⟨0, 0, 0⟩ hrings
  rw [Linked.slabPageFini, h.counts c k, hlen, h.pageElems]
  refine ⟨hupdate.nslabs, hupdate.counts, hupdate.page, hupdate.dataPtr, hupdate.paSize, ?_,
    hupdate.rings⟩
  exact congrArg (fun owned => Function.update owned bn false) h.owned

/-! ## The calls -/

theorem Refines.slabListEmpty (h : Refines p g) (c size : ℕ) :
    p.slabListEmpty c size = g.slabListEmpty c size := by
  rw [Linked.slabListEmpty, Gsa.slabListEmpty, h.counts]

/-- The elements of a page that the slabs do not have are on no list. -/
theorem Inv.fresh_notMem (hinv : Inv g live) (hbn : g.owned bn = false) (hk : k < slabLists) :
    ∀ e ∈ g.pageElems bn k, ∀ c' k', e ∉ (g.slab c' k').head := by
  intro e he c' k' hmem
  have howned := (hinv.listed_page hmem).1.owned
  rw [(mem_pageElems.mp he).virtToPage hk, hbn] at howned
  cases howned

theorem Refines.slabAlloc (h : Refines p g) (hinv : Inv g live) (hsize : slabSizeValid size = true)
    {paAlloc : Option (ℕ × ℕ)} (hpa : PaAllocOk g paAlloc) :
    (p.slabAlloc c size paAlloc).1 = (g.slabAlloc c size paAlloc).1 ∧
      Refines (p.slabAlloc c size paAlloc).2 (g.slabAlloc c size paAlloc).2 := by
  rw [Linked.slabAlloc, Gsa.slabAlloc, h.slabListEmpty]
  split
  · rcases paAlloc with _ | ⟨bn, paSize⟩
    · exact ⟨rfl, h⟩
    · have htaken : Refines { p with paSize := paSize, owned := Function.update p.owned bn true }
          { g with paSize := paSize, owned := Function.update g.owned bn true } :=
        ⟨h.nslabs, h.counts, h.page, h.dataPtr, rfl,
          congrArg (fun owned => Function.update owned bn true) h.owned, h.rings⟩
      have hfresh := hinv.fresh_notMem hpa.1 (slabListIndex_spec hsize).1
      exact (htaken.slabPageInit hfresh).slabAllocElem
  · exact h.slabAllocElem

theorem Refines.zusGsaMalloc (h : Refines p g) (hinv : Inv g live) (cpu : ℕ)
    (hsize : slabSizeValid size = true) (tryLock : ℕ → Bool) {paAlloc : Option (ℕ × ℕ)}
    (hpa : PaAllocOk g paAlloc) :
    (p.zusGsaMalloc cpu size tryLock paAlloc).1 = (g.zusGsaMalloc cpu size tryLock paAlloc).1 ∧
      Refines (p.zusGsaMalloc cpu size tryLock paAlloc).2
        (g.zusGsaMalloc cpu size tryLock paAlloc).2 := by
  have hcold : p.slabIscold cpu size = g.slabIscold cpu size := by
    rw [Linked.slabIscold, Gsa.slabIscold, h.counts]
  simp only [Linked.zusGsaMalloc, Gsa.zusGsaMalloc, hcold, h.nslabs, h.slabListEmpty]
  split
  · exact h.slabAlloc hinv hsize hpa
  · generalize (List.range g.nslabs).find? _ = found
    cases found with
    | none => exact h.slabAlloc hinv hsize hpa
    | some i => exact h.slabAlloc hinv hsize hpa

theorem Refines.slabFreeAt (h : Refines p g) (hinv : Inv g live) {a : Alloc} (ha : a ∈ live)
    (hcut : CutFor g bn c k) (helem : IsElem g.dataPtr bn k a.ptr) :
    Refines (p.slabFreeAt c k bn a.ptr) (g.slabFreeAt c k bn a.ptr) := by
  have hnot : ∀ c' k', a.ptr ∉ (g.slab c' k').head := by
    intro c' k' hmem
    have hcut' := (hinv.listed_page hmem).1
    rw [helem.virtToPage (hinv.cut_lt hcut).2] at hcut'
    obtain ⟨rfl, rfl⟩ := hcut.unique hcut'
    exact hinv.held_notMem ha hcut helem hmem
  have hfree := h.slabFreeElem c k bn hnot
  have hinv' := hinv.freeElem ha hcut helem
  rw [Linked.slabFreeAt, Gsa.slabFreeAt]
  simp only [hfree.page, hfree.counts]
  split
  · exact hfree
  · next hzero =>
    split
    · exact hfree
    · have hcut' : CutFor (g.slabFreeElem c k bn a.ptr) bn c k :=
        (sameCut_update g c k bn _ _).cutFor.mpr hcut
      refine hfree.slabPageFini (hinv'.pageElems_subset hcut' ?_)
      have huc := hinv'.uc bn hcut'.owned
      rw [not_not.mp hzero] at huc
      exact_mod_cast huc.symm

theorem Refines.zusGsaFree (h : Refines p g) (hinv : Inv g live) {a : Alloc} (ha : a ∈ live) :
    Refines (p.zusGsaFree a.ptr) (g.zusGsaFree a.ptr) := by
  obtain ⟨c, k, hcut, helem, -⟩ := hinv.held_page ha
  have hk := (hinv.cut_lt hcut).2
  have hidx := hcut.index
  have hcpu : p.zusGsaCpuOf a.ptr = g.zusGsaCpuOf a.ptr := by
    rw [Linked.zusGsaCpuOf, Gsa.zusGsaCpuOf, Linked.paAddrInrange, Gsa.paAddrInrange, h.dataPtr,
      h.paSize, h.page, h.virtToPage]
  rw [Linked.zusGsaFree, Gsa.zusGsaFree, hcpu, hinv.zusGsaCpuOf hcut helem]
  simp only [Linked.slabFree, Gsa.slabFree, h.virtToPage, h.page]
  rw [if_neg (by omega), if_neg (by omega), hidx, Nat.add_sub_cancel]
  exact h.slabFreeAt hinv ha hcut helem

/-! ## The runs -/

/-- **Writes of others do not touch the lists.** -/
theorem Refines.write (h : Refines p g) (hinv : Inv g live) {nodes : Nodes Loc}
    (hkept : ∀ x, KeptLink ⟨p, live⟩ x → nodes x = p.nodes x) :
    Refines { p with nodes := nodes } g := by
  refine ⟨h.nslabs, h.counts, h.page, h.dataPtr, h.paSize, h.owned,
    h.rings.congr fun i x hx => ?_⟩
  refine hkept x ?_
  rcases List.mem_cons.mp hx with rfl | hx
  · trivial
  · obtain ⟨e, he, rfl⟩ := List.mem_map.mp hx
    obtain ⟨hcut, helem⟩ := hinv.listed_page he
    refine ⟨?_, fun a ha => ?_⟩
    · rw [h.owned, h.virtToPage]
      exact hcut.owned
    · obtain ⟨c', k', hcut', helem', -, hle, -⟩ := hinv.held_page ha
      have hne : e ≠ a.ptr := by
        rintro rfl
        obtain ⟨rfl, rfl⟩ := hcut.unique hcut'
        exact hinv.held_notMem ha hcut helem he
      have hmin : listHeadSize ≤ elemSize i.2 :=
        Nat.le_trans (by decide : listHeadSize ≤ minSlabSize)
          (Nat.le_of_dvd (elemSize_pos _) (Nat.dvd_of_mod_eq_zero (elemSize_mod _)))
      rcases hinv.elem_apart hcut helem hcut' helem' hne with hap | hap
      · exact .inl (by omega)
      · exact .inr (by omega)

theorem refines_init (nslabs dataPtr : ℕ) (memory : Nodes Loc) :
    Refines (initLinked nslabs dataPtr memory) (initGsa nslabs dataPtr) where
  nslabs := rfl
  counts _ _ := rfl
  page := rfl
  dataPtr := rfl
  paSize := rfl
  owned := rfl
  rings := by
    refine ⟨fun i => ?_, fun i j x hi hj => ?_⟩
    · refine (Ring.close memory (headOf i)).congr fun x hx => ?_
      rw [List.mem_singleton.mp hx]
      rfl
    · have heq := (List.mem_singleton.mp hi).symm.trans (List.mem_singleton.mp hj)
      exact Prod.ext (Loc.head.inj heq).1 (Loc.head.inj heq).2

/-- **The slabs in memory do what the slabs with lists of addresses do**: in every run of calls,
with whatever is written in between to live allocations and to pages the slabs do not have, the
links are those of the free elements in order. -/
theorem linkedSys_refines (nslabs : ℕ) (s : LinkedSys) (hreach : (linkedSys nslabs).Reachable s) :
    ∃ g, (slabSys nslabs).Reachable ⟨g, s.live⟩ ∧ Refines s.linked g := by
  induction hreach with
  | init hinit =>
    obtain ⟨dataPtr, memory, ha, hp, rfl⟩ := hinit
    exact ⟨_, .init ⟨dataPtr, ha, hp, rfl⟩, refines_init nslabs dataPtr memory⟩
  | step _ hstep ih =>
    obtain ⟨g, hg, href⟩ := ih
    have hinv := inv_reachable nslabs hg
    cases hstep with
    | malloc hcpu hsize hpa =>
      rename_i cpu size tryLock paAlloc
      have hpa' : PaAllocOk g paAlloc := by
        rcases paAlloc with _ | ⟨bn, paSize⟩
        · trivial
        · have hpage := hpa bn paSize rfl
          rw [href.owned, href.paSize] at hpage
          exact hpage
      obtain ⟨hres, href'⟩ := href.zusGsaMalloc hinv cpu hsize tryLock hpa'
      rw [hres]
      exact ⟨_, hg.step (.malloc (href.nslabs ▸ hcpu) hsize hpa'), href'⟩
    | free ha => exact ⟨_, hg.step (.free ha), href.zusGsaFree hinv ha⟩
    | write hkept => exact ⟨g, hg, href.write hinv hkept⟩

/-- One allocation of 100 bytes on cpu 1 of two, over a memory whose links are all to themselves. -/
theorem linkedSys_refines_malloc : ∃ g,
    (slabSys 2).Reachable ⟨g, noteAlloc [] 100
      (((initLinked 2 4096 fun x => ⟨x, x⟩).zusGsaMalloc 1 100
        (fun _ => true) (some (5, 64))).1)⟩ ∧
    Refines ((initLinked 2 4096 fun x => ⟨x, x⟩).zusGsaMalloc 1 100 (fun _ => true)
      (some (5, 64))).2 g := by
  have hinit : (linkedSys 2).Reachable ⟨initLinked 2 4096 fun x => ⟨x, x⟩, []⟩ :=
    .init ⟨4096, _, by decide, by decide, rfl⟩
  refine linkedSys_refines 2 _ (hinit.step
    (a := .call (.malloc 1 100 (fun _ => true) (some (5, 64))))
    (.malloc (by decide) (by decide) ?_))
  rintro bn paSize ⟨⟩
  exact ⟨rfl, by decide, by decide⟩

end Zus.Slab
