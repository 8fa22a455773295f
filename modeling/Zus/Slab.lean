import Mathlib.Data.List.Nodup
import Mathlib.Data.Nat.Log
import Mathlib.Logic.Function.Basic
import Mathlib.Tactic.IntervalCases
import Mathlib.Tactic.Linarith
import Mathlib.Tactic.Ring
import Zus.Lib.Lts

/-!
# The slab allocator

`slab.c` serves requests of up to a page from per-cpu slabs. A slab has one list of
free elements for each power of two from 32 to 4096 bytes; a page taken from the
page allocator is cut into elements of one size, all of which go to one list of one
slab. The page descriptor remembers the list (`use_count` holds the list index plus
one) and the slab (`sinfo.slab_cpu`), and counts its elements in users' hands
(`sinfo.slab_uc`); the list counts its free and its used elements.

Elements are named by their addresses. The free list threads through the elements
themselves; it is modelled as the list of their addresses. The page allocator and the
try-locks are inputs of a call: `paAlloc` is what `pa_alloc` would return (with the
number of pages the pool then has), `tryLock i` is the outcome of the `i`-th try-lock.
-/

namespace Zus.Slab

open Zus.Lib

/-! ## Geometry -/

/-- `ZUS_BLOCK_SIZE`. -/
def blockSize : ℕ := 4096

/-- `ZUS_MIN_SLAB_SHIFT`. -/
def minSlabShift : ℕ := 5

/-- `ZUS_MIN_SLAB_SIZE`. -/
def minSlabSize : ℕ := 1 <<< minSlabShift

/-- `ZUS_MAX_SLABS_PER_BLOCK`. -/
def maxSlabsPerBlock : ℕ := blockSize / minSlabSize

/-- `ZUS_SLAB_LISTS`. -/
def slabLists : ℕ := 12 - minSlabShift + 1

/-- `ZUS_SLAB_NFREE_WANT`. -/
def slabNfreeWant : ℤ := 1024

/-- The number of elements of a page on list `k`. -/
def slabsCount (k : ℕ) : ℕ := maxSlabsPerBlock >>> k

/-- The size of an element of list `k`: `step` elements of the minimal size. -/
def elemSize (k : ℕ) : ℕ := minSlabSize * (1 <<< k)

/-- `__builtin_clz` on a non-zero 32-bit value. -/
def builtinClz (x : ℕ) : ℕ := 31 - Nat.log2 x

/-- `_slab_size_valid`. -/
def slabSizeValid (size : ℕ) : Bool := 0 < size && size ≤ blockSize

/-- `_slab_list_index`. -/
def slabListIndex (size : ℕ) : ℕ :=
  if size ≤ minSlabSize then 0
  else 32 - builtinClz ((size - 1) >>> minSlabShift)

/-! ## State -/

/-- `struct zus_slab_list`. -/
structure SlabList where
  /-- addresses of the free elements, first entry first -/
  head : List ℕ
  /-- number of elements currently owned by users -/
  nused : ℤ
  /-- number of elements currently in the free list -/
  nfree : ℤ
  /-- threshold of minimal wanted elements in the list -/
  nfreeWant : ℤ

/-- What the slab keeps in a `struct pa_page`. -/
structure SlabPage where
  /-- `use_count`, the list index plus one -/
  useCount : ℕ
  /-- `sinfo.slab_uc` -/
  slabUc : ℤ
  /-- `sinfo.slab_cpu` -/
  slabCpu : ℕ

/-- `struct zus_global_slab_allocator`, with the page descriptors. -/
structure Gsa where
  /-- the number of per-cpu slabs -/
  nslabs : ℕ
  /-- `slab[cpu].list[index]` -/
  slab : ℕ → ℕ → SlabList
  /-- the page descriptors, by block number -/
  page : ℕ → SlabPage
  /-- `pa->data.ptr` -/
  dataPtr : ℕ
  /-- `pa->size` -/
  paSize : ℕ
  /-- the pages handed out by the page allocator -/
  owned : ℕ → Bool

namespace Gsa

/-- Replace one list. -/
def setList (g : Gsa) (c k : ℕ) (l : SlabList) : Gsa :=
  { g with slab := Function.update g.slab c (Function.update (g.slab c) k l) }

/-- Replace one page descriptor. -/
def setPage (g : Gsa) (bn : ℕ) (p : SlabPage) : Gsa :=
  { g with page := Function.update g.page bn p }

/-- `pa_page_address`. -/
def pageAddress (g : Gsa) (bn : ℕ) : ℕ := g.dataPtr + bn * blockSize

/-- The block number of `pa_virt_to_page`, for an address in range. -/
def virtToPage (g : Gsa) (addr : ℕ) : ℕ := (addr - g.dataPtr) / blockSize

/-- `__pa_addr_inrange`. -/
def paAddrInrange (g : Gsa) (addr : ℕ) : Bool :=
  g.dataPtr ≤ addr && addr < g.dataPtr + g.paSize * blockSize

/-- The elements of a page on list `k`, in the order of the loops. -/
def pageElems (g : Gsa) (bn k : ℕ) : List ℕ :=
  (List.range (slabsCount k)).map fun i => g.pageAddress bn + i * elemSize k

/-! ## Allocation -/

/-- `_slab_page_init`: the elements of a fresh page go to the tail of a list. -/
def slabPageInit (g : Gsa) (c bn k : ℕ) : Gsa :=
  let l := g.slab c k
  let elems := g.pageElems bn k
  (g.setPage bn ⟨k + 1, 0, c⟩).setList c k
    { l with head := l.head ++ elems, nfree := l.nfree + elems.length }

/-- `_slab_increase`: take a page from the page allocator. -/
def slabIncrease (g : Gsa) (c k : ℕ) (paAlloc : Option (ℕ × ℕ)) : Option Gsa :=
  match paAlloc with
  | none => none
  | some (bn, paSize) =>
    some (({ g with paSize := paSize, owned := Function.update g.owned bn true }).slabPageInit
      c bn k)

/-- `_slab_iscold`. -/
def slabIscold (g : Gsa) (c size : ℕ) : Bool :=
  let l := g.slab c (slabListIndex size)
  l.nfree == 0 && l.nused == 0

/-- `_slab_list_empty`. -/
def slabListEmpty (g : Gsa) (c size : ℕ) : Bool :=
  (g.slab c (slabListIndex size)).nfree == 0

/-- `_slab_alloc_elem` and the count of the element's page. -/
def slabAllocElem (g : Gsa) (c k : ℕ) : Option ℕ × Gsa :=
  let l := g.slab c k
  match l.head with
  | [] => (none, g)
  | se :: rest =>
    let bn := g.virtToPage se
    let p := g.page bn
    (some se, (g.setList c k
      { l with head := rest, nfree := l.nfree - 1, nused := l.nused + 1 }).setPage bn
        { p with slabUc := p.slabUc + 1 })

/-- `_slab_alloc`. -/
def slabAlloc (g : Gsa) (c size : ℕ) (paAlloc : Option (ℕ × ℕ)) : Option ℕ × Gsa :=
  let k := slabListIndex size
  if g.slabListEmpty c size then
    match g.slabIncrease c k paAlloc with
    | none => (none, g)
    | some g' => g'.slabAllocElem c k
  else g.slabAllocElem c k

/-- `_zus_gsa_malloc` on a cpu: the own slab if its list is cold, else the first slab
from the own one on whose lock is free and whose list is not empty, else the own one
after the round. -/
def zusGsaMalloc (g : Gsa) (cpu size : ℕ) (tryLock : ℕ → Bool) (paAlloc : Option (ℕ × ℕ)) :
    Option ℕ × Gsa :=
  if g.slabIscold cpu size then g.slabAlloc cpu size paAlloc
  else
    match (List.range g.nslabs).find? fun i =>
        tryLock i && !g.slabListEmpty ((cpu + i) % g.nslabs) size with
    | some i => g.slabAlloc ((cpu + i) % g.nslabs) size paAlloc
    | none => g.slabAlloc ((cpu + g.nslabs) % g.nslabs) size paAlloc

/-! ## Free -/

/-- `_slab_page_fini` and the `pa_put_page` after it: every element of the page is
unlinked, and the page goes back. -/
def slabPageFini (g : Gsa) (c bn k : ℕ) : Gsa :=
  let l := g.slab c k
  let elems := g.pageElems bn k
  let g' := (g.setList c k
    { l with head := elems.foldl List.erase l.head, nfree := l.nfree - elems.length }).setPage bn
      ⟨0, 0, 0⟩
  { g' with owned := Function.update g'.owned bn false }

/-- `_slab_free_elem` and `_page_slab_uc_dec`. -/
def slabFreeElem (g : Gsa) (c k bn addr : ℕ) : Gsa :=
  let l := g.slab c k
  let p := g.page bn
  (g.setList c k
    { l with head := l.head ++ [addr], nfree := l.nfree + 1, nused := l.nused - 1 }).setPage bn
      { p with slabUc := p.slabUc - 1 }

/-- `__slab_free`: the page goes back when it has no user left and the list has more
free elements than wanted. -/
def slabFreeAt (g : Gsa) (c k bn addr : ℕ) : Gsa :=
  let g' := g.slabFreeElem c k bn addr
  if (g'.page bn).slabUc ≠ 0 then g'
  else if (g'.slab c k).nfree < (g'.slab c k).nfreeWant then g'
  else g'.slabPageFini c bn k

/-- `_slab_free`: the list index comes from the page descriptor. -/
def slabFree (g : Gsa) (c addr : ℕ) : Gsa :=
  let bn := g.virtToPage addr
  let useCount := (g.page bn).useCount
  if useCount = 0 ∨ slabLists < useCount then g
  else g.slabFreeAt c (useCount - 1) bn addr

/-- `_zus_gsa_cpu_of`: `none` stands for the negative result. -/
def zusGsaCpuOf (g : Gsa) (ptr : ℕ) : Option ℕ :=
  if ptr = 0 then none
  else if ptr % (1 <<< minSlabShift) ≠ 0 then none
  else if !g.paAddrInrange ptr then none
  else some (g.page (g.virtToPage ptr)).slabCpu

/-- `_zus_gsa_free`. -/
def zusGsaFree (g : Gsa) (ptr : ℕ) : Gsa :=
  match g.zusGsaCpuOf ptr with
  | none => g
  | some cpu => g.slabFree cpu ptr

end Gsa

/-! ## The system of calls -/

/-- A live allocation: the address returned and the size asked for. -/
structure Alloc where
  ptr : ℕ
  size : ℕ
  deriving DecidableEq

/-- The allocator with the live allocations. -/
structure Sys where
  gsa : Gsa
  live : List Alloc

/-- The calls. -/
inductive Call
  /-- `_zus_gsa_malloc` on a cpu -/
  | malloc (cpu size : ℕ) (tryLock : ℕ → Bool) (paAlloc : Option (ℕ × ℕ))
  /-- `_zus_gsa_free` of a live allocation -/
  | free (a : Alloc)

/-- What the page allocator promises: a page not currently handed out, inside a pool
that does not shrink. -/
def PaAllocOk (g : Gsa) : Option (ℕ × ℕ) → Prop
  | none => True
  | some (bn, paSize) => g.owned bn = false ∧ bn < paSize ∧ g.paSize ≤ paSize

/-- The live allocations after a `_zus_gsa_malloc` of `size` bytes returned `res`. -/
def noteAlloc (live : List Alloc) (size : ℕ) (res : Option ℕ) : List Alloc :=
  match res with
  | none => live
  | some ptr => ⟨ptr, size⟩ :: live

/-- One call, from a cpu that has a slab and with a size the slabs serve. -/
inductive Step : Sys → Call → Sys → Prop
  | malloc {s : Sys} {cpu size : ℕ} {tryLock : ℕ → Bool} {paAlloc : Option (ℕ × ℕ)} :
      cpu < s.gsa.nslabs → slabSizeValid size = true → PaAllocOk s.gsa paAlloc →
      Step s (.malloc cpu size tryLock paAlloc)
        { gsa := (s.gsa.zusGsaMalloc cpu size tryLock paAlloc).2
          live := noteAlloc s.live size (s.gsa.zusGsaMalloc cpu size tryLock paAlloc).1 }
  | free {s : Sys} {a : Alloc} : a ∈ s.live →
      Step s (.free a) { gsa := s.gsa.zusGsaFree a.ptr, live := s.live.erase a }

/-- `zus_slab_init` with `nslabs` slabs over a pool mapped at a page-aligned address. -/
def initGsa (nslabs dataPtr : ℕ) : Gsa where
  nslabs := nslabs
  slab _ _ := ⟨[], 0, 0, slabNfreeWant⟩
  page _ := ⟨0, 0, 0⟩
  dataPtr := dataPtr
  paSize := 0
  owned _ := false

/-- The slab allocator under any sequence of calls. -/
def slabSys (nslabs : ℕ) : Lts Sys Call where
  init s := ∃ dataPtr, dataPtr % blockSize = 0 ∧ 0 < dataPtr ∧ s = ⟨initGsa nslabs dataPtr, []⟩
  step := Step

/-! ## Sizes -/

theorem elemSize_mul_count {k : ℕ} (hk : k < slabLists) :
    slabsCount k * elemSize k = blockSize := by
  unfold slabLists minSlabShift at hk
  interval_cases k <;> rfl

theorem elemSize_pos (k : ℕ) : 0 < elemSize k := by
  rw [elemSize, Nat.shiftLeft_eq]
  exact Nat.mul_pos (by decide) (by positivity)

theorem elemSize_mod (k : ℕ) : elemSize k % minSlabSize = 0 := Nat.mul_mod_right _ _

/-- An element of a page ends inside the page. -/
theorem elem_end {j k : ℕ} (hk : k < slabLists) (hj : j < slabsCount k) :
    j * elemSize k + elemSize k ≤ blockSize := by
  rw [← elemSize_mul_count hk, ← Nat.succ_mul]
  exact Nat.mul_le_mul_right _ hj

/-- The list index of a valid size is in range, and its elements hold the size. -/
theorem slabListIndex_spec {size : ℕ} (h : slabSizeValid size = true) :
    slabListIndex size < slabLists ∧ size ≤ elemSize (slabListIndex size) := by
  obtain ⟨hpos, hmax⟩ : 0 < size ∧ size ≤ 4096 := by
    rw [slabSizeValid, Bool.and_eq_true, decide_eq_true_eq, decide_eq_true_eq] at h
    exact h
  unfold slabListIndex
  split
  · next hle => exact ⟨by decide, hle⟩
  · next hgt =>
    have hms : minSlabSize = 32 := by decide
    rw [hms] at hgt
    set x := (size - 1) >>> minSlabShift with hx
    have hxd : x = (size - 1) / 32 := by
      rw [hx, Nat.shiftRight_eq_div_pow]
      rfl
    have hx0 : x ≠ 0 := by omega
    have hlog : Nat.log2 x < 7 := (Nat.log2_lt hx0).mpr (by omega)
    have hlt : x < 2 ^ (Nat.log2 x + 1) := Nat.lt_log2_self
    have hidx : 32 - builtinClz x = Nat.log2 x + 1 := by
      unfold builtinClz
      omega
    rw [hidx]
    refine ⟨by unfold slabLists minSlabShift; omega, ?_⟩
    rw [elemSize, hms, Nat.shiftLeft_eq]
    omega

end Zus.Slab
