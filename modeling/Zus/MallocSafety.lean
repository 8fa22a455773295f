import Mathlib.Data.List.Pairwise
import Zus.Malloc

/-!
# Safety of the malloc wrappers

The blocks in users' hands are apart, each with room for what was asked for. One spec lemma for each
of `zus_malloc` and `zus_free` says what the call does to the blocks and that the bytes of the
others stay; `zus_calloc` and `zus_realloc` are put together from the two.

Two of the wrappers go wrong, each where it takes a slab for granted. `zus_realloc` asks for the
element size of the old block when this block is from libc and the new one is small: there is no
page to ask. `zus_calloc` decides by the product modulo `2 ^ 64`, and a product that wraps around
to a valid slab size is served by an element of that size.
-/

namespace Zus.Slab

open Zus.Lib Gsa

variable {g g' : Gsa} {live : List Alloc} {a : Alloc} {bn c k e i p size : ℕ}

theorem inBlock_iff {p n a : ℕ} : inBlock p n a = true ↔ p ≤ a ∧ a < p + n := by
  simp [inBlock]

theorem inBlock_eq_false_iff {p n a : ℕ} : inBlock p n a = false ↔ a < p ∨ p + n ≤ a := by
  rw [← Bool.not_eq_true, inBlock_iff]
  omega

/-! ## Elements -/

theorem one_shiftLeft_eq_elemSize (k : ℕ) : 1 <<< (k + minSlabShift) = elemSize k := by
  simp only [elemSize, minSlabSize, minSlabShift, Nat.shiftLeft_eq, Nat.one_mul]
  rw [Nat.pow_add, Nat.mul_comm]

theorem Inv.elemSizeOf (h : Inv g live) (hcut : CutFor g bn c k) (he : IsElem g.dataPtr bn k e) :
    g.elemSizeOf e = some (elemSize k) := by
  have hk := (h.cut_lt hcut).2
  have hindex : (g.page (g.virtToPage e)).useCount = k + 1 := by
    rw [he.virtToPage hk]
    exact hcut.index
  have hvalid : ¬ (k + 1 = 0 ∨ slabLists < k + 1) := by omega
  rw [Gsa.elemSizeOf, if_pos (h.inrange hcut he)]
  simp only [hindex, if_neg hvalid, Nat.add_sub_cancel, one_shiftLeft_eq_elemSize]

theorem elemSizeOf_eq_none (h : e < g.dataPtr ∨ g.dataPtr + g.paSize * blockSize ≤ e) :
    g.elemSizeOf e = none := by
  have hout : g.paAddrInrange e = false := by
    rw [← Bool.not_eq_true, paAddrInrange, Bool.and_eq_true, decide_eq_true_eq, decide_eq_true_eq]
    omega
  simp [Gsa.elemSizeOf, hout]

theorem freeByte_iff {a : ℕ} : g.freeByte a = true ↔
    ∃ c < g.nslabs, ∃ k < slabLists, ∃ e ∈ (g.slab c k).head, e ≤ a ∧ a < e + elemSize k := by
  simp only [freeByte, List.any_eq_true, List.mem_range, inBlock_iff]

/-- The bytes of free elements are in the part of the mapping that the pool has grown to. -/
theorem Inv.freeByte_range (h : Inv g live) {a : ℕ} (hfree : g.freeByte a = true) :
    g.dataPtr ≤ a ∧ a < g.dataPtr + g.paSize * blockSize := by
  obtain ⟨c, -, k, -, e, he, hle, hlt⟩ := freeByte_iff.mp hfree
  obtain ⟨hcut, helem⟩ := h.listed_page he
  obtain ⟨hlow, hhigh⟩ := h.elem_range hcut helem
  omega

/-- A byte of a live block is in no free element. -/
theorem Inv.freeByte_eq_false (h : Inv g live) (ha : a ∈ live) (hi : i < a.size) :
    g.freeByte (a.ptr + i) = false := by
  rw [← Bool.not_eq_true, freeByte_iff]
  rintro ⟨c, -, k, -, e, he, hle, hlt⟩
  obtain ⟨hcut, helem⟩ := h.listed_page he
  obtain ⟨c', k', hcut', helem', -, hsize, -⟩ := h.held_page ha
  have hne : e ≠ a.ptr := by
    rintro rfl
    exact h.held_notMem ha hcut helem he
  rcases h.elem_apart hcut helem hcut' helem' hne with hap | hap
  · omega
  · omega

/-! ## What a call of the slabs leaves as it is -/

/-- The pages of the slabs stay cut as they are; there may be more of them. -/
structure Grows (g g' : Gsa) : Prop where
  nslabs : g'.nslabs = g.nslabs
  dataPtr : g'.dataPtr = g.dataPtr
  cut : ∀ bn c k, CutFor g bn c k → CutFor g' bn c k

theorem Grows.refl (g : Gsa) : Grows g g := ⟨rfl, rfl, fun _ _ _ h => h⟩

theorem Grows.trans {g'' : Gsa} (h : Grows g g') (h' : Grows g' g'') : Grows g g'' :=
  ⟨h'.nslabs.trans h.nslabs, h'.dataPtr.trans h.dataPtr,
    fun bn c k hcut => h'.cut bn c k (h.cut bn c k hcut)⟩

theorem SameCut.grows (h : SameCut g g') : Grows g g' :=
  ⟨h.nslabs, h.dataPtr, fun _ _ _ => h.cutFor.mpr⟩

theorem sameCut_slabAllocElem (g : Gsa) (c k : ℕ) : SameCut g (g.slabAllocElem c k).2 := by
  rw [slabAllocElem]
  split
  · exact ⟨rfl, rfl, rfl, rfl, fun _ => rfl, fun _ => rfl⟩
  · exact sameCut_update g c k _ _ _

/-- After a call the pool is as large as it was, or as large as the page allocator has made it. -/
theorem slabAlloc_grows {paAlloc : Option (ℕ × ℕ)} (hpa : PaAllocOk g paAlloc) (c size : ℕ) :
    Grows g (g.slabAlloc c size paAlloc).2 ∧
      ((g.slabAlloc c size paAlloc).2.paSize = g.paSize ∨
        ∃ bn, paAlloc = some (bn, (g.slabAlloc c size paAlloc).2.paSize)) := by
  rw [slabAlloc]
  split_ifs with hempty
  · rcases paAlloc with _ | ⟨bn, paSize⟩
    · exact ⟨.refl g, .inl rfl⟩
    · have hsame := sameCut_slabAllocElem
        ((takePage g bn paSize).slabPageInit c bn (slabListIndex size)) c (slabListIndex size)
      have hinit : Grows g ((takePage g bn paSize).slabPageInit c bn (slabListIndex size)) := by
        refine ⟨rfl, rfl, fun bn' c' k' hcut => (cutFor_pageInit ?_).mpr hcut⟩
        rintro rfl
        exact Bool.false_ne_true (hpa.1.symm.trans hcut.owned)
      exact ⟨hinit.trans hsame.grows, .inr ⟨bn, congrArg (fun n => some (bn, n)) hsame.paSize.symm⟩⟩
  · have hsame := sameCut_slabAllocElem g c (slabListIndex size)
    exact ⟨hsame.grows, .inl hsame.paSize⟩

theorem zusGsaMalloc_grows {paAlloc : Option (ℕ × ℕ)} (hpa : PaAllocOk g paAlloc)
    (cpu size : ℕ) (tryLock : ℕ → Bool) :
    Grows g (g.zusGsaMalloc cpu size tryLock paAlloc).2 ∧
      ((g.zusGsaMalloc cpu size tryLock paAlloc).2.paSize = g.paSize ∨
        ∃ bn, paAlloc = some (bn, (g.zusGsaMalloc cpu size tryLock paAlloc).2.paSize)) := by
  rw [Gsa.zusGsaMalloc]
  split_ifs
  · exact slabAlloc_grows hpa cpu size
  · split
    · exact slabAlloc_grows hpa _ size
    · exact slabAlloc_grows hpa _ size

/-- A free changes neither the mapping nor the slabs there are. -/
theorem zusGsaFree_shape (g : Gsa) (ptr : ℕ) : (g.zusGsaFree ptr).nslabs = g.nslabs ∧
    (g.zusGsaFree ptr).dataPtr = g.dataPtr ∧ (g.zusGsaFree ptr).paSize = g.paSize := by
  rw [Gsa.zusGsaFree]
  split
  · exact ⟨rfl, rfl, rfl⟩
  · simp only [slabFree, slabFreeAt]
    split_ifs <;> exact ⟨rfl, rfl, rfl⟩

/-! ## When the slabs have nothing -/

/-- The slabs have nothing for a request of this size: no page is to be had, the list of the own
slab is empty, and either it is cold or every list whose lock is free is empty too. -/
def Exhausted (g : Gsa) (size : ℕ) (env : Env) : Prop :=
  env.paAlloc = none ∧ g.slabListEmpty env.cpu size = true ∧
    (g.slabIscold env.cpu size = true ∨ ∀ i < g.nslabs, env.tryLock i = true →
      g.slabListEmpty ((env.cpu + i) % g.nslabs) size = true)

/-- A request of a size the slabs take is served: by the slabs, or by libc in their place. -/
def Serves (g : Gsa) (size : ℕ) (env : Env) : Prop := ¬ Exhausted g size env ∨ env.libc ≠ none

theorem Inv.slabListEmpty_iff (h : Inv g live) :
    g.slabListEmpty c size = true ↔ (g.slab c (slabListIndex size)).head = [] := by
  rw [slabListEmpty, beq_iff_eq, h.nfree]
  simp

theorem slabAllocElem_of_ne_nil (hhead : (g.slab c k).head ≠ []) :
    ∃ p, (g.slabAllocElem c k).1 = some p := by
  rw [slabAllocElem]
  split
  · next hnil => exact absurd hnil hhead
  · next se _ _ => exact ⟨se, rfl⟩

theorem slabsCount_pos (hk : k < slabLists) : 0 < slabsCount k := by
  apply Nat.pos_of_ne_zero
  intro hzero
  have hsum := elemSize_mul_count hk
  rw [hzero, Nat.zero_mul] at hsum
  exact absurd hsum (by decide)

theorem slabAlloc_of_empty (hempty : g.slabListEmpty c size = true) :
    g.slabAlloc c size none = (none, g) := by
  rw [slabAlloc, if_pos hempty]
  rfl

theorem Inv.slabAlloc_isSome (h : Inv g live) (hsize : slabSizeValid size = true)
    {paAlloc : Option (ℕ × ℕ)} (hsome : ¬ (paAlloc = none ∧ g.slabListEmpty c size = true)) :
    ∃ p, (g.slabAlloc c size paAlloc).1 = some p := by
  have hk := (slabListIndex_spec hsize).1
  rw [Gsa.slabAlloc]
  split_ifs with hempty
  · rcases paAlloc with _ | ⟨bn, paSize⟩
    · exact absurd ⟨rfl, hempty⟩ hsome
    · -- the first element of the new page is on the list
      have hmem : _ ∈ (((takePage g bn paSize).slabPageInit c bn (slabListIndex size)).slab c
          (slabListIndex size)).head :=
        mem_pageInit_head.mpr (.inr ⟨rfl, rfl, 0, slabsCount_pos hk, rfl⟩)
      exact slabAllocElem_of_ne_nil (List.ne_nil_of_mem hmem)
  · apply slabAllocElem_of_ne_nil
    rwa [ne_eq, ← h.slabListEmpty_iff]

/-- **The slabs fail just when they have nothing**, and are then as they were. -/
theorem Inv.zusGsaMalloc_exhausted (h : Inv g live) {env : Env} (hcpu : env.cpu < g.nslabs)
    (hsize : slabSizeValid size = true) :
    (Exhausted g size env →
        g.zusGsaMalloc env.cpu size env.tryLock env.paAlloc = (none, g)) ∧
      (¬ Exhausted g size env →
        ∃ p, (g.zusGsaMalloc env.cpu size env.tryLock env.paAlloc).1 = some p) := by
  have hround : (env.cpu + g.nslabs) % g.nslabs = env.cpu := by
    rw [Nat.add_mod_right, Nat.mod_eq_of_lt hcpu]
  rw [Gsa.zusGsaMalloc]
  split_ifs with hcold
  · constructor
    · rintro ⟨hpa, hempty, -⟩
      rw [hpa]
      exact slabAlloc_of_empty hempty
    · intro hex
      exact h.slabAlloc_isSome hsize fun hnone => hex ⟨hnone.1, hnone.2, .inl hcold⟩
  · split
    · next i hfind =>
      have hi := List.mem_range.mp (List.mem_of_find?_eq_some hfind)
      obtain ⟨hlock, hne⟩ : env.tryLock i = true ∧
          g.slabListEmpty ((env.cpu + i) % g.nslabs) size = false := by
        simpa using List.find?_some hfind
      constructor
      · rintro ⟨-, -, hcold' | hall⟩
        · exact absurd hcold' hcold
        · exact absurd (hall i hi hlock) (by simp [hne])
      · intro _
        exact h.slabAlloc_isSome hsize fun hnone => by simp [hne] at hnone
    · next hfind =>
      have hall : ∀ i < g.nslabs, env.tryLock i = true →
          g.slabListEmpty ((env.cpu + i) % g.nslabs) size = true := by
        intro i hi hlock
        have hi' := List.find?_eq_none.mp hfind i (List.mem_range.mpr hi)
        simpa [hlock] using hi'
      rw [hround]
      constructor
      · rintro ⟨hpa, hempty, -⟩
        rw [hpa]
        exact slabAlloc_of_empty hempty
      · intro hex
        exact h.slabAlloc_isSome hsize fun hnone => hex ⟨hnone.1, hnone.2, .inr hall⟩

/-! ## The invariant -/

/-- What holds of the heap between calls. -/
structure HeapOk (paBytes : ℕ) (h : Heap) : Prop where
  inv : Inv h.gsa h.live
  pool : h.gsa.paSize * blockSize ≤ paBytes
  outside : ∀ b ∈ h.libc, Outside paBytes h.gsa.dataPtr b
  apart : h.libc.Pairwise Apart

/-- The bytes of the blocks `bs` stay. -/
def Kept (h h' : Heap) (bs : List Alloc) : Prop :=
  ∀ b ∈ bs, ∀ i < b.size, h'.mem (b.ptr + i) = h.mem (b.ptr + i)

instance : Std.Symm Apart := ⟨fun _ _ h => ⟨h.1.symm, h.2.symm⟩⟩

/-- A search by the address of a block finds that block. -/
theorem find?_ptr_eq {bs : List Alloc} {b : Alloc} (hb : b ∈ bs)
    (huniq : ∀ b' ∈ bs, b'.ptr = b.ptr → b' = b) :
    bs.find? (fun b' => b'.ptr == b.ptr) = some b := by
  rcases hf : bs.find? fun b' => b'.ptr == b.ptr with _ | b'
  · exact absurd (beq_self_eq_true b.ptr) (List.find?_eq_none.mp hf b hb)
  · have hptr : b'.ptr = b.ptr := by simpa using List.find?_some hf
    exact hf.trans (congrArg some (huniq b' (List.mem_of_find?_eq_some hf) hptr))

/-- Taking a block out by its address takes out that block. -/
theorem eraseP_ptr_eq_erase {bs : List Alloc} {b : Alloc} (hb : b ∈ bs)
    (huniq : ∀ b' ∈ bs, b'.ptr = b.ptr → b' = b) :
    (bs.eraseP fun b' => b'.ptr == b.ptr) = bs.erase b := by
  induction bs with
  | nil => cases hb
  | cons b' bs ih =>
    by_cases heq : b' = b
    · subst heq
      simp
    · have hne : b'.ptr ≠ b.ptr := fun hptr => heq (huniq b' List.mem_cons_self hptr)
      have hmem : b ∈ bs := (List.mem_cons.mp hb).resolve_left (Ne.symm heq)
      rw [List.eraseP_cons_of_neg (by simpa using hne), List.erase_cons_tail (by simpa using heq),
        ih hmem fun b'' hb'' => huniq b'' (List.mem_cons_of_mem _ hb'')]

namespace HeapOk

variable {paBytes : ℕ} {h h' : Heap} {env : Env} {b : Alloc}

theorem notMem_range (hok : HeapOk paBytes h) (hb : b ∈ h.libc) :
    b.ptr < h.gsa.dataPtr ∨ h.gsa.dataPtr + h.gsa.paSize * blockSize ≤ b.ptr := by
  have hpool := hok.pool
  rcases (hok.outside b hb).2 with ⟨hlt, -⟩ | hge
  · exact .inl hlt
  · exact .inr (by omega)

/-- The wrappers know a libc block by its address. -/
theorem cpuOf_libc (hok : HeapOk paBytes h) (hb : b ∈ h.libc) :
    h.gsa.zusGsaCpuOf b.ptr = none := by
  have hout : h.gsa.paAddrInrange b.ptr = false := by
    rw [← Bool.not_eq_true, paAddrInrange, Bool.and_eq_true, decide_eq_true_eq, decide_eq_true_eq]
    have := hok.notMem_range hb
    omega
  simp [Gsa.zusGsaCpuOf, hout]

/-- They know a slab block by its address too, and its element has room for it. -/
theorem cpuOf_live (hok : HeapOk paBytes h) (hb : b ∈ h.live) :
    ∃ c n, h.gsa.zusGsaCpuOf b.ptr = some c ∧ h.gsa.elemSizeOf b.ptr = some n ∧ 0 < b.size ∧
      b.size ≤ n ∧ h.gsa.dataPtr ≤ b.ptr ∧
      b.ptr + n ≤ h.gsa.dataPtr + h.gsa.paSize * blockSize := by
  obtain ⟨c, k, hcut, helem, hpos, hle, -⟩ := hok.inv.held_page hb
  obtain ⟨hlow, hhigh⟩ := hok.inv.elem_range hcut helem
  exact ⟨c, elemSize k, hok.inv.zusGsaCpuOf hcut helem, hok.inv.elemSizeOf hcut helem, hpos, hle,
    hlow, hhigh⟩

theorem ptr_ne_zero (hok : HeapOk paBytes h) (hb : b ∈ h.blocks) : b.ptr ≠ 0 := by
  rcases List.mem_append.mp hb with hb | hb
  · obtain ⟨c, n, -, -, -, -, hlow, -⟩ := hok.cpuOf_live hb
    have := hok.inv.pos
    omega
  · exact (hok.outside b hb).1

theorem notMem_live (hok : HeapOk paBytes h) (hb : b ∈ h.libc) : b ∉ h.live := by
  intro hlive
  obtain ⟨c, n, hcpu, -⟩ := hok.cpuOf_live hlive
  rw [hok.cpuOf_libc hb] at hcpu
  cases hcpu

theorem libc_apart (hok : HeapOk paBytes h) {b' : Alloc} (hb : b ∈ h.libc) (hb' : b' ∈ h.libc)
    (hne : b ≠ b') : Apart b b' :=
  hok.apart.forall hb hb' hne

theorem libc_unique (hok : HeapOk paBytes h) (hb : b ∈ h.libc) :
    ∀ b' ∈ h.libc, b'.ptr = b.ptr → b' = b := by
  intro b' hb' hptr
  by_contra hne
  exact (hok.libc_apart hb' hb hne).1 hptr

theorem live_unique (hok : HeapOk paBytes h) (hb : b ∈ h.live) :
    ∀ b' ∈ h.live, b'.ptr = b.ptr → b' = b :=
  fun _ hb' hptr => List.inj_on_of_nodup_map hok.inv.liveNodup hb' hb hptr

theorem room_libc (hok : HeapOk paBytes h) (hb : b ∈ h.libc) : h.room b.ptr = b.size := by
  simp only [Heap.room, find?_ptr_eq hb (hok.libc_unique hb)]

theorem room_live (hok : HeapOk paBytes h) (hb : b ∈ h.live) :
    h.room b.ptr = (h.gsa.elemSizeOf b.ptr).getD 0 := by
  have hfind : h.libc.find? (fun b' => b'.ptr == b.ptr) = none := by
    apply List.find?_eq_none.mpr
    intro b' hb' heq
    obtain ⟨c, n, hcpu, -⟩ := hok.cpuOf_live hb
    rw [← beq_iff_eq.mp heq, hok.cpuOf_libc hb'] at hcpu
    cases hcpu
  simp only [Heap.room, hfind]

/-- Every block has room for what was asked for. -/
theorem size_le_room (hok : HeapOk paBytes h) (hb : b ∈ h.blocks) : b.size ≤ h.room b.ptr := by
  rcases List.mem_append.mp hb with hb | hb
  · obtain ⟨c, n, -, hn, -, hle, -⟩ := hok.cpuOf_live hb
    rwa [hok.room_live hb, hn]
  · rw [hok.room_libc hb]

/-- A byte of a libc block is not in the mapping. -/
theorem byte_libc (hok : HeapOk paBytes h) (hb : b ∈ h.libc) (hi : i < b.size) :
    b.ptr + i < h.gsa.dataPtr ∨ h.gsa.dataPtr + paBytes ≤ b.ptr + i := by
  rcases (hok.outside b hb).2 with ⟨-, hend⟩ | hge
  · exact .inl (by omega)
  · exact .inr (by omega)

/-- So it is in no free element. -/
theorem freeByte_libc (hok : HeapOk paBytes h) (hb : b ∈ h.libc) (hi : i < b.size) :
    h.gsa.freeByte (b.ptr + i) = false := by
  rw [← Bool.not_eq_true]
  intro hfree
  obtain ⟨hlow, hhigh⟩ := hok.inv.freeByte_range hfree
  have hpool := hok.pool
  rcases hok.byte_libc hb hi with hout | hout
  · omega
  · omega

/-- A byte of a block is in no free element. -/
theorem freeByte_block (hok : HeapOk paBytes h) (hb : b ∈ h.blocks) (hi : i < b.size) :
    h.gsa.freeByte (b.ptr + i) = false := by
  rcases List.mem_append.mp hb with hb | hb
  · exact hok.inv.freeByte_eq_false hb hi
  · exact hok.freeByte_libc hb hi

/-- Nor is it in the element of another block. -/
theorem notMem_elem (hok : HeapOk paBytes h) {b' : Alloc} (hb' : b' ∈ h.live) (hb : b ∈ h.blocks)
    (hne : b ≠ b') (hi : i < b.size) :
    inBlock b'.ptr ((h.gsa.elemSizeOf b'.ptr).getD 0) (b.ptr + i) = false := by
  rw [inBlock_eq_false_iff]
  rcases List.mem_append.mp hb with hb | hb
  · obtain ⟨c, k, hcut, helem, -, hle, -⟩ := hok.inv.held_page hb
    obtain ⟨c', k', hcut', helem', -⟩ := hok.inv.held_page hb'
    have hptr : b.ptr ≠ b'.ptr := fun hptr => hne (hok.live_unique hb' b hb hptr)
    rw [hok.inv.elemSizeOf hcut' helem', Option.getD_some]
    rcases hok.inv.elem_apart hcut helem hcut' helem' hptr with hap | hap
    · exact .inl (by omega)
    · exact .inr (by omega)
  · obtain ⟨c, n, -, hn, -, -, hlow, hhigh⟩ := hok.cpuOf_live hb'
    have hpool := hok.pool
    rw [hn, Option.getD_some]
    rcases hok.byte_libc hb hi with hout | hout
    · exact .inl (by omega)
    · exact .inr (by omega)

theorem blocks_nodup (hok : HeapOk paBytes h) : h.blocks.Nodup := by
  have hlive : h.live.Nodup := List.Nodup.of_map _ hok.inv.liveNodup
  have hlibc : h.libc.Nodup := hok.apart.imp fun hap heq => hap.1 (congrArg Alloc.ptr heq)
  exact hlive.append hlibc fun b hb hb' => hok.notMem_live hb' hb

/-- A byte of a slab block is in the pool, so it is in no block outside of it. -/
theorem notMem_outside (hok : HeapOk paBytes h) (hb : b ∈ h.live) (hi : i < b.size) {b' : Alloc}
    (hout : Outside paBytes h.gsa.dataPtr b') : inBlock b'.ptr b'.size (b.ptr + i) = false := by
  obtain ⟨c, n, -, -, -, hle, hlow, hhigh⟩ := hok.cpuOf_live hb
  have hpool := hok.pool
  rw [inBlock_eq_false_iff]
  rcases hout.2 with ⟨-, hend⟩ | hge
  · exact .inr (by omega)
  · exact .inl (by omega)

theorem notMem_apart {b' : Alloc} (hap : Apart b' b) (hi : i < b.size) :
    inBlock b'.ptr b'.size (b.ptr + i) = false := by
  rw [inBlock_eq_false_iff]
  rcases hap.2 with hend | hend
  · exact .inr (by omega)
  · exact .inl (by omega)

/-! ## Allocation -/

/-- The call has given out `size` bytes at `p`. -/
structure Gives (paBytes : ℕ) (h : Heap) (size p : ℕ) (h' : Heap) : Prop where
  ok : HeapOk paBytes h'
  blocks : h'.blocks.Perm (⟨p, size⟩ :: h.blocks)
  room : size ≤ h'.room p
  kept : Kept h h' h.blocks
  grows : Grows h.gsa h'.gsa

theorem libcMalloc (hok : HeapOk paBytes h) (hlibc : LibcOk paBytes h h.libc size env.libc)
    (hp : env.libc = some p) :
    ∃ h', h.libcMalloc size env = (some p, h') ∧ Gives paBytes h size p h' := by
  obtain ⟨hout, hap⟩ := hlibc p hp
  have hok' : HeapOk paBytes { h with
      libc := ⟨p, size⟩ :: h.libc
      mem := fun a => if inBlock p size a then env.junk a else h.mem a } := by
    refine ⟨hok.inv, hok.pool, fun b hb => ?_, List.pairwise_cons.mpr ⟨hap, hok.apart⟩⟩
    rcases List.mem_cons.mp hb with rfl | hb
    · exact hout
    · exact hok.outside b hb
  refine ⟨_, by rw [Heap.libcMalloc, hp], hok', List.perm_middle, ?_, fun b hb i hi => ?_, .refl _⟩
  · exact (hok'.room_libc List.mem_cons_self).ge
  · have hnot : inBlock p size (b.ptr + i) = false := by
      rcases List.mem_append.mp hb with hb | hb
      · exact hok.notMem_outside hb hi hout
      · exact notMem_apart (hap b hb) hi
    simp only [hnot, Bool.false_eq_true, if_false]

/-- The slabs give out an element: no byte of another block is in a free element, before or after,
or in the new block. -/
theorem slabMalloc (hok : HeapOk paBytes h) (henv : EnvOk paBytes h size env)
    (hsize : slabSizeValid size = true)
    (hg : h.gsa.zusGsaMalloc env.cpu size env.tryLock env.paAlloc = (some p, g')) :
    Gives paBytes h size p { h.slabbed g' p ((g'.elemSizeOf p).getD 0) env.junk with
      live := ⟨p, size⟩ :: h.live } := by
  have hinv := hok.inv.zusGsaMalloc henv.cpu hsize env.tryLock henv.paAlloc
  obtain ⟨hgrows, hpa⟩ := zusGsaMalloc_grows henv.paAlloc env.cpu size env.tryLock
  rw [hg] at hinv hgrows hpa
  dsimp only at hinv hgrows hpa
  have hpool : g'.paSize * blockSize ≤ paBytes := by
    rcases hpa with heq | ⟨bn, heq⟩
    · rw [heq]
      exact hok.pool
    · exact henv.pool bn _ heq
  have hok' : HeapOk paBytes { h.slabbed g' p ((g'.elemSizeOf p).getD 0) env.junk with
      live := ⟨p, size⟩ :: h.live } := by
    refine ⟨hinv, hpool, fun b hb => ?_, hok.apart⟩
    exact hgrows.dataPtr ▸ hok.outside b hb
  obtain ⟨c, n, -, hn, hpos, hle, hlow, hhigh⟩ := hok'.cpuOf_live (b := ⟨p, size⟩) List.mem_cons_self
  refine ⟨hok', .refl _, ?_, fun b hb i hi => ?_, hgrows⟩
  · rw [hok'.room_live (b := ⟨p, size⟩) List.mem_cons_self, hn]
    exact hle
  · have hnew : b ≠ ⟨p, size⟩ := by
      rintro rfl
      rcases List.mem_append.mp hb with hlive | hlibc
      · exact (List.nodup_cons.mp hinv.liveNodup).1 (List.mem_map_of_mem hlive)
      · exact hok'.notMem_live hlibc List.mem_cons_self
    have hb' : b ∈ Heap.blocks { h.slabbed g' p ((g'.elemSizeOf p).getD 0) env.junk with
        live := ⟨p, size⟩ :: h.live } := List.mem_cons_of_mem _ hb
    have hbefore := hok.freeByte_block hb hi
    have hafter : g'.freeByte (b.ptr + i) = false := hok'.freeByte_block hb' hi
    have hmem : (⟨p, size⟩ : Alloc) ∈ ⟨p, size⟩ :: h.live := List.mem_cons_self
    have helem : inBlock p ((g'.elemSizeOf p).getD 0) (b.ptr + i) = false :=
      hok'.notMem_elem hmem hb' hnew hi
    simp only [Heap.slabbed, hbefore, hafter, helem, Bool.or_self, Bool.false_eq_true, if_false]

/-- Bytes of different blocks differ. -/
theorem notMem_block (hok : HeapOk paBytes h) {b' : Alloc} (hb : b ∈ h.blocks)
    (hb' : b' ∈ h.blocks) (hne : b ≠ b') (hi : i < b.size) :
    inBlock b'.ptr b'.size (b.ptr + i) = false := by
  rcases List.mem_append.mp hb' with hb' | hb'
  · have helem := hok.notMem_elem hb' hb hne hi
    obtain ⟨c, n, -, hn, -, hle, -⟩ := hok.cpuOf_live hb'
    rw [hn, Option.getD_some, inBlock_eq_false_iff] at helem
    rw [inBlock_eq_false_iff]
    omega
  · rcases List.mem_append.mp hb with hb | hb
    · exact hok.notMem_outside hb hi (hok.outside b' hb')
    · exact notMem_apart (hok.libc_apart hb' hb hne.symm) hi

/-- `zus_malloc` of a size the slabs take, when they or libc have something. -/
theorem zusMalloc_of_serves (hok : HeapOk paBytes h) (henv : EnvOk paBytes h size env)
    (hsize : slabSizeValid size = true) (hserves : Serves h.gsa size env) :
    ∃ p h', h.zusMalloc size env = (some p, h') ∧ Gives paBytes h size p h' := by
  obtain ⟨hnone, hsome⟩ := hok.inv.zusGsaMalloc_exhausted henv.cpu hsize
  have hpos : size ≠ 0 := by
    rintro rfl
    cases hsize
  rw [Heap.zusMalloc, if_neg hpos, hsize]
  by_cases hex : Exhausted h.gsa size env
  · obtain ⟨p, hp⟩ := Option.ne_none_iff_exists'.mp (hserves.resolve_left (not_not.mpr hex))
    obtain ⟨h', hh', hgives⟩ := hok.libcMalloc henv.libc hp
    rw [hnone hex]
    exact ⟨p, h', hh', hgives⟩
  · obtain ⟨p, hp⟩ := hsome hex
    rcases hg : h.gsa.zusGsaMalloc env.cpu size env.tryLock env.paAlloc with ⟨_ | q, g'⟩
    · rw [hg] at hp
      cases hp
    · exact ⟨q, _, rfl, hok.slabMalloc henv hsize hg⟩

theorem zusMalloc_of_not_serves (hok : HeapOk paBytes h) (henv : EnvOk paBytes h size env)
    (hsize : slabSizeValid size = true) (hserves : ¬ Serves h.gsa size env) :
    h.zusMalloc size env = (none, h) := by
  obtain ⟨hex, hlibc⟩ := not_or.mp hserves
  have hpos : size ≠ 0 := by
    rintro rfl
    cases hsize
  rw [Heap.zusMalloc, if_neg hpos, hsize,
    (hok.inv.zusGsaMalloc_exhausted henv.cpu hsize).1 (not_not.mp hex)]
  simp only [Bool.not_true, Bool.false_eq_true, if_false, Heap.libcMalloc, not_not.mp hlibc]

/-- **`zus_malloc`** returns NULL and leaves everything as it is, or gives out a block. -/
theorem zusMalloc_cases (hok : HeapOk paBytes h) (henv : EnvOk paBytes h size env) :
    h.zusMalloc size env = (none, h) ∨
      ∃ p h', h.zusMalloc size env = (some p, h') ∧ Gives paBytes h size p h' := by
  by_cases hsize : slabSizeValid size = true
  · by_cases hserves : Serves h.gsa size env
    · exact .inr (hok.zusMalloc_of_serves henv hsize hserves)
    · exact .inl (hok.zusMalloc_of_not_serves henv hsize hserves)
  · rw [Heap.zusMalloc]
    split_ifs
    · exact .inl rfl
    · rcases hp : env.libc with _ | p
      · exact .inl (by rw [Heap.libcMalloc, hp])
      · exact .inr ⟨p, hok.libcMalloc henv.libc hp⟩
    · simp_all

/-! ## Free -/

/-- The call has taken back the block `b`. -/
structure TakesBack (paBytes : ℕ) (h : Heap) (b : Alloc) (h' : Heap) : Prop where
  ok : HeapOk paBytes h'
  blocks : h'.blocks = h.blocks.erase b
  kept : Kept h h' (h.blocks.erase b)

theorem libcFree (hok : HeapOk paBytes h) (hb : b ∈ h.libc) (junk : ℕ → UInt8) :
    TakesBack paBytes h b (h.libcFree b.ptr junk) := by
  have herase := eraseP_ptr_eq_erase hb (hok.libc_unique hb)
  refine ⟨⟨hok.inv, hok.pool, fun b' hb' => hok.outside b' ?_, ?_⟩, ?_, fun b' hb' i hi => ?_⟩
  · exact List.mem_of_mem_eraseP hb'
  · exact hok.apart.sublist (List.eraseP_sublist)
  · simp only [Heap.blocks, Heap.libcFree, herase]
    rw [List.erase_append_right _ (hok.notMem_live hb)]
  · obtain ⟨hne, hmem⟩ := (hok.blocks_nodup.mem_erase_iff).mp hb'
    have hnot := hok.notMem_block hmem (List.mem_append_right h.live hb) hne hi
    simp only [Heap.libcFree, hok.room_libc hb, hnot, Bool.false_eq_true, if_false]

theorem slabFree (hok : HeapOk paBytes h) (hb : b ∈ h.live) (junk : ℕ → UInt8) :
    TakesBack paBytes h b
      { h.slabbed (h.gsa.zusGsaFree b.ptr) b.ptr ((h.gsa.elemSizeOf b.ptr).getD 0) junk with
        live := h.live.eraseP fun b' => b'.ptr == b.ptr } := by
  obtain ⟨-, hdata, hsize⟩ := zusGsaFree_shape h.gsa b.ptr
  have herase := eraseP_ptr_eq_erase hb (hok.live_unique hb)
  have hblocks : h.live.erase b ++ h.libc = h.blocks.erase b :=
    (List.erase_append_left _ hb).symm
  have hinv := hok.inv.zusGsaFree hb
  rw [herase]
  have hok' : HeapOk paBytes
      { h.slabbed (h.gsa.zusGsaFree b.ptr) b.ptr ((h.gsa.elemSizeOf b.ptr).getD 0) junk with
        live := h.live.erase b } := by
    refine ⟨hinv, ?_, fun b' hb' => ?_, hok.apart⟩
    · exact hsize ▸ hok.pool
    · exact hdata ▸ hok.outside b' hb'
  refine ⟨hok', hblocks, fun b' hb' i hi => ?_⟩
  obtain ⟨hne, hmem⟩ := (hok.blocks_nodup.mem_erase_iff).mp hb'
  have hbefore := hok.freeByte_block hmem hi
  have hb'' : b' ∈ h.live.erase b ++ h.libc := by
    rw [hblocks]
    exact hb'
  have hafter : (h.gsa.zusGsaFree b.ptr).freeByte (b'.ptr + i) = false :=
    hok'.freeByte_block hb'' hi
  have helem := hok.notMem_elem hb hmem hne hi
  simp only [Heap.slabbed, hbefore, hafter, helem, Bool.or_self, Bool.false_eq_true, if_false]

/-- **`zus_free`** takes back the block at the pointer, and no other. -/
theorem zusFree (hok : HeapOk paBytes h) (hb : b ∈ h.blocks) (junk : ℕ → UInt8) :
    TakesBack paBytes h b (h.zusFree b.ptr junk) := by
  rw [Heap.zusFree, if_neg (hok.ptr_ne_zero hb)]
  rcases List.mem_append.mp hb with hb | hb
  · obtain ⟨c, n, hcpu, -⟩ := hok.cpuOf_live hb
    rw [hcpu]
    exact hok.slabFree hb junk
  · rw [hok.cpuOf_libc hb]
    exact hok.libcFree hb junk

/-! ## Calloc -/

/-- A heap that differs in memory only. -/
theorem of_mem (hok : HeapOk paBytes h) (mem : ℕ → UInt8) : HeapOk paBytes { h with mem := mem } :=
  ⟨hok.inv, hok.pool, hok.outside, hok.apart⟩

end HeapOk

/-- What a `zus_calloc` of `n` bytes is to do: a block has room for all of them, all zero, and an
`n` that does not fit in 64 bits gives none. -/
def CallocOk (n : ℕ) (r : Option ℕ × Heap) : Prop :=
  (2 ^ 64 ≤ n → r.1 = none) ∧
    ∀ p, r.1 = some p → n ≤ r.2.room p ∧ ∀ i < n, r.2.mem (p + i) = 0

theorem callocOk_none (n : ℕ) (h : Heap) : CallocOk n (none, h) :=
  ⟨fun _ => rfl, fun _ hp => by cases hp⟩

namespace HeapOk

variable {paBytes : ℕ} {h h' : Heap} {env : Env} {b : Alloc}

theorem memset0_apply {p n i : ℕ} (hi : i < n) : (h.memset0 p n).mem (p + i) = 0 := by
  have hin : inBlock p n (p + i) = true := inBlock_iff.mpr ⟨Nat.le_add_right p i, by omega⟩
  simp only [Heap.memset0, hin, if_true]

theorem Gives.callocOk (hgives : Gives paBytes h size p h') (hsize : size < 2 ^ 64) :
    CallocOk size (some p, h'.memset0 p size) := by
  refine ⟨fun hlarge => absurd hsize (Nat.not_lt.mpr hlarge), fun q hq => ?_⟩
  obtain rfl := Option.some.inj hq
  exact ⟨hgives.room, fun i hi => memset0_apply hi⟩

theorem zusCalloc_ok (hok : HeapOk paBytes h) {nmemb elemsz : UInt64}
    (henv : EnvOk paBytes h (nmemb * elemsz).toNat env) :
    HeapOk paBytes (h.zusCalloc nmemb elemsz env).2 := by
  simp only [Heap.zusCalloc]
  split_ifs with hvalid
  · rw [Heap.libcCalloc]
    split_ifs with hlarge
    · exact hok
    · rw [UInt64.toNat_mul, Nat.mod_eq_of_lt (Nat.not_le.mp hlarge)] at henv
      rcases hp : env.libc with _ | p
      · simp only [Heap.libcMalloc, hp]
        exact hok
      · obtain ⟨h', hh', hgives⟩ := hok.libcMalloc henv.libc hp
        rw [hh']
        exact hgives.ok.of_mem _
  · rcases hok.zusMalloc_cases henv with hh' | ⟨p, h', hh', hgives⟩
    · rw [hh']
      exact hok
    · rw [hh']
      exact hgives.ok.of_mem _

/-- **`zus_calloc` gives what was asked for**, but for a product that wraps around to a size the
slabs take, and is served. -/
theorem zusCalloc_iff (hok : HeapOk paBytes h) {nmemb elemsz : UInt64}
    (henv : EnvOk paBytes h (nmemb * elemsz).toNat env) :
    CallocOk (nmemb.toNat * elemsz.toNat) (h.zusCalloc nmemb elemsz env) ↔
      ¬ (2 ^ 64 ≤ nmemb.toNat * elemsz.toNat ∧
        slabSizeValid (nmemb.toNat * elemsz.toNat % 2 ^ 64) = true ∧
        Serves h.gsa (nmemb.toNat * elemsz.toNat % 2 ^ 64) env) := by
  have hmul : (nmemb * elemsz).toNat = nmemb.toNat * elemsz.toNat % 2 ^ 64 := UInt64.toNat_mul _ _
  rw [hmul] at henv
  simp only [Heap.zusCalloc, hmul]
  generalize hn : nmemb.toNat * elemsz.toNat = n at *
  by_cases hvalid : slabSizeValid (n % 2 ^ 64) = true
  · rw [hvalid]
    simp only [Bool.not_true, Bool.false_eq_true, if_false]
    by_cases hserves : Serves h.gsa (n % 2 ^ 64) env
    · obtain ⟨p, h', hh', hgives⟩ := hok.zusMalloc_of_serves henv hvalid hserves
      rw [hh']
      constructor
      · rintro ⟨hwrap, -⟩ ⟨hlarge, -⟩
        cases hwrap hlarge
      · intro hfits
        have hlt : n < 2 ^ 64 := Nat.not_le.mp fun hlarge => hfits ⟨hlarge, trivial, hserves⟩
        rw [Nat.mod_eq_of_lt hlt] at hgives ⊢
        exact hgives.callocOk hlt
    · rw [hok.zusMalloc_of_not_serves henv hvalid hserves]
      exact iff_of_true (callocOk_none n h) fun hbad => hserves hbad.2.2
  · refine iff_of_true ?_ fun hbad => hvalid hbad.2.1
    rw [Bool.not_eq_true] at hvalid
    rw [hvalid]
    simp only [Bool.not_false, if_true, Heap.libcCalloc, hn]
    split_ifs with hlarge
    · exact callocOk_none n h
    · have hlt := Nat.not_le.mp hlarge
      rw [Nat.mod_eq_of_lt hlt] at henv
      rcases hp : env.libc with _ | p
      · simp only [Heap.libcMalloc, hp]
        exact callocOk_none n h
      · obtain ⟨h', hh', hgives⟩ := hok.libcMalloc henv.libc hp
        rw [hh']
        exact hgives.callocOk hlt

end HeapOk

/-! ## Realloc -/

/-- A live block is of another size from now on. -/
theorem Inv.resize (h : Inv g live) (ha : a ∈ live) (hpos : 0 < size) {n : ℕ}
    (hn : g.elemSizeOf a.ptr = some n) (hle : size ≤ n) :
    Inv g (⟨a.ptr, size⟩ :: live.erase a) := by
  have hperm : live.Perm (a :: live.erase a) := List.perm_cons_erase ha
  have hptrs : (live.map Alloc.ptr).Perm (a.ptr :: (live.erase a).map Alloc.ptr) :=
    hperm.map Alloc.ptr
  refine ⟨h.aligned, h.pos, h.cut, h.listed, h.nodup, fun b hb => ?_, ?_, fun bn c k e hcut he => ?_,
    h.nfree, fun c k => ?_, fun bn ho => ?_⟩
  · rcases List.mem_cons.mp hb with rfl | hb
    · obtain ⟨bn, c, k, hcut, helem, -, -, hnot⟩ := h.held a ha
      rw [h.elemSizeOf hcut helem] at hn
      obtain rfl := Option.some.inj hn
      exact ⟨bn, c, k, hcut, helem, hpos, hle, hnot⟩
    · exact h.held b (List.mem_of_mem_erase hb)
  · exact hptrs.nodup_iff.mp h.liveNodup
  · rcases h.complete bn c k e hcut he with hfree | hlive
    · exact .inl hfree
    · exact .inr (hptrs.mem_iff.mp hlive)
  · rw [h.nused, heldOn, hperm.countP_eq, List.countP_cons, heldOn, List.countP_cons]
  · rw [h.uc bn ho, heldIn, hperm.countP_eq, List.countP_cons, heldIn, List.countP_cons]

/-- What a `zus_realloc` of the block `b` to `size` bytes is to do. -/
def ReallocOk (paBytes : ℕ) (h : Heap) (b : Alloc) (size : ℕ) : Result → Prop
  | .crash => False
  | .ret none h' _ =>
    -- the old block is as valid as before, and so is every other
    HeapOk paBytes h' ∧ h'.blocks = h.blocks ∧ Kept h h' h.blocks
  | .ret (some p) h' copied =>
    -- the new block is there in place of the old one, with its contents
    HeapOk paBytes h' ∧ h'.blocks.Perm (⟨p, size⟩ :: h.blocks.erase b) ∧ size ≤ h'.room p ∧
      (∀ i < min b.size size, h'.mem (p + i) = h.mem (b.ptr + i)) ∧
      Kept h h' (h.blocks.erase b) ∧
      -- the copy reads inside the old block and writes inside the new one
      copied ≤ h.room b.ptr ∧ copied ≤ h'.room p

namespace HeapOk

variable {paBytes : ℕ} {h h' : Heap} {env : Env} {b : Alloc}

theorem reallocOk_none (hok : HeapOk paBytes h) (b : Alloc) (size copied : ℕ) :
    ReallocOk paBytes h b size (.ret none h copied) := ⟨hok, rfl, fun _ _ _ _ => rfl⟩

/-- A block the slabs serve in place. -/
theorem resize_ok (hok : HeapOk paBytes h) (hb : b ∈ h.live) (hpos : 0 < size) {n : ℕ}
    (hn : h.gsa.elemSizeOf b.ptr = some n) (hle : size ≤ n) :
    ReallocOk paBytes h b size (.ret (some b.ptr) (h.resize b.ptr size) 0) := by
  have herase := eraseP_ptr_eq_erase hb (hok.live_unique hb)
  have hok' : HeapOk paBytes { h with live := ⟨b.ptr, size⟩ :: h.live.erase b } :=
    ⟨hok.inv.resize hb hpos hn hle, hok.pool, hok.outside, hok.apart⟩
  have hblocks : h.live.erase b ++ h.libc = h.blocks.erase b := (List.erase_append_left _ hb).symm
  rw [Heap.resize, herase]
  refine ⟨hok', ?_, ?_, fun _ _ => rfl, fun _ _ _ _ => rfl, Nat.zero_le _, Nat.zero_le _⟩
  · rw [← hblocks]
    exact .refl _
  · exact hok'.size_le_room (b := ⟨b.ptr, size⟩) List.mem_cons_self

/-- A block that libc moves. -/
theorem libcRealloc_ok (hok : HeapOk paBytes h) (hb : b ∈ h.libc)
    (henv : ReallocEnvOk paBytes h b.ptr size env) :
    ReallocOk paBytes h b size
      (.ret (h.libcRealloc b.ptr size env).1 (h.libcRealloc b.ptr size env).2 0) := by
  rw [Heap.libcRealloc]
  rcases hp : env.relibc with _ | p
  · exact hok.reallocOk_none b size 0
  obtain ⟨hout, hap⟩ := henv.relibc p hp
  have herase := eraseP_ptr_eq_erase hb (hok.libc_unique hb)
  have hmem : ∀ b' ∈ h.libc.erase b, b' ∈ h.libc ∧ b' ≠ b := by
    intro b' hb'
    have hnodup : h.libc.Nodup := hok.apart.imp fun hap heq => hap.1 (congrArg Alloc.ptr heq)
    exact ((hnodup.mem_erase_iff).mp hb').symm
  have hap' : ∀ b' ∈ h.libc.erase b, Apart ⟨p, size⟩ b' := by
    intro b' hb'
    obtain ⟨hmem', hne⟩ := hmem b' hb'
    apply hap b'
    rw [List.mem_filter, bne_iff_ne]
    exact ⟨hmem', (hok.libc_apart hmem' hb hne).1⟩
  have hblocks : h.blocks.erase b = h.live ++ h.libc.erase b :=
    List.erase_append_right _ (hok.notMem_live hb)
  dsimp only
  rw [herase, hok.room_libc hb]
  have hok' : HeapOk paBytes { h with
      libc := ⟨p, size⟩ :: h.libc.erase b
      mem := fun a =>
        if inBlock p (min b.size size) a then h.mem (b.ptr + (a - p))
        else if inBlock p size a || inBlock b.ptr b.size a then env.junk a
        else h.mem a } := by
    refine ⟨hok.inv, hok.pool, fun b' hb' => ?_, List.pairwise_cons.mpr ⟨hap', ?_⟩⟩
    · rcases List.mem_cons.mp hb' with rfl | hb'
      · exact hout
      · exact hok.outside b' (hmem b' hb').1
    · exact hok.apart.sublist List.erase_sublist
  refine ⟨hok', ?_, ?_, fun i hi => ?_, fun b' hb' i hi => ?_, Nat.zero_le _, Nat.zero_le _⟩
  · rw [hblocks]
    exact List.perm_middle
  · exact (hok'.room_libc List.mem_cons_self).ge
  · have hin : inBlock p (min b.size size) (p + i) = true :=
      inBlock_iff.mpr ⟨Nat.le_add_right p i, by omega⟩
    simp only [hin, if_true, Nat.add_sub_cancel_left]
  · rw [hblocks] at hb'
    have hnew : inBlock p size (b'.ptr + i) = false := by
      rcases List.mem_append.mp hb' with hb' | hb'
      · exact hok.notMem_outside hb' hi hout
      · exact notMem_apart (hap' b' hb') hi
    have hold : inBlock b.ptr b.size (b'.ptr + i) = false := by
      rcases List.mem_append.mp hb' with hb' | hb'
      · exact hok.notMem_outside hb' hi (hok.outside b hb)
      · exact notMem_apart (hok.libc_apart hb (hmem b' hb').1 (hmem b' hb').2.symm) hi
    have hpart : inBlock p (min b.size size) (b'.ptr + i) = false := by
      rw [inBlock_eq_false_iff] at hnew ⊢
      omega
    simp only [hpart, hnew, hold, Bool.or_self, Bool.false_eq_true, if_false]

theorem memcpy_apply {dst src n : ℕ} (hi : i < n) :
    (h.memcpy dst src n).mem (dst + i) = h.mem (src + i) := by
  have hin : inBlock dst n (dst + i) = true := inBlock_iff.mpr ⟨Nat.le_add_right dst i, by omega⟩
  simp only [Heap.memcpy, hin, if_true, Nat.add_sub_cancel_left]

theorem memcpy_kept {dst src n : ℕ} {a : ℕ} (ha : inBlock dst n a = false) :
    (h.memcpy dst src n).mem a = h.mem a := by
  simp only [Heap.memcpy, ha, Bool.false_eq_true, if_false]

/-- The element of a block is as large after an allocation. -/
theorem Gives.elemSizeOf (hgives : Gives paBytes h size p h') (hok : HeapOk paBytes h)
    (hb : b ∈ h.live) : h'.gsa.elemSizeOf b.ptr = h.gsa.elemSizeOf b.ptr := by
  obtain ⟨c, k, hcut, helem, -⟩ := hok.inv.held_page hb
  have helem' : IsElem h'.gsa.dataPtr (h.gsa.virtToPage b.ptr) k b.ptr := by
    rw [hgives.grows.dataPtr]
    exact helem
  rw [hok.inv.elemSizeOf hcut helem,
    hgives.ok.inv.elemSizeOf (hgives.grows.cut _ _ _ hcut) helem']

/-- A slab block that outgrows its element: the copy takes the whole element along. -/
theorem move_ok (hok : HeapOk paBytes h) (hb : b ∈ h.live)
    (henv : EnvOk paBytes h size env) {n : ℕ} (hn : h.gsa.elemSizeOf b.ptr = some n)
    (hlt : n < size) :
    ReallocOk paBytes h b size (h.zusReallocMove b.ptr size env) := by
  have hbmem : b ∈ h.blocks := List.mem_append_left h.libc hb
  have hroom : h.room b.ptr = n := by
    rw [hok.room_live hb, hn, Option.getD_some]
  have hle : b.size ≤ n := hroom ▸ hok.size_le_room hbmem
  rcases hok.zusMalloc_cases henv with hm | ⟨p, h', hm, hgives⟩
  · rw [Heap.zusReallocMove, hm]
    exact hok.reallocOk_none b size 0
  have hn' : h'.gsa.elemSizeOf b.ptr = some n := (hgives.elemSizeOf hok hb).trans hn
  have hnew : (⟨p, size⟩ : Alloc) ∉ h.blocks :=
    (List.nodup_cons.mp (hgives.blocks.nodup_iff.mp hgives.ok.blocks_nodup)).1
  have hne : b ≠ ⟨p, size⟩ := by
    rintro rfl
    exact hnew hbmem
  have hpmem : (⟨p, size⟩ : Alloc) ∈ h'.blocks := hgives.blocks.mem_iff.mpr List.mem_cons_self
  have hmem : ∀ b' ∈ h.blocks, b' ∈ h'.blocks := fun b' hb' =>
    hgives.blocks.mem_iff.mpr (List.mem_cons_of_mem _ hb')
  have hok₁ : HeapOk paBytes (h'.memcpy p b.ptr n) := hgives.ok.of_mem _
  have hfree := hok₁.zusFree (hmem b hbmem) env.junkFree
  have hblocks : (h'.memcpy p b.ptr n).blocks.Perm (⟨p, size⟩ :: h.blocks) := hgives.blocks
  have hperm : ((h'.memcpy p b.ptr n).zusFree b.ptr env.junkFree).blocks.Perm
      (⟨p, size⟩ :: h.blocks.erase b) := by
    have herase := hblocks.erase b
    rwa [List.erase_cons_tail (by simpa using hne.symm), ← hfree.blocks] at herase
  have hpfree : (⟨p, size⟩ : Alloc) ∈ (h'.memcpy p b.ptr n).blocks.erase b := by
    rw [← hfree.blocks]
    exact hperm.mem_iff.mpr List.mem_cons_self
  have hroom' := hfree.ok.size_le_room (hperm.mem_iff.mpr List.mem_cons_self)
  rw [Heap.zusReallocMove, hm]
  simp only [hn']
  refine ⟨hfree.ok, hperm, hroom', fun i hi => ?_, fun b' hb' i hi => ?_, hroom.ge,
    hlt.le.trans hroom'⟩
  · have hib : i < b.size := by omega
    have hip : i < size := by omega
    calc ((h'.memcpy p b.ptr n).zusFree b.ptr env.junkFree).mem (p + i)
        = (h'.memcpy p b.ptr n).mem (p + i) := hfree.kept _ hpfree i hip
      _ = h'.mem (b.ptr + i) := memcpy_apply (by omega)
      _ = h.mem (b.ptr + i) := hgives.kept b hbmem i hib
  · obtain ⟨hne', hb'mem⟩ := (hok.blocks_nodup.mem_erase_iff).mp hb'
    have hb'new : b' ≠ ⟨p, size⟩ := by
      rintro rfl
      exact hnew hb'mem
    have hb'free : b' ∈ (h'.memcpy p b.ptr n).blocks.erase b :=
      (hok₁.blocks_nodup.mem_erase_iff).mpr ⟨hne', hmem b' hb'mem⟩
    have hout : inBlock p n (b'.ptr + i) = false := by
      have hout' : inBlock p size (b'.ptr + i) = false :=
        hgives.ok.notMem_block (hmem b' hb'mem) hpmem hb'new hi
      rw [inBlock_eq_false_iff] at hout' ⊢
      omega
    calc ((h'.memcpy p b.ptr n).zusFree b.ptr env.junkFree).mem (b'.ptr + i)
        = (h'.memcpy p b.ptr n).mem (b'.ptr + i) := hfree.kept b' hb'free i hi
      _ = h'.mem (b'.ptr + i) := memcpy_kept hout
      _ = h.mem (b'.ptr + i) := hgives.kept b' hb'mem i hi

/-- A libc block that is to become small: the element size is asked of a NULL page. -/
theorem move_crash (hok : HeapOk paBytes h) (hb : b ∈ h.libc) (henv : EnvOk paBytes h size env)
    (hsize : slabSizeValid size = true) (hserves : Serves h.gsa size env) :
    h.zusReallocMove b.ptr size env = .crash := by
  obtain ⟨p, h', hm, hgives⟩ := hok.zusMalloc_of_serves henv hsize hserves
  have hnone : h'.gsa.elemSizeOf b.ptr = none := by
    apply elemSizeOf_eq_none
    have hpool := hgives.ok.pool
    rw [hgives.grows.dataPtr]
    rcases (hok.outside b hb).2 with ⟨hlt, -⟩ | hge
    · exact .inl hlt
    · exact .inr (by omega)
  rw [Heap.zusReallocMove, hm]
  simp only [hnone]

theorem slabSizeValid_iff (hpos : 0 < size) : slabSizeValid size = true ↔ size ≤ blockSize := by
  simp [slabSizeValid, hpos]

theorem zusRealloc_crash (hok : HeapOk paBytes h) (hb : b ∈ h.libc) (hpos : 0 < size)
    (henv : EnvOk paBytes h size env) (hle : size ≤ blockSize)
    (hserves : Serves h.gsa size env) : h.zusRealloc b.ptr size env = .crash := by
  have hvalid := (slabSizeValid_iff hpos).mpr hle
  rw [Heap.zusRealloc, if_neg (hok.ptr_ne_zero (List.mem_append_right h.live hb)),
    if_neg (Nat.ne_of_gt hpos), hok.cpuOf_libc hb]
  simp only [hvalid, Bool.not_true, Bool.false_eq_true, if_false]
  exact hok.move_crash hb henv hvalid hserves

/-- **`zus_realloc` does what it should**, but for a libc block that is to become small enough for a
slab, and is served. -/
theorem zusRealloc_iff (hok : HeapOk paBytes h) (hb : b ∈ h.blocks) (hpos : 0 < size)
    (henv : ReallocEnvOk paBytes h b.ptr size env) :
    ReallocOk paBytes h b size (h.zusRealloc b.ptr size env) ↔
      ¬ (b ∈ h.libc ∧ size ≤ blockSize ∧ Serves h.gsa size env) := by
  by_cases hbad : b ∈ h.libc ∧ size ≤ blockSize ∧ Serves h.gsa size env
  · obtain ⟨hlibc, hle, hserves⟩ := hbad
    rw [hok.zusRealloc_crash hlibc hpos henv.toEnvOk hle hserves]
    exact iff_of_false id fun hgood => hgood ⟨hlibc, hle, hserves⟩
  refine iff_of_true ?_ hbad
  rw [Heap.zusRealloc, if_neg (hok.ptr_ne_zero hb), if_neg (Nat.ne_of_gt hpos)]
  rcases List.mem_append.mp hb with hlive | hlibc
  · obtain ⟨c, n, hcpu, hn, -⟩ := hok.cpuOf_live hlive
    simp only [hcpu, hn]
    split_ifs with hle
    · exact hok.resize_ok hlive hpos hn hle
    · exact hok.move_ok hlive henv.toEnvOk hn (Nat.not_le.mp hle)
  · simp only [hok.cpuOf_libc hlibc]
    split_ifs with hsize
    · exact hok.libcRealloc_ok hlibc henv
    · have hvalid : slabSizeValid size = true := by simpa using hsize
      have hserves : ¬ Serves h.gsa size env := fun hserves =>
        hbad ⟨hlibc, (slabSizeValid_iff hpos).mp hvalid, hserves⟩
      rw [Heap.zusReallocMove, hok.zusMalloc_of_not_serves henv.toEnvOk hvalid hserves]
      exact hok.reallocOk_none b size 0

end HeapOk

/-! ## Runs -/

section Runs

variable {nslabs paBytes : ℕ} {h h' : Heap}

/-- A fresh heap. -/
theorem heapOk_start {dataPtr : ℕ} (ha : dataPtr % blockSize = 0) (hp : 0 < dataPtr)
    (hg : h.gsa = initGsa nslabs dataPtr) (hlive : h.live = []) (hlibc : h.libc = []) :
    HeapOk paBytes h := by
  refine ⟨?_, ?_, fun b hb => ?_, ?_⟩
  · rw [hg, hlive]
    exact inv_init nslabs dataPtr ha hp
  · rw [hg]
    simp [initGsa]
  · rw [hlibc] at hb
    cases hb
  · rw [hlibc]
    exact .nil

/-- **Every call keeps the invariant**, whatever it returns. -/
theorem HeapOk.step {u : User} (hok : HeapOk paBytes h) (hs : UserStep paBytes h u h') :
    HeapOk paBytes h' := by
  cases hs with
  | @malloc size env henv =>
    rcases hok.zusMalloc_cases henv with hm | ⟨p, h₁, hm, hgives⟩
    · rw [hm]
      exact hok
    · rw [hm]
      exact hgives.ok
  | calloc henv => exact hok.zusCalloc_ok henv
  | free hb => exact (hok.zusFree hb _).ok
  | @realloc _ b size copied env r hb henv hr =>
    rcases Nat.eq_zero_or_pos size with rfl | hpos
    · rw [Heap.zusRealloc, if_neg (hok.ptr_ne_zero hb), if_pos rfl] at hr
      cases hr
      exact (hok.zusFree hb _).ok
    · have hgood := (hok.zusRealloc_iff hb hpos henv).mpr fun ⟨hlibc, hle, hserves⟩ => by
        rw [hok.zusRealloc_crash hlibc hpos henv.toEnvOk hle hserves] at hr
        cases hr
      rw [hr] at hgood
      cases r with
      | none => exact hgood.1
      | some p => exact hgood.1
  | store => exact hok.of_mem _

theorem heapOk_of_reachable (hr : (wrappers nslabs paBytes).Reachable h) : HeapOk paBytes h := by
  refine Lts.Reachable.invariant (I := HeapOk paBytes) ?_ (fun h u h' hok hs => hok.step hs) hr
  rintro h ⟨dataPtr, ha, hp, hg, hlive, hlibc⟩
  exact heapOk_start ha hp hg hlive hlibc

end Runs

/-! ### Small heaps -/

/-- One slab over a pool mapped at `4096`, and no block. -/
def startHeap : Heap := ⟨initGsa 1 4096, [], [], fun _ => 0⟩

theorem reachable_startHeap : (wrappers 1 (1 <<< 27)).Reachable startHeap :=
  .init ⟨4096, by decide, by decide, rfl, rfl, rfl⟩

/-- The first page and the libc block are what the environment has to give. -/
def envWith (paAlloc : Option (ℕ × ℕ)) (libc : Option ℕ) : Env :=
  ⟨0, fun _ => true, paAlloc, libc, none, fun _ => 0, fun _ => 0⟩

/-- A first request, with a page and a libc block far away to be had. -/
def richEnv : Env := envWith (some (0, 32768)) (some (1 <<< 40))

theorem envOk_startHeap (size : ℕ) : EnvOk (1 <<< 27) startHeap size richEnv := by
  refine ⟨by decide, ⟨rfl, by decide, Nat.zero_le _⟩, ?_, ?_⟩
  · intro bn n heq
    cases heq
    decide
  · intro p heq
    cases heq
    have hfar : 4096 + 1 <<< 27 ≤ 1 <<< 40 := by decide
    exact ⟨⟨(by decide : 1 <<< 40 ≠ 0), .inr hfar⟩, fun b hb => by cases hb⟩

/-- A later request, with nothing to be had from libc. -/
theorem reallocEnvOk_envWith {h : Heap} {paAlloc : Option (ℕ × ℕ)} (hcpu : 0 < h.gsa.nslabs)
    (hpa : PaAllocOk h.gsa paAlloc) (hpool : ∀ bn n, paAlloc = some (bn, n) → n ≤ 32768)
    (ptr size : ℕ) : ReallocEnvOk (1 <<< 27) h ptr size (envWith paAlloc none) := by
  refine ⟨⟨hcpu, hpa, fun bn n heq => ?_, ?_⟩, ?_⟩
  · exact (Nat.mul_le_mul_right blockSize (hpool bn n heq)).trans
      (by decide : 32768 * blockSize ≤ 1 <<< 27)
  · intro p heq
    cases heq
  · intro p heq
    cases heq

theorem reallocEnvOk_none {h : Heap} (hcpu : 0 < h.gsa.nslabs) (ptr size : ℕ) :
    ReallocEnvOk (1 <<< 27) h ptr size (envWith none none) := by
  have hpa : PaAllocOk h.gsa none := trivial
  exact reallocEnvOk_envWith hcpu hpa (fun _ _ heq => by cases heq) ptr size

/-! ## Realloc and calloc in every run -/

/-- **`zus_realloc` keeps the contents**: in every state of every run, whichever allocator served the
block, unless it came from libc and is to become small enough for a slab that can be had. -/
theorem zusRealloc_correct_iff {nslabs paBytes : ℕ} {h : Heap}
    (hr : (wrappers nslabs paBytes).Reachable h) {b : Alloc} (hb : b ∈ h.blocks) {size : ℕ}
    (hpos : 0 < size) {env : Env} (henv : ReallocEnvOk paBytes h b.ptr size env) :
    ReallocOk paBytes h b size (h.zusRealloc b.ptr size env) ↔
      ¬ (b ∈ h.libc ∧ size ≤ blockSize ∧ Serves h.gsa size env) :=
  (heapOk_of_reachable hr).zusRealloc_iff hb hpos henv

/-- A block of 100 bytes grows inside its element. -/
theorem zusRealloc_correct_iff_inPlace :
    ReallocOk (1 <<< 27) (startHeap.zusMalloc 100 richEnv).2 ⟨4096, 100⟩ 128
        ((startHeap.zusMalloc 100 richEnv).2.zusRealloc 4096 128 (envWith none none)) ↔
      ¬ (⟨4096, 100⟩ ∈ (startHeap.zusMalloc 100 richEnv).2.libc ∧ 128 ≤ blockSize ∧
        Serves (startHeap.zusMalloc 100 richEnv).2.gsa 128 (envWith none none)) :=
  zusRealloc_correct_iff (b := ⟨4096, 100⟩)
    (reachable_startHeap.step (.malloc (envOk_startHeap 100))) (by decide) (by decide)
    (reallocEnvOk_none (by decide) 4096 128)

/-- A block of two pages shrinks to 100 bytes. -/
theorem zusRealloc_crashes_on_shrink :
    ¬ ∀ (nslabs paBytes : ℕ) (h : Heap) (b : Alloc) (size : ℕ) (env : Env),
      (wrappers nslabs paBytes).Reachable h → b ∈ h.blocks → 0 < size →
      ReallocEnvOk paBytes h b.ptr size env →
      ReallocOk paBytes h b size (h.zusRealloc b.ptr size env) := by
  intro hall
  have hr : (wrappers 1 (1 <<< 27)).Reachable (startHeap.zusMalloc 8192 richEnv).2 :=
    reachable_startHeap.step (.malloc (envOk_startHeap 8192))
  have hb : ⟨1 <<< 40, 8192⟩ ∈ (startHeap.zusMalloc 8192 richEnv).2.libc := by decide
  have henv : ReallocEnvOk (1 <<< 27) (startHeap.zusMalloc 8192 richEnv).2 (1 <<< 40) 100
      (envWith (some (0, 32768)) none) := by
    have hpa : PaAllocOk (startHeap.zusMalloc 8192 richEnv).2.gsa (some (0, 32768)) :=
      ⟨rfl, by decide, Nat.zero_le _⟩
    refine reallocEnvOk_envWith (by decide) hpa (fun bn n heq => ?_) _ _
    cases heq
    exact le_rfl
  have hgood := hall 1 (1 <<< 27) _ ⟨1 <<< 40, 8192⟩ 100 _ hr (List.mem_append_right _ hb)
    (by decide) henv
  have hcrash := (heapOk_of_reachable hr).zusRealloc_crash hb (by decide) henv.toEnvOk (by decide)
    (.inl fun hex => by cases hex.1)
  rw [hcrash] at hgood
  exact hgood

/-- **`zus_calloc` never returns a short block**, unless the product wraps around to a size the slabs
take. -/
theorem zusCalloc_correct_iff {nslabs paBytes : ℕ} {h : Heap}
    (hr : (wrappers nslabs paBytes).Reachable h) (nmemb elemsz : UInt64) {env : Env}
    (henv : EnvOk paBytes h (nmemb * elemsz).toNat env) :
    CallocOk (nmemb.toNat * elemsz.toNat) (h.zusCalloc nmemb elemsz env) ↔
      ¬ (2 ^ 64 ≤ nmemb.toNat * elemsz.toNat ∧
        slabSizeValid (nmemb.toNat * elemsz.toNat % 2 ^ 64) = true ∧
        Serves h.gsa (nmemb.toNat * elemsz.toNat % 2 ^ 64) env) :=
  (heapOk_of_reachable hr).zusCalloc_iff henv

theorem zusCalloc_correct_iff_start :
    CallocOk ((3 : UInt64).toNat * (5 : UInt64).toNat) (startHeap.zusCalloc 3 5 richEnv) ↔
      ¬ (2 ^ 64 ≤ (3 : UInt64).toNat * (5 : UInt64).toNat ∧
        slabSizeValid ((3 : UInt64).toNat * (5 : UInt64).toNat % 2 ^ 64) = true ∧
        Serves startHeap.gsa ((3 : UInt64).toNat * (5 : UInt64).toNat % 2 ^ 64) richEnv) :=
  zusCalloc_correct_iff reachable_startHeap 3 5 (envOk_startHeap _)

/-- `2 ^ 63 + 1` elements of two bytes are two bytes modulo `2 ^ 64`. -/
theorem zusCalloc_returns_short :
    ¬ ∀ (nslabs paBytes : ℕ) (h : Heap) (nmemb elemsz : UInt64) (env : Env),
      (wrappers nslabs paBytes).Reachable h →
      EnvOk paBytes h (nmemb * elemsz).toNat env →
      CallocOk (nmemb.toNat * elemsz.toNat) (h.zusCalloc nmemb elemsz env) := by
  intro hall
  have hshort := hall 1 (1 <<< 27) startHeap 0x8000000000000001 2 richEnv reachable_startHeap
    (envOk_startHeap _)
  have hcalloc := (heapOk_of_reachable reachable_startHeap).zusCalloc_iff
    (envOk_startHeap ((0x8000000000000001 : UInt64) * 2).toNat)
  refine hcalloc.mp hshort ⟨by decide, by decide, .inl fun hex => ?_⟩
  cases hex.1

end Zus.Slab
