import Zus.SlabSafety

/-!
# The malloc wrappers

`zus_malloc` and its siblings sit on two allocators. Sizes of up to a page come from the slabs, and
from `posix_memalign` when these are exhausted; larger ones come from libc. Where a block came from
is not recorded: `_zus_gsa_cpu_of` tells by the address, which lies in the mapping of the page
allocator just when a slab served it.

Memory is a function from addresses to bytes. The slabs keep their lists in the free elements and
give pages back with a hole punched in them, so a call may leave anything in the bytes of free
elements; libc answers with the address of a block, and what a fresh block holds is not specified.
The answers of libc and of the page allocator, and the unspecified bytes, are inputs of a call. All
of it is over an allocator that `zus_slab_init` has set up; before that every wrapper returns NULL.
-/

namespace Zus.Slab

open Zus.Lib

/-- The slab allocator, the blocks in users' hands by the allocator that served them, and what is
in memory. -/
structure Heap where
  gsa : Gsa
  /-- blocks in slab elements -/
  live : List Alloc
  /-- blocks from libc -/
  libc : List Alloc
  mem : ℕ → UInt8

/-- What a call finds around it. -/
structure Env where
  /-- `zus_current_cpu_silent` -/
  cpu : ℕ
  /-- the outcome of the `i`-th try-lock -/
  tryLock : ℕ → Bool
  /-- what `pa_alloc` would return, with the pool's size after it -/
  paAlloc : Option (ℕ × ℕ)
  /-- what `malloc`, `posix_memalign` or `calloc` would return -/
  libc : Option ℕ
  /-- what `realloc` would return -/
  relibc : Option ℕ
  /-- the bytes that nothing specifies: those an allocation leaves, and those a free leaves -/
  junk : ℕ → UInt8
  junkFree : ℕ → UInt8

/-- The byte lies in the block of `n` bytes at `p`. -/
def inBlock (p n a : ℕ) : Bool := p ≤ a && a < p + n

namespace Gsa

/-- `__elem_size`. The page of an address out of range is NULL, and reading its descriptor ends the
process: `none`. A page of no slab gives `-EINVAL`, as a size. -/
def elemSizeOf (g : Gsa) (addr : ℕ) : Option ℕ :=
  if g.paAddrInrange addr then
    let useCount := (g.page (g.virtToPage addr)).useCount
    if useCount = 0 ∨ slabLists < useCount then some (2 ^ 64 - 22)
    else some (1 <<< (useCount - 1 + minSlabShift))
  else none

/-- The byte lies in an element on some free list. -/
def freeByte (g : Gsa) (a : ℕ) : Bool :=
  (List.range g.nslabs).any fun c => (List.range slabLists).any fun k =>
    (g.slab c k).head.any fun e => inBlock e (elemSize k) a

end Gsa

namespace Heap

/-- All blocks in users' hands. -/
def blocks (h : Heap) : List Alloc := h.live ++ h.libc

/-- The bytes there are at a block's address. -/
def room (h : Heap) (p : ℕ) : ℕ :=
  match h.libc.find? fun b => b.ptr == p with
  | some b => b.size
  | none => (h.gsa.elemSizeOf p).getD 0

/-- The slabs went from `h.gsa` to `g'`, and the element of `n` bytes at `p` to the user or from
the user. -/
def slabbed (h : Heap) (g' : Gsa) (p n : ℕ) (junk : ℕ → UInt8) : Heap :=
  { h with
    gsa := g'
    mem := fun a =>
      if h.gsa.freeByte a || g'.freeByte a || inBlock p n a then junk a else h.mem a }

/-- `memset` to zero. -/
def memset0 (h : Heap) (p n : ℕ) : Heap :=
  { h with mem := fun a => if inBlock p n a then 0 else h.mem a }

/-- `memcpy`. -/
def memcpy (h : Heap) (dst src n : ℕ) : Heap :=
  { h with mem := fun a => if inBlock dst n a then h.mem (src + (a - dst)) else h.mem a }

/-! ## libc -/

/-- `malloc` and `posix_memalign`: a block that holds anything. -/
def libcMalloc (h : Heap) (size : ℕ) (env : Env) : Option ℕ × Heap :=
  match env.libc with
  | none => (none, h)
  | some p => (some p, { h with
      libc := ⟨p, size⟩ :: h.libc
      mem := fun a => if inBlock p size a then env.junk a else h.mem a })

/-- `calloc`: NULL when the product is too large, else a block of zeros. -/
def libcCalloc (h : Heap) (nmemb elemsz : UInt64) (env : Env) : Option ℕ × Heap :=
  if 2 ^ 64 ≤ nmemb.toNat * elemsz.toNat then (none, h)
  else
    match h.libcMalloc (nmemb.toNat * elemsz.toNat) env with
    | (none, h') => (none, h')
    | (some p, h') => (some p, h'.memset0 p (nmemb.toNat * elemsz.toNat))

/-- `free`. -/
def libcFree (h : Heap) (ptr : ℕ) (junk : ℕ → UInt8) : Heap :=
  { h with
    libc := h.libc.eraseP fun b => b.ptr == ptr
    mem := fun a => if inBlock ptr (h.room ptr) a then junk a else h.mem a }

/-- `realloc`: on success the block moves with its contents, what is added holds anything. -/
def libcRealloc (h : Heap) (ptr size : ℕ) (env : Env) : Option ℕ × Heap :=
  match env.relibc with
  | none => (none, h)
  | some p => (some p, { h with
      libc := ⟨p, size⟩ :: h.libc.eraseP fun b => b.ptr == ptr
      mem := fun a =>
        if inBlock p (min (h.room ptr) size) a then h.mem (ptr + (a - p))
        else if inBlock p size a || inBlock ptr (h.room ptr) a then env.junk a
        else h.mem a })

/-! ## The wrappers -/

/-- `zus_malloc`. -/
def zusMalloc (h : Heap) (size : ℕ) (env : Env) : Option ℕ × Heap :=
  if size = 0 then (none, h)
  else if !slabSizeValid size then h.libcMalloc size env
  else
    match h.gsa.zusGsaMalloc env.cpu size env.tryLock env.paAlloc with
    | (some p, g') =>
      (some p, { h.slabbed g' p ((g'.elemSizeOf p).getD 0) env.junk with
        live := ⟨p, size⟩ :: h.live })
    | (none, g') => { h with gsa := g' }.libcMalloc size env

/-- `zus_free`. -/
def zusFree (h : Heap) (ptr : ℕ) (junk : ℕ → UInt8) : Heap :=
  if ptr = 0 then h
  else
    match h.gsa.zusGsaCpuOf ptr with
    | none => h.libcFree ptr junk
    | some _ =>
      { h.slabbed (h.gsa.zusGsaFree ptr) ptr ((h.gsa.elemSizeOf ptr).getD 0) junk with
        live := h.live.eraseP fun b => b.ptr == ptr }

/-- `zus_calloc`: the product is taken in 64 bits. -/
def zusCalloc (h : Heap) (nmemb elemsz : UInt64) (env : Env) : Option ℕ × Heap :=
  let size := (nmemb * elemsz).toNat
  if !slabSizeValid size then h.libcCalloc nmemb elemsz env
  else
    match h.zusMalloc size env with
    | (none, h') => (none, h')
    | (some p, h') => (some p, h'.memset0 p size)

end Heap

/-- What comes of a `zus_realloc`. -/
inductive Result where
  /-- the process reads through a NULL page -/
  | crash
  /-- the pointer returned, and the number of bytes the call has copied itself -/
  | ret (ptr : Option ℕ) (h : Heap) (copied : ℕ)

namespace Heap

/-- The end of `zus_realloc`: a new block, a copy, and the old block is freed. -/
def zusReallocMove (h : Heap) (ptr size : ℕ) (env : Env) : Result :=
  match h.zusMalloc size env with
  | (none, h') => .ret none h' 0
  | (some newptr, h') =>
    match h'.gsa.elemSizeOf ptr with
    | none => .crash
    | some n => .ret (some newptr) ((h'.memcpy newptr ptr n).zusFree ptr env.junkFree) n

/-- The block at `ptr` stays where it is and is of `size` bytes from now on. -/
def resize (h : Heap) (ptr size : ℕ) : Heap :=
  { h with live := ⟨ptr, size⟩ :: h.live.eraseP fun b => b.ptr == ptr }

/-- `zus_realloc`. -/
def zusRealloc (h : Heap) (ptr size : ℕ) (env : Env) : Result :=
  if ptr = 0 then
    let r := h.zusMalloc size env
    .ret r.1 r.2 0
  else if size = 0 then .ret none (h.zusFree ptr env.junkFree) 0
  else
    match h.gsa.zusGsaCpuOf ptr with
    | none =>
      if !slabSizeValid size then
        let r := h.libcRealloc ptr size env
        .ret r.1 r.2 0
      else h.zusReallocMove ptr size env
    | some _ =>
      match h.gsa.elemSizeOf ptr with
      | none => .crash
      | some n =>
        if size ≤ n then .ret (some ptr) (h.resize ptr size) 0
        else h.zusReallocMove ptr size env

end Heap

/-! ## Runs

`paBytes` is `PA_SIZE`, the length of the mapping of the page allocator. What libc hands out lies
outside of it, apart from every block it has handed out before. -/

section Runs

variable (nslabs paBytes : ℕ)

/-- Two blocks share no byte, and no address. -/
def Apart (a b : Alloc) : Prop :=
  a.ptr ≠ b.ptr ∧ (a.ptr + a.size ≤ b.ptr ∨ b.ptr + b.size ≤ a.ptr)

/-- The block lies outside the mapping at `dataPtr`, and not at NULL. -/
def Outside (dataPtr : ℕ) (b : Alloc) : Prop :=
  b.ptr ≠ 0 ∧ ((b.ptr < dataPtr ∧ b.ptr + b.size ≤ dataPtr) ∨ dataPtr + paBytes ≤ b.ptr)

/-- What libc promises of an answer to a request for `size` bytes, next to the blocks `others`. -/
def LibcOk (h : Heap) (others : List Alloc) (size : ℕ) (answer : Option ℕ) : Prop :=
  ∀ p, answer = some p →
    Outside paBytes h.gsa.dataPtr ⟨p, size⟩ ∧ ∀ b ∈ others, Apart ⟨p, size⟩ b

/-- What a call for `size` bytes may rely on. -/
structure EnvOk (h : Heap) (size : ℕ) (env : Env) : Prop where
  cpu : env.cpu < h.gsa.nslabs
  paAlloc : PaAllocOk h.gsa env.paAlloc
  pool : ∀ bn n, env.paAlloc = some (bn, n) → n * blockSize ≤ paBytes
  libc : LibcOk paBytes h h.libc size env.libc

/-- What a `zus_realloc` of the block at `ptr` may rely on: libc may answer with a block that
shares bytes with the one it takes back. -/
structure ReallocEnvOk (h : Heap) (ptr size : ℕ) (env : Env) : Prop
    extends EnvOk paBytes h size env where
  relibc : LibcOk paBytes h (h.libc.filter fun b => b.ptr != ptr) size env.relibc

/-- What a user does. -/
inductive User where
  | malloc (size : ℕ) (env : Env)
  | calloc (nmemb elemsz : UInt64) (env : Env)
  | free (b : Alloc) (junk : ℕ → UInt8)
  | realloc (b : Alloc) (size : ℕ) (env : Env)
  /-- the user writes a byte of a block -/
  | store (b : Alloc) (i : ℕ) (v : UInt8)

/-- One call, or one store. A call that crashes is the end of the run. -/
inductive UserStep : Heap → User → Heap → Prop
  | malloc {h : Heap} {size : ℕ} {env : Env} : EnvOk paBytes h size env →
      UserStep h (.malloc size env) (h.zusMalloc size env).2
  | calloc {h : Heap} {nmemb elemsz : UInt64} {env : Env} :
      EnvOk paBytes h (nmemb * elemsz).toNat env →
      UserStep h (.calloc nmemb elemsz env) (h.zusCalloc nmemb elemsz env).2
  | free {h : Heap} {b : Alloc} {junk : ℕ → UInt8} : b ∈ h.blocks →
      UserStep h (.free b junk) (h.zusFree b.ptr junk)
  | realloc {h h' : Heap} {b : Alloc} {size copied : ℕ} {env : Env} {r : Option ℕ} :
      b ∈ h.blocks → ReallocEnvOk paBytes h b.ptr size env →
      h.zusRealloc b.ptr size env = .ret r h' copied → UserStep h (.realloc b size env) h'
  | store {h : Heap} {b : Alloc} {i : ℕ} {v : UInt8} : b ∈ h.blocks → i < b.size →
      UserStep h (.store b i v) { h with mem := Function.update h.mem (b.ptr + i) v }

/-- The wrappers under any sequence of calls, from freshly set up slabs. -/
def wrappers : Lts Heap User where
  init h := ∃ dataPtr, dataPtr % blockSize = 0 ∧ 0 < dataPtr ∧
    h.gsa = initGsa nslabs dataPtr ∧ h.live = [] ∧ h.libc = []
  step := UserStep paBytes

end Runs

end Zus.Slab
