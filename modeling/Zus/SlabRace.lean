import Zus.Lib.Threads
import Zus.PaRace
import Zus.SlabSafety

/-!
# The slabs under threads

Threads allocate and free at the same time. A slab is changed by the thread that has its lock
only; what is read without a lock are the two counters that tell whether the own list is cold, at
the start of an allocation, and the slab of an element's page, at the start of a free. A slab
without elements of a size takes a page from the page allocator, and one with enough of them gives
a page back, with its lock held; the page allocator has a lock of its own, and other threads may
use it between the decrement and the insertion of `pa_put_page`.

A turn of a thread is what it does up to the next point at which another thread can get in its way:
a try-lock, a lock, a read without a lock, an access to the page allocator. No memory is locked
into RAM, and the slabs are the only users of their page allocator.
-/

namespace Zus.SlabRace

open Zus.Lib Zus.Slab Zus.Pa

/-- Where a thread is in `_zus_gsa_malloc` or in `_zus_gsa_free`. -/
inductive Pc
  | idle
  /-- in `_slab_iscold`, after a read of no free elements -/
  | testing (cpu size : ℕ)
  /-- in the round over the slabs, before the `i`-th try-lock -/
  | trying (cpu size i : ℕ)
  /-- in the round, with the lock of the `i`-th slab -/
  | looking (cpu size i : ℕ)
  /-- after the round, before the lock of slab `c` -/
  | waiting (c size : ℕ)
  /-- in `_slab_alloc`, with the lock -/
  | allocating (c size : ℕ)
  /-- in `_slab_increase`, with a page -/
  | cutting (c size bn : ℕ)
  /-- before the read of `_zus_gsa_cpu_of` -/
  | finding (a : Alloc)
  /-- before the lock of the slab of the element's page -/
  | freeing (a : Alloc) (c : ℕ)
  /-- in `_slab_free`, with the lock -/
  | giving (a : Alloc) (c : ℕ)
  /-- in `__slab_free`, before the decrement of `pa_put_page` -/
  | putting (c bn : ℕ)
  /-- in `__pa_free`, before the insertion -/
  | linking (c bn : ℕ)
  deriving DecidableEq

/-- The slabs over a pool of another size. -/
def sized (g : Gsa) (paSize : ℕ) : Gsa := { g with paSize := paSize }

/-- The slabs, their page allocator and the threads that use them. -/
structure Race where
  /-- the page allocator, with the pages that are being put -/
  mem : PaRace.Threads
  gsa : Gsa
  /-- the thread that has the lock of a slab -/
  lock : ℕ → Option ℕ
  pc : ℕ → Pc
  /-- the allocations in users' hands -/
  live : List Alloc

namespace Race

variable (s : Race) (t : ℕ)

/-- `_zus_gsa_sslab_at`, by its number. -/
def sslabAt (cpu index : ℕ) : ℕ := (cpu + index) % s.gsa.nslabs

def goto (p : Pc) : Race := { s with pc := Function.update s.pc t p }

/-- Go on with the lock of a slab. -/
def enter (c : ℕ) (p : Pc) : Race :=
  { s with lock := Function.update s.lock c (some t), pc := Function.update s.pc t p }

/-- `_slab_unlock`, and on. -/
def leave (c : ℕ) (p : Pc) : Race :=
  { s with lock := Function.update s.lock c none, pc := Function.update s.pc t p }

/-- A step of the page allocator; its size is the size that the slabs see. -/
def setMem (mem : PaRace.Threads) : Race :=
  { s with mem := mem, gsa := sized s.gsa mem.pa.size }

/-- The end of `_slab_alloc`, the unlock and the return. -/
def pop (c size : ℕ) : Race :=
  let r := s.gsa.slabAllocElem c (slabListIndex size)
  { s with gsa := r.2, live := noteAlloc s.live size r.1 }.leave t c .idle

/-- `_slab_page_init` on a page from the page allocator. -/
def cut (c size bn : ℕ) : Race :=
  let g := { s.gsa with owned := Function.update s.gsa.owned bn true }
  { s with gsa := g.slabPageInit c bn (slabListIndex size) }

/-- One turn of a thread in a call. A thread waits at a lock that another one has. -/
def turn (paSize : ℕ) : Option Race :=
  match s.pc t with
  | .idle => none
  | .testing cpu size =>
    if (s.gsa.slab cpu (slabListIndex size)).nused = 0 then some (s.goto t (.waiting cpu size))
    else some (s.goto t (.trying cpu size 0))
  | .trying cpu size i =>
    if i < s.gsa.nslabs then
      if (s.lock (s.sslabAt cpu i)).isSome then some (s.goto t (.trying cpu size (i + 1)))
      else some (s.enter t (s.sslabAt cpu i) (.looking cpu size i))
    else some (s.goto t (.waiting (s.sslabAt cpu s.gsa.nslabs) size))
  | .looking cpu size i =>
    if s.gsa.slabListEmpty (s.sslabAt cpu i) size then
      some (s.leave t (s.sslabAt cpu i) (.trying cpu size (i + 1)))
    else some (s.pop t (s.sslabAt cpu i) size)
  | .waiting c size =>
    if (s.lock c).isSome then none else some (s.enter t c (.allocating c size))
  | .allocating c size =>
    if s.gsa.slabListEmpty c size then
      (PaRace.next paSize s.mem (.alloc t 0)).map fun mem =>
        match (paAllocOrder paSize 0 false s.mem.pa).1 with
        | none => (s.setMem mem).leave t c .idle
        | some bn => (s.setMem mem).goto t (.cutting c size bn)
    else some (s.pop t c size)
  | .cutting c size bn => some ((s.cut c size bn).pop t c size)
  | .finding a =>
    match s.gsa.zusGsaCpuOf a.ptr with
    | none => some (s.goto t .idle)
    | some c => some (s.goto t (.freeing a c))
  | .freeing a c => if (s.lock c).isSome then none else some (s.enter t c (.giving a c))
  | .giving a c =>
    let g := s.gsa.slabFree c a.ptr
    let bn := s.gsa.virtToPage a.ptr
    -- the page has been given up: `__slab_free` puts it
    if s.gsa.owned bn && !g.owned bn then some ({ s with gsa := g }.goto t (.putting c bn))
    else some ({ s with gsa := g }.leave t c .idle)
  | .putting c bn =>
    (PaRace.next paSize s.mem (.dec t bn)).map fun mem =>
      if (paPutPageDec s.mem.pa bn).1 then (s.setMem mem).goto t (.linking c bn)
      else (s.setMem mem).leave t c .idle
  | .linking c _ =>
    (PaRace.next paSize s.mem (.link t)).map fun mem => (s.setMem mem).leave t c .idle

/-! ## The warnings -/

/-- `_slab_list_index` is out of range, or `_slab_list_empty` finds a counter of zero and
elements. -/
def listWarns (c size : ℕ) : Bool :=
  decide (slabLists ≤ slabListIndex size) ||
    (s.gsa.slabListEmpty c size && !(s.gsa.slab c (slabListIndex size)).head.isEmpty)

/-- The end of `_slab_alloc` gets an element outside the pool, or one of a page whose reference
count is not one. -/
def popWarns (c size : ℕ) : Bool :=
  match (s.gsa.slabAllocElem c (slabListIndex size)).1 with
  | none => false
  | some se =>
    !s.gsa.paAddrInrange se || s.mem.pa.refcount (s.gsa.virtToPage se) != 1

/-- A `ZUS_WARN_ON` fires in the next turn of a thread. -/
def warns : Bool :=
  match s.pc t with
  | .looking cpu size i =>
    s.listWarns (s.sslabAt cpu i) size ||
      (!s.gsa.slabListEmpty (s.sslabAt cpu i) size && s.popWarns (s.sslabAt cpu i) size)
  | .allocating c size =>
    s.listWarns c size || (!s.gsa.slabListEmpty c size && s.popWarns c size)
  | .cutting c size bn => (s.cut c size bn).popWarns c size
  -- the address is of no slab
  | .finding a => (s.gsa.zusGsaCpuOf a.ptr).isNone
  | .giving a _ => !s.gsa.paAddrInrange a.ptr
  -- somebody else has a reference to the page
  | .putting _ bn => !(paPutPageDec s.mem.pa bn).1
  | _ => false

end Race

/-! ## The system -/

/-- A thread calls `_zus_gsa_malloc` on a cpu, or `_zus_gsa_free`, or goes on with its call. -/
inductive Act
  | malloc (t cpu size : ℕ)
  | free (t : ℕ) (a : Alloc)
  | turn (t : ℕ)

/-- The calls of `nthreads` threads. An allocation that is freed is in nobody's hands. -/
def next (paSize nthreads : ℕ) (s : Race) : Act → Option Race
  | .malloc t cpu size =>
    match s.pc t with
    | .idle =>
      if t < nthreads ∧ cpu < s.gsa.nslabs ∧ slabSizeValid size = true then
        if (s.gsa.slab cpu (slabListIndex size)).nfree = 0 then some (s.goto t (.testing cpu size))
        else some (s.goto t (.trying cpu size 0))
      else none
    | _ => none
  | .free t a =>
    match s.pc t with
    | .idle =>
      if t < nthreads ∧ a ∈ s.live then
        some ({ s with live := s.live.erase a }.goto t (.finding a))
      else none
    | _ => none
  | .turn t => s.turn t paSize

/-- `zus_slab_init`, and no thread in a call. -/
def start (nslabs dataPtr : ℕ) : Race :=
  ⟨PaRace.start, initGsa nslabs dataPtr, fun _ => none, fun _ => .idle, []⟩

/-- Any number of threads over any number of slabs. -/
def slabThreads (paSize nslabs nthreads : ℕ) : Lts Race Act :=
  .ofNext (fun s => ∃ dataPtr, dataPtr % blockSize = 0 ∧ 0 < dataPtr ∧ s = start nslabs dataPtr)
    (next paSize nthreads)

end Zus.SlabRace
