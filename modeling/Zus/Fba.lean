import Zus.Lib.Loff
import Zus.Lib.Mask
import Zus.MdMap

/-!
# Aligned buffers

`fba_alloc_align` maps a temporary file and trims the mapping, so that the buffer starts at a
multiple of two megabytes. `fba_punch_hole` gives pages of the file back. The system calls do what
their manual pages say; `ALIGN` and `ZUFS_ALLOC_MASK` are in headers of the kernel module.

The state is the part of the address space that the file was mapped to, with what is behind each
address, and the calls of `munmap`. An `mlock` that fails is only warned of.
-/

namespace Zus

open Zus.Lib

/-- `struct fba`. -/
structure Fba where
  fd : ℤ
  ptr : UInt64
  size : UInt64

namespace Fba

/-- `ZUFS_ALLOC_MASK`. -/
def allocMask : UInt64 := 0x1fffff

/-- `FBA_ALIGNSIZE`. -/
def fbaAlignsize : UInt64 := allocMask + 1

/-- `ALIGN`, to a power of two. -/
def align (x a : UInt64) : UInt64 := (x + (a - 1)) &&& ~~~(a - 1)

/-! ## The system -/

/-- What is behind an address. -/
inductive Backing
  | file (off : ℕ)
  | anonymous
  deriving DecidableEq

/-- The answers of the system; an error is what is in `errno` when it is looked at. -/
structure Kernel where
  /-- `open` of the temporary file -/
  openTmpfile : Except ℕ ℕ
  ftruncate : UInt64 → Option ℕ
  /-- the place of a mapping of so many bytes; the flag is `MAP_HUGETLB` -/
  mmap : Bool → UInt64 → Except ℕ UInt64

/-- What the manual pages promise. -/
structure Kernel.Ok (k : Kernel) : Prop where
  /-- a negative length is an error -/
  ftruncate : ∀ len, k.ftruncate len = none → 0 ≤ toLoff len
  /-- an error has a number -/
  errno : ∀ len errno, k.ftruncate len = some errno → errno ≠ 0
  /-- a length of zero is an error, and a mapping consists of pages of the address space -/
  mmap : ∀ huge len p, k.mmap huge len = .ok p →
    len ≠ 0 ∧ p.toNat % pageSize = 0 ∧ p.toNat + len.toNat ≤ 2 ^ 64

/-- The state of the address space. -/
structure World where
  /-- what is behind the addresses that are mapped -/
  space : ℕ → Option Backing := fun _ => none
  /-- the calls of `munmap` -/
  unmapped : List (UInt64 × UInt64) := []

/-- `munmap`, of all pages that the range has a part of; an address that is no multiple of the page
size, a length of zero and a range that leaves the address space are errors. -/
def World.munmap (w : World) (addr len : UInt64) : World where
  space := fun a =>
    if addr.toNat % pageSize = 0 ∧ len ≠ 0 ∧ addr.toNat + len.toNat ≤ 2 ^ 64 ∧ addr.toNat ≤ a ∧
        a < addr.toNat + (len.toNat + pageSize - 1) / pageSize * pageSize then none
    else w.space a
  unmapped := w.unmapped ++ [(addr, len)]

/-- A mapping at `p`; one of huge pages is anonymous. -/
def World.map (w : World) (p len : UInt64) (huge : Bool) : World :=
  { w with space := fun a =>
      if p.toNat ≤ a ∧ a < p.toNat + len.toNat then
        some (if huge then .anonymous else .file (a - p.toNat))
      else w.space a }

/-- `fallocate` with `FALLOC_FL_PUNCH_HOLE`, on the pages that a file has: those that lie in the
range are freed. A negative offset, or a length that is not positive, is an error. -/
def fallocatePunch (file : ℕ → Bool) (off len : ℤ) : Option ℕ × (ℕ → Bool) :=
  if off < 0 ∨ len ≤ 0 then (some 22, file)
  else (none, fun q =>
    if off ≤ q * pageSize ∧ ((q : ℤ) + 1) * pageSize ≤ off + len then false else file q)

/-! ## The code -/

/-- `fba_free`. -/
def fbaFree (fba : Fba) (w : World) : Fba × World :=
  if 0 ≤ fba.fd then ({ fba with fd := -1 }, w.munmap fba.ptr fba.size) else (fba, w)

/-- `_fba_alloc`; `MAP_FAILED` is the last address. -/
def fbaAllocFlags (k : Kernel) (huge : Bool) (fba : Fba) (w : World) (size : UInt64) :
    ℤ × Fba × World :=
  match k.openTmpfile with
  | .error errno => (if errno ≠ 0 then -errno else -1, { fba with fd := -1 }, w)
  | .ok fd =>
    match k.ftruncate size with
    | some errno => (-errno, { fba with fd := fd }, w)
    | none =>
      match k.mmap huge size with
      | .error errno =>
        (if errno ≠ 0 then -errno else -12, fbaFree { fba with fd := fd, ptr := -1 } w)
      | .ok p => (0, { fd := fd, ptr := p, size := size }, w.map p size huge)

/-- `_fba_alloc_huge`. -/
def fbaAllocHuge (k : Kernel) (fba : Fba) (w : World) (size : UInt64) : ℤ × Fba × World :=
  match fbaAllocFlags k true fba w size with
  | (0, fba', w') => (0, fba', w')
  -- pages of 4096 bytes are tried next
  | (_, fba', w') => fbaAllocFlags k false fba' w' size

/-- `aligned_size`. -/
def alignedSize (size : UInt64) : UInt64 := align (size + fbaAlignsize) fbaAlignsize

/-- `fba_alloc_align` after the mapping: its edges are unmapped. -/
def trim (fba : Fba) (w : World) (size : UInt64) : Fba × World :=
  let addr := align fba.ptr fbaAlignsize
  if fba.ptr ≠ addr then
    let startLen := addr - fba.ptr
    let endLen := alignedSize size - size - startLen
    ({ fba with ptr := addr, size := size },
      (w.munmap fba.ptr startLen).munmap (addr + size) endLen)
  else (fba, w)

/-- `fba_alloc_align`. -/
def fbaAllocAlign (k : Kernel) (fba : Fba) (w : World) (size : UInt64) (huge : Bool) :
    ℤ × Fba × World :=
  match if huge then fbaAllocHuge k fba w (alignedSize size)
    else fbaAllocFlags k false fba w (alignedSize size) with
  | (0, fba', w') => (0, trim fba' w' size)
  | failed => failed

/-- `fba_punch_hole`, on the pages that the file of the buffer has. -/
def fbaPunchHole (file : ℕ → Bool) (index : UInt64) (nump : UInt32) : ℤ × (ℕ → Bool) :=
  match fallocatePunch file (toLoff (Md.p2o index)) (toLoff (Md.p2o nump.toUInt64)) with
  | (some errno, file') => (-errno, file')
  | (none, file') => (0, file')

/-! ## What an aligned buffer is -/

/-- The page of the file is behind one of the `len` addresses from `a` on. -/
def World.Backs (w : World) (a len q : ℕ) : Prop :=
  ∃ x off, a ≤ x ∧ x < a + len ∧ w.space x = some (.file off) ∧ off / pageSize = q

/-- What a buffer of `size` bytes from `fba_alloc_align` is for. -/
structure AlignRight (fba : Fba) (w : World) (size : UInt64) : Prop where
  aligned : fba.ptr.toNat % 2 ^ 21 = 0
  mapped : ∀ x, fba.ptr.toNat ≤ x → x < fba.ptr.toNat + size.toNat → (w.space x).isSome
  /-- what was unmapped are pages outside of the buffer -/
  trimmed : ∀ c ∈ w.unmapped, 0 ≤ toLoff c.2 ∧ c.2.toNat % pageSize = 0 ∧
    ∀ x, c.1.toNat ≤ x → x < c.1.toNat + c.2.toNat →
      ¬ (fba.ptr.toNat ≤ x ∧ x < fba.ptr.toNat + size.toNat)
  /-- a hole takes the pages behind its part of the buffer from the file, and no others -/
  punch : ∀ (file : ℕ → Bool) (index : UInt64) (nump : UInt32),
    (index.toNat + nump.toNat) * pageSize ≤ size.toNat → ∀ q,
      ((fbaPunchHole file index nump).2 q = true ↔ file q = true ∧
        ¬ w.Backs (fba.ptr.toNat + index.toNat * pageSize) (nump.toNat * pageSize) q)

variable {k : Kernel} {fba fba' : Fba} {w w' : World} {size p addr len : UInt64} {n : ℕ}

theorem toNat_align (x : UInt64) : (align x fbaAlignsize).toNat =
    (x.toNat + (2 ^ 21 - 1)) % 2 ^ 64 - (x.toNat + (2 ^ 21 - 1)) % 2 ^ 64 % 2 ^ 21 := by
  have hmask : (fbaAlignsize - 1).toNat = 2 ^ 21 - 1 := by decide
  rw [align, toNat_and_not_low hmask, UInt64.toNat_add, hmask]

/-- The size of the mapping, when there is a place for it in 64 bits. -/
theorem toNat_alignedSize (hsize : size.toNat % pageSize = 0) (hne : alignedSize size ≠ 0) :
    (size.toNat + 2 ^ 21 < 2 ^ 64 → size.toNat + 2 ^ 21 ≤ (alignedSize size).toNat ∧
      (alignedSize size).toNat % pageSize = 0) ∧
    (2 ^ 64 ≤ size.toNat + 2 ^ 21 → (alignedSize size).toNat = 2 ^ 21) := by
  have hsz := size.toNat_lt
  have hpos : (alignedSize size).toNat ≠ 0 := fun h => hne (UInt64.toNat_inj.mp h)
  have hunit : fbaAlignsize.toNat = 2 ^ 21 := by decide
  have heq : (alignedSize size).toNat = ((size.toNat + 2 ^ 21) % 2 ^ 64 + (2 ^ 21 - 1)) % 2 ^ 64 -
      ((size.toNat + 2 ^ 21) % 2 ^ 64 + (2 ^ 21 - 1)) % 2 ^ 64 % 2 ^ 21 := by
    rw [alignedSize, toNat_align, UInt64.toNat_add, hunit]
  unfold pageSize at *
  omega

/-- `_fba_alloc` maps the file, when it returns 0. -/
theorem fbaAllocFlags_zero (hk : k.Ok) {huge : Bool}
    (h : fbaAllocFlags k huge fba w size = (0, fba', w')) :
    ∃ fd p, k.ftruncate size = none ∧ k.mmap huge size = .ok p ∧
      fba' = { fd := fd, ptr := p, size := size } ∧ w' = w.map p size huge := by
  unfold fbaAllocFlags at h
  split at h
  · obtain ⟨hzero, -⟩ := Prod.mk.inj h
    split at hzero <;> omega
  · next fd _ =>
    split at h
    · next errno hf =>
      obtain ⟨hzero, -⟩ := Prod.mk.inj h
      have hne := hk.errno _ _ hf
      omega
    · next hf =>
      split at h
      · obtain ⟨hzero, -⟩ := Prod.mk.inj h
        split at hzero <;> omega
      · next p hp =>
        obtain ⟨rfl, rfl⟩ := Prod.mk.inj (Prod.mk.inj h).2
        exact ⟨fd, p, hf, hp, rfl, rfl⟩

/-- A buffer is one mapping, which is then trimmed. -/
theorem fbaAllocAlign_zero (hk : k.Ok) (h : fbaAllocAlign k fba w size false = (0, fba', w')) :
    ∃ fd p, k.ftruncate (alignedSize size) = none ∧ k.mmap false (alignedSize size) = .ok p ∧
      (fba', w') = trim { fd := fd, ptr := p, size := alignedSize size }
        (w.map p (alignedSize size) false) size := by
  unfold fbaAllocAlign at h
  rw [if_neg Bool.false_ne_true] at h
  split at h
  · next fba₁ w₁ halloc =>
    obtain ⟨fd, p, hf, hp, rfl, rfl⟩ := fbaAllocFlags_zero hk halloc
    exact ⟨fd, p, hf, hp, (Prod.mk.inj h).2.symm⟩
  · next hnot => exact absurd h (hnot fba' w')

/-- What a hole takes from the file, when it does not go past the largest offset. -/
theorem fbaPunchHole_spec {file : ℕ → Bool} {index : UInt64} {nump : UInt32} {q : ℕ}
    (h : (index.toNat + nump.toNat) * pageSize < 2 ^ 63) :
    (fbaPunchHole file index nump).2 q = true ↔
      file q = true ∧ ¬ (index.toNat ≤ q ∧ q < index.toNat + nump.toNat) := by
  have hshift : ∀ x : UInt64, x.toNat * pageSize < 2 ^ 63 →
      toLoff (Md.p2o x) = x.toNat * pageSize := by
    intro x hx
    unfold pageSize at hx
    have hval : (Md.p2o x).toNat = 4096 * x.toNat := Md.toNat_p2o (by omega)
    rw [toLoff_of_lt (by omega), hval, Nat.mul_comm]
    rfl
  have hlt : index.toNat * pageSize < 2 ^ 63 ∧ nump.toNat * pageSize < 2 ^ 63 := by
    unfold pageSize at h ⊢
    omega
  have hn := hshift nump.toUInt64 (by rw [UInt32.toNat_toUInt64]; exact hlt.2)
  rw [UInt32.toNat_toUInt64] at hn
  have hi := hshift index hlt.1
  unfold fbaPunchHole fallocatePunch
  rw [hi, hn]
  unfold pageSize at *
  split_ifs with hbad
  · have hzero : nump.toNat = 0 := by omega
    simp only [hzero]
    constructor
    · exact fun hq => ⟨hq, by omega⟩
    · exact fun hq => hq.1
  · simp only
    split_ifs with hin
    · refine iff_of_false not_false fun hq => hq.2 ?_
      omega
    · exact ⟨fun hq => ⟨hq, by omega⟩, fun hq => hq.1⟩

/-- The pages behind a part of a mapping that starts with page `first` of the file. -/
theorem backs_iff {w : World} {p first a i n q : ℕ} (ha : a = p + first * pageSize)
    (hspace : ∀ x, a + i * pageSize ≤ x → x < a + (i + n) * pageSize →
      w.space x = some (.file (x - p))) :
    w.Backs (a + i * pageSize) (n * pageSize) q ↔ first + i ≤ q ∧ q < first + i + n := by
  unfold pageSize at *
  constructor
  · rintro ⟨x, off, hlo, hhi, hx, hq⟩
    rw [hspace x hlo (by omega)] at hx
    obtain rfl := Backing.file.inj (Option.some.inj hx)
    unfold pageSize at hq
    omega
  · rintro ⟨hlo, hhi⟩
    refine ⟨p + q * 4096, q * 4096, by omega, by omega, ?_, Nat.mul_div_cancel _ (by decide)⟩
    rw [hspace _ (by omega) (by omega), Nat.add_sub_cancel_left]

/-- A file has no length of `2 ^ 63` bytes. -/
theorem lt_of_ftruncate (hk : k.Ok) (hf : k.ftruncate len = none) : len.toNat < 2 ^ 63 := by
  have hpos := hk.ftruncate _ hf
  by_contra hbig
  rw [toLoff, if_neg hbig] at hpos
  have := len.toNat_lt
  omega

/-- `munmap` of whole pages leaves what is outside of the range. -/
theorem munmap_outside {x : ℕ} (hlen : len.toNat % pageSize = 0)
    (hx : x < addr.toNat ∨ addr.toNat + len.toNat ≤ x) :
    (w.munmap addr len).space x = w.space x := by
  refine if_neg fun hin => ?_
  obtain ⟨-, -, -, hlo, hhi⟩ := hin
  unfold pageSize at hlen hhi
  omega

/-- `munmap` maps nothing. -/
theorem isSome_munmap {x : ℕ} (h : ((w.munmap addr len).space x).isSome) :
    (w.space x).isSome := by
  unfold World.munmap at h
  dsimp only at h
  split_ifs at h
  · cases h
  · exact h

section Mapped

variable (hk : k.Ok) (hsize : size.toNat % pageSize = 0)
  (hf : k.ftruncate (alignedSize size) = none) (hp : k.mmap false (alignedSize size) = .ok p)

include hk hsize hf hp

/-- A mapping that starts at a multiple of two megabytes. -/
theorem right_of_aligned (hroom : size.toNat + 2 ^ 21 < 2 ^ 64) (hp₀ : p.toNat % 2 ^ 21 = 0)
    (hptr : fba.ptr = p) : AlignRight fba (World.map {} p (alignedSize size) false) size := by
  subst hptr
  obtain ⟨hne, -, hend⟩ := hk.mmap _ _ _ hp
  obtain ⟨hle, -⟩ := (toNat_alignedSize hsize hne).1 hroom
  have hoff := lt_of_ftruncate hk hf
  have hspace : ∀ x, fba.ptr.toNat ≤ x → x < fba.ptr.toNat + size.toNat →
      (World.map {} fba.ptr (alignedSize size) false).space x = some (.file (x - fba.ptr.toNat)) :=
    fun x hlo hhi => if_pos ⟨hlo, by omega⟩
  refine ⟨hp₀, fun x hlo hhi => ?_, fun c hc => absurd hc List.not_mem_nil,
    fun file index nump hin q => ?_⟩
  · rw [hspace x hlo hhi]
    rfl
  · have hpart : ∀ x, fba.ptr.toNat + index.toNat * pageSize ≤ x →
        x < fba.ptr.toNat + (index.toNat + nump.toNat) * pageSize →
        (World.map {} fba.ptr (alignedSize size) false).space x =
          some (.file (x - fba.ptr.toNat)) := by
      unfold pageSize at hin ⊢
      exact fun x hlo hhi => hspace x (by omega) (by omega)
    have hfirst : fba.ptr.toNat = fba.ptr.toNat + 0 * pageSize := by rw [Nat.zero_mul, Nat.add_zero]
    rw [fbaPunchHole_spec (by omega), backs_iff hfirst hpart, Nat.zero_add]

omit hf in
/-- The edges of a mapping that starts elsewhere: one up to the next multiple of two megabytes, and
one from the end of the buffer on. -/
theorem toNat_edges (hroom : size.toNat + 2 ^ 21 < 2 ^ 64) (hp₀ : p.toNat % 2 ^ 21 ≠ 0) :
    (align p fbaAlignsize).toNat % 2 ^ 21 = 0 ∧ p.toNat < (align p fbaAlignsize).toNat ∧
      (align p fbaAlignsize - p).toNat = (align p fbaAlignsize).toNat - p.toNat ∧
      (align p fbaAlignsize + size).toNat = (align p fbaAlignsize).toNat + size.toNat ∧
      (align p fbaAlignsize).toNat + size.toNat +
        (alignedSize size - size - (align p fbaAlignsize - p)).toNat =
          p.toNat + (alignedSize size).toNat := by
  obtain ⟨hne, -, hend⟩ := hk.mmap _ _ _ hp
  obtain ⟨hle, -⟩ := (toNat_alignedSize hsize hne).1 hroom
  have haddr : (align p fbaAlignsize).toNat = (p.toNat / 2 ^ 21 + 1) * 2 ^ 21 := by
    rw [toNat_align]
    omega
  have hstart : (align p fbaAlignsize - p).toNat = (align p fbaAlignsize).toNat - p.toNat :=
    UInt64.toNat_sub_of_le _ _ (UInt64.le_iff_toNat_le.mpr (by omega))
  have hrest : (alignedSize size - size).toNat = (alignedSize size).toNat - size.toNat :=
    UInt64.toNat_sub_of_le _ _ (UInt64.le_iff_toNat_le.mpr (by omega))
  refine ⟨by omega, by omega, hstart, ?_, ?_⟩
  · rw [UInt64.toNat_add]
    omega
  · rw [UInt64.toNat_sub_of_le _ _ (UInt64.le_iff_toNat_le.mpr (by omega)), hrest, hstart]
    omega

/-- The edges are unmapped, and no more. -/
theorem trim_spec (hroom : size.toNat + 2 ^ 21 < 2 ^ 64) (hp₀ : p.toNat % 2 ^ 21 ≠ 0)
    (hptr : fba.ptr = p)
    (htrim : (fba', w') = trim fba (World.map {} p (alignedSize size) false) size) :
    ∃ skip, 0 < skip ∧ fba'.ptr.toNat = p.toNat + skip * pageSize ∧ fba'.ptr.toNat % 2 ^ 21 = 0 ∧
      (∀ x, fba'.ptr.toNat ≤ x → x < fba'.ptr.toNat + size.toNat →
        w'.space x = some (.file (x - p.toNat))) ∧
      ∀ c ∈ w'.unmapped, 0 ≤ toLoff c.2 ∧ c.2.toNat % pageSize = 0 ∧
        ∀ x, c.1.toNat ≤ x → x < c.1.toNat + c.2.toNat →
          ¬ (fba'.ptr.toNat ≤ x ∧ x < fba'.ptr.toNat + size.toNat) := by
  subst hptr
  obtain ⟨haligned, hlt, hstart, htail, hendLen⟩ := toNat_edges hk hsize hp hroom hp₀
  obtain ⟨hne, hpage, hend⟩ := hk.mmap _ _ _ hp
  obtain ⟨hle, hlpage⟩ := (toNat_alignedSize hsize hne).1 hroom
  have hoff := lt_of_ftruncate hk hf
  have hmoved : fba.ptr ≠ align fba.ptr fbaAlignsize := fun heq => by
    rw [← heq] at hlt
    exact lt_irrefl _ hlt
  obtain ⟨hfba, hw⟩ := Prod.mk.inj (htrim.trans (if_pos hmoved))
  subst hfba hw
  unfold pageSize at *
  -- both edges consist of pages
  have hpages : (align fba.ptr fbaAlignsize - fba.ptr).toNat % 4096 = 0 ∧
      (alignedSize size - size - (align fba.ptr fbaAlignsize - fba.ptr)).toNat % 4096 = 0 := by
    omega
  refine ⟨((align fba.ptr fbaAlignsize).toNat - fba.ptr.toNat) / 4096, ?_, ?_, haligned, ?_, ?_⟩
  · omega
  · dsimp only
    omega
  · intro x hlo hhi
    dsimp only at hlo hhi
    rw [munmap_outside hpages.2 (.inl (by omega)), munmap_outside hpages.1 (.inr (by omega))]
    exact if_pos ⟨by omega, by omega⟩
  · intro c hc
    obtain rfl | rfl : c = (fba.ptr, align fba.ptr fbaAlignsize - fba.ptr) ∨
        c = (align fba.ptr fbaAlignsize + size,
          alignedSize size - size - (align fba.ptr fbaAlignsize - fba.ptr)) := by
      simpa [World.munmap, World.map] using hc
    · dsimp only
      refine ⟨?_, hpages.1, fun x hlo hhi hin => by omega⟩
      rw [toLoff_of_lt (by omega)]
      exact Int.natCast_nonneg _
    · dsimp only
      refine ⟨?_, hpages.2, fun x hlo hhi hin => by omega⟩
      rw [toLoff_of_lt (by omega)]
      exact Int.natCast_nonneg _

omit hf in
/-- The addresses of a buffer of almost `2 ^ 64` bytes are not mapped. -/
theorem not_right_of_wrap (hwrap : 2 ^ 64 ≤ size.toNat + 2 ^ 21) (hptr : fba.ptr = p)
    (htrim : (fba', w') = trim fba (World.map {} p (alignedSize size) false) size) :
    ¬ AlignRight fba' w' size := by
  subst hptr
  intro hright
  obtain ⟨hne, -, hend⟩ := hk.mmap _ _ _ hp
  have hlen := (toNat_alignedSize hsize hne).2 hwrap
  have hspace : ∀ x, ((World.map {} fba.ptr (alignedSize size) false).space x).isSome →
      x < fba.ptr.toNat + 2 ^ 21 := by
    intro x hx
    by_contra hnot
    have hnone : (World.map {} fba.ptr (alignedSize size) false).space x = none :=
      if_neg fun hin => by omega
    rw [hnone] at hx
    cases hx
  have hbuffer : fba.ptr.toNat ≤ fba'.ptr.toNat ∧ ∀ x, (w'.space x).isSome →
      ((World.map {} fba.ptr (alignedSize size) false).space x).isSome := by
    unfold trim at htrim
    dsimp only at htrim
    split_ifs at htrim with hmoved
    · obtain ⟨rfl, rfl⟩ := Prod.mk.inj htrim
      refine ⟨?_, fun x hx => isSome_munmap (isSome_munmap hx)⟩
      rw [toNat_align]
      omega
    · obtain ⟨rfl, rfl⟩ := Prod.mk.inj htrim
      exact ⟨le_rfl, fun x hx => hx⟩
  have hmapped := hright.mapped (fba'.ptr.toNat + 2 ^ 21) (by omega) (by omega)
  have hlast := hspace _ (hbuffer.2 _ hmapped)
  omega

end Mapped

/-- A buffer of no pages asks nothing of its mapping. -/
theorem right_of_zero (haligned : fba.ptr.toNat % 2 ^ 21 = 0)
    (hunmapped : ∀ c ∈ w.unmapped, 0 ≤ toLoff c.2 ∧ c.2.toNat % pageSize = 0 ∧
      ∀ x, c.1.toNat ≤ x → x < c.1.toNat + c.2.toNat →
        ¬ (fba.ptr.toNat ≤ x ∧ x < fba.ptr.toNat + (0 : UInt64).toNat)) :
    AlignRight fba w 0 := by
  refine ⟨haligned, fun x hlo hhi => absurd hhi (not_lt.mpr hlo), hunmapped,
    fun file index nump hin q => ?_⟩
  rw [UInt64.toNat_zero] at hin
  have hzero : index.toNat = 0 ∧ nump.toNat = 0 := by
    unfold pageSize at hin
    omega
  rw [fbaPunchHole_spec (by omega), hzero.1, hzero.2]
  refine and_congr_right fun _ => iff_of_true (by omega) ?_
  rintro ⟨x, off, hlo, hhi, -⟩
  omega

/-- What a buffer that was moved has at its first page. -/
theorem not_right_of_moved {skip : ℕ} (hsize : size.toNat % pageSize = 0) (hpos : size ≠ 0)
    (hskip : 0 < skip) (hptr : fba.ptr.toNat = p.toNat + skip * pageSize)
    (hspace : ∀ x, fba.ptr.toNat ≤ x → x < fba.ptr.toNat + size.toNat →
      w.space x = some (.file (x - p.toNat))) : ¬ AlignRight fba w size := by
  intro hright
  have hsz : size.toNat ≠ 0 := fun h => hpos (UInt64.toNat_inj.mp h)
  unfold pageSize at hsize
  have hone : ((0 : UInt64).toNat + (1 : UInt32).toNat) * pageSize ≤ size.toNat := by
    unfold pageSize
    simp only [UInt64.toNat_zero, UInt32.toNat_one]
    omega
  -- the hole is at page 0 of the file, which is not behind the buffer any more
  have hpunch := hright.punch (fun _ => true) 0 1 hone 0
  rw [fbaPunchHole_spec (by decide)] at hpunch
  simp only [UInt64.toNat_zero, UInt32.toNat_one] at hpunch
  have hnot : ¬ w.Backs (fba.ptr.toNat + 0 * pageSize) (1 * pageSize) 0 := by
    rw [backs_iff hptr]
    · omega
    · intro x hlo hhi
      unfold pageSize at hhi
      exact hspace x (by omega) (by omega)
  exact (hpunch.mpr ⟨trivial, hnot⟩).2 ⟨le_rfl, Nat.one_pos⟩

/-- A buffer that `fba_alloc_align` returns is right just if `mmap` chose an aligned address, or
there is no page in it, and its size with two megabytes more is a size. -/
theorem fbaAllocAlign_right_iff (k : Kernel) (hk : k.Ok) (fba fba' : Fba) (w' : World)
    (size p : UInt64) (hsize : size.toNat % pageSize = 0)
    (hp : k.mmap false (alignedSize size) = .ok p)
    (h : fbaAllocAlign k fba {} size false = (0, fba', w')) :
    AlignRight fba' w' size ↔
      size.toNat + 2 ^ 21 < 2 ^ 64 ∧ (p.toNat % 2 ^ 21 = 0 ∨ size = 0) := by
  obtain ⟨fd, p', hf, hp', htrim⟩ := fbaAllocAlign_zero hk h
  obtain rfl : p' = p := Except.ok.inj (hp'.symm.trans hp)
  by_cases hroom : size.toNat + 2 ^ 21 < 2 ^ 64
  · by_cases hp₀ : p'.toNat % 2 ^ 21 = 0
    · refine iff_of_true ?_ ⟨hroom, .inl hp₀⟩
      have hsame : align p' fbaAlignsize = p' := UInt64.toNat_inj.mp (by
        have hlt := p'.toNat_lt
        rw [toNat_align]
        omega)
      unfold trim at htrim
      rw [if_neg (not_not.mpr hsame.symm)] at htrim
      obtain ⟨rfl, rfl⟩ := Prod.mk.inj htrim
      exact right_of_aligned hk hsize hf hp hroom hp₀ rfl
    · obtain ⟨skip, hskip, hptr, haligned, hspace, hunmapped⟩ :=
        trim_spec hk hsize hf hp hroom hp₀ rfl htrim
      by_cases hzero : size = 0
      · refine iff_of_true ?_ ⟨hroom, .inr hzero⟩
        subst hzero
        exact right_of_zero haligned hunmapped
      · refine iff_of_false (not_right_of_moved hsize hzero hskip hptr hspace) fun hcond => ?_
        exact hcond.2.elim hp₀ hzero
  · exact iff_of_false (not_right_of_wrap hk hsize hp (not_lt.mp hroom) rfl htrim)
      fun hcond => hroom hcond.1

/-- A system that maps at `place`. -/
def mapsAt (place : UInt64) : Kernel where
  openTmpfile := .ok 3
  ftruncate := fun len => if len.toNat < 2 ^ 63 then none else some 22
  mmap := fun _ len =>
    if len ≠ 0 ∧ place.toNat + len.toNat ≤ 2 ^ 64 then .ok place else .error 22

theorem ok_mapsAt {place : UInt64} (hplace : place.toNat % pageSize = 0) : (mapsAt place).Ok where
  ftruncate := by
    intro len h
    unfold mapsAt at h
    dsimp only at h
    split_ifs at h with hlt
    rw [toLoff_of_lt hlt]
    exact Int.natCast_nonneg _
  errno := by
    intro len errno h
    unfold mapsAt at h
    dsimp only at h
    split_ifs at h
    rintro rfl
    cases h
  mmap := by
    intro huge len p h
    unfold mapsAt at h
    dsimp only at h
    split_ifs at h with hin
    cases h
    exact ⟨hin.1, hplace, hin.2⟩

section MapsAt

variable {place : UInt64} (hne : len ≠ 0) (hlen : len.toNat < 2 ^ 63)
  (hplace : place.toNat + len.toNat ≤ 2 ^ 64)

include hne hplace

theorem mmap_mapsAt : (mapsAt place).mmap false len = .ok place := if_pos ⟨hne, hplace⟩

include hlen

theorem fbaAllocFlags_mapsAt : fbaAllocFlags (mapsAt place) false ⟨0, 0, 0⟩ {} len =
    (0, ⟨3, place, len⟩, World.map {} place len false) := by
  have hopen : (mapsAt place).openTmpfile = .ok 3 := rfl
  have hfile : (mapsAt place).ftruncate len = none := if_pos hlen
  rw [fbaAllocFlags, hopen]
  dsimp only
  rw [hfile]
  dsimp only
  rw [mmap_mapsAt hne hplace]
  rfl

theorem fbaAllocAlign_mapsAt (hsize : alignedSize size = len) :
    fbaAllocAlign (mapsAt place) ⟨0, 0, 0⟩ {} size false =
      (0, trim ⟨3, place, len⟩ (World.map {} place len false) size) := by
  rw [fbaAllocAlign, if_neg Bool.false_ne_true, hsize, fbaAllocFlags_mapsAt hne hlen hplace]
  rfl

end MapsAt

theorem fbaAllocAlign_right_2m :
    AlignRight
      (trim ⟨3, 0x7f0000000000, alignedSize 4096⟩
        (World.map {} 0x7f0000000000 (alignedSize 4096) false) 4096).1
      (trim ⟨3, 0x7f0000000000, alignedSize 4096⟩
        (World.map {} 0x7f0000000000 (alignedSize 4096) false) 4096).2 4096 ↔
      (4096 : UInt64).toNat + 2 ^ 21 < 2 ^ 64 ∧
        ((0x7f0000000000 : UInt64).toNat % 2 ^ 21 = 0 ∨ (4096 : UInt64) = 0) :=
  fbaAllocAlign_right_iff (mapsAt 0x7f0000000000) (ok_mapsAt (by decide)) ⟨0, 0, 0⟩ _ _ 4096 _
    (by decide) (mmap_mapsAt (by decide) (by decide))
    (fbaAllocAlign_mapsAt (by decide) (by decide) (by decide) rfl)

/-- `mmap` at a page that is no multiple of two megabytes: page 511 of the file is behind the first
page of the buffer, and a hole there frees page 0. -/
theorem fbaAllocAlign_moved :
    (mapsAt 0x7f0000001000).Ok ∧
      ∃ fba w, fbaAllocAlign (mapsAt 0x7f0000001000) ⟨0, 0, 0⟩ {} 4096 false = (0, fba, w) ∧
        fba.ptr = 0x7f0000200000 ∧ w.space 0x7f0000200000 = some (.file (511 * pageSize)) ∧
        (fbaPunchHole (fun _ => true) 0 1).2 0 = false ∧
        (fbaPunchHole (fun _ => true) 0 1).2 511 = true ∧ ¬ AlignRight fba w 4096 := by
  have halloc : fbaAllocAlign (mapsAt 0x7f0000001000) ⟨0, 0, 0⟩ {} 4096 false =
      (0, trim ⟨3, 0x7f0000001000, alignedSize 4096⟩
        (World.map {} 0x7f0000001000 (alignedSize 4096) false) 4096) :=
    fbaAllocAlign_mapsAt (by decide) (by decide) (by decide) rfl
  have hptr : (trim ⟨3, 0x7f0000001000, alignedSize 4096⟩
      (World.map {} 0x7f0000001000 (alignedSize 4096) false) 4096).1.ptr = 0x7f0000200000 := by
    decide
  have hspace : (trim ⟨3, 0x7f0000001000, alignedSize 4096⟩
      (World.map {} 0x7f0000001000 (alignedSize 4096) false) 4096).2.space 0x7f0000200000 =
        some (.file (511 * pageSize)) := by decide
  generalize trim ⟨3, 0x7f0000001000, alignedSize 4096⟩
    (World.map {} 0x7f0000001000 (alignedSize 4096) false) 4096 = r at halloc hptr hspace
  refine ⟨ok_mapsAt (by decide), r.1, r.2, halloc, hptr, hspace, by decide, by decide,
    fun hright => ?_⟩
  have hkept := (hright.punch (fun _ => true) 0 1 (by decide) 511).mp (by decide)
  rw [hptr] at hkept
  exact hkept.2 ⟨0x7f0000200000, 511 * pageSize, by decide, by decide, hspace, by decide⟩

end Fba

end Zus
