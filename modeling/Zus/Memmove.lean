import Mathlib.Data.Fintype.Basic
import Zus.Lib.Displace
import Zus.Lib.Mask

/-!
# Moving bytes to persistent memory

`pmem_memmove_persist` moves a range that may overlap where it goes to. Short ranges go through
`memmove`; long ones go upwards or downwards, as the overlap allows, in chunks of eight registers
that are stored past the caches, with ordinary stores at the ends, which are flushed.

Addresses and sizes have 64 bits and wrap around.
-/

namespace Zus.Memmove

open Zus.Lib

def cachelineAlign : UInt64 := 64
def cachelineMask : UInt64 := cachelineAlign - 1
def chunkSize : UInt64 := 128
def chunkShift : UInt64 := 7
def chunkMask : UInt64 := chunkSize - 1
def dwordSize : UInt64 := 4
def dwordShift : UInt64 := 2
def dwordMask : UInt64 := dwordSize - 1
def movntSize : UInt64 := 16
def movntMask : UInt64 := movntSize - 1
def movntShift : UInt64 := 4
def movntThreshold : UInt64 := 256

/-- Memory and the registers `xmm0` to `xmm7`. -/
structure Machine where
  mem : UInt64 → UInt8
  xmm : Fin 8 → Fin 16 → UInt8

/-- What is done to memory, to the registers and to the caches. -/
inductive Instr
  /-- `memmove` -/
  | memmove (d s len : UInt64)
  /-- `*d8 = *s8` -/
  | mov8 (d s : UInt64)
  /-- `_mm_loadu_si128` -/
  | loadu (r : Fin 8) (s : UInt64)
  /-- `_mm_stream_si128` -/
  | stream (d : UInt64) (r : Fin 8)
  /-- `_mm_stream_si32` of a word in memory -/
  | stream32 (d s : UInt64)
  /-- `_mm_clflush` -/
  | clflush (p : UInt64)
  /-- `_mm_sfence` -/
  | sfence
  deriving DecidableEq

/-- The `n` bytes at `s`, at `d`. -/
def copy (m : UInt64 → UInt8) (d s : UInt64) (n : ℕ) : UInt64 → UInt8 :=
  fun x => if InRange d n x then m (s + (x - d)) else m x

/-- What an instruction does. -/
def Instr.exec (c : Machine) : Instr → Machine
  | .memmove d s len => { c with mem := copy c.mem d s len.toNat }
  | .mov8 d s => { c with mem := copy c.mem d s 1 }
  | .loadu r s =>
    { c with xmm := fun r' i => if r' = r then c.mem (s + UInt64.ofNat i) else c.xmm r' i }
  | .stream d r =>
    { c with
      mem := fun x => if h : (x - d).toNat < 16 then c.xmm r ⟨(x - d).toNat, h⟩ else c.mem x }
  | .stream32 d s => { c with mem := copy c.mem d s 4 }
  | .clflush _ | .sfence => c

/-- What instructions do one after the other. -/
def run (es : List Instr) (c : Machine) : Machine := es.foldl Instr.exec c

/-! ## The source -/

/-- Turns of the loop of `flush_clflush`; nothing when it goes on after `fuel` turns. -/
def flushLoop (stop : UInt64) : ℕ → UInt64 → Option (List Instr)
  | 0, _ => none
  | fuel + 1, uptr =>
    if uptr < stop then (flushLoop stop fuel (uptr + cachelineAlign)).map (.clflush uptr :: ·)
    else some []

/-- `flush_clflush`, and `pmem_flush`. -/
def flushClflush (fuel : ℕ) (addr len : UInt64) : Option (List Instr) :=
  flushLoop (addr + len) fuel (addr &&& ~~~(cachelineAlign - 1))

/-- Turns of a loop that takes both pointers on by `size`. -/
def turns (body : UInt64 → UInt64 → List Instr) (size : UInt64) : ℕ → UInt64 → UInt64 → List Instr
  | 0, _, _ => []
  | n + 1, d, s => body d s ++ turns body size n (d + size) (s + size)

/-- Eight registers loaded, then eight stored. -/
def chunk (off : Fin 8 → UInt64) (d s : UInt64) : List Instr :=
  (List.finRange 8).map (fun r => .loadu r (s + off r)) ++
    (List.finRange 8).map fun r => .stream (d + off r) r

/-- `s`, `s + 1`, up to `s + 7`. -/
def chunkForward : UInt64 → UInt64 → List Instr := chunk fun r => UInt64.ofNat (16 * r)

/-- `s - 1`, `s - 2`, down to `s - 8`. -/
def chunkBackward : UInt64 → UInt64 → List Instr := chunk fun r => - UInt64.ofNat (16 * (r + 1))

/-- Bytes going upwards, then flushed. -/
def bytesForward (fuel : ℕ) (d s cnt : UInt64) : Option (List Instr) :=
  (flushClflush fuel d cnt).map (turns (fun d s => [.mov8 d s]) 1 cnt.toNat d s ++ ·)

/-- Bytes going downwards, then flushed. -/
def bytesBackward (fuel : ℕ) (d s cnt : UInt64) : Option (List Instr) :=
  (flushClflush fuel (d - cnt) cnt).map
    (turns (fun d s => [.mov8 (d - 1) (s - 1)]) (-1) cnt.toNat d s ++ ·)

/-- The last bytes going upwards, first words, then bytes. -/
def lastForward (fuel : ℕ) (d s len : UInt64) : Option (List Instr) :=
  if len ≠ 0 then
    let off := len >>> dwordShift <<< dwordShift
    (bytesForward fuel (d + off) (s + off) (len &&& dwordMask)).map
      (turns (fun d s => [.stream32 d s]) 4 (len >>> dwordShift).toNat d s ++ ·)
  else some []

/-- Less than a chunk going upwards. -/
def tailForward (fuel : ℕ) (d s len : UInt64) : Option (List Instr) :=
  let off := len >>> movntShift <<< movntShift
  let tail := if len ≠ 0 then
      turns (fun d s => [.loadu 0 s, .stream d 0]) 16 (len >>> movntShift).toNat d s
    else []
  (lastForward fuel (d + off) (s + off) (len &&& movntMask)).map (tail ++ ·)

/-- From where `d` starts a line, going upwards. -/
def linesForward (fuel : ℕ) (d s len : UInt64) : Option (List Instr) :=
  let off := len >>> chunkShift <<< chunkShift
  (tailForward fuel (d + off) (s + off) (len &&& chunkMask)).map
    (turns chunkForward 128 (len >>> chunkShift).toNat d s ++ ·)

/-- The bytes up to the first line, and never more than there are. -/
def headForward (dest len : UInt64) : UInt64 :=
  let cnt := dest &&& cachelineMask
  if 0 < cnt then if len < cachelineAlign - cnt then len else cachelineAlign - cnt else 0

/-- `memmove_nodrain_movnt` going upwards. -/
def moveForward (fuel : ℕ) (dest src len : UInt64) : Option (List Instr) :=
  let cnt := headForward dest len
  (if 0 < cnt then bytesForward fuel dest src cnt else some []).bind fun head =>
    (linesForward fuel (dest + cnt) (src + cnt) (len - cnt)).map (head ++ ·)

/-- The last bytes going downwards, first words, then bytes. -/
def lastBackward (fuel : ℕ) (d s len : UInt64) : Option (List Instr) :=
  if len ≠ 0 then
    let off := len >>> dwordShift <<< dwordShift
    (bytesBackward fuel (d - off) (s - off) (len &&& dwordMask)).map
      (turns (fun d s => [.stream32 (d - 4) (s - 4)]) (-4) (len >>> dwordShift).toNat d s ++ ·)
  else some []

/-- Less than a chunk going downwards. -/
def tailBackward (fuel : ℕ) (d s len : UInt64) : Option (List Instr) :=
  let off := len >>> movntShift <<< movntShift
  let tail := if len ≠ 0 then
      turns (fun d s => [.loadu 0 (s - 16), .stream (d - 16) 0]) (-16)
        (len >>> movntShift).toNat d s
    else []
  (lastBackward fuel (d - off) (s - off) (len &&& movntMask)).map (tail ++ ·)

/-- From where `d` ends a line, going downwards. -/
def linesBackward (fuel : ℕ) (d s len : UInt64) : Option (List Instr) :=
  let off := len >>> chunkShift <<< chunkShift
  (tailBackward fuel (d - off) (s - off) (len &&& chunkMask)).map
    (turns chunkBackward (-128) (len >>> chunkShift).toNat d s ++ ·)

/-- The bytes from the last line on, and never more than there are. -/
def headBackward (stop len : UInt64) : UInt64 :=
  let cnt := stop &&& cachelineMask
  if len < cnt then len else cnt

/-- `memmove_nodrain_movnt` going downwards. -/
def moveBackward (fuel : ℕ) (dest src len : UInt64) : Option (List Instr) :=
  let cnt := headBackward (dest + len) len
  (if 0 < cnt then bytesBackward fuel (dest + len) (src + len) cnt else some []).bind fun head =>
    (linesBackward fuel (dest + len - cnt) (src + len - cnt) (len - cnt)).map (head ++ ·)

/-- `memmove_nodrain_movnt`, and `pmem_memmove_persist`. -/
def memmoveNodrainMovnt (fuel : ℕ) (pmemdest src len : UInt64) : Option (List Instr) :=
  if len = 0 ∨ src = pmemdest then some []
  else if len < movntThreshold then
    (flushClflush fuel pmemdest len).map (.memmove pmemdest src len :: ·)
  else
    (if pmemdest - src ≥ len then moveForward fuel pmemdest src len
      else moveBackward fuel pmemdest src len).map (· ++ [.sfence])

/-! ## What is moved -/

/-- The instruction writes the byte. -/
def Instr.Writes (x : UInt64) : Instr → Prop
  | .memmove d _ len => InRange d len.toNat x
  | .mov8 d _ => InRange d 1 x
  | .stream d _ => InRange d 16 x
  | .stream32 d _ => InRange d 4 x
  | .loadu .. | .clflush _ | .sfence => False

/-- The instruction writes past the caches. -/
def Instr.Streams : Instr → Prop
  | .stream .. | .stream32 .. => True
  | .memmove .. | .mov8 .. | .loadu .. | .clflush _ | .sfence => False

/-- The processor stores a register only at a multiple of its size. -/
def Instr.Aligned : Instr → Prop
  | .stream d _ => 16 ∣ d.toNat
  | .stream32 d _ => 4 ∣ d.toNat
  | .memmove .. | .mov8 .. | .loadu .. | .clflush _ | .sfence => True

/-- The lines that are flushed. -/
def flushedLines (es : List Instr) : Set ℕ := {l | ∃ p, .clflush p ∈ es ∧ p.toNat / 64 = l}

/-- The byte is in persistent memory: what wrote it last went past the caches, or its line was
flushed afterwards. -/
def Durable (es : List Instr) (x : UInt64) : Prop :=
  ∃ before e after, es = before ++ e :: after ∧ e.Writes x ∧ (∀ f ∈ after, ¬ f.Writes x) ∧
    (e.Streams ∨ x.toNat / 64 ∈ flushedLines after)

variable {δ d s p x : UInt64} {m n k a : ℕ} {es es' fl : List Instr} {c : Machine} {e : Instr}

/-- The bytes of a range, and no others, are moved by `δ`. -/
structure Copies (δ p : UInt64) (n : ℕ) (es : List Instr) : Prop where
  mem : ∀ c, (run es c).mem = displace δ (rangeOf p n) c.mem
  writes : ∀ x, (∃ e ∈ es, e.Writes x) ↔ x ∈ rangeOf p n
  aligned : ∀ e ∈ es, e.Aligned

theorem run_append (es es' : List Instr) (c : Machine) : run (es ++ es') c = run es' (run es c) :=
  List.foldl_append

theorem copy_eq (m : UInt64 → UInt8) (d s : UInt64) (n : ℕ) :
    copy m d s n = displace (d - s) (rangeOf d n) m := by
  funext x
  have haddr : s + (x - d) = x - (d - s) := by grind
  by_cases hx : InRange d n x
  · rw [copy, if_pos hx, displace_of_mem (mem_rangeOf.mpr hx), haddr]
  · rw [copy, if_neg hx, displace_of_notMem (mt mem_rangeOf.mp hx)]

theorem copies_nil : Copies δ p 0 [] where
  mem c := by rw [rangeOf_zero, displace_empty, run, List.foldl_nil]
  writes x := by simp
  aligned e he := absurd he List.not_mem_nil

/-- **One piece after the other, upwards.** -/
theorem Copies.up (h : Copies δ p m es) (h' : Copies δ (p + UInt64.ofNat m) n es')
    (hroom : m + n ≤ δ.toNat) : Copies δ p (m + n) (es ++ es') := by
  have hsplit := rangeOf_add (p := p) (Nat.le_of_lt (Nat.lt_of_le_of_lt hroom δ.toNat_lt))
  refine ⟨fun c => ?_, fun x => ?_, fun e he => ?_⟩
  · rw [run_append, h'.mem, h.mem, displace_displace (upwards_notMem hroom), hsplit]
  · rw [hsplit, Set.mem_union, ← h.writes, ← h'.writes]
    simp only [List.mem_append, or_and_right, exists_or]
  · exact (List.mem_append.mp he).elim (h.aligned e) (h'.aligned e)

/-- **One piece after the other, downwards.** -/
theorem Copies.down (h : Copies δ (p + UInt64.ofNat m) n es) (h' : Copies δ p m es')
    (hroom : δ.toNat + (m + n) ≤ 2 ^ 64) : Copies δ p (m + n) (es ++ es') := by
  have hsplit := rangeOf_add (p := p) (Nat.le_of_add_left_le hroom)
  refine ⟨fun c => ?_, fun x => ?_, fun e he => ?_⟩
  · rw [run_append, h'.mem, h.mem, displace_displace (downwards_notMem hroom), hsplit,
      Set.union_comm]
  · rw [hsplit, Set.mem_union, ← h.writes, ← h'.writes, or_comm]
    simp only [List.mem_append, or_and_right, exists_or]
  · exact (List.mem_append.mp he).elim (h.aligned e) (h'.aligned e)

/-- Flushes move nothing. -/
theorem Copies.flush (h : Copies δ p n es) (hfl : ∀ e ∈ fl, ∃ q, e = .clflush q) :
    Copies δ p n (es ++ fl) := by
  have hrun : ∀ c, run fl c = c := by
    intro c
    induction fl with
    | nil => rfl
    | cons f fl ih =>
      obtain ⟨q, rfl⟩ := hfl f List.mem_cons_self
      exact ih fun e he => hfl e (List.mem_cons_of_mem _ he)
  refine ⟨fun c => by rw [run_append, hrun, h.mem], fun x => ?_, fun e he => ?_⟩
  · rw [← h.writes]
    refine ⟨?_, fun ⟨e, he, hx⟩ => ⟨e, List.mem_append_left _ he, hx⟩⟩
    rintro ⟨e, he, hx⟩
    rcases List.mem_append.mp he with he | he
    · exact ⟨e, he, hx⟩
    · obtain ⟨q, rfl⟩ := hfl e he
      exact hx.elim
  · rcases List.mem_append.mp he with he | he
    · exact h.aligned e he
    · obtain ⟨q, rfl⟩ := hfl e he
      trivial

theorem copies_mov8 (d s : UInt64) : Copies (d - s) d 1 [.mov8 d s] where
  mem c := copy_eq c.mem d s 1
  writes x := by simp [Instr.Writes]
  aligned e he := by
    rw [List.mem_singleton.mp he]
    trivial

theorem copies_stream32 (s : UInt64) (hd : 4 ∣ d.toNat) : Copies (d - s) d 4 [.stream32 d s] where
  mem c := copy_eq c.mem d s 4
  writes x := by simp [Instr.Writes]
  aligned e he := by
    rw [List.mem_singleton.mp he]
    exact hd

/-! ## Registers -/

/-- Some of the registers loaded. -/
theorem run_loadu (off : Fin 8 → UInt64) (s : UInt64) (rs : List (Fin 8)) (c : Machine) :
    run (rs.map fun r => .loadu r (s + off r)) c =
      { c with
        xmm := fun r i => if r ∈ rs then c.mem (s + off r + UInt64.ofNat i) else c.xmm r i } := by
  induction rs generalizing c with
  | nil => simp [run]
  | cons r rs ih =>
    have hcons : run ((r :: rs).map fun r => .loadu r (s + off r)) c =
        run (rs.map fun r => .loadu r (s + off r)) (Instr.exec c (.loadu r (s + off r))) := rfl
    rw [hcons, ih]
    congr 1
    funext r' i
    by_cases hr : r' ∈ rs
    · simp [hr, Instr.exec]
    · by_cases hr' : r' = r
      · simp [hr', Instr.exec]
      · simp [hr, hr', Instr.exec]

/-- Some of the registers stored. -/
theorem run_stream {off : Fin 8 → UInt64} (m₀ : UInt64 → UInt8) (rs : List (Fin 8))
    (hxmm : ∀ r ∈ rs, ∀ i, c.xmm r i = m₀ (s + off r + UInt64.ofNat i)) (x : UInt64) :
    (run (rs.map fun r => .stream (d + off r) r) c).mem x =
      if ∃ r ∈ rs, InRange (d + off r) 16 x then m₀ (x - (d - s)) else c.mem x := by
  induction rs generalizing c with
  | nil => simp [run]
  | cons r rs ih =>
    have hcons : run ((r :: rs).map fun r => .stream (d + off r) r) c =
        run (rs.map fun r => .stream (d + off r) r) (Instr.exec c (.stream (d + off r) r)) := rfl
    rw [hcons, ih (c := Instr.exec c (.stream (d + off r) r))
      fun r' hr' i => hxmm r' (List.mem_cons_of_mem _ hr') i]
    by_cases hrs : ∃ r ∈ rs, InRange (d + off r) 16 x
    · rw [if_pos hrs, if_pos (hrs.imp fun r' h => ⟨List.mem_cons_of_mem _ h.1, h.2⟩)]
    · rw [if_neg hrs]
      by_cases hr : InRange (d + off r) 16 x
      · have haddr : s + off r + (x - (d + off r)) = x - (d - s) := by grind
        have hstore : (Instr.exec c (.stream (d + off r) r)).mem x =
            c.xmm r ⟨(x - (d + off r)).toNat, hr⟩ := dif_pos hr
        rw [if_pos ⟨r, List.mem_cons_self, hr⟩, hstore, hxmm r List.mem_cons_self,
          UInt64.ofNat_toNat, haddr]
      · have hkeep : (Instr.exec c (.stream (d + off r) r)).mem x = c.mem x := dif_neg hr
        rw [hkeep, if_neg]
        rintro ⟨r', hr', hx⟩
        rcases List.mem_cons.mp hr' with rfl | hr'
        · exact hr hx
        · exact hrs ⟨r', hr', hx⟩

/-- **A chunk**: all that it reads is read before it writes. -/
theorem copies_chunk {off : Fin 8 → UInt64} (s : UInt64)
    (hparts : ∀ x, (∃ r, InRange (d + off r) 16 x) ↔ x ∈ rangeOf p 128)
    (halign : ∀ r, 16 ∣ (d + off r).toNat) : Copies (d - s) p 128 (chunk off d s) := by
  have hparts' : ∀ x, (∃ r ∈ List.finRange 8, InRange (d + off r) 16 x) ↔ x ∈ rangeOf p 128 := by
    intro x
    rw [← hparts]
    simp
  refine ⟨fun c => ?_, fun x => ?_, fun e he => ?_⟩
  · funext x
    rw [chunk, run_append, run_loadu, run_stream (s := s) c.mem]
    · by_cases hx : x ∈ rangeOf p 128
      · rw [if_pos ((hparts' x).mpr hx), displace_of_mem hx]
      · rw [if_neg fun h => hx ((hparts' x).mp h), displace_of_notMem hx]
    · intro r hr i
      exact if_pos hr
  · rw [← hparts']
    simp [chunk, or_and_right, exists_or, Instr.Writes]
  · rcases List.mem_append.mp he with he | he
    · obtain ⟨r, -, rfl⟩ := List.mem_map.mp he
      trivial
    · obtain ⟨r, -, rfl⟩ := List.mem_map.mp he
      exact halign r

/-- A pointer that goes on by whole units stays aligned. -/
theorem dvd_add_toNat {o : UInt64} (ha : a ∣ 2 ^ 64) (hd : a ∣ d.toNat) (ho : a ∣ o.toNat) :
    a ∣ (d + o).toNat := by
  rw [UInt64.toNat_add]
  exact (Nat.dvd_mod_iff ha).mpr (Nat.dvd_add hd ho)

/-- And one that goes back. -/
theorem dvd_sub_toNat {o : UInt64} (ha : a ∣ 2 ^ 64) (hd : a ∣ d.toNat) (ho : a ∣ o.toNat) :
    a ∣ (d - o).toNat := by
  rw [UInt64.toNat_sub]
  exact (Nat.dvd_mod_iff ha).mpr (Nat.dvd_add (Nat.dvd_sub ha ho) hd)

theorem dvd_toNat_ofNat (ha : a ∣ 2 ^ 64) (hk : a ∣ k) : a ∣ (UInt64.ofNat k).toNat := by
  rw [UInt64.toNat_ofNat']
  exact (Nat.dvd_mod_iff ha).mpr hk

/-- Eight registers, from the `r`-th on. -/
theorem exists_register_iff (x p : UInt64) :
    (∃ r : Fin 8, InRange (p + UInt64.ofNat (16 * r)) 16 x) ↔ x ∈ rangeOf p 128 := by
  rw [mem_rangeOf, InRange]
  constructor
  · rintro ⟨r, hr⟩
    rw [inRange_shift (by omega)] at hr
    omega
  · intro hx
    have hr : (x - p).toNat / 16 < 8 := by omega
    refine ⟨⟨_, hr⟩, (inRange_shift ?_).mpr ?_⟩
    · dsimp only
      omega
    · dsimp only
      omega

theorem copies_chunkForward (s : UInt64) (hd : 16 ∣ d.toNat) :
    Copies (d - s) d 128 (chunkForward d s) :=
  copies_chunk s (fun x => exists_register_iff x d) fun r =>
    dvd_add_toNat (by decide) hd (dvd_toNat_ofNat (by decide) (Nat.dvd_mul_right 16 r))

theorem copies_chunkBackward (s : UInt64) (hd : 16 ∣ d.toNat) :
    Copies (d - s) (d - 128) 128 (chunkBackward d s) := by
  -- the `r`-th register from above is the one before the last `r` from below
  have hoff : ∀ r : Fin 8,
      d + - UInt64.ofNat (16 * (r + 1)) = d - 128 + UInt64.ofNat (16 * (r.rev : ℕ)) := by
    intro r
    have hsum : UInt64.ofNat (16 * (r.rev : ℕ)) + UInt64.ofNat (16 * (r + 1)) = 128 := by
      have hrev := Fin.val_rev r
      rw [← UInt64.ofNat_add, ← Nat.mul_add]
      exact congrArg UInt64.ofNat (show 16 * ((r.rev : ℕ) + (r + 1)) = 128 by omega)
    grind
  refine copies_chunk s (fun x => ?_) fun r => ?_
  · have hrev : Function.Surjective (Fin.rev (n := 8)) := Function.Involutive.surjective Fin.rev_rev
    simp only [hoff]
    rw [← exists_register_iff]
    exact (hrev.exists (p := fun r => InRange (d - 128 + UInt64.ofNat (16 * (r : ℕ))) 16 x)).symm
  · rw [hoff]
    exact dvd_add_toNat (by decide) (dvd_sub_toNat (by decide) hd (by decide))
      (dvd_toNat_ofNat (by decide) (Nat.dvd_mul_right 16 _))

/-- A register loaded and stored. -/
theorem copies_stream (s : UInt64) (hd : 16 ∣ d.toNat) :
    Copies (d - s) d 16 [.loadu 0 s, .stream d 0] where
  mem c := by
    funext x
    by_cases hx : InRange d 16 x
    · have haddr : s + (x - d) = x - (d - s) := by grind
      rw [displace_of_mem (mem_rangeOf.mpr hx), ← haddr]
      simp only [run, List.foldl_cons, List.foldl_nil, Instr.exec, if_pos, UInt64.ofNat_toNat]
      exact dif_pos hx
    · rw [displace_of_notMem (mt mem_rangeOf.mp hx)]
      exact dif_neg hx
  writes x := by simp [Instr.Writes]
  aligned e he := by
    simp only [List.mem_cons, List.not_mem_nil, or_false] at he
    rcases he with rfl | rfl
    · trivial
    · exact hd

/-! ## Loops -/

section Turns

variable {body : UInt64 → UInt64 → List Instr}

/-- **A loop upwards.** -/
theorem copies_turns_up (hbody : ∀ d s, a ∣ d.toNat → Copies (d - s) d k (body d s))
    (ha : a ∣ 2 ^ 64) (hk : a ∣ k) (hd : a ∣ d.toNat) (hroom : k * n ≤ (d - s).toNat) :
    Copies (d - s) d (k * n) (turns body (UInt64.ofNat k) n d s) := by
  induction n generalizing d s with
  | zero => exact copies_nil
  | succ n ih =>
    have hδ : d + UInt64.ofNat k - (s + UInt64.ofNat k) = d - s := by grind
    have hd' := dvd_add_toNat ha hd (dvd_toNat_ofNat ha hk)
    rw [Nat.mul_succ] at hroom
    have hrest := ih (s := s + UInt64.ofNat k) hd' (by rw [hδ]; omega)
    rw [hδ] at hrest
    rw [turns, Nat.mul_succ, Nat.add_comm]
    exact (hbody d s hd).up hrest (by omega)

/-- **A loop downwards.** -/
theorem copies_turns_down
    (hbody : ∀ d s, a ∣ d.toNat → Copies (d - s) (d - UInt64.ofNat k) k (body d s))
    (ha : a ∣ 2 ^ 64) (hk : a ∣ k) (hd : a ∣ d.toNat) (hroom : (d - s).toNat + k * n ≤ 2 ^ 64) :
    Copies (d - s) (d - UInt64.ofNat (k * n)) (k * n) (turns body (- UInt64.ofNat k) n d s) := by
  induction n generalizing d s with
  | zero => exact copies_nil
  | succ n ih =>
    have hback : ∀ q : UInt64, q + - UInt64.ofNat k = q - UInt64.ofNat k := fun q =>
      (UInt64.sub_eq_add_neg _ _).symm
    have hδ : d - UInt64.ofNat k - (s - UInt64.ofNat k) = d - s := by grind
    have hd' := dvd_sub_toNat ha hd (dvd_toNat_ofNat ha hk)
    rw [Nat.mul_succ] at hroom
    have hstart : d - UInt64.ofNat k = d - UInt64.ofNat (k * n + k) + UInt64.ofNat (k * n) := by
      rw [UInt64.ofNat_add]
      grind
    have hstop : d - UInt64.ofNat k - UInt64.ofNat (k * n) = d - UInt64.ofNat (k * n + k) := by
      rw [UInt64.ofNat_add]
      grind
    have hrest := ih (s := s - UInt64.ofNat k) hd' (by rw [hδ]; omega)
    rw [hδ, hstop] at hrest
    rw [turns, hback, hback, Nat.mul_succ]
    exact (hstart ▸ hbody d s hd).down hrest (by omega)

/-- What holds of the instructions of a turn holds of those of the loop. -/
theorem forall_mem_turns {P : Instr → Prop} {size : UInt64} (hbody : ∀ d s, ∀ e ∈ body d s, P e) :
    ∀ e ∈ turns body size n d s, P e := by
  induction n generalizing d s with
  | zero => exact fun e he => absurd he List.not_mem_nil
  | succ n ih => exact fun e he => (List.mem_append.mp he).elim (hbody d s e) (ih e)

end Turns

/-! ## What persists -/

/-- All that is written persists. -/
def Persists (es : List Instr) : Prop := ∀ x, (∃ e ∈ es, e.Writes x) → Durable es x

theorem Durable.append_left (h : Durable es x) (hnot : ∀ f ∈ es', ¬ f.Writes x) :
    Durable (es ++ es') x := by
  obtain ⟨before, e, after, rfl, he, hafter, hout⟩ := h
  refine ⟨before, e, after ++ es', by simp, he, ?_, hout.imp_right ?_⟩
  · intro f hf
    exact (List.mem_append.mp hf).elim (hafter f) (hnot f)
  · rintro ⟨q, hq, hline⟩
    exact ⟨q, List.mem_append_left _ hq, hline⟩

theorem Durable.append_right (h : Durable es' x) : Durable (es ++ es') x := by
  obtain ⟨before, e, after, rfl, he, hafter, hout⟩ := h
  exact ⟨es ++ before, e, after, by simp, he, hafter, hout⟩

/-- **What persists can be put together**: a later write of a byte is the one that counts. -/
theorem Persists.append (h : Persists es) (h' : Persists es') : Persists (es ++ es') := by
  intro x hx
  by_cases hx' : ∃ e ∈ es', e.Writes x
  · exact (h' x hx').append_right
  · obtain ⟨e, he, hw⟩ := hx
    rcases List.mem_append.mp he with he | he
    · exact (h x ⟨e, he, hw⟩).append_left fun f hf hfw => hx' ⟨f, hf, hfw⟩
    · exact absurd ⟨e, he, hw⟩ hx'

/-- The last write of a byte. -/
theorem exists_last_write (h : ∃ e ∈ es, e.Writes x) :
    ∃ before e after, es = before ++ e :: after ∧ e.Writes x ∧ ∀ f ∈ after, ¬ f.Writes x := by
  induction es with
  | nil => exact absurd h (by simp)
  | cons e es ih =>
    by_cases hes : ∃ f ∈ es, f.Writes x
    · obtain ⟨before, f, after, rfl, hf, hafter⟩ := ih hes
      exact ⟨e :: before, f, after, rfl, hf, hafter⟩
    · obtain ⟨f, hf, hw⟩ := h
      rcases List.mem_cons.mp hf with rfl | hf
      · exact ⟨[], f, es, rfl, hw, fun g hg hgw => hes ⟨g, hg, hgw⟩⟩
      · exact absurd ⟨f, hf, hw⟩ hes

/-- Stores past the caches persist. -/
theorem persists_of_streams (h : ∀ e ∈ es, e.Streams ∨ ∀ x, ¬ e.Writes x) : Persists es := by
  intro x hx
  obtain ⟨before, e, after, rfl, he, hafter⟩ := exists_last_write hx
  have hmem : e ∈ before ++ e :: after := List.mem_append_right _ List.mem_cons_self
  have hstreams := (h e hmem).resolve_right fun hnot => hnot x he
  exact ⟨before, e, after, rfl, he, hafter, .inl hstreams⟩

/-- Stores that are flushed persist. -/
theorem persists_flush (hfl : ∀ e ∈ fl, ∃ q, e = .clflush q)
    (hlines : ∀ x, (∃ e ∈ es, e.Writes x) → x.toNat / 64 ∈ flushedLines fl) :
    Persists (es ++ fl) := by
  have hnot : ∀ f ∈ fl, ∀ x, ¬ f.Writes x := by
    intro f hf x hx
    obtain ⟨q, rfl⟩ := hfl f hf
    exact hx
  intro x hx
  have hes : ∃ e ∈ es, e.Writes x := by
    obtain ⟨e, he, hw⟩ := hx
    rcases List.mem_append.mp he with he | he
    · exact ⟨e, he, hw⟩
    · exact absurd hw (hnot e he x)
  obtain ⟨before, e, after, rfl, he, hafter⟩ := exists_last_write hes
  refine ⟨before, e, after ++ fl, by simp, he, ?_, .inr ?_⟩
  · intro f hf
    exact (List.mem_append.mp hf).elim (hafter f) fun hf => hnot f hf x
  · obtain ⟨q, hq, hline⟩ := hlines x hes
    exact ⟨q, List.mem_append_right _ hq, hline⟩

/-- **`flush_clflush`** ends and covers the range, unless the counter wraps. -/
theorem flushLoop_spec {stop : UInt64} (hstop : stop.toNat ≤ 2 ^ 64 - 64) (fuel : ℕ) (uptr : UInt64)
    (hfuel : (stop.toNat - uptr.toNat + 63) / 64 < fuel) :
    ∃ fl, flushLoop stop fuel uptr = some fl ∧ (∀ e ∈ fl, ∃ q, e = .clflush q) ∧
      ∀ y, uptr.toNat ≤ y → y < stop.toNat → ∃ q, Instr.clflush q ∈ fl ∧
        uptr.toNat % 64 = q.toNat % 64 ∧ q.toNat ≤ y ∧ y < q.toNat + 64 := by
  induction fuel generalizing uptr with
  | zero => exact absurd hfuel (Nat.not_lt_zero _)
  | succ fuel ih =>
    have h64 : cachelineAlign.toNat = 64 := rfl
    rw [flushLoop]
    by_cases hlt : uptr < stop
    · rw [if_pos hlt]
      rw [UInt64.lt_iff_toNat_lt] at hlt
      have hnext : (uptr + cachelineAlign).toNat = uptr.toNat + 64 := by
        rw [UInt64.toNat_add, h64]
        omega
      obtain ⟨fl, hfl, honly, hcover⟩ := ih (uptr + cachelineAlign) (by omega)
      refine ⟨.clflush uptr :: fl, by rw [hfl, Option.map_some], ?_, fun y hlo hhi => ?_⟩
      · intro e he
        rcases List.mem_cons.mp he with rfl | he
        · exact ⟨uptr, rfl⟩
        · exact honly e he
      · by_cases hy : y < uptr.toNat + 64
        · exact ⟨uptr, List.mem_cons_self, rfl, hlo, hy⟩
        · obtain ⟨q, hq, hmod, hle, hgt⟩ := hcover y (by omega) hhi
          exact ⟨q, List.mem_cons_of_mem _ hq, by omega, hle, hgt⟩
    · rw [if_neg hlt]
      rw [UInt64.lt_iff_toNat_lt] at hlt
      exact ⟨[], rfl, fun e he => absurd he List.not_mem_nil, fun y hlo hhi => by omega⟩

theorem flushClflush_spec {addr len : UInt64} (fuel : ℕ)
    (hroom : addr.toNat + len.toNat ≤ 2 ^ 64 - 64) (hfuel : (len.toNat + 126) / 64 < fuel) :
    ∃ fl, flushClflush fuel addr len = some fl ∧ (∀ e ∈ fl, ∃ q, e = .clflush q) ∧
      ∀ x ∈ rangeOf addr len.toNat, x.toNat / 64 ∈ flushedLines fl := by
  have hstop : (addr + len).toNat = addr.toNat + len.toNat := by
    rw [UInt64.toNat_add]
    omega
  have hstart : (addr &&& ~~~(cachelineAlign - 1)).toNat = addr.toNat - addr.toNat % 64 :=
    toNat_and_not_low (k := 6) (by decide) addr
  obtain ⟨fl, hfl, honly, hcover⟩ := flushLoop_spec (by omega) fuel _
    (by omega : ((addr + len).toNat - (addr &&& ~~~(cachelineAlign - 1)).toNat + 63) / 64 < fuel)
  refine ⟨fl, hfl, honly, fun x hx => ?_⟩
  have haddr := addr.toNat_lt
  have hxlt := x.toNat_lt
  rw [mem_rangeOf, InRange, UInt64.toNat_sub] at hx
  obtain ⟨q, hq, hmod, hle, hgt⟩ := hcover x.toNat (by omega) (by omega)
  exact ⟨q, hq, by omega⟩

/-! ## The pieces -/

/-- The range is moved, and what is moved persists. -/
def Moves (δ p : UInt64) (n : ℕ) (o : Option (List Instr)) : Prop :=
  ∃ es, o = some es ∧ Copies δ p n es ∧ Persists es

section Stage

variable {body : UInt64 → UInt64 → List Instr} {len sh mask : UInt64} {o : Option (List Instr)}

theorem toNat_shiftRight_eq (hk : k < 64) (hsh : sh.toNat = k) :
    (len >>> sh).toNat = len.toNat / 2 ^ k := by
  rw [UInt64.toNat_shiftRight, hsh, Nat.mod_eq_of_lt hk, Nat.shiftRight_eq_div_pow]

/-- The bytes in whole units. -/
theorem units_eq (hk : k < 64) (hsh : sh.toNat = k) :
    len >>> sh <<< sh = UInt64.ofNat (2 ^ k * (len >>> sh).toNat) := by
  rw [← UInt64.toNat_inj, UInt64.toNat_shiftLeft, hsh, Nat.mod_eq_of_lt hk, Nat.shiftLeft_eq,
    UInt64.toNat_ofNat', Nat.mul_comm]

/-- The units and what is left are all. -/
theorem units_add_rest (len : UInt64) (hk : k < 64) (hsh : sh.toNat = k)
    (hmask : mask.toNat = 2 ^ k - 1) :
    2 ^ k * (len >>> sh).toNat + (len &&& mask).toNat = len.toNat := by
  rw [toNat_shiftRight_eq hk hsh, toNat_and_low hmask]
  exact Nat.div_add_mod len.toNat (2 ^ k)

/-- Going back over the units and what is left is going back over all. -/
theorem sub_units_sub_rest (d len : UInt64) (hk : k < 64) (hsh : sh.toNat = k)
    (hmask : mask.toNat = 2 ^ k - 1) : d - len >>> sh <<< sh - (len &&& mask) = d - len := by
  have hparts := units_add_rest len hk hsh hmask
  have hlen : len = len >>> sh <<< sh + (len &&& mask) := by
    rw [units_eq hk hsh, ← UInt64.toNat_inj, UInt64.toNat_add, UInt64.toNat_ofNat']
    have := len.toNat_lt
    omega
  grind

/-- **Whole units, then the rest, upwards.** -/
theorem Moves.stage_up (hbody : ∀ d s, a ∣ d.toNat → Copies (d - s) d (2 ^ k) (body d s))
    (hstreams : ∀ d s, ∀ e ∈ body d s, e.Streams ∨ ∀ x, ¬ e.Writes x) (ha : a ∣ 2 ^ 64)
    (hak : a ∣ 2 ^ k) (hd : a ∣ d.toNat) (hk : k < 64) (hsh : sh.toNat = k)
    (hmask : mask.toNat = 2 ^ k - 1) (hroom : len.toNat ≤ (d - s).toNat)
    (hrest : Moves (d + len >>> sh <<< sh - (s + len >>> sh <<< sh)) (d + len >>> sh <<< sh)
      (len &&& mask).toNat o) :
    Moves (d - s) d len.toNat
      (o.map (turns body (UInt64.ofNat (2 ^ k)) (len >>> sh).toNat d s ++ ·)) := by
  have hparts := units_add_rest len hk hsh hmask
  have hδ : d + len >>> sh <<< sh - (s + len >>> sh <<< sh) = d - s := by grind
  obtain ⟨es, rfl, hcopies, hpersists⟩ := hrest
  rw [hδ, units_eq hk hsh] at hcopies
  have hunits := copies_turns_up (s := s) (n := (len >>> sh).toNat) hbody ha hak hd (by omega)
  refine ⟨_, rfl, ?_, (persists_of_streams (forall_mem_turns hstreams)).append hpersists⟩
  rw [← hparts]
  exact hunits.up hcopies (by omega)

/-- **Whole units, then the rest, downwards.** -/
theorem Moves.stage_down
    (hbody : ∀ d s, a ∣ d.toNat → Copies (d - s) (d - UInt64.ofNat (2 ^ k)) (2 ^ k) (body d s))
    (hstreams : ∀ d s, ∀ e ∈ body d s, e.Streams ∨ ∀ x, ¬ e.Writes x) (ha : a ∣ 2 ^ 64)
    (hak : a ∣ 2 ^ k) (hd : a ∣ d.toNat) (hk : k < 64) (hsh : sh.toNat = k)
    (hmask : mask.toNat = 2 ^ k - 1) (hroom : (d - s).toNat + len.toNat ≤ 2 ^ 64)
    (hrest : Moves (d - len >>> sh <<< sh - (s - len >>> sh <<< sh))
      (d - len >>> sh <<< sh - (len &&& mask)) (len &&& mask).toNat o) :
    Moves (d - s) (d - len) len.toNat
      (o.map (turns body (- UInt64.ofNat (2 ^ k)) (len >>> sh).toNat d s ++ ·)) := by
  have hparts := units_add_rest len hk hsh hmask
  have hδ : d - len >>> sh <<< sh - (s - len >>> sh <<< sh) = d - s := by grind
  have hstart := sub_units_sub_rest d len hk hsh hmask
  have hstop : d - len >>> sh <<< sh = d - len + UInt64.ofNat (len &&& mask).toNat := by
    rw [UInt64.ofNat_toNat]
    grind
  obtain ⟨es, rfl, hcopies, hpersists⟩ := hrest
  rw [hδ, hstart] at hcopies
  have hunits := copies_turns_down (s := s) (n := (len >>> sh).toNat) hbody ha hak hd (by omega)
  rw [← units_eq hk hsh, hstop] at hunits
  refine ⟨_, rfl, ?_, (persists_of_streams (forall_mem_turns hstreams)).append hpersists⟩
  rw [← hparts, Nat.add_comm]
  exact hunits.down hcopies (by omega)

end Stage

theorem streams_chunk (off : Fin 8 → UInt64) (d s : UInt64) :
    ∀ e ∈ chunk off d s, e.Streams ∨ ∀ x, ¬ e.Writes x := by
  intro e he
  rcases List.mem_append.mp he with he | he
  · obtain ⟨r, -, rfl⟩ := List.mem_map.mp he
    exact .inr fun x => not_false
  · obtain ⟨r, -, rfl⟩ := List.mem_map.mp he
    exact .inl trivial

theorem streams_pair (r : Fin 8) (d s : UInt64) :
    ∀ e ∈ [Instr.loadu r s, .stream d r], e.Streams ∨ ∀ x, ¬ e.Writes x := by
  intro e he
  simp only [List.mem_cons, List.not_mem_nil, or_false] at he
  rcases he with rfl | rfl
  · exact .inr fun x => not_false
  · exact .inl trivial

theorem streams_dword (d s : UInt64) :
    ∀ e ∈ [Instr.stream32 d s], e.Streams ∨ ∀ x, ¬ e.Writes x := by
  intro e he
  rw [List.mem_singleton.mp he]
  exact .inl trivial

/-- **Bytes upwards.** -/
theorem bytesForward_moves {fuel : ℕ} {cnt : UInt64} (hroom : cnt.toNat ≤ (d - s).toNat)
    (hend : d.toNat + cnt.toNat ≤ 2 ^ 64 - 64) (hfuel : (cnt.toNat + 126) / 64 < fuel) :
    Moves (d - s) d cnt.toNat (bytesForward fuel d s cnt) := by
  obtain ⟨fl, hfl, honly, hlines⟩ := flushClflush_spec fuel hend hfuel
  have hbytes := copies_turns_up (a := 1) (k := 1) (d := d) (s := s) (n := cnt.toNat)
    (fun d s _ => copies_mov8 d s) (by decide) (Nat.dvd_refl 1) (Nat.one_dvd _) (by omega)
  rw [Nat.one_mul] at hbytes
  refine ⟨_, by rw [bytesForward, hfl]; rfl, hbytes.flush honly, persists_flush honly ?_⟩
  exact fun x hx => hlines x ((hbytes.writes x).mp hx)

/-- **Bytes downwards.** -/
theorem bytesBackward_moves {fuel : ℕ} {cnt : UInt64} (hroom : (d - s).toNat + cnt.toNat ≤ 2 ^ 64)
    (hend : (d - cnt).toNat + cnt.toNat ≤ 2 ^ 64 - 64) (hfuel : (cnt.toNat + 126) / 64 < fuel) :
    Moves (d - s) (d - cnt) cnt.toNat (bytesBackward fuel d s cnt) := by
  obtain ⟨fl, hfl, honly, hlines⟩ := flushClflush_spec fuel hend hfuel
  have hbody : ∀ d s : UInt64, 1 ∣ d.toNat →
      Copies (d - s) (d - UInt64.ofNat 1) 1 [.mov8 (d - 1) (s - 1)] := by
    intro d s _
    have hδ : d - 1 - (s - 1) = d - s := by grind
    exact hδ ▸ copies_mov8 (d - 1) (s - 1)
  have hbytes := copies_turns_down (n := cnt.toNat) (s := s) hbody (by decide) (Nat.dvd_refl 1)
    (Nat.one_dvd d.toNat) (by omega)
  rw [Nat.one_mul, UInt64.ofNat_toNat] at hbytes
  refine ⟨_, by rw [bytesBackward, hfl]; rfl, hbytes.flush honly, persists_flush honly ?_⟩
  exact fun x hx => hlines x ((hbytes.writes x).mp hx)

theorem moves_nil (δ p : UInt64) : Moves δ p 0 (some []) :=
  ⟨[], rfl, copies_nil, fun _ ⟨_, he, _⟩ => absurd he List.not_mem_nil⟩

/-- A loop that is not entered. -/
theorem turns_shiftRight {body : UInt64 → UInt64 → List Instr} {size len sh : UInt64} :
    (if len ≠ 0 then turns body size (len >>> sh).toNat d s else []) =
      turns body size (len >>> sh).toNat d s := by
  split_ifs with h
  · rfl
  · rw [not_not.mp h, UInt64.zero_shiftRight]
    rfl

variable {fuel : ℕ} {len : UInt64}

/-- What is left after whole units, and where it starts. -/
theorem rest_bounds {sh mask : UInt64} (hk : k < 64) (hsh : sh.toNat = k)
    (hmask : mask.toNat = 2 ^ k - 1) (hend : d.toNat + len.toNat < 2 ^ 64) :
    (len &&& mask).toNat < 2 ^ k ∧ (len &&& mask).toNat ≤ len.toNat ∧
      (d + len >>> sh <<< sh).toNat + (len &&& mask).toNat = d.toNat + len.toNat := by
  have hparts := units_add_rest len hk hsh hmask
  have hlt := Nat.mod_lt len.toNat (Nat.two_pow_pos k)
  rw [← toNat_and_low hmask] at hlt
  refine ⟨hlt, by omega, ?_⟩
  rw [units_eq hk hsh, UInt64.toNat_add, UInt64.toNat_ofNat']
  omega

theorem dvd_units {sh : UInt64} (len : UInt64) (hk : k < 64) (hsh : sh.toNat = k) (ha : a ∣ 2 ^ 64)
    (hak : a ∣ 2 ^ k) : a ∣ (len >>> sh <<< sh).toNat := by
  rw [units_eq hk hsh]
  exact dvd_toNat_ofNat ha (Nat.dvd_mul_right_of_dvd hak _)

theorem add_sub_add (d s o : UInt64) : d + o - (s + o) = d - s := by grind

theorem lastForward_moves (hd : 4 ∣ d.toNat) (hroom : len.toNat ≤ (d - s).toNat)
    (hend : d.toNat + len.toNat ≤ 2 ^ 64 - 64) (hfuel : 2 < fuel) :
    Moves (d - s) d len.toNat (lastForward fuel d s len) := by
  rw [lastForward]
  split_ifs with hlen
  · obtain ⟨hlt, hle, hsum⟩ := rest_bounds (k := 2) (d := d) (by decide)
      (rfl : dwordShift.toNat = 2) (rfl : dwordMask.toNat = 2 ^ 2 - 1)
      (by omega : d.toNat + len.toNat < 2 ^ 64)
    refine Moves.stage_up (a := 4) (k := 2) (fun d s hd => copies_stream32 s hd) streams_dword
      (by decide) (by decide) hd (by decide) rfl rfl hroom (bytesForward_moves ?_ ?_ (by omega))
    · rw [add_sub_add]
      omega
    · omega
  · rw [not_not.mp hlen]
    exact moves_nil _ _

theorem tailForward_moves (hd : 16 ∣ d.toNat) (hroom : len.toNat ≤ (d - s).toNat)
    (hend : d.toNat + len.toNat ≤ 2 ^ 64 - 64) (hfuel : 2 < fuel) :
    Moves (d - s) d len.toNat (tailForward fuel d s len) := by
  obtain ⟨hlt, hle, hsum⟩ := rest_bounds (k := 4) (d := d) (by decide) (rfl : movntShift.toNat = 4)
    (rfl : movntMask.toNat = 2 ^ 4 - 1) (by omega : d.toNat + len.toNat < 2 ^ 64)
  have hoff := dvd_units (a := 4) len (by decide) (rfl : movntShift.toNat = 4) (by decide)
    (by decide)
  simp only [tailForward, turns_shiftRight]
  refine Moves.stage_up (a := 16) (k := 4) (fun d s hd => copies_stream s hd) (streams_pair 0)
    (by decide) (by decide) hd (by decide) rfl rfl hroom (lastForward_moves ?_ ?_ (by omega) hfuel)
  · exact dvd_add_toNat (by decide) (Nat.dvd_trans (by decide) hd) hoff
  · rw [add_sub_add]
    omega

theorem linesForward_moves (hd : 64 ∣ d.toNat) (hroom : len.toNat ≤ (d - s).toNat)
    (hend : d.toNat + len.toNat ≤ 2 ^ 64 - 64) (hfuel : 2 < fuel) :
    Moves (d - s) d len.toNat (linesForward fuel d s len) := by
  obtain ⟨hlt, hle, hsum⟩ := rest_bounds (k := 7) (d := d) (by decide) (rfl : chunkShift.toNat = 7)
    (rfl : chunkMask.toNat = 2 ^ 7 - 1) (by omega : d.toNat + len.toNat < 2 ^ 64)
  have hoff := dvd_units (a := 16) len (by decide) (rfl : chunkShift.toNat = 7) (by decide)
    (by decide)
  have hd16 : 16 ∣ d.toNat := Nat.dvd_trans (by decide) hd
  refine Moves.stage_up (a := 16) (k := 7) (fun d s hd => copies_chunkForward s hd)
    (streams_chunk _) (by decide) (by decide) hd16 (by decide) rfl rfl hroom
    (tailForward_moves (dvd_add_toNat (by decide) hd16 hoff) ?_ (by omega) hfuel)
  rw [add_sub_add]
  omega

/-- What is moved before the first line, and the line. -/
theorem headForward_spec (hlen : 64 ≤ len.toNat) :
    (headForward d len).toNat < 64 ∧ 64 ∣ (d + headForward d len).toNat := by
  have hmask : (d &&& cachelineMask).toNat = d.toNat % 64 := toNat_and_low (k := 6) (by decide) d
  have h64 : cachelineAlign.toNat = 64 := rfl
  have hsub : (cachelineAlign - (d &&& cachelineMask)).toNat = 64 - d.toNat % 64 := by
    rw [UInt64.toNat_sub, hmask, h64]
    omega
  have hd := d.toNat_lt
  simp only [headForward, UInt64.lt_iff_toNat_lt, hmask, hsub]
  rw [UInt64.toNat_zero]
  by_cases hpos : 0 < d.toNat % 64
  · rw [if_pos hpos, if_neg (by omega)]
    refine ⟨by omega, ?_⟩
    rw [UInt64.toNat_add, hsub]
    omega
  · rw [if_neg (by omega), UInt64.add_zero]
    exact ⟨by decide, by omega⟩

/-- **Going upwards.** -/
theorem moveForward_moves (hlen : 64 ≤ len.toNat) (hroom : len.toNat ≤ (d - s).toNat)
    (hend : d.toNat + len.toNat ≤ 2 ^ 64 - 64) (hfuel : 2 < fuel) :
    Moves (d - s) d len.toNat (moveForward fuel d s len) := by
  obtain ⟨hle, hdvd⟩ := headForward_spec (d := d) hlen
  simp only [moveForward]
  generalize headForward d len = cnt at hle hdvd ⊢
  have hcnt : (len - cnt).toNat = len.toNat - cnt.toNat := by
    rw [UInt64.toNat_sub]
    omega
  have hdest : (d + cnt).toNat = d.toNat + cnt.toNat := by
    rw [UInt64.toNat_add]
    omega
  have hhead : Moves (d - s) d cnt.toNat
      (if 0 < cnt then bytesForward fuel d s cnt else some []) := by
    split_ifs with hpos
    · exact bytesForward_moves (by omega) (by omega) (by omega)
    · have hzero : cnt.toNat = 0 := by
        rw [UInt64.lt_iff_toNat_lt] at hpos
        exact Nat.eq_zero_of_not_pos hpos
      rw [hzero]
      exact moves_nil _ _
  obtain ⟨head, hheads, hcopies, hpersists⟩ := hhead
  have hroom' : (len - cnt).toNat ≤ (d + cnt - (s + cnt)).toNat := by
    rw [add_sub_add]
    omega
  have hlines := linesForward_moves hdvd hroom' (by omega) hfuel
  rw [add_sub_add, hcnt] at hlines
  obtain ⟨lines, hliness, hcopies', hpersists'⟩ := hlines
  refine ⟨head ++ lines, ?_, ?_, hpersists.append hpersists'⟩
  · rw [hheads, Option.bind_some, hliness, Option.map_some]
  · have hsum := hcopies.up (n := len.toNat - cnt.toNat) (by rwa [UInt64.ofNat_toNat]) (by omega)
    rwa [Nat.add_sub_cancel' (by omega)] at hsum

/-! ## Going downwards -/

theorem sub_sub_sub (d s o : UInt64) : d - o - (s - o) = d - s := by grind

theorem lastBackward_moves (hd : 4 ∣ d.toNat) (hroom : (d - s).toNat + len.toNat ≤ 2 ^ 64)
    (hend : (d - len).toNat + len.toNat ≤ 2 ^ 64 - 64) (hfuel : 2 < fuel) :
    Moves (d - s) (d - len) len.toNat (lastBackward fuel d s len) := by
  rw [lastBackward]
  split_ifs with hlen
  · have hbody : ∀ d s : UInt64, 4 ∣ d.toNat →
        Copies (d - s) (d - 4) 4 [.stream32 (d - 4) (s - 4)] := by
      intro d s hd
      rw [← sub_sub_sub d s 4]
      exact copies_stream32 _ (dvd_sub_toNat (by decide) hd (by decide))
    have hparts := units_add_rest len (by decide) (rfl : dwordShift.toNat = 2)
      (rfl : dwordMask.toNat = 2 ^ 2 - 1)
    have hlt := Nat.mod_lt len.toNat (Nat.two_pow_pos 2)
    rw [← toNat_and_low (m := dwordMask) (k := 2) rfl] at hlt
    refine Moves.stage_down (a := 4) (k := 2) hbody (fun d s => streams_dword (d - 4) (s - 4))
      (by decide) (by decide) hd (by decide) rfl rfl hroom (bytesBackward_moves ?_ ?_ (by omega))
    · rw [sub_sub_sub]
      omega
    · rw [sub_units_sub_rest d len (k := 2) (by decide) rfl rfl]
      omega
  · rw [not_not.mp hlen, UInt64.sub_zero]
    exact moves_nil _ _

theorem tailBackward_moves (hd : 16 ∣ d.toNat) (hroom : (d - s).toNat + len.toNat ≤ 2 ^ 64)
    (hend : (d - len).toNat + len.toNat ≤ 2 ^ 64 - 64) (hfuel : 2 < fuel) :
    Moves (d - s) (d - len) len.toNat (tailBackward fuel d s len) := by
  have hbody : ∀ d s : UInt64, 16 ∣ d.toNat →
      Copies (d - s) (d - 16) 16 [.loadu 0 (s - 16), .stream (d - 16) 0] := by
    intro d s hd
    rw [← sub_sub_sub d s 16]
    exact copies_stream _ (dvd_sub_toNat (by decide) hd (by decide))
  have hparts := units_add_rest len (by decide) (rfl : movntShift.toNat = 4)
    (rfl : movntMask.toNat = 2 ^ 4 - 1)
  have hoff := dvd_units (a := 4) len (by decide) (rfl : movntShift.toNat = 4) (by decide)
    (by decide)
  simp only [tailBackward, turns_shiftRight]
  refine Moves.stage_down (a := 16) (k := 4) hbody (fun d s => streams_pair 0 (d - 16) (s - 16))
    (by decide) (by decide) hd (by decide) rfl rfl hroom (lastBackward_moves ?_ ?_ ?_ hfuel)
  · exact dvd_sub_toNat (by decide) (Nat.dvd_trans (by decide) hd) hoff
  · rw [sub_sub_sub]
    omega
  · rw [sub_units_sub_rest d len (k := 4) (by decide) rfl rfl]
    omega

theorem linesBackward_moves (hd : 64 ∣ d.toNat) (hroom : (d - s).toNat + len.toNat ≤ 2 ^ 64)
    (hend : (d - len).toNat + len.toNat ≤ 2 ^ 64 - 64) (hfuel : 2 < fuel) :
    Moves (d - s) (d - len) len.toNat (linesBackward fuel d s len) := by
  have hparts := units_add_rest len (by decide) (rfl : chunkShift.toNat = 7)
    (rfl : chunkMask.toNat = 2 ^ 7 - 1)
  have hoff := dvd_units (a := 16) len (by decide) (rfl : chunkShift.toNat = 7) (by decide)
    (by decide)
  have hd16 : 16 ∣ d.toNat := Nat.dvd_trans (by decide) hd
  refine Moves.stage_down (a := 16) (k := 7) (fun d s hd => copies_chunkBackward s hd)
    (streams_chunk _) (by decide) (by decide) hd16 (by decide) rfl rfl hroom
    (tailBackward_moves (dvd_sub_toNat (by decide) hd16 hoff) ?_ ?_ hfuel)
  · rw [sub_sub_sub]
    omega
  · rw [sub_units_sub_rest d len (k := 7) (by decide) rfl rfl]
    omega

/-- What is moved from the last line on, and the line. -/
theorem headBackward_spec (hlen : 64 ≤ len.toNat) :
    (headBackward d len).toNat < 64 ∧ 64 ∣ (d - headBackward d len).toNat := by
  have hmask : (d &&& cachelineMask).toNat = d.toNat % 64 := toNat_and_low (k := 6) (by decide) d
  have hd := d.toNat_lt
  simp only [headBackward, UInt64.lt_iff_toNat_lt, hmask]
  rw [if_neg (by omega), hmask, UInt64.toNat_sub, hmask]
  omega

/-- **Going downwards.** -/
theorem moveBackward_moves (hlen : 64 ≤ len.toNat) (hroom : (d - s).toNat + len.toNat ≤ 2 ^ 64)
    (hend : d.toNat + len.toNat ≤ 2 ^ 64 - 64) (hfuel : 2 < fuel) :
    Moves (d - s) d len.toNat (moveBackward fuel d s len) := by
  obtain ⟨hle, hdvd⟩ := headBackward_spec (d := d + len) hlen
  simp only [moveBackward]
  generalize headBackward (d + len) len = cnt at hle hdvd ⊢
  have hcnt : (len - cnt).toNat = len.toNat - cnt.toNat := by
    rw [UInt64.toNat_sub]
    omega
  have hδ : d + len - cnt - (s + len - cnt) = d - s := by
    rw [sub_sub_sub, add_sub_add]
  have hback : d + len - cnt - (len - cnt) = d := by grind
  have hstop : (d + len).toNat = d.toNat + len.toNat := by
    rw [UInt64.toNat_add]
    omega
  have hhead : Moves (d - s) (d + len - cnt) cnt.toNat
      (if 0 < cnt then bytesBackward fuel (d + len) (s + len) cnt else some []) := by
    rw [← add_sub_add d s len]
    split_ifs with hpos
    · refine bytesBackward_moves (by rw [add_sub_add]; omega) ?_ (by omega)
      rw [UInt64.toNat_sub, hstop]
      omega
    · have hzero : cnt.toNat = 0 := by
        rw [UInt64.lt_iff_toNat_lt] at hpos
        exact Nat.eq_zero_of_not_pos hpos
      rw [hzero]
      exact moves_nil _ _
  obtain ⟨head, hheads, hcopies, hpersists⟩ := hhead
  have hroom' : (d + len - cnt - (s + len - cnt)).toNat + (len - cnt).toNat ≤ 2 ^ 64 := by
    rw [hδ]
    omega
  have hlines := linesBackward_moves hdvd hroom' (by rw [hback]; omega) hfuel
  rw [hδ, hback, hcnt] at hlines
  obtain ⟨lines, hliness, hcopies', hpersists'⟩ := hlines
  refine ⟨head ++ lines, ?_, ?_, hpersists.append hpersists'⟩
  · rw [hheads, Option.bind_some, hliness, Option.map_some]
  · have hstart : d + len - cnt = d + UInt64.ofNat (len.toNat - cnt.toNat) := by
      rw [← hcnt, UInt64.ofNat_toNat]
      grind
    rw [hstart] at hcopies
    have hsum := hcopies.down hcopies' (by omega)
    rwa [Nat.sub_add_cancel (by omega)] at hsum

/-! ## The move as a whole -/

/-- What a move to persistent memory is for. -/
structure MoveRight (dest src len : UInt64) (es : List Instr) : Prop where
  /-- the bytes of the range are what was at the source, and no others have changed -/
  mem : ∀ c x, (run es c).mem x =
    if InRange dest len.toNat x then c.mem (src + (x - dest)) else c.mem x
  /-- they persist, unless there is nothing to move -/
  durable : src ≠ dest → ∀ x, InRange dest len.toNat x → Durable es x
  /-- a register is stored only where the processor lets it -/
  aligned : ∀ e ∈ es, e.Aligned
  /-- stores past the caches are over when the function returns -/
  drained : (∃ e ∈ es, e.Streams) → es.getLast? = some .sfence

theorem Copies.mem_eq (h : Copies (d - s) d len.toNat es) (c : Machine) (x : UInt64) :
    (run es c).mem x = if InRange d len.toNat x then c.mem (s + (x - d)) else c.mem x := by
  rw [h.mem, ← copy_eq]
  rfl

/-- A barrier at the end. -/
theorem Moves.sfence_right {o : Option (List Instr)} (h : Moves (d - s) d len.toNat o) :
    ∃ es, o.map (· ++ [.sfence]) = some es ∧ MoveRight d s len es := by
  obtain ⟨es, rfl, hcopies, hpersists⟩ := h
  refine ⟨es ++ [.sfence], rfl, fun c x => ?_, fun _ x hx => ?_, fun e he => ?_, fun _ => ?_⟩
  · rw [run_append]
    exact hcopies.mem_eq c x
  · refine (hpersists x ((hcopies.writes x).mpr hx)).append_left fun f hf => ?_
    rw [List.mem_singleton.mp hf]
    exact not_false
  · rcases List.mem_append.mp he with he | he
    · exact hcopies.aligned e he
    · rw [List.mem_singleton.mp he]
      trivial
  · exact List.getLast?_concat

/-- **`memmove_nodrain_movnt`** moves a range as `memmove` does, whichever way it goes, and what it
has moved persists. In the last line of the address space the counter of `flush_clflush` wraps. -/
theorem memmoveNodrainMovnt_right (dest src len : UInt64) (fuel : ℕ)
    (hsrc : src.toNat + len.toNat ≤ 2 ^ 64) (hdest : dest.toNat + len.toNat ≤ 2 ^ 64 - 64)
    (hfuel : 6 ≤ fuel) :
    ∃ es, memmoveNodrainMovnt fuel dest src len = some es ∧ MoveRight dest src len es := by
  have h256 : movntThreshold.toNat = 256 := rfl
  rw [memmoveNodrainMovnt]
  split_ifs with hnone hshort hup
  · refine ⟨[], rfl, fun c x => ?_, fun hne x hx => ?_, fun e he => absurd he List.not_mem_nil,
      fun ⟨e, he, _⟩ => absurd he List.not_mem_nil⟩
    · rcases hnone with rfl | rfl
      · exact (if_neg not_inRange_zero).symm
      · have haddr : src + (x - src) = x := by grind
        rw [haddr, ite_self]
        rfl
    · rw [hnone.resolve_right hne] at hx
      exact absurd hx not_inRange_zero
  · rw [UInt64.lt_iff_toNat_lt] at hshort
    obtain ⟨fl, hfl, honly, hlines⟩ := flushClflush_spec fuel hdest (by omega)
    have hmove : Copies (dest - src) dest len.toNat [.memmove dest src len] :=
      ⟨fun c => copy_eq c.mem dest src len.toNat, fun x => by simp [Instr.Writes],
        fun e he => by rw [List.mem_singleton.mp he]; trivial⟩
    have hflush := hmove.flush honly
    refine ⟨[.memmove dest src len] ++ fl, by rw [hfl]; rfl, hflush.mem_eq, fun _ x hx => ?_,
      hflush.aligned, ?_⟩
    · exact persists_flush honly (fun x hx => hlines x ((hmove.writes x).mp hx)) x
        ((hflush.writes x).mpr hx)
    · rintro ⟨e, he, hstream⟩
      rcases List.mem_append.mp he with he | he
      · rw [List.mem_singleton.mp he] at hstream
        exact hstream.elim
      · obtain ⟨q, rfl⟩ := honly e he
        exact hstream.elim
  · rw [UInt64.lt_iff_toNat_lt] at hshort
    rw [ge_iff_le, UInt64.le_iff_toNat_le] at hup
    exact (moveForward_moves (by omega) hup hdest (by omega)).sfence_right
  · -- the distance is less than the length, and so both ranges are in front of the last address
    rw [UInt64.lt_iff_toNat_lt] at hshort
    rw [ge_iff_le, UInt64.le_iff_toNat_le] at hup
    have hroom : (dest - src).toNat + len.toNat ≤ 2 ^ 64 := by
      have hsub := UInt64.toNat_sub dest src
      omega
    exact (moveBackward_moves (by omega) hroom hdest (by omega)).sfence_right

/-- A range that is moved up by less than its length. -/
theorem memmoveNodrainMovnt_right_overlap :
    ∃ es, memmoveNodrainMovnt 6 100 60 300 = some es ∧ MoveRight 100 60 300 es :=
  memmoveNodrainMovnt_right 100 60 300 6 (by decide) (by decide) (Nat.le_refl 6)

end Zus.Memmove
