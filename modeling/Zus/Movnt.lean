import Zus.Lib.Lines
import Zus.Lib.Mask

/-!
# Cache lines and zeroing

`movnt.h` brings what the caches hold to persistent memory. The flush functions step over a range
line by line; `memzero_nt` zeroes a range, its whole lines with non-temporal stores and its two
ends with ordinary ones, which are flushed.

Addresses and sizes have 64 bits and wrap around. The lengths and the counters of the flush
functions have 32 bits.
-/

namespace Zus.Movnt

open Zus.Lib

/-- `CACHELINE_SHIFT`. -/
def cachelineShift : UInt64 := 6

/-- `CACHELINE_SIZE`. -/
def cachelineSize : UInt64 := 1 <<< cachelineShift

/-- What is done to memory and to the caches, in the order in which it is done. -/
inductive Event
  /-- `memset` with zeros -/
  | memset (dst len : UInt64)
  /-- eight bytes of zeros past the caches -/
  | movnti (dst : UInt64)
  /-- `_mm_clflush` -/
  | clflush (p : UInt64)
  /-- `a_clwb` -/
  | clwb (p : UInt64)
  /-- `a_clflushopt` -/
  | clflushopt (p : UInt64)
  /-- `_mm_sfence` -/
  | sfence
  deriving DecidableEq

/-! ## The flush functions -/

/-- `(unsigned long)(buf) & (CACHELINE_SIZE - 1)`. -/
def inLine (buf : UInt64) : UInt64 := buf &&& (cachelineSize - 1)

/-- The length that the loops go up to. -/
def lineLen (buf : UInt64) (len : UInt32) : UInt32 := (len.toUInt64 + inLine buf).toUInt32

/-- Turns of the loop of a flush function; nothing when it goes on after `fuel` turns. -/
def flushLoop (flush : UInt64 → Event) (buf : UInt64) (len : UInt32) : ℕ → UInt32 →
    Option (List Event)
  | 0, _ => none
  | fuel + 1, i =>
    if i < len then
      (flushLoop flush buf len fuel (i.toUInt64 + cachelineSize).toUInt32).map
        (flush (buf + i.toUInt64) :: ·)
    else some []

/-- `cl_flush`. -/
def clFlush (fuel : ℕ) (buf : UInt64) (len : UInt32) : Option (List Event) :=
  flushLoop .clflush buf (lineLen buf len) fuel 0

/-- `__cl_flush_wb`. -/
def clFlushWb (fuel : ℕ) (buf : UInt64) (len : UInt32) : Option (List Event) :=
  (flushLoop .clwb buf (lineLen buf len) fuel 0).map (· ++ [.sfence])

/-- `__cl_flush_opt`. -/
def clFlushOpt (fuel : ℕ) (buf : UInt64) (len : UInt32) : Option (List Event) :=
  (flushLoop .clflushopt buf (lineLen buf len) fuel 0).map (· ++ [.sfence])

/-- The address whose line is written back. -/
def Event.flushes : Event → Option UInt64
  | .clflush p | .clwb p | .clflushopt p => some p
  | .memset .. | .movnti _ | .sfence => none

/-- The lines that are written back. -/
def flushedLines (es : List Event) : Set ℕ := {l | ∃ e ∈ es, ∃ p ∈ e.flushes, p.toNat / 64 = l}

/-- The loop ends, and the lines written back are those that the buffer meets. -/
def FlushRight (flushed : ℕ → UInt64 → UInt32 → Option (List Event)) (buf : UInt64)
    (len : UInt32) : Prop :=
  ∃ fuel es, flushed fuel buf len = some es ∧ flushedLines es = linesOf 64 buf.toNat len.toNat

variable {flush : UInt64 → Event} {buf : UInt64} {len i : UInt32} {fuel : ℕ} {es es' : List Event}

theorem toNat_inLine (buf : UInt64) : (inLine buf).toNat = buf.toNat % 64 :=
  toNat_and_low (k := 6) (by decide) buf

theorem toNat_lineLen (buf : UInt64) (len : UInt32) :
    (lineLen buf len).toNat = (len.toNat + buf.toNat % 64) % 2 ^ 32 := by
  have hlen := len.toNat_lt
  rw [lineLen, UInt64.toNat_toUInt32, UInt64.toNat_add, UInt32.toNat_toUInt64, toNat_inLine]
  omega

/-- What the counter is after a turn. -/
theorem toNat_next (i : UInt32) :
    (i.toUInt64 + cachelineSize).toUInt32.toNat = (i.toNat + 64) % 2 ^ 32 := by
  have hi := i.toNat_lt
  have hsize : cachelineSize.toNat = 64 := by decide
  rw [UInt64.toNat_toUInt32, UInt64.toNat_add, UInt32.toNat_toUInt64, hsize]
  omega

/-- The turns that the loop still takes at `i`. -/
def turns (len i : UInt32) : ℕ := (len.toNat - i.toNat + 63) / 64

/-- **A loop that ends** when the counter cannot wrap. -/
theorem flushLoop_eq (h : len.toNat ≤ 2 ^ 32 - 64) : flushLoop flush buf len fuel i =
    if turns len i < fuel then some ((List.range (turns len i)).map fun j =>
      flush (buf + i.toUInt64 + UInt64.ofNat (64 * j))) else none := by
  induction fuel generalizing i with
  | zero => rfl
  | succ fuel ih =>
    rw [flushLoop]
    by_cases hi : i < len
    · have hlt := UInt32.lt_iff_toNat_lt.mp hi
      have hnext : (i.toUInt64 + cachelineSize).toUInt32.toNat = i.toNat + 64 := by
        rw [toNat_next]
        omega
      have hturns : turns len i = turns len (i.toUInt64 + cachelineSize).toUInt32 + 1 := by
        rw [turns, turns, hnext]
        omega
      have haddr : (i.toUInt64 + cachelineSize).toUInt32.toUInt64 = i.toUInt64 + UInt64.ofNat 64 := by
        rw [← UInt64.toNat_inj, UInt32.toNat_toUInt64, hnext, UInt64.toNat_add, UInt32.toNat_toUInt64]
        exact (Nat.mod_eq_of_lt (by omega)).symm
      rw [if_pos hi, ih, hturns, haddr]
      split_ifs
      · rw [Option.map_some, List.range_succ_eq_map, List.map_cons, List.map_map]
        congr 2
        · simp
        · refine List.map_congr_left fun j _ => congrArg flush ?_
          rw [Nat.mul_succ, Nat.add_comm, UInt64.ofNat_add, ← UInt64.add_assoc, ← UInt64.add_assoc]
      · omega
      · omega
      · rfl
    · have hle : len.toNat ≤ i.toNat := UInt32.le_iff_toNat_le.mp (UInt32.not_lt.mp hi)
      have hzero : turns len i = 0 := by
        rw [turns]
        omega
      rw [if_neg hi, hzero, if_pos (Nat.succ_pos fuel)]
      rfl

/-- **A loop without end**: the counter comes back to zero before it gets to the length. -/
theorem flushLoop_endless (h : 2 ^ 32 - 64 < len.toNat) (hi : i.toNat % 64 = 0) :
    flushLoop flush buf len fuel i = none := by
  induction fuel generalizing i with
  | zero => rfl
  | succ fuel ih =>
    have hlt : i < len := by
      have := i.toNat_lt
      rw [UInt32.lt_iff_toNat_lt]
      omega
    have hnext : (i.toUInt64 + cachelineSize).toUInt32.toNat % 64 = 0 := by
      rw [toNat_next]
      omega
    rw [flushLoop, if_pos hlt, ih hnext, Option.map_none]

/-- The lines of a walk that does not wrap. -/
theorem flushedLines_walk {n : ℕ} (hflush : ∀ p, (flush p).flushes = some p)
    (hroom : buf.toNat - buf.toNat % 64 + 64 * n ≤ 2 ^ 64) :
    flushedLines ((List.range n).map fun j =>
      flush (buf + (0 : UInt32).toUInt64 + UInt64.ofNat (64 * j))) = visited 64 buf.toNat n := by
  have haddr : ∀ j < n,
      (buf + (0 : UInt32).toUInt64 + UInt64.ofNat (64 * j)).toNat = buf.toNat + 64 * j := by
    intro j hj
    have hbuf := Nat.mod_lt buf.toNat (by decide : 0 < 64)
    have hzero : buf + (0 : UInt32).toUInt64 = buf := UInt64.add_zero buf
    rw [hzero, UInt64.toNat_add, UInt64.toNat_ofNat']
    omega
  ext l
  simp only [flushedLines, visited, Set.mem_ofPred_eq, List.mem_map, List.mem_range]
  constructor
  · rintro ⟨e, ⟨j, hj, rfl⟩, p, hp, hl⟩
    rw [hflush] at hp
    obtain rfl := Option.some.inj hp
    exact ⟨j, hj, by rw [← haddr j hj, hl]⟩
  · rintro ⟨j, hj, hl⟩
    exact ⟨_, ⟨j, hj, rfl⟩, _, hflush _, by rw [haddr j hj, hl]⟩

/-- The barrier at the end writes nothing back. -/
theorem flushedLines_sfence (es : List Event) : flushedLines (es ++ [.sfence]) = flushedLines es := by
  simp [flushedLines, Event.flushes]

/-- The counter does not come near its limit, and an empty buffer starts a line. -/
def FlushFits (buf : UInt64) (len : UInt32) : Prop :=
  len.toNat + buf.toNat % 64 ≤ 2 ^ 32 - 64 ∧ (len = 0 → buf.toNat % 64 = 0)

/-- The turns of a loop that ends are as many as the lines of the buffer just when it fits. -/
theorem turns_eq_iff (hend : (lineLen buf len).toNat ≤ 2 ^ 32 - 64) :
    turns (lineLen buf len) 0 = lineCount 64 buf.toNat len.toNat ↔ FlushFits buf len := by
  have hlen := len.toNat_lt
  have hzero : len = 0 ↔ len.toNat = 0 := UInt32.toNat_inj.symm
  rw [turns, lineCount, FlushFits, hzero, UInt32.toNat_zero]
  rw [toNat_lineLen] at hend ⊢
  split_ifs <;> omega

/-- **The loop of the flush functions.** -/
theorem flushLoop_right_iff (hflush : ∀ p, (flush p).flushes = some p)
    (h : buf.toNat + len.toNat ≤ 2 ^ 64) :
    (∃ fuel es, flushLoop flush buf (lineLen buf len) fuel 0 = some es ∧
      flushedLines es = linesOf 64 buf.toNat len.toNat) ↔ FlushFits buf len := by
  by_cases hend : (lineLen buf len).toNat ≤ 2 ^ 32 - 64
  · rw [← turns_eq_iff hend, ← visited_eq_linesOf_iff (by decide)]
    have hroom : buf.toNat - buf.toNat % 64 + 64 * turns (lineLen buf len) 0 ≤ 2 ^ 64 := by
      have hbuf := buf.toNat_lt
      have hlen := len.toNat_lt
      rw [turns, toNat_lineLen, UInt32.toNat_zero]
      omega
    rw [← flushedLines_walk hflush hroom]
    constructor
    · rintro ⟨fuel, es, hes, hlines⟩
      rw [flushLoop_eq hend] at hes
      split at hes
      · rw [← hlines, ← Option.some.inj hes]
      · cases hes
    · intro hlines
      exact ⟨_, _, (flushLoop_eq hend).trans (if_pos (Nat.lt_succ_self _)), hlines⟩
  · refine iff_of_false ?_ fun hfits => hend ?_
    · rintro ⟨fuel, es, hes, -⟩
      rw [flushLoop_endless (Nat.lt_of_not_le hend) rfl] at hes
      cases hes
    · rw [toNat_lineLen]
      have hle := hfits.1
      omega

/-- With a barrier at the end. -/
theorem flushLoop_sfence_right_iff (hflush : ∀ p, (flush p).flushes = some p)
    (h : buf.toNat + len.toNat ≤ 2 ^ 64) :
    (∃ fuel es, (flushLoop flush buf (lineLen buf len) fuel 0).map (· ++ [.sfence]) = some es ∧
      flushedLines es = linesOf 64 buf.toNat len.toNat) ↔ FlushFits buf len := by
  rw [← flushLoop_right_iff hflush h]
  constructor
  · rintro ⟨fuel, es, hes, hlines⟩
    obtain ⟨es', hes', rfl⟩ := Option.map_eq_some_iff.mp hes
    exact ⟨fuel, es', hes', by rw [← hlines, flushedLines_sfence]⟩
  · rintro ⟨fuel, es, hes, hlines⟩
    exact ⟨fuel, _, by rw [hes, Option.map_some], by rw [flushedLines_sfence, hlines]⟩

/-- **Each flush function ends and covers the buffer** just when the length with what is before
the buffer on its first line is at most `2 ^ 32 - 64`, and a buffer of no bytes starts a line. -/
theorem flush_right_iff (buf : UInt64) (len : UInt32) (h : buf.toNat + len.toNat ≤ 2 ^ 64) :
    (FlushRight clFlush buf len ↔ FlushFits buf len) ∧
    (FlushRight clFlushWb buf len ↔ FlushFits buf len) ∧
    (FlushRight clFlushOpt buf len ↔ FlushFits buf len) :=
  ⟨flushLoop_right_iff (fun _ => rfl) h, flushLoop_sfence_right_iff (fun _ => rfl) h,
    flushLoop_sfence_right_iff (fun _ => rfl) h⟩

/-- A buffer that is on two lines. -/
theorem flush_right_two_lines : FlushRight clFlush 60 8 ∧ FlushRight clFlushWb 60 8 ∧
    FlushRight clFlushOpt 60 8 := by
  have hfits : FlushFits 60 8 := ⟨by decide, by decide⟩
  obtain ⟨hflush, hwb, hopt⟩ := flush_right_iff 60 8 (by decide)
  exact ⟨hflush.mpr hfits, hwb.mpr hfits, hopt.mpr hfits⟩

/-- Of a buffer of nearly 4 GiB that ends a line, nothing is flushed: the length wraps to zero. -/
theorem flush_misses_all : ¬ ∀ (buf : UInt64) (len : UInt32), buf.toNat + len.toNat ≤ 2 ^ 64 →
    FlushRight clFlush buf len ∧ FlushRight clFlushWb buf len ∧ FlushRight clFlushOpt buf len := by
  intro hall
  obtain ⟨⟨fuel, es, hes, hlines⟩, -⟩ := hall 63 4294967233 (by decide)
  have hnone : lineLen 63 4294967233 = 0 := by decide
  rw [clFlush, hnone, flushLoop_eq (by decide)] at hes
  split at hes
  · obtain rfl := Option.some.inj hes
    have hfirst : 0 ∈ linesOf 64 (63 : UInt64).toNat (4294967233 : UInt32).toNat :=
      ⟨63, by decide, by decide, rfl⟩
    rw [← hlines] at hfirst
    obtain ⟨e, he, -⟩ := hfirst
    cases he
  · cases hes

/-! ## Zeroing -/

/-- A turn of the loop of `_memzero_nt_cachelines`. -/
def ntLine (dst : UInt64) : List Event :=
  (List.range 8).map fun j => .movnti (dst + UInt64.ofNat (8 * j))

/-- Turns of it. -/
def ntTurns : ℕ → UInt64 → List Event
  | 0, _ => []
  | n + 1, dst => ntLine dst ++ ntTurns n (dst + cachelineSize)

/-- `_memzero_nt_cachelines`: the count is looked at after it was decremented. -/
def memzeroNtCachelines (dst cachelines : UInt64) : List Event :=
  ntTurns (if cachelines = 0 then 2 ^ 64 else cachelines.toNat) dst

/-- What `memzero_nt` calls. -/
inductive Call
  | memset (dst len : UInt64)
  | clFlush (buf : UInt64) (len : UInt32)
  | memzeroNtCachelines (dst cachelines : UInt64)
  deriving DecidableEq

/-- `memzero_nt` from where `dst` is the first address of a line. -/
def memzeroLines (dst len : UInt64) : List Call :=
  let cachelines := len >>> cachelineShift
  let lines := if cachelines ≠ 0 then [.memzeroNtCachelines dst cachelines] else []
  let rest := len - cachelines <<< cachelineShift
  let tail := dst + cachelines <<< cachelineShift
  lines ++ if 0 < rest then [.memset tail rest, .clFlush tail rest.toUInt32] else []

/-- `prefix_len`: the bytes up to the next line, or all of them. -/
def prefixLen (dst len : UInt64) : UInt64 :=
  if len < cachelineSize - inLine dst then len else cachelineSize - inLine dst

/-- `memzero_nt`. -/
def memzeroNt (dst len : UInt64) : List Call :=
  if inLine dst ≠ 0 then
    [.memset dst (prefixLen dst len), .clFlush dst (prefixLen dst len).toUInt32] ++
      memzeroLines (dst + prefixLen dst len) (len - prefixLen dst len)
  else memzeroLines dst len

/-- What a call does; `fuel` is for the loops of `cl_flush`. -/
def Call.events (fuel : ℕ) : Call → Option (List Event)
  | .memset dst len => some [.memset dst len]
  | .clFlush buf len => Movnt.clFlush fuel buf len
  | .memzeroNtCachelines dst cachelines => some (Movnt.memzeroNtCachelines dst cachelines)

/-- What calls do one after the other. -/
def events (fuel : ℕ) : List Call → Option (List Event)
  | [] => some []
  | c :: cs => (c.events fuel).bind fun es => (events fuel cs).map (es ++ ·)

/-- The event writes the byte; all that is written are zeros. -/
def Event.Writes (x : UInt64) : Event → Prop
  | .memset dst len => InRange dst len.toNat x
  | .movnti dst => InRange dst 8 x
  | .clflush _ | .clwb _ | .clflushopt _ | .sfence => False

instance (x : UInt64) (e : Event) : Decidable (e.Writes x) := by
  cases e <;> unfold Event.Writes <;> infer_instance

/-- What an event leaves in memory. -/
def Event.apply (m : UInt64 → UInt8) (e : Event) : UInt64 → UInt8 :=
  fun x => if e.Writes x then 0 else m x

/-- The byte is in persistent memory: what wrote it last went past the caches, or its line was
written back afterwards. -/
def Durable (es : List Event) (x : UInt64) : Prop :=
  ∃ before e after, es = before ++ e :: after ∧ e.Writes x ∧ (∀ f ∈ after, ¬ f.Writes x) ∧
    ((∃ p, e = .movnti p) ∨ x.toNat / 64 ∈ flushedLines after)

/-- What `memzero_nt` is for. -/
structure MemzeroRight (dst len : UInt64) : Prop where
  /-- it ends, the bytes of the range are zero and no others have changed, and they persist -/
  zeroes : ∃ fuel es, events fuel (memzeroNt dst len) = some es ∧
    (∀ m x, es.foldl Event.apply m x = if InRange dst len.toNat x then 0 else m x) ∧
    ∀ x, InRange dst len.toNat x → Durable es x
  /-- the count of lines is at least one, and they are whole -/
  lines : ∀ p n, .memzeroNtCachelines p n ∈ memzeroNt dst len → p.toNat % 64 = 0 ∧ n ≠ 0

variable {dst p x : UInt64} {m n : ℕ}

/-- The events write the range and no other bytes, and it persists. -/
structure Zeroes (es : List Event) (p : UInt64) (n : ℕ) : Prop where
  writes : ∀ x, (∃ e ∈ es, e.Writes x) ↔ InRange p n x
  durable : ∀ x, InRange p n x → Durable es x

theorem foldl_apply (es : List Event) (m : UInt64 → UInt8) (x : UInt64) :
    es.foldl Event.apply m x = if ∃ e ∈ es, e.Writes x then 0 else m x := by
  induction es generalizing m with
  | nil => simp
  | cons e es ih =>
    rw [List.foldl_cons, ih, Event.apply]
    by_cases he : e.Writes x
    · simp [he]
    · simp [he]

theorem Durable.append_left (h : Durable es x) (hnot : ∀ f ∈ es', ¬ f.Writes x) :
    Durable (es ++ es') x := by
  obtain ⟨before, e, after, rfl, he, hafter, hout⟩ := h
  refine ⟨before, e, after ++ es', by simp, he, ?_, hout.imp_right ?_⟩
  · intro f hf
    exact (List.mem_append.mp hf).elim (hafter f) (hnot f)
  · rintro ⟨f, hf, hline⟩
    exact ⟨f, List.mem_append_left _ hf, hline⟩

theorem Durable.append_right (h : Durable es' x) : Durable (es ++ es') x := by
  obtain ⟨before, e, after, rfl, he, hafter, hout⟩ := h
  exact ⟨es ++ before, e, after, by simp, he, hafter, hout⟩

theorem zeroes_nil : Zeroes [] p 0 where
  writes x := by simp [not_inRange_zero]
  durable x hx := absurd hx not_inRange_zero

/-- **One range after the other.** -/
theorem Zeroes.append (h : Zeroes es p m) (h' : Zeroes es' (p + UInt64.ofNat m) n)
    (hroom : m + n ≤ 2 ^ 64) : Zeroes (es ++ es') p (m + n) where
  writes x := by
    rw [inRange_add hroom, ← h.writes, ← h'.writes]
    simp only [List.mem_append, or_and_right, exists_or]
  durable x hx := by
    rcases (inRange_add hroom).mp hx with hx | hx
    · refine (h.durable x hx).append_left fun f hf hw => not_inRange_shift hroom hx ?_
      exact (h'.writes x).mp ⟨f, hf, hw⟩
    · exact (h'.durable x hx).append_right

theorem zeroes_movnti (p : UInt64) : Zeroes [.movnti p] p 8 where
  writes x := by simp [Event.Writes]
  durable x hx := ⟨[], .movnti p, [], rfl, hx, fun _ hf => absurd hf List.not_mem_nil, .inl ⟨p, rfl⟩⟩

theorem zeroes_ntLine (p : UInt64) : Zeroes (ntLine p) p 64 := by
  have hk : ∀ k ≤ 8, Zeroes ((List.range k).map fun j => .movnti (p + UInt64.ofNat (8 * j))) p (8 * k) := by
    intro k hk
    induction k with
    | zero => exact zeroes_nil
    | succ k ih =>
      rw [List.range_succ, List.map_append, Nat.mul_succ]
      exact (ih (by omega)).append (zeroes_movnti _) (by omega)
  exact hk 8 (Nat.le_refl 8)

theorem zeroes_ntTurns (hroom : 64 * n ≤ 2 ^ 64) : Zeroes (ntTurns n p) p (64 * n) := by
  induction n generalizing p with
  | zero => exact zeroes_nil
  | succ n ih =>
    rw [ntTurns, Nat.mul_succ, Nat.add_comm]
    exact (zeroes_ntLine p).append (ih (by omega)) (by omega)

/-- **`_memzero_nt_cachelines`** zeroes the lines that it is called for. -/
theorem zeroes_memzeroNtCachelines {cachelines : UInt64} (hpos : cachelines ≠ 0)
    (hroom : 64 * cachelines.toNat ≤ 2 ^ 64) :
    Zeroes (memzeroNtCachelines p cachelines) p (64 * cachelines.toNat) := by
  rw [memzeroNtCachelines, if_neg hpos]
  exact zeroes_ntTurns hroom

/-- `cl_flush` of a part of one line. -/
theorem clFlush_within {len : UInt32} (h : buf.toNat % 64 + len.toNat ≤ 64) :
    ∃ es, clFlush 2 buf len = some es ∧ (∀ e ∈ es, ∀ x, ¬ e.Writes x) ∧
      (0 < len.toNat → buf.toNat / 64 ∈ flushedLines es) := by
  have hend : (lineLen buf len).toNat = len.toNat + buf.toNat % 64 := by
    rw [toNat_lineLen]
    omega
  have hturns : turns (lineLen buf len) 0 < 2 := by
    rw [turns, hend, UInt32.toNat_zero]
    omega
  have hroom : buf.toNat - buf.toNat % 64 + 64 * turns (lineLen buf len) 0 ≤ 2 ^ 64 := by
    have := buf.toNat_lt
    omega
  refine ⟨_, (flushLoop_eq (by omega)).trans (if_pos hturns), ?_, fun hpos => ?_⟩
  · intro e he x hw
    obtain ⟨j, -, rfl⟩ := List.mem_map.mp he
    exact hw
  · rw [flushedLines_walk (fun _ => rfl) hroom]
    refine ⟨0, ?_, rfl⟩
    rw [turns, hend, UInt32.toNat_zero]
    omega

/-- A part of a line that is zeroed and then flushed. -/
theorem zeroes_part {len : UInt64} (h : dst.toNat % 64 + len.toNat ≤ 64) :
    ∃ es, events 2 [.memset dst len, .clFlush dst len.toUInt32] = some es ∧
      Zeroes es dst len.toNat := by
  have hlen : len.toUInt32.toNat = len.toNat := by
    rw [UInt64.toNat_toUInt32]
    omega
  obtain ⟨es, hes, hnot, hline⟩ := @clFlush_within dst len.toUInt32 (by rwa [hlen])
  refine ⟨.memset dst len :: es, by simp [events, Call.events, hes], fun x => ?_, fun x hx => ?_⟩
  · constructor
    · rintro ⟨e, he, hw⟩
      rcases List.mem_cons.mp he with rfl | he
      · exact hw
      · exact absurd hw (hnot e he x)
    · exact fun hx => ⟨_, List.mem_cons_self, hx⟩
  · refine ⟨[], .memset dst len, es, rfl, hx, fun f hf => hnot f hf x, .inr ?_⟩
    rw [div_eq_of_inRange (by decide) h hx]
    rw [hlen] at hline
    exact hline (Nat.zero_lt_of_lt hx)

theorem events_append {fuel : ℕ} {cs cs' : List Call} (h : events fuel cs = some es)
    (h' : events fuel cs' = some es') : events fuel (cs ++ cs') = some (es ++ es') := by
  induction cs generalizing es with
  | nil =>
    obtain rfl := Option.some.inj h
    exact h'
  | cons c cs ih =>
    obtain ⟨es₁, hc, hrest⟩ := Option.bind_eq_some_iff.mp h
    obtain ⟨es₂, hcs, rfl⟩ := Option.map_eq_some_iff.mp hrest
    rw [List.cons_append, events, hc, Option.bind_some, ih hcs, Option.map_some, List.append_assoc]

theorem toNat_cachelines (len : UInt64) : (len >>> cachelineShift).toNat = len.toNat / 64 := by
  rw [UInt64.toNat_shiftRight]
  exact Nat.shiftRight_eq_div_pow len.toNat 6

theorem cachelines_shift (len : UInt64) :
    (len >>> cachelineShift) <<< cachelineShift = UInt64.ofNat (64 * (len.toNat / 64)) := by
  have hlen := len.toNat_lt
  rw [← UInt64.toNat_inj, UInt64.toNat_shiftLeft, toNat_cachelines, UInt64.toNat_ofNat']
  change (len.toNat / 64) <<< 6 % 2 ^ 64 = _
  rw [Nat.shiftLeft_eq, Nat.mul_comm]

/-- What is left after the whole lines. -/
theorem toNat_rest (len : UInt64) :
    (len - UInt64.ofNat (64 * (len.toNat / 64))).toNat = len.toNat % 64 := by
  have hlen := len.toNat_lt
  rw [UInt64.toNat_sub, UInt64.toNat_ofNat']
  omega

/-- **From the first address of a line on.** -/
theorem zeroes_memzeroLines {len : UInt64} (h : dst.toNat % 64 = 0) :
    ∃ es, events 2 (memzeroLines dst len) = some es ∧ Zeroes es dst len.toNat := by
  have hlen := len.toNat_lt
  obtain ⟨es, hes, hlines⟩ : ∃ es, events 2 (if len >>> cachelineShift ≠ 0 then
      [.memzeroNtCachelines dst (len >>> cachelineShift)] else []) = some es ∧
      Zeroes es dst (64 * (len.toNat / 64)) := by
    rw [← toNat_cachelines]
    split_ifs with hpos
    · refine ⟨_, by simp [events, Call.events], zeroes_memzeroNtCachelines hpos ?_⟩
      rw [toNat_cachelines]
      omega
    · refine ⟨[], rfl, ?_⟩
      rw [not_not.mp hpos]
      exact zeroes_nil
  have htail : (dst + UInt64.ofNat (64 * (len.toNat / 64))).toNat % 64 = 0 := by
    rw [UInt64.toNat_add, UInt64.toNat_ofNat']
    omega
  obtain ⟨es', hes', hrest⟩ : ∃ es', events 2 (if 0 < len - UInt64.ofNat (64 * (len.toNat / 64)) then
      [.memset (dst + UInt64.ofNat (64 * (len.toNat / 64))) (len - UInt64.ofNat (64 * (len.toNat / 64))),
        .clFlush (dst + UInt64.ofNat (64 * (len.toNat / 64)))
          (len - UInt64.ofNat (64 * (len.toNat / 64))).toUInt32] else []) = some es' ∧
      Zeroes es' (dst + UInt64.ofNat (64 * (len.toNat / 64))) (len.toNat % 64) := by
    rw [← toNat_rest]
    split_ifs with hpos
    · refine zeroes_part ?_
      rw [htail, toNat_rest]
      omega
    · refine ⟨[], rfl, ?_⟩
      rw [UInt64.le_zero_iff.mp (UInt64.not_lt.mp hpos)]
      exact zeroes_nil
  refine ⟨es ++ es', ?_, ?_⟩
  · rw [memzeroLines, cachelines_shift]
    exact events_append hes hes'
  · have hboth := hlines.append hrest (by omega)
    rwa [Nat.div_add_mod] at hboth

/-- Whole lines are zeroed where a line starts. -/
theorem memzeroLines_lines {len cachelines : UInt64} (h : dst.toNat % 64 = 0 ∨ len = 0)
    (hmem : .memzeroNtCachelines p cachelines ∈ memzeroLines dst len) :
    p.toNat % 64 = 0 ∧ cachelines ≠ 0 := by
  rw [memzeroLines, List.mem_append] at hmem
  rcases hmem with hmem | hmem
  · split_ifs at hmem with hpos
    · obtain ⟨rfl, rfl⟩ := Call.memzeroNtCachelines.inj (List.mem_singleton.mp hmem)
      refine ⟨h.resolve_right ?_, hpos⟩
      rintro rfl
      exact hpos rfl
    · cases hmem
  · split_ifs at hmem
    · simp at hmem
    · cases hmem

/-- The bytes before the first whole line. -/
theorem prefixLen_spec {len : UInt64} (h : inLine dst ≠ 0) :
    dst.toNat % 64 + (prefixLen dst len).toNat ≤ 64 ∧ (prefixLen dst len).toNat ≤ len.toNat ∧
      ((dst + prefixLen dst len).toNat % 64 = 0 ∨ len - prefixLen dst len = 0) := by
  have hin := toNat_inLine dst
  have hsize : cachelineSize.toNat = 64 := by decide
  have hne : dst.toNat % 64 ≠ 0 := fun hzero => h (by rw [← UInt64.toNat_inj, hin, hzero]; rfl)
  have hmost : (cachelineSize - inLine dst).toNat = 64 - dst.toNat % 64 := by
    rw [UInt64.toNat_sub_of_le _ _ (by rw [UInt64.le_iff_toNat_le, hin, hsize]; omega), hin, hsize]
  unfold prefixLen
  split_ifs with hlt
  · rw [UInt64.lt_iff_toNat_lt, hmost] at hlt
    exact ⟨by omega, Nat.le_refl _, .inr (UInt64.sub_self len)⟩
  · rw [UInt64.not_lt, UInt64.le_iff_toNat_le, hmost] at hlt
    rw [UInt64.toNat_add, hmost]
    exact ⟨by omega, hlt, .inl (by omega)⟩

/-- What `memzero_nt` does, from any address on. -/
theorem zeroes_memzeroNt (dst len : UInt64) :
    ∃ es, events 2 (memzeroNt dst len) = some es ∧ Zeroes es dst len.toNat := by
  by_cases hin : inLine dst ≠ 0
  · obtain ⟨hline, hle, hnext⟩ := @prefixLen_spec dst len hin
    obtain ⟨es, hes, hhead⟩ := zeroes_part hline
    obtain ⟨es', hes', hrest⟩ : ∃ es', events 2 (memzeroLines (dst + prefixLen dst len)
        (len - prefixLen dst len)) = some es' ∧
        Zeroes es' (dst + prefixLen dst len) (len - prefixLen dst len).toNat := by
      rcases hnext with hnext | hzero
      · exact zeroes_memzeroLines hnext
      · rw [hzero]
        exact ⟨[], rfl, zeroes_nil⟩
    have hsum : (prefixLen dst len).toNat + (len - prefixLen dst len).toNat = len.toNat := by
      rw [UInt64.toNat_sub_of_le _ _ (UInt64.le_iff_toNat_le.mpr hle)]
      omega
    rw [memzeroNt, if_pos hin]
    refine ⟨es ++ es', events_append hes hes', ?_⟩
    rw [← hsum]
    refine hhead.append (by rwa [UInt64.ofNat_toNat]) ?_
    have hlen := len.toNat_lt
    omega
  · rw [memzeroNt, if_neg hin]
    refine zeroes_memzeroLines ?_
    rw [← toNat_inLine, not_not.mp hin]
    rfl

/-- **`memzero_nt`** zeroes its range and nothing else, and what it zeroes persists. -/
theorem memzeroNt_right (dst len : UInt64) : MemzeroRight dst len := by
  obtain ⟨es, hes, hzeroes⟩ := zeroes_memzeroNt dst len
  refine ⟨⟨2, es, hes, fun m x => ?_, hzeroes.durable⟩, fun p n hmem => ?_⟩
  · rw [foldl_apply]
    exact if_congr (hzeroes.writes x) rfl rfl
  by_cases hin : inLine dst ≠ 0
  · obtain ⟨-, -, hnext⟩ := @prefixLen_spec dst len hin
    rw [memzeroNt, if_pos hin, List.mem_append] at hmem
    refine memzeroLines_lines hnext (hmem.resolve_left ?_)
    simp
  · rw [memzeroNt, if_neg hin] at hmem
    refine memzeroLines_lines (.inl ?_) hmem
    rw [← toNat_inLine, not_not.mp hin]
    rfl

end Zus.Movnt
