import Mathlib.Algebra.Group.Nat.Defs
import Mathlib.Data.List.Basic
import Mathlib.Tactic.NormNum

/-!
# Byte memories

A block of memory is a function from offsets to bytes. `store` overwrites a range with
bytes of another memory, `slice` reads a range as a list, and the little-endian numbers
of the C structures are lists of bytes. The lemmas say what a store changes, what it
leaves alone, and that what was stored is read back.
-/

namespace Zus.Lib

/-- A block of memory: the byte at each offset. -/
abbrev Bytes := ℕ → UInt8

namespace Bytes

variable (m : Bytes) {off len i : ℕ} (src : Bytes)

/-- Overwrite the `len` bytes at `off` with the first `len` bytes of `src`. -/
def store (off len : ℕ) (src : Bytes) : Bytes :=
  fun i => if off ≤ i ∧ i < off + len then src (i - off) else m i

/-- The `len` bytes at `off`. -/
def slice (off len : ℕ) : List UInt8 := (List.range len).map fun i => m (off + i)

/-- A list of bytes as the beginning of a memory. -/
def ofList (bs : List UInt8) : Bytes := fun i => bs.getD i 0

theorem store_of_mem (h₁ : off ≤ i) (h₂ : i < off + len) : m.store off len src i = src (i - off) :=
  if_pos ⟨h₁, h₂⟩

theorem store_of_lt (h : i < off) : m.store off len src i = m i :=
  if_neg fun hi => Nat.not_le.mpr h hi.1

theorem store_of_ge (h : off + len ≤ i) : m.store off len src i = m i :=
  if_neg fun hi => Nat.not_le.mpr hi.2 h

@[simp] theorem length_slice : (m.slice off len).length = len := by
  simp [slice]

theorem slice_congr {m m' : Bytes} (h : ∀ i < len, m (off + i) = m' (off + i)) :
    m.slice off len = m'.slice off len :=
  List.map_congr_left fun i hi => h i (List.mem_range.mp hi)

/-- A stored list of bytes is read back. -/
theorem slice_store_ofList (bs : List UInt8) :
    (m.store off bs.length (ofList bs)).slice off bs.length = bs := by
  refine List.ext_getElem (length_slice _) fun i h₁ h₂ => ?_
  have hsub : off + i - off = i := Nat.add_sub_cancel_left off i
  simp only [slice, List.getElem_map, List.getElem_range]
  rw [store_of_mem _ _ (Nat.le_add_right off i) (Nat.add_lt_add_left h₂ off), hsub, ofList,
    List.getD_eq_getElem?_getD, List.getElem?_eq_getElem h₂, Option.getD_some]

/-- A slice does not see a store elsewhere. -/
theorem slice_store_of_disjoint {off' len' : ℕ} (h : off' + len' ≤ off ∨ off + len ≤ off') :
    (m.store off len src).slice off' len' = m.slice off' len' := by
  refine slice_congr fun i hi => ?_
  rcases h with h | h
  · exact store_of_lt _ _ (by omega)
  · exact store_of_ge _ _ (by omega)

end Bytes

/-! ## Byte maps -/

/-- The content of a file: bytes up to a size, and zeros past it. -/
@[ext] structure ByteMap where
  size : ℕ
  byte : ℕ → UInt8
  zero : ∀ p, size ≤ p → byte p = 0

namespace ByteMap

/-- A store past the end grows the content. -/
def write (f : ByteMap) (off len : ℕ) (data : Bytes) : ByteMap where
  size := max f.size (off + len)
  byte p := if off ≤ p ∧ p < off + len then data (p - off) else f.byte p
  zero p hp := by
    rw [if_neg (by omega), f.zero p (by omega)]

/-- Nothing but zeros. -/
def zeros (size : ℕ) : ByteMap := ⟨size, fun _ => 0, fun _ _ => rfl⟩

/-- The content cut to a size, or grown to it with zeros. -/
def resize (f : ByteMap) (size : ℕ) : ByteMap where
  size := size
  byte p := if p < size then f.byte p else 0
  zero _ hp := if_neg (Nat.not_lt.mpr hp)

/-- Zeros in a range. -/
def clear (f : ByteMap) (off len : ℕ) : ByteMap where
  size := f.size
  byte p := if off ≤ p ∧ p < off + len then 0 else f.byte p
  zero p hp := by
    rw [f.zero p hp, ite_self]

/-- A range goes, and what comes after it moves down. -/
def collapse (f : ByteMap) (off len : ℕ) : ByteMap where
  size := f.size - len
  byte p := if p < f.size - len then if p < off then f.byte p else f.byte (p + len) else 0
  zero _ hp := if_neg (Nat.not_lt.mpr hp)

/-- The bytes of a range that are there. -/
def read (f : ByteMap) (off len : ℕ) : List UInt8 :=
  (List.range (min (off + len) f.size - off)).map fun i => f.byte (off + i)

section

variable (f : ByteMap) (off len size p : ℕ) (data : Bytes)

theorem write_byte : (f.write off len data).byte p =
    if off ≤ p ∧ p < off + len then data (p - off) else f.byte p := rfl

theorem resize_byte : (f.resize size).byte p = if p < size then f.byte p else 0 := rfl

theorem clear_byte : (f.clear off len).byte p =
    if off ≤ p ∧ p < off + len then 0 else f.byte p := rfl

theorem collapse_byte : (f.collapse off len).byte p =
    if p < f.size - len then if p < off then f.byte p else f.byte (p + len) else 0 := rfl

end

theorem resize_self (f : ByteMap) : f.resize f.size = f := by
  refine ByteMap.ext rfl (funext fun p => ?_)
  rw [resize_byte]
  split
  · rfl
  · next hp => exact (f.zero p (Nat.not_lt.mp hp)).symm

end ByteMap

/-! ## Little-endian numbers -/

/-- The number with the given little-endian bytes. -/
def leNat : List UInt8 → ℕ
  | [] => 0
  | b :: bs => b.toNat + 256 * leNat bs

/-- The `w` little-endian bytes of a number. -/
def leBytes : ℕ → ℕ → List UInt8
  | 0, _ => []
  | w + 1, n => UInt8.ofNat n :: leBytes w (n / 256)

@[simp] theorem length_leBytes (w n : ℕ) : (leBytes w n).length = w := by
  induction w generalizing n with
  | zero => rfl
  | succ w ih => simp only [leBytes, List.length_cons, ih]

/-- The low `w` bytes of a number are read back. -/
theorem leNat_leBytes_mod (w n : ℕ) : leNat (leBytes w n) = n % 256 ^ w := by
  induction w generalizing n with
  | zero => simp [leBytes, leNat, Nat.mod_one]
  | succ w ih =>
    have hpow : 256 ^ (w + 1) = 256 * 256 ^ w := by
      rw [pow_succ, Nat.mul_comm]
    rw [leBytes, leNat, ih, UInt8.toNat_ofNat', hpow, Nat.mod_mul]

/-- What `w` bytes can hold is read back. -/
theorem leNat_leBytes {w n : ℕ} (h : n < 256 ^ w) : leNat (leBytes w n) = n := by
  rw [leNat_leBytes_mod, Nat.mod_eq_of_lt h]

end Zus.Lib
