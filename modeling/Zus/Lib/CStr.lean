import Mathlib.Data.List.Basic

/-!
# C strings

A string has no zero byte, and in memory a zero byte comes after it. A buffer is the list of
its bytes; the string in it is what comes before the first zero.
-/

namespace Zus.Lib

/-- A C string, without the zero byte at its end. -/
structure CStr where
  bytes : List UInt8
  noNul : 0 ∉ bytes
  deriving DecidableEq

variable {m a bs : List UInt8} {off : ℕ}

/-- The buffer with `bs` stored at `off`. -/
def poke (m : List UInt8) (off : ℕ) (bs : List UInt8) : List UInt8 :=
  m.take off ++ bs ++ m.drop (off + bs.length)

/-- The string in a buffer. -/
def cstr (m : List UInt8) : List UInt8 := m.takeWhile (· ≠ 0)

/-- `snprintf`: the text is cut to the `size` bytes at `off`, the last one of which is zero. -/
def snprintf (m : List UInt8) (off size : ℕ) (text : List UInt8) : List UInt8 :=
  if size = 0 then m else poke m off (text.take (size - 1) ++ [0])

theorem cstr_append_left (h : 0 ∉ a) : cstr (a ++ m) = a ++ cstr m := by
  have hne : ∀ x ∈ a, decide (x ≠ 0) = true := by
    intro x hx
    rw [decide_eq_true_eq]
    rintro rfl
    exact h hx
  exact List.takeWhile_append_of_pos hne

theorem cstr_append (h : 0 ∉ a) : cstr (a ++ 0 :: m) = a := by
  rw [cstr_append_left h]
  simp [cstr]

/-- What comes after the string. -/
theorem exists_cstr_append (h : 0 ∈ m) : ∃ tail, m = cstr m ++ 0 :: tail := by
  induction m with
  | nil => cases h
  | cons c m ih =>
    by_cases hc : c = 0
    · exact ⟨m, by simp [cstr, hc]⟩
    · obtain ⟨tail, htail⟩ := ih ((List.mem_cons.mp h).resolve_left (Ne.symm hc))
      refine ⟨tail, ?_⟩
      have hcons : cstr (c :: m) = c :: cstr m := by simp [cstr, hc]
      rw [hcons, List.cons_append, ← htail]

theorem poke_append : poke (a ++ m) a.length bs = a ++ bs ++ m.drop bs.length := by
  simp [poke]

end Zus.Lib
