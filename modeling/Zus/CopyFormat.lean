import Zus.Lib.CStr
import Zus.Lib.Paging

/-!
# Copying a format

A format is listed with its newlines and tabs written as in C. `_copy_format` copies as much of it
as there is room for; a byte of the format is one byte of the copy, or two.
-/

namespace Zus.Printz

open Zus.Lib

/-- A character in ASCII. -/
def ascii (c : Char) : UInt8 := UInt8.ofNat c.toNat

/-- Turns of the loop of `_copy_format`, from place `i` on: `buff` is always as far as
`buff_i`. -/
def copyFormatFrom (buff : List UInt8) (sz i : ℕ) : List UInt8 → List UInt8
  | [] => poke buff i [0]
  | c :: cs =>
    if sz ≤ i then poke buff i [0]
    else if c = ascii '\n' ∨ c = ascii '\t' then
      -- the end of the string is not written here
      if sz < i + 2 then buff
      else copyFormatFrom
        (poke buff i [ascii '\\', if c = ascii '\n' then ascii 'n' else ascii 't']) sz (i + 2) cs
    else copyFormatFrom (poke buff i [c]) sz (i + 1) cs

/-- `_copy_format`. -/
def copyFormat (fmt : CStr) (buff : List UInt8) (sz : ℕ) : List UInt8 :=
  copyFormatFrom buff sz 0 fmt.bytes

/-- A byte of a format as `_copy_format` writes it. -/
def escapeByte (c : UInt8) : List UInt8 :=
  if c = ascii '\n' then ['\\', 'n'].map ascii
  else if c = ascii '\t' then ['\\', 't'].map ascii
  else [c]

/-- A format as `_copy_format` writes it. -/
def escape (fmt : CStr) : List UInt8 := fmt.bytes.flatMap escapeByte

/-- The byte is written as two. -/
def IsEscaped (c : UInt8) : Prop := c = ascii '\n' ∨ c = ascii '\t'

instance (c : UInt8) : Decidable (IsEscaped c) := inferInstanceAs (Decidable (_ ∨ _))

/-- One byte of the room is left, and the next byte of the format is written as two. -/
def StopsEarly (sz : ℕ) (fmt : List UInt8) : Prop :=
  ∃ pre c, pre ++ [c] <+: fmt ∧ IsEscaped c ∧ (pre.flatMap escapeByte).length + 1 = sz

/-- What `_copy_format` is for: nothing is written past the buffer, and the string in it is the
longest beginning of the format that fits, escaped. -/
structure CopyRight (fmt : CStr) (buff : List UInt8) (sz : ℕ) : Prop where
  inside : (copyFormat fmt buff sz).length = buff.length ∧
    ∀ rest, copyFormat fmt (buff ++ rest) sz = copyFormat fmt buff sz ++ rest
  ends : 0 ∈ copyFormat fmt buff sz
  longest : ∃ pre, pre <+: fmt.bytes ∧ (pre.flatMap escapeByte).length ≤ sz ∧
    (∀ pre', pre' <+: fmt.bytes → (pre'.flatMap escapeByte).length ≤ sz → pre' <+: pre) ∧
    cstr (copyFormat fmt buff sz) = pre.flatMap escapeByte

variable {fmt : CStr} {buff out rest cs : List UInt8} {c : UInt8} {sz i : ℕ}

theorem length_escapeByte (c : UInt8) : (escapeByte c).length = if IsEscaped c then 2 else 1 := by
  unfold escapeByte IsEscaped
  by_cases hn : c = ascii '\n'
  · simp [hn]
  by_cases ht : c = ascii '\t'
  · have hne : ascii '\t' ≠ ascii '\n' := by decide
    simp [ht, hne]
  · simp [hn, ht]

/-- **A turn that goes on** writes what `escapeByte` says. -/
theorem copyFormatFrom_cons (h : i + (escapeByte c).length ≤ sz) :
    copyFormatFrom buff sz i (c :: cs) =
      copyFormatFrom (poke buff i (escapeByte c)) sz (i + (escapeByte c).length) cs := by
  rw [copyFormatFrom]
  unfold escapeByte at h ⊢
  by_cases hn : c = ascii '\n'
  · simp only [hn, if_true, List.length_map, List.length_cons, List.length_nil] at h ⊢
    rw [if_neg (by omega), if_pos (Or.inl trivial), if_neg (by omega)]
    rfl
  by_cases ht : c = ascii '\t'
  · have hne : ascii '\t' ≠ ascii '\n' := by decide
    simp only [ht, hne, if_false, if_true, List.length_map, List.length_cons,
      List.length_nil] at h ⊢
    rw [if_neg (by omega), if_pos (Or.inr trivial), if_neg (by omega)]
    rfl
  · simp only [hn, ht, if_false, List.length_singleton, or_self] at h ⊢
    rw [if_neg (by omega)]

/-- **A turn that stops**: the room is used up, or its last byte is not enough. -/
theorem copyFormatFrom_stop (hi : i ≤ sz) (h : sz < i + (escapeByte c).length) :
    (i = sz ∧ copyFormatFrom buff sz i (c :: cs) = poke buff i [0]) ∨
      (i + 1 = sz ∧ IsEscaped c ∧ copyFormatFrom buff sz i (c :: cs) = buff) := by
  rw [copyFormatFrom]
  rcases hi.eq_or_lt with rfl | hlt
  · exact .inl ⟨rfl, if_pos (Nat.le_refl _)⟩
  · rw [length_escapeByte] at h
    have hesc : IsEscaped c := by
      by_contra hnot
      rw [if_neg hnot] at h
      omega
    rw [if_pos hesc] at h
    have hor : c = ascii '\n' ∨ c = ascii '\t' := hesc
    exact .inr ⟨by omega, hesc, by rw [if_neg (by omega), if_pos hor, if_pos (by omega)]⟩

theorem not_stopsEarly_zero : ¬ StopsEarly 0 cs := by
  rintro ⟨pre, c, -, -, h⟩
  cases h

/-- Whether a copy stops early, after a byte that fits. -/
theorem stopsEarly_cons (h : (escapeByte c).length ≤ sz) :
    StopsEarly sz (c :: cs) ↔ StopsEarly (sz - (escapeByte c).length) cs := by
  constructor
  · rintro ⟨pre, d, hpre, hesc, hlen⟩
    cases pre with
    | nil =>
      obtain ⟨rfl, -⟩ := List.cons_prefix_cons.mp hpre
      rw [length_escapeByte, if_pos hesc] at h
      rw [List.flatMap_nil, List.length_nil] at hlen
      omega
    | cons b pre =>
      obtain ⟨rfl, htail⟩ := List.cons_prefix_cons.mp hpre
      rw [List.flatMap_cons, List.length_append] at hlen
      exact ⟨pre, d, htail, hesc, by omega⟩
  · rintro ⟨pre, d, hpre, hesc, hlen⟩
    refine ⟨c :: pre, d, List.cons_prefix_cons.mpr ⟨rfl, hpre⟩, hesc, ?_⟩
    rw [List.flatMap_cons, List.length_append]
    omega

/-- **The loop of `_copy_format`** writes as much as fits, and the end of the string after it
unless it stops early. -/
theorem copyFormatFrom_spec {text : List UInt8} (hout : out.length ≤ sz)
    (htext : text = (fill escapeByte (sz - out.length) cs).flatMap escapeByte) :
    (StopsEarly (sz - out.length) cs ∧ out.length + text.length + 1 = sz ∧
      copyFormatFrom (out ++ rest) sz out.length cs = out ++ text ++ rest.drop text.length) ∨
    (¬ StopsEarly (sz - out.length) cs ∧ copyFormatFrom (out ++ rest) sz out.length cs =
      out ++ text ++ 0 :: rest.drop (text.length + 1)) := by
  induction cs generalizing out rest text with
  | nil =>
    subst htext
    refine .inr ⟨?_, by simp [copyFormatFrom, poke_append, fill]⟩
    rintro ⟨pre, d, hpre, -⟩
    simp at hpre
  | cons c cs ih =>
    rw [fill] at htext
    by_cases hfit : (escapeByte c).length ≤ sz - out.length
    · rw [if_pos hfit] at htext
      have hstep : copyFormatFrom (out ++ rest) sz out.length (c :: cs) =
          copyFormatFrom (out ++ escapeByte c ++ rest.drop (escapeByte c).length) sz
            (out ++ escapeByte c).length cs := by
        rw [copyFormatFrom_cons (by omega), poke_append, List.length_append]
      have hroom : sz - (out ++ escapeByte c).length = sz - out.length - (escapeByte c).length := by
        rw [List.length_append]
        omega
      have hrest := @ih (out ++ escapeByte c) (rest.drop (escapeByte c).length) _
        (by rw [List.length_append]; omega) rfl
      rw [hroom, ← stopsEarly_cons hfit, ← hstep] at hrest
      rw [htext, List.flatMap_cons]
      simpa [Nat.add_assoc, Nat.add_comm, Nat.add_left_comm] using hrest
    · rw [if_neg hfit] at htext
      subst htext
      rcases @copyFormatFrom_stop (out ++ rest) cs c sz out.length hout (by omega) with
        ⟨hend, heq⟩ | ⟨hone, hesc, heq⟩
      · refine .inr ⟨?_, by simp [heq, poke_append]⟩
        rw [hend, Nat.sub_self]
        exact not_stopsEarly_zero
      · exact .inl ⟨⟨[], c, ⟨cs, rfl⟩, hesc, by simp only [List.flatMap_nil, List.length_nil]; omega⟩,
          hone, by simp [heq]⟩

theorem zero_notMem_escape (fmt : CStr) : 0 ∉ escape fmt := by
  intro h
  obtain ⟨c, hc, h₀⟩ := List.mem_flatMap.mp h
  unfold escapeByte at h₀
  split_ifs at h₀ with hn ht
  · revert h₀
    decide
  · revert h₀
    decide
  · rw [List.mem_singleton] at h₀
    exact fmt.noNul (h₀ ▸ hc)

/-- **`_copy_format`**: the string is left without its end when the copy stops early. -/
theorem copyFormat_cases (fmt : CStr) (buff : List UInt8) (sz : ℕ) :
    ∃ text, text = (fill escapeByte sz fmt.bytes).flatMap escapeByte ∧
      ((StopsEarly sz fmt.bytes ∧ text.length + 1 = sz ∧
        copyFormat fmt buff sz = text ++ buff.drop text.length) ∨
      (¬ StopsEarly sz fmt.bytes ∧
        copyFormat fmt buff sz = text ++ 0 :: buff.drop (text.length + 1))) := by
  have hloop := @copyFormatFrom_spec [] buff fmt.bytes sz _ (Nat.zero_le sz) rfl
  simp only [List.length_nil, Nat.sub_zero, Nat.zero_add, List.nil_append] at hloop
  exact ⟨_, rfl, hloop⟩

theorem zero_notMem_text {l : List UInt8} (h : l <+: fmt.bytes) : 0 ∉ l.flatMap escapeByte := by
  obtain ⟨l', hl⟩ := h
  have hnot := zero_notMem_escape fmt
  rw [escape, ← hl, List.flatMap_append, List.mem_append, not_or] at hnot
  exact hnot.1

/-- **`_copy_format`** of a format that is short enough. -/
theorem cstr_copyFormat (h : (escape fmt).length ≤ sz) : cstr (copyFormat fmt buff sz) = escape fmt := by
  have hall : fill escapeByte sz fmt.bytes = fmt.bytes :=
    fill_prefix.eq_of_length_le (prefix_fill (List.prefix_refl _) h).length_le
  obtain ⟨text, htext, ⟨⟨pre, c, ⟨post, hpost⟩, hesc, hlen⟩, -⟩ | ⟨-, heq⟩⟩ :=
    copyFormat_cases fmt buff sz
  · -- the byte that is not copied would make the format too long
    have hc := length_escapeByte c
    rw [if_pos hesc] at hc
    rw [escape, ← hpost] at h
    simp only [List.flatMap_append, List.flatMap_cons, List.flatMap_nil, List.length_append,
      List.append_nil] at h
    omega
  · rw [hall] at htext
    rw [heq, htext]
    exact cstr_append (zero_notMem_escape fmt)

/-- Nothing is written past the buffer. -/
theorem copyFormat_inside (h : buff.length = sz + 1) :
    (copyFormat fmt buff sz).length = buff.length ∧
      ∀ rest, copyFormat fmt (buff ++ rest) sz = copyFormat fmt buff sz ++ rest := by
  have hroom := @length_flatMap_fill_le _ _ escapeByte fmt.bytes sz
  obtain ⟨text, htext, hcases⟩ := copyFormat_cases fmt buff sz
  rw [← htext] at hroom
  constructor
  · rcases hcases with ⟨-, hlen, heq⟩ | ⟨-, heq⟩
    · rw [heq, List.length_append, List.length_drop]
      omega
    · rw [heq, List.length_append, List.length_cons, List.length_drop]
      omega
  · intro rest
    obtain ⟨text', htext', hcases'⟩ := copyFormat_cases fmt (buff ++ rest) sz
    obtain rfl : text = text' := htext.trans htext'.symm
    rcases hcases with ⟨hearly, -, heq⟩ | ⟨hnot, heq⟩
    · rcases hcases' with ⟨-, -, heq'⟩ | ⟨hnot, -⟩
      · rw [heq', heq, List.drop_append_of_le_length (by omega), List.append_assoc]
      · exact absurd hearly hnot
    · rcases hcases' with ⟨hearly, -, -⟩ | ⟨-, heq'⟩
      · exact absurd hearly hnot
      · rw [heq', heq, List.drop_append_of_le_length (by omega), List.append_assoc, List.cons_append]

/-- The copy is right when the end of the string is after what fits. -/
theorem copyRight_iff (h : buff.length = sz + 1) : CopyRight fmt buff sz ↔
    ∃ tail, copyFormat fmt buff sz = (fill escapeByte sz fmt.bytes).flatMap escapeByte ++ 0 :: tail := by
  have hlongest : ∀ pre, pre <+: fmt.bytes → (pre.flatMap escapeByte).length ≤ sz →
      pre <+: fill escapeByte sz fmt.bytes := fun _ => prefix_fill
  constructor
  · rintro ⟨-, hends, pre, hpre, hroom, hmost, hstr⟩
    obtain rfl : pre = fill escapeByte sz fmt.bytes :=
      (hlongest pre hpre hroom).eq_of_length_le (hmost _ fill_prefix length_flatMap_fill_le).length_le
    obtain ⟨tail, htail⟩ := exists_cstr_append hends
    exact ⟨tail, by rwa [hstr] at htail⟩
  · rintro ⟨tail, htail⟩
    refine ⟨copyFormat_inside h, ?_, _, fill_prefix, length_flatMap_fill_le, hlongest, ?_⟩
    · rw [htail]
      simp
    · rw [htail]
      exact cstr_append (zero_notMem_text fill_prefix)

/-- **What is copied is right** just when the copy does not stop early, or does at a byte of the
buffer that is zero. -/
theorem copyFormat_right_iff (fmt : CStr) (buff : List UInt8) (sz : ℕ) (h : buff.length = sz + 1) :
    CopyRight fmt buff sz ↔ ¬ StopsEarly sz fmt.bytes ∨ buff[sz - 1]? = some 0 := by
  rw [copyRight_iff h]
  obtain ⟨text, htext, ⟨hearly, hlen, heq⟩ | ⟨hnot, heq⟩⟩ := copyFormat_cases fmt buff sz
  · have hplace : sz - 1 = text.length := by omega
    rw [← htext, heq, hplace, or_iff_right (not_not.mpr hearly)]
    simp only [List.append_cancel_left_eq]
    constructor
    · rintro ⟨tail, htail⟩
      rw [← List.head?_drop, htail]
      rfl
    · intro hzero
      rw [← List.head?_drop] at hzero
      exact ⟨_, List.eq_cons_of_mem_head? hzero⟩
  · rw [← htext]
    exact iff_of_true ⟨_, heq⟩ (.inl hnot)

/-- A format whose newline takes the last two bytes of the room. -/
theorem copyFormat_right_newline : CopyRight ⟨[97, 10, 98], by decide⟩ [255, 255, 255, 255] 3 := by
  refine (copyFormat_right_iff ⟨[97, 10, 98], by decide⟩ [255, 255, 255, 255] 3 rfl).mpr (.inl ?_)
  rw [stopsEarly_cons (by decide), stopsEarly_cons (by decide)]
  exact not_stopsEarly_zero

/-- A newline for which one byte is left: the string has no end, and what the buffer had before
is read. -/
theorem copyFormat_reads_stale : ¬ ∀ (fmt : CStr) (buff : List UInt8) (sz : ℕ), 2 ≤ sz →
    buff.length = sz + 1 → CopyRight fmt buff sz := by
  intro hall
  have hright := hall ⟨[97, 10], by decide⟩ [255, 255, 255] 2 (by decide) rfl
  have hends := hright.ends
  revert hends
  decide

end Zus.Printz
