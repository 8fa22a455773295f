import Mathlib.Data.List.Basic
import Mathlib.Order.Lattice
import Mathlib.Order.Nat

/-!
# Paging a listing

The lines of a list of items are returned a buffer at a time: as many whole lines as there is
room for, in a C string, which has one byte less than its buffer. What comes back is the
listing, unless lines fill a buffer to the last byte: then the string has no place for it.
-/

namespace Zus.Lib

variable {α β : Type*} (line : α → List β) {l : List α} {room : ℕ} {rooms : List ℕ}

/-- As many items as there is room for the lines of. -/
def fill : ℕ → List α → List α
  | _, [] => []
  | room, a :: l => if (line a).length ≤ room then a :: fill (room - (line a).length) l else []

/-- The string that a buffer of `room` bytes has of them. -/
def page (room : ℕ) (l : List α) : List β := ((fill line room l).flatMap line).take (room - 1)

/-- The strings of a series of buffers. -/
def pages : List α → List ℕ → List (List β)
  | _, [] => []
  | l, room :: rooms => page line room l :: pages (l.drop (fill line room l).length) rooms

/-- The buffers have room for the next line and a byte more, or that byte alone, and the series
is over with the first string that is empty. -/
def Exhausts : List α → List ℕ → Prop
  | _, [] => False
  | l, room :: rooms => 0 < room ∧ (∀ a ∈ l.head?, (line a).length < room) ∧
    if page line room l = [] then rooms = []
    else Exhausts (l.drop (fill line room l).length) rooms

/-- At no buffer some of the lines to come are together just as long as it. -/
def NeverFull : List α → List ℕ → Prop
  | _, [] => True
  | l, room :: rooms => (∀ k, ((l.take k).flatMap line).length ≠ room) ∧
    NeverFull (l.drop (fill line room l).length) rooms

variable {line}

theorem fill_append_drop : fill line room l ++ l.drop (fill line room l).length = l := by
  induction l generalizing room with
  | nil => rfl
  | cons a l ih =>
    unfold fill
    split
    · simp [ih]
    · rfl

theorem fill_eq_take : fill line room l = l.take (fill line room l).length := by
  have h : (fill line room l ++ l.drop (fill line room l).length).take (fill line room l).length =
      fill line room l := List.take_left
  rwa [fill_append_drop, eq_comm] at h

theorem fill_prefix : fill line room l <+: l := ⟨_, fill_append_drop⟩

theorem length_flatMap_fill_le : ((fill line room l).flatMap line).length ≤ room := by
  induction l generalizing room with
  | nil => exact Nat.zero_le _
  | cons a l ih =>
    unfold fill
    split
    · have := @ih (room - (line a).length)
      rw [List.flatMap_cons, List.length_append]
      omega
    · exact Nat.zero_le _

/-- Items whose lines have room are among those that are taken. -/
theorem length_take_le_fill {k : ℕ} (h : ((l.take k).flatMap line).length ≤ room) :
    ((l.take k).flatMap line).length ≤ ((fill line room l).flatMap line).length := by
  induction l generalizing room k with
  | nil => simp
  | cons a l ih =>
    cases k with
    | zero => exact Nat.zero_le _
    | succ k =>
      rw [List.take_succ_cons, List.flatMap_cons, List.length_append] at h ⊢
      have hle := @ih (room - (line a).length) k (by omega)
      rw [fill, if_pos (by omega), List.flatMap_cons, List.length_append]
      omega

/-- What is taken is the longest beginning of the list that there is room for. -/
theorem prefix_fill {pre : List α} (h : pre <+: l) (hroom : (pre.flatMap line).length ≤ room) :
    pre <+: fill line room l := by
  induction l generalizing room pre with
  | nil => exact h
  | cons a l ih =>
    cases pre with
    | nil => exact List.nil_prefix
    | cons b pre =>
      obtain ⟨rfl, hpre⟩ := List.cons_prefix_cons.mp h
      rw [List.flatMap_cons, List.length_append] at hroom
      rw [fill, if_pos (by omega)]
      exact List.cons_prefix_cons.mpr ⟨rfl, ih hpre (by omega)⟩

/-- Some lines are as long as the buffer just when those that are taken are. -/
theorem full_iff : (∃ k, ((l.take k).flatMap line).length = room) ↔
    ((fill line room l).flatMap line).length = room := by
  constructor
  · rintro ⟨k, hk⟩
    have hle := length_take_le_fill hk.le
    have hroom := @length_flatMap_fill_le α β line l room
    omega
  · intro h
    exact ⟨(fill line room l).length, by rwa [← fill_eq_take]⟩

theorem length_page_le : (page line room l).length ≤ ((fill line room l).flatMap line).length :=
  List.length_take_le' _ _

theorem flatMap_eq_fill_append :
    l.flatMap line = (fill line room l).flatMap line ++
      (l.drop (fill line room l).length).flatMap line := by
  rw [← List.flatMap_append, fill_append_drop]

/-- Nothing is returned twice. -/
theorem length_flatten_pages_le :
    (pages line l rooms).flatten.length ≤ (l.flatMap line).length := by
  induction rooms generalizing l with
  | nil => exact Nat.zero_le _
  | cons room rooms ih =>
    have hpage := @length_page_le α β line l room
    have hrest := @ih (l.drop (fill line room l).length)
    have hsplit : l.flatMap line = (fill line room l).flatMap line ++
        (l.drop (fill line room l).length).flatMap line := flatMap_eq_fill_append
    rw [pages, List.flatten_cons, List.length_append, hsplit, List.length_append]
    omega

/-- The listing is over when a string is empty. -/
theorem eq_nil_of_page (hline : ∀ a ∈ l, line a ≠ [])
    (hroom : ∀ a ∈ l.head?, (line a).length < room) (h : page line room l = []) : l = [] := by
  cases l with
  | nil => rfl
  | cons a l =>
    have hpos : 0 < (line a).length := List.length_pos_iff.mpr (hline a List.mem_cons_self)
    have hlt : (line a).length < room := hroom a rfl
    have hlen := congrArg List.length h
    rw [page, fill, if_pos hlt.le, List.flatMap_cons, List.length_take, List.length_append] at hlen
    simp only [List.length_nil] at hlen
    omega

/-- **The strings are together the listing just when** no buffer is filled to the last byte. -/
theorem flatten_pages_iff (hline : ∀ a ∈ l, line a ≠ []) (h : Exhausts line l rooms) :
    (pages line l rooms).flatten = l.flatMap line ↔ NeverFull line l rooms := by
  induction rooms generalizing l with
  | nil => exact h.elim
  | cons room rooms ih =>
    obtain ⟨hpos, hroom, hnext⟩ := h
    set f := fill line room l
    have hsplit : l.flatMap line = f.flatMap line ++ (l.drop f.length).flatMap line :=
      flatMap_eq_fill_append
    have hpages : (pages line l (room :: rooms)).flatten =
        (f.flatMap line).take (room - 1) ++ (pages line (l.drop f.length) rooms).flatten := rfl
    have hle : (f.flatMap line).length ≤ room := length_flatMap_fill_le
    have hfull : (∀ k, ((l.take k).flatMap line).length ≠ room) ↔ (f.flatMap line).length ≠ room := by
      rw [← not_exists]
      exact not_congr full_iff
    rw [hsplit, hpages, NeverFull, hfull]
    by_cases hone : (f.flatMap line).length = room
    · -- the last byte of the lines is lost
      refine iff_of_false (fun heq => ?_) fun hne => hne.1 hone
      have hrest := @length_flatten_pages_le α β line (l.drop f.length) rooms
      have hlen := congrArg List.length heq
      rw [List.length_append, List.length_append, List.length_take] at hlen
      omega
    · rw [List.take_of_length_le (by omega), List.append_cancel_left_eq]
      simp only [ne_eq, hone, not_false_eq_true, true_and]
      split at hnext
      · next hnone =>
        obtain rfl := eq_nil_of_page hline hroom hnone
        obtain rfl := hnext
        simp [pages, NeverFull]
      · exact ih (fun a ha => hline a (List.mem_of_mem_drop ha)) hnext

end Zus.Lib
