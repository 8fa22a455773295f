import Zus.Toyfs.Seek

/-!
# The extents of a file

`_fiemap` makes an extent of each block from the start offset on. A block that is not shared
and is followed by the next page takes the block of that page into its extent, and no more:
the loop that merges compares with the first block throughout. Of the second block nothing
but its offset is looked at, neither where it lies nor whether it is shared, and the length
of the range not at all.
-/

namespace Zus.Toyfs

open Zus.Lib

variable {s : Sbi} {n : RecPtr} {ib a : Iblkref} {l rest : List Iblkref} {offset q : ℤ}

/-- `FIEMAP_EXTENT_LAST`. -/
def extentLast : UInt32 := 0x1

/-- `FIEMAP_EXTENT_SHARED`. -/
def extentShared : UInt32 := 0x2000

/-- What `zufs_fiemap_fill_next_extent` is given. -/
structure FiemapExtent where
  logical : ℤ
  phys : ℤ
  length : ℤ
  flags : UInt32

/-- What `zufs_fiemap_fill_next_extent` returns: zero, one, or an error. -/
inductive FillResult
  | next
  | full
  | error (err : Errno)

namespace Sbi

variable (s : Sbi)

/-- `physaddr_of`. -/
def physaddrOf (ib : Iblkref) : ℤ := s.pageOf ib.dblkref * pageSize

/-- The inner loop of `_fiemap`, from the block at the head of the list on: the length and
the flags of the extent, and what is left of the list. -/
def fiemapMerge (ib : Iblkref) (length : ℤ) (flags : UInt32) :
    List Iblkref → ℤ × UInt32 × List Iblkref
  | [] => (length, flags, [])
  | _ :: rest =>
    let length' := length + pageSize
    let flags₁ := if 1 < (s.dblkrefs ib.dblkref).refcnt then flags ||| extentShared else flags
    let flags₂ := if rest.isEmpty then flags₁ ||| extentLast else flags₁
    if flags₂ ≠ 0 then (length', flags₂, rest)
    else if rest.head?.any fun next => next.off > ib.off + pageSize then (length', flags₂, rest)
    else fiemapMerge ib length' flags₂ rest

theorem length_fiemapMerge (ib : Iblkref) (length : ℤ) (flags : UInt32) (l : List Iblkref) :
    (s.fiemapMerge ib length flags l).2.2.length ≤ l.length - 1 := by
  induction l generalizing length flags with
  | nil => rfl
  | cons x rest ih =>
    have hrest : rest.length ≤ (x :: rest).length - 1 := Nat.le_refl _
    rw [fiemapMerge]
    generalize (if rest.isEmpty = true then _ else _ : UInt32) = flags₂
    split_ifs
    · exact hrest
    · exact hrest
    · exact (ih _ _).trans ((Nat.sub_le _ _).trans hrest)

/-- The outer loop of `_fiemap`; `filled` is what was handed on before. -/
def fiemapLoop (fill : List FiemapExtent → FiemapExtent → FillResult × List FiemapExtent)
    (flags : UInt32) (filled : List FiemapExtent) : List Iblkref → Option Errno × List FiemapExtent
  | [] => (none, filled)
  | ib :: rest =>
    if flags &&& extentLast = 0 then
      let r := s.fiemapMerge ib 0 0 (ib :: rest)
      match fill filled ⟨ib.off, s.physaddrOf ib, r.1, r.2.1⟩ with
      | (.next, filled') => fiemapLoop fill r.2.1 filled' r.2.2
      | (.full, filled') => (none, filled')
      | (.error err, filled') => (some err, filled')
    else (none, filled)
termination_by l => l.length
decreasing_by
  have := s.length_fiemapMerge ib 0 0 (ib :: rest)
  simp only [List.length_cons] at this ⊢
  omega

/-- `_fiemap`; `fill` is `zufs_fiemap_fill_next_extent`. -/
def fiemap (fill : List FiemapExtent → FiemapExtent → FillResult × List FiemapExtent)
    (n : RecPtr) (offset : ℤ) (_len : UInt64) : Option Errno × List FiemapExtent :=
  if (s.inodes n).iMode ≠ .reg then (some .enotsup, [])
  else s.fiemapLoop fill 0 [] (fetchIblkrefFrom (s.blocksOf n) offset)

end Sbi

/-! ## The extents -/

namespace FiemapExtent

/-- The extent has the position. -/
def Has (e : FiemapExtent) (q : ℤ) : Prop := e.logical ≤ q ∧ q < e.logical + e.length

instance (e : FiemapExtent) (q : ℤ) : Decidable (e.Has q) := inferInstanceAs (Decidable (_ ∧ _))

def IsShared (e : FiemapExtent) : Prop := e.flags &&& extentShared ≠ 0

instance (e : FiemapExtent) : Decidable e.IsShared := inferInstanceAs (Decidable (_ ≠ _))

def IsLast (e : FiemapExtent) : Prop := e.flags &&& extentLast ≠ 0

end FiemapExtent

/-- The block takes the one after it into its extent. -/
def Sbi.Merges (s : Sbi) (ib next : Iblkref) : Prop :=
  counts s ib.dblkref ≤ 1 ∧ next.off ≤ ib.off + pageSize

instance (s : Sbi) (ib next : Iblkref) : Decidable (s.Merges ib next) :=
  inferInstanceAs (Decidable (_ ∧ _))

/-- The flags of an extent that starts with a block and leaves `rest`. -/
def Sbi.extentFlags (s : Sbi) (ib : Iblkref) (rest : List Iblkref) : UInt32 :=
  (if 1 < counts s ib.dblkref then extentShared else 0) ||| (if rest.isEmpty then extentLast else 0)

/-- One turn of the inner loop. -/
theorem fiemapMerge_turn {length : ℤ} {x : Iblkref} : s.fiemapMerge ib length 0 (x :: rest) =
    if s.extentFlags ib rest ≠ 0 ∨ ∃ next ∈ rest.head?, ib.off + pageSize < next.off then
      (length + pageSize, s.extentFlags ib rest, rest)
    else s.fiemapMerge ib (length + pageSize) 0 rest := by
  have hflags : (if rest.isEmpty = true then
      (if 1 < (s.dblkrefs ib.dblkref).refcnt then (0 : UInt32) ||| extentShared else 0) ||| extentLast
      else if 1 < (s.dblkrefs ib.dblkref).refcnt then (0 : UInt32) ||| extentShared else 0) =
      s.extentFlags ib rest := by
    unfold Sbi.extentFlags counts
    split_ifs <;> rfl
  rw [Sbi.fiemapMerge]
  simp only [hflags]
  by_cases hz : s.extentFlags ib rest = 0
  · simp only [hz, ne_eq, not_true_eq_false, if_false, false_or]
    cases rest with
    | nil => rfl
    | cons next rest' => simp
  · rw [if_pos hz, if_pos (.inl hz)]

theorem extentFlags_eq_zero :
    s.extentFlags ib rest = 0 ↔ counts s ib.dblkref ≤ 1 ∧ rest ≠ [] := by
  unfold Sbi.extentFlags
  cases rest with
  | nil =>
    simp only [List.isEmpty_nil, if_true]
    exact iff_of_false (by split_ifs <;> decide) fun hne => hne.2 rfl
  | cons x rest =>
    rw [if_neg (by simp : ¬ (x :: rest).isEmpty = true)]
    split_ifs with hmany
    · exact iff_of_false (by decide) fun hone => absurd hone.1 (Nat.not_le.mpr hmany)
    · exact iff_of_true (by decide) ⟨Nat.not_lt.mp hmany, List.cons_ne_nil _ _⟩

theorem extentFlags_last : s.extentFlags ib rest &&& extentLast ≠ 0 ↔ rest = [] := by
  unfold Sbi.extentFlags
  cases rest with
  | nil =>
    simp only [List.isEmpty_nil, if_true]
    exact iff_of_true (by split_ifs <;> decide) trivial
  | cons x rest =>
    rw [if_neg (by simp : ¬ (x :: rest).isEmpty = true)]
    exact iff_of_false (by split_ifs <;> decide) (List.cons_ne_nil _ _)

theorem extentFlags_shared :
    s.extentFlags ib rest &&& extentShared ≠ 0 ↔ 1 < counts s ib.dblkref := by
  unfold Sbi.extentFlags
  by_cases hmany : 1 < counts s ib.dblkref
  · rw [if_pos hmany]
    exact iff_of_true (by split_ifs <;> decide) hmany
  · rw [if_neg hmany]
    exact iff_of_false (by split_ifs <;> decide) hmany

/-- **What an extent is made of**: a block, or two that are pages in a row. -/
theorem fiemapMerge_cases (h : OffsetsOk (ib :: rest)) :
    (s.fiemapMerge ib 0 0 (ib :: rest) = ((pageSize : ℤ), s.extentFlags ib rest, rest) ∧
      ∀ next ∈ rest.head?, ¬ s.Merges ib next) ∨
    ∃ next rest', rest = next :: rest' ∧ s.Merges ib next ∧
      s.fiemapMerge ib 0 0 (ib :: rest) = (2 * (pageSize : ℤ), s.extentFlags ib rest', rest') := by
  rw [fiemapMerge_turn]
  split
  · next hstop =>
    refine .inl ⟨by rw [zero_add], fun next hnext hmerge => ?_⟩
    rcases hstop with hflags | ⟨next', hnext', hlt⟩
    · refine hflags (extentFlags_eq_zero.mpr ⟨hmerge.1, ?_⟩)
      rintro rfl
      cases hnext
    · obtain rfl := Option.some.inj (hnext.symm.trans hnext')
      exact absurd hmerge.2 (Int.not_le.mpr hlt)
  · next hgo =>
    obtain ⟨hflags, hnear⟩ := not_or.mp hgo
    obtain ⟨hone, hne⟩ := extentFlags_eq_zero.mp (not_not.mp hflags)
    obtain ⟨next, rest', rfl⟩ := List.exists_cons_of_ne_nil hne
    have hle : next.off ≤ ib.off + pageSize := by
      by_contra hlt
      exact hnear ⟨next, rfl, Int.not_le.mp hlt⟩
    refine .inr ⟨next, rest', rfl, ⟨hone, hle⟩, ?_⟩
    rw [fiemapMerge_turn, if_pos, zero_add, two_mul]
    by_cases hend : rest' = []
    · exact .inl fun hz => (extentFlags_eq_zero.mp hz).2 hend
    · -- the block after the second one is too far from the first
      obtain ⟨after, rest'', rfl⟩ := List.exists_cons_of_ne_nil hend
      refine .inr ⟨after, rfl, ?_⟩
      have hsorted := List.pairwise_cons.mp h.sorted
      have hfirst := hsorted.1 next List.mem_cons_self
      have hsecond := (List.pairwise_cons.mp hsorted.2).1 after List.mem_cons_self
      have hal := h.aligned ib List.mem_cons_self
      have hal' := h.aligned next (List.mem_cons_of_mem _ List.mem_cons_self)
      unfold pageSize at *
      omega

/-- The extents of a list of blocks. -/
def Sbi.extents (s : Sbi) : List Iblkref → List FiemapExtent
  | [] => []
  | ib :: rest =>
    let r := s.fiemapMerge ib 0 0 (ib :: rest)
    ⟨ib.off, s.physaddrOf ib, r.1, r.2.1⟩ :: extents s r.2.2
termination_by l => l.length
decreasing_by
  have := s.length_fiemapMerge ib 0 0 (ib :: rest)
  simp only [List.length_cons] at this ⊢
  omega

/-- **The induction along the extents**: one of a block by itself, or of two. -/
theorem extents_induction (s : Sbi) {P : List Iblkref → List FiemapExtent → Prop} (nil : P [] [])
    (single : ∀ ib rest, OffsetsOk (ib :: rest) → (∀ next ∈ rest.head?, ¬ s.Merges ib next) →
      P rest (s.extents rest) → P (ib :: rest)
        (⟨ib.off, s.physaddrOf ib, pageSize, s.extentFlags ib rest⟩ :: s.extents rest))
    (pair : ∀ ib next rest, OffsetsOk (ib :: next :: rest) → s.Merges ib next →
      P rest (s.extents rest) → P (ib :: next :: rest)
        (⟨ib.off, s.physaddrOf ib, 2 * pageSize, s.extentFlags ib rest⟩ :: s.extents rest))
    (h : OffsetsOk l) : P l (s.extents l) := by
  fun_induction Sbi.extents s l with
  | case1 => exact nil
  | case2 ib rest r =>
    rename_i ih
    rcases @fiemapMerge_cases s ib rest h with ⟨hr, hnot⟩ | ⟨next, rest', rfl, hmerge, hr⟩
    · change r = _ at hr
      rw [hr] at ih ⊢
      exact single ib rest h hnot (ih (h.sublist (List.sublist_cons_self _ _)))
    · change r = _ at hr
      rw [hr] at ih ⊢
      exact pair ib next rest' h hmerge
        (ih (h.sublist ((List.sublist_cons_self _ _).trans (List.sublist_cons_self _ _))))

/-- Where there is room `_fiemap` hands on the extents of the list. -/
theorem fiemapLoop_eq {fill : List FiemapExtent → FiemapExtent → FillResult × List FiemapExtent}
    {room : ℕ} (hfill : ∀ l e, l.length < room → fill l e = (.next, l ++ [e])) {flags : UInt32}
    {filled : List FiemapExtent} (hroom : filled.length + l.length ≤ room)
    (hflags : flags &&& extentLast ≠ 0 → l = []) (h : OffsetsOk l) :
    s.fiemapLoop fill flags filled l = (none, filled ++ s.extents l) := by
  fun_induction Sbi.extents s l generalizing flags filled with
  | case1 => simp [Sbi.fiemapLoop]
  | case2 ib rest r =>
    rename_i ih
    have hlen := s.length_fiemapMerge ib 0 0 (ib :: rest)
    simp only [List.length_cons] at hroom hlen
    have hzero : flags &&& extentLast = 0 := by
      by_contra hne
      cases hflags hne
    have hlt : filled.length < room := by omega
    have hnext : (r.2.1 &&& extentLast ≠ 0 → r.2.2 = []) ∧ OffsetsOk r.2.2 := by
      rcases @fiemapMerge_cases s ib rest h with ⟨hr, -⟩ | ⟨next, rest', rfl, -, hr⟩
      · change r = _ at hr
        rw [hr]
        exact ⟨extentFlags_last.mp, h.sublist (List.sublist_cons_self _ _)⟩
      · change r = _ at hr
        rw [hr]
        exact ⟨extentFlags_last.mp,
          h.sublist ((List.sublist_cons_self _ _).trans (List.sublist_cons_self _ _))⟩
    rw [Sbi.fiemapLoop, if_pos hzero]
    simp only [hfill filled _ hlt]
    change r.2.2.length ≤ _ at hlen
    refine (ih ?_ hnext.1 hnext.2).trans ?_
    · rw [List.length_append, List.length_singleton]
      omega
    · rw [List.append_assoc]
      rfl

/-! ## What the extents say -/

/-- The extents cover the pages of the blocks in order, and the last is flagged. -/
structure ExtentsCover (l : List Iblkref) (exts : List FiemapExtent) : Prop where
  starts : ∀ e ∈ exts, 0 < e.length ∧ ∃ ib ∈ l, ib.off ≤ e.logical
  ordered : exts.Pairwise fun e e' => e.logical < e'.logical ∧ e.logical + e.length ≤ e'.logical
  covers : ∀ q, (∃ e ∈ exts, e.Has q) ↔ ∃ ib ∈ l, ib.off ≤ q ∧ q < ib.off + pageSize
  last : ∀ e ∈ exts, e.IsLast ↔ ∀ ib ∈ l, ib.off < e.logical + e.length

/-- The extents tell where the blocks lie and whether they are shared. -/
def Sbi.ExtentsTrue (s : Sbi) (l : List Iblkref) (exts : List FiemapExtent) : Prop :=
  ∀ e ∈ exts, ∀ ib ∈ l, e.Has ib.off →
    e.phys + (ib.off - e.logical) = s.physaddrOf ib ∧ (e.IsShared ↔ 1 < counts s ib.dblkref)

section Cons

variable {e : FiemapExtent} {g : List Iblkref} {exts : List FiemapExtent}
  (hg : ∀ q, e.Has q ↔ ∃ ib ∈ g, ib.off ≤ q ∧ q < ib.off + pageSize)
  (hsep : ∀ ib ∈ rest, e.logical + e.length ≤ ib.off) (hrest : ExtentsCover rest exts)

include hg

theorem has_of_mem (hm : ib ∈ g) : e.Has ib.off :=
  (hg _).mpr ⟨ib, hm, le_rfl, by unfold pageSize; omega⟩

include hsep hrest

/-- An extent before all others, of the blocks of its own. -/
theorem ExtentsCover.cons (hpos : 0 < e.length) (hlast : e.IsLast ↔ rest = []) :
    ExtentsCover (g ++ rest) (e :: exts) := by
  have hafter : ∀ e' ∈ exts, e.logical + e.length ≤ e'.logical := by
    intro e' he'
    obtain ⟨-, x, hx, hle⟩ := hrest.starts e' he'
    exact (hsep x hx).trans hle
  refine ⟨?_, ?_, fun q => ?_, ?_⟩
  · rintro e' (_ | ⟨_, he'⟩)
    · obtain ⟨ib, hm, hle, -⟩ := (hg e.logical).mp ⟨le_rfl, by omega⟩
      exact ⟨hpos, ib, List.mem_append_left _ hm, hle⟩
    · obtain ⟨hpos', x, hx, hle⟩ := hrest.starts e' he'
      exact ⟨hpos', x, List.mem_append_right _ hx, hle⟩
  · refine List.pairwise_cons.mpr ⟨fun e' he' => ?_, hrest.ordered⟩
    have := hafter e' he'
    omega
  · rw [List.exists_mem_cons_iff, hg, hrest.covers]
    simp only [List.mem_append, or_and_right, exists_or]
  · rintro e' (_ | ⟨_, he'⟩)
    · rw [hlast]
      constructor
      · rintro rfl ib hm
        rw [List.append_nil] at hm
        exact (has_of_mem hg hm).2
      · intro hall
        refine List.eq_nil_iff_forall_not_mem.mpr fun ib hm => ?_
        exact absurd (hall ib (List.mem_append_right _ hm)) (Int.not_lt.mpr (hsep ib hm))
    · rw [hrest.last e' he']
      refine ⟨fun hall ib hm => ?_, fun hall ib hm => hall ib (List.mem_append_right _ hm)⟩
      rcases List.mem_append.mp hm with hm | hm
      · have hin := (has_of_mem hg hm).2
        have := hafter e' he'
        have := (hrest.starts e' he').1
        omega
      · exact hall ib hm

/-- What it says is about its own blocks. -/
theorem extentsTrue_cons : s.ExtentsTrue (g ++ rest) (e :: exts) ↔
    (∀ ib ∈ g, e.phys + (ib.off - e.logical) = s.physaddrOf ib ∧
      (e.IsShared ↔ 1 < counts s ib.dblkref)) ∧ s.ExtentsTrue rest exts := by
  constructor
  · intro hall
    refine ⟨fun ib hm => ?_, fun e' he' ib hm hin => ?_⟩
    · exact hall e List.mem_cons_self ib (List.mem_append_left _ hm) (has_of_mem hg hm)
    · exact hall e' (List.mem_cons_of_mem _ he') ib (List.mem_append_right _ hm) hin
  · rintro ⟨hown, htail⟩ e' he' ib hm hin
    rcases List.mem_cons.mp he' with rfl | he'
    · rcases List.mem_append.mp hm with hm | hm
      · exact hown ib hm
      · exact absurd hin.2 (Int.not_lt.mpr (hsep ib hm))
    · rcases List.mem_append.mp hm with hm | hm
      · have hend := (has_of_mem hg hm).2
        obtain ⟨-, x, hx, hle⟩ := hrest.starts e' he'
        have := hsep x hx
        have := hin.1
        omega
      · exact htail e' he' ib hm hin

end Cons

/-- The blocks taken into the extent of another lie right behind it, and are not shared. -/
def Sbi.MergesOk (s : Sbi) : List Iblkref → Prop
  | [] => True
  | [_] => True
  | ib :: next :: rest =>
    if s.Merges ib next then
      s.physaddrOf next = s.physaddrOf ib + pageSize ∧ counts s next.dblkref ≤ 1 ∧ MergesOk s rest
    else MergesOk s (next :: rest)

instance decidableMergesOk (s : Sbi) : (l : List Iblkref) → Decidable (s.MergesOk l)
  | [] => .isTrue trivial
  | [_] => .isTrue trivial
  | ib :: next :: rest =>
    have := decidableMergesOk s rest
    have := decidableMergesOk s (next :: rest)
    inferInstanceAs (Decidable (if s.Merges ib next then _ ∧ _ ∧ _ else _))

theorem mergesOk_single (hnot : ∀ next ∈ rest.head?, ¬ s.Merges ib next) :
    s.MergesOk (ib :: rest) ↔ s.MergesOk rest := by
  cases rest with
  | nil => exact Iff.rfl
  | cons next rest => rw [Sbi.MergesOk, if_neg (hnot next rfl)]

/-- A block ends where the next one may start. -/
theorem OffsetsOk.sep (h : OffsetsOk (ib :: rest)) : ∀ x ∈ rest, ib.off + pageSize ≤ x.off := by
  intro x hx
  have hlt := (List.pairwise_cons.mp h.sorted).1 x hx
  have hal := h.aligned ib List.mem_cons_self
  have hal' := h.aligned x (List.mem_cons_of_mem _ hx)
  unfold pageSize at *
  omega

/-- **The extents of a sorted list** cover its pages, and are true of the blocks just when
the pairs are right. -/
theorem extents_spec (h : OffsetsOk l) :
    ExtentsCover l (s.extents l) ∧ (s.ExtentsTrue l (s.extents l) ↔ s.MergesOk l) := by
  refine extents_induction s (P := fun l exts => ExtentsCover l exts ∧
    (s.ExtentsTrue l exts ↔ s.MergesOk l)) ?_ ?_ ?_ h
  · refine ⟨⟨nofun, .nil, fun q => ?_, nofun⟩, iff_of_true nofun trivial⟩
    simp
  · intro ib rest h hnot ⟨hcover, htrue⟩
    have hg : ∀ q, (⟨ib.off, s.physaddrOf ib, pageSize, s.extentFlags ib rest⟩ : FiemapExtent).Has q ↔
        ∃ x ∈ [ib], x.off ≤ q ∧ q < x.off + pageSize := by simp [FiemapExtent.Has]
    have hpos : (0 : ℤ) < pageSize := by decide
    refine ⟨.cons hg h.sep hcover hpos extentFlags_last, ?_⟩
    refine (extentsTrue_cons hg h.sep hcover).trans ((and_iff_right fun x hx => ?_).trans
      (htrue.trans (mergesOk_single hnot).symm))
    obtain rfl := List.mem_singleton.mp hx
    exact ⟨by simp, extentFlags_shared⟩
  · intro ib next rest h hmerge ⟨hcover, htrue⟩
    have hnext : next.off = ib.off + pageSize :=
      le_antisymm hmerge.2 (h.sep next List.mem_cons_self)
    have hg : ∀ q, (⟨ib.off, s.physaddrOf ib, 2 * pageSize, s.extentFlags ib rest⟩ :
        FiemapExtent).Has q ↔ ∃ x ∈ [ib, next], x.off ≤ q ∧ q < x.off + pageSize := by
      intro q
      simp only [FiemapExtent.Has, List.mem_cons, List.not_mem_nil, or_false, exists_eq_or_imp,
        exists_eq_left, hnext]
      omega
    have hsep : ∀ x ∈ rest, ib.off + 2 * pageSize ≤ x.off := by
      intro x hx
      have := (h.sublist (List.sublist_cons_self _ _)).sep x hx
      omega
    have hpos : (0 : ℤ) < 2 * pageSize := by decide
    refine ⟨.cons hg hsep hcover hpos extentFlags_last, ?_⟩
    rw [Sbi.MergesOk, if_pos hmerge, ← and_assoc, ← htrue]
    refine (extentsTrue_cons hg hsep hcover).trans (and_congr_left' ?_)
    have hfirst := hmerge.1
    simp only [List.mem_cons, List.not_mem_nil, or_false, forall_eq_or_imp, forall_eq,
      FiemapExtent.IsShared, extentFlags_shared, hnext]
    constructor
    · rintro ⟨-, hphys, hshared⟩
      exact ⟨by omega, by omega⟩
    · rintro ⟨hphys, hone⟩
      exact ⟨⟨by omega, trivial⟩, by omega, by omega⟩

/-! ## The mapping of a file -/

/-- The page meets the range. -/
def MeetsRange (offset : ℤ) (len : UInt64) (boff : ℤ) : Prop :=
  0 < len.toNat ∧ offset < boff + pageSize ∧ boff < offset + len.toNat

instance (offset : ℤ) (len : UInt64) (boff : ℤ) : Decidable (MeetsRange offset len boff) :=
  inferInstanceAs (Decidable (_ ∧ _ ∧ _))

/-- The extents are the true mapping of the file from the page of `offset` on, in the range. -/
structure Sbi.FiemapExact (s : Sbi) (n : RecPtr) (offset : ℤ) (len : UInt64)
    (exts : List FiemapExtent) : Prop where
  ordered : exts.Pairwise fun e e' => e.logical < e'.logical ∧ e.logical + e.length ≤ e'.logical
  covers : ∀ q, 0 ≤ q → ((∃ e ∈ exts, e.Has q) ↔ s.HasBlock n q ∧
    offToBoff offset ≤ offToBoff q ∧ MeetsRange offset len (offToBoff q))
  physical : ∀ e ∈ exts, ∀ ib ∈ s.blocksOf n, e.Has ib.off →
    e.phys + (ib.off - e.logical) = s.physaddrOf ib
  shared : ∀ e ∈ exts, ∀ ib ∈ s.blocksOf n, e.Has ib.off →
    (e.IsShared ↔ 1 < (s.dblkrefs ib.dblkref).refcnt)
  last : ∀ e ∈ exts, e.IsLast ↔ ∀ ib ∈ s.blocksOf n, ib.off < e.logical + e.length

/-- The blocks from the page of `offset` on lie in the range, and those merged lie in a row. -/
structure Sbi.FiemapFits (s : Sbi) (n : RecPtr) (offset : ℤ) (len : UInt64) : Prop where
  inRange : ∀ ib ∈ s.blocksOf n, offToBoff offset ≤ ib.off → 0 < len.toNat ∧ ib.off < offset + len.toNat
  merges : s.MergesOk (fetchIblkrefFrom (s.blocksOf n) offset)

instance (s : Sbi) (n : RecPtr) (offset : ℤ) (len : UInt64) :
    Decidable (s.FiemapFits n offset len) :=
  decidable_of_iff ((∀ ib ∈ s.blocksOf n, _ → _) ∧ s.MergesOk _)
    ⟨fun h => ⟨h.1, h.2⟩, fun h => ⟨h.inRange, h.merges⟩⟩

/-- The pages from that of the offset on end after the offset. -/
theorem lt_of_offToBoff_le {boff : ℤ} (h₀ : 0 ≤ boff) (hal : boff % pageSize = 0)
    (hle : offToBoff offset ≤ boff) : offset < boff + pageSize := by
  rcases Int.lt_or_le offset 0 with hneg | hoff
  · unfold pageSize
    omega
  · have hboff := offToBoff_eq hoff
    unfold pageSize at *
    omega

theorem fiemapExact_iff_fits (h : OffsetsOk (s.blocksOf n)) {len : UInt64} :
    s.FiemapExact n offset len (s.extents (fetchIblkrefFrom (s.blocksOf n) offset)) ↔
      s.FiemapFits n offset len := by
  set l := fetchIblkrefFrom (s.blocksOf n) offset
  have hmem : ∀ ib, ib ∈ l ↔ ib ∈ s.blocksOf n ∧ offToBoff offset ≤ ib.off :=
    fun ib => mem_fetchIblkrefFrom h
  obtain ⟨hcover, htrue⟩ := @extents_spec s l (h.sublist (List.dropWhile_sublist _))
  -- the blocks before the offset are in no extent
  have hfrom : ∀ e ∈ s.extents l, offToBoff offset ≤ e.logical := by
    intro e he
    obtain ⟨-, x, hx, hle⟩ := hcover.starts e he
    exact ((hmem x).mp hx).2.trans hle
  have hpages : ∀ q, 0 ≤ q →
      ((∃ e ∈ s.extents l, e.Has q) ↔ s.HasBlock n q ∧ offToBoff offset ≤ offToBoff q) := by
    intro q hq
    rw [hcover.covers]
    constructor
    · rintro ⟨ib, hm, hin⟩
      obtain ⟨hm, hle⟩ := (hmem ib).mp hm
      have hat := (offToBoff_eq_iff hq (h.aligned ib hm)).mpr hin
      exact ⟨⟨ib, hm, hat.symm⟩, hat ▸ hle⟩
    · rintro ⟨⟨ib, hm, hat⟩, hle⟩
      exact ⟨ib, (hmem ib).mpr ⟨hm, hat ▸ hle⟩, (offToBoff_eq_iff hq (h.aligned ib hm)).mp hat.symm⟩
  constructor
  · intro hexact
    refine ⟨fun ib hm hle => ?_, htrue.mp fun e he ib hm hin => ?_⟩
    · have hnn := h.nonneg ib hm
      have hat : offToBoff ib.off = ib.off := offToBoff_of_aligned (h.aligned ib hm)
      have hcov := (hpages ib.off hnn).mpr ⟨⟨ib, hm, hat.symm⟩, by rwa [hat]⟩
      have hmeets := ((hexact.covers ib.off hnn).mp hcov).2.2
      rw [hat] at hmeets
      exact ⟨hmeets.1, hmeets.2.2⟩
    · have hm := ((hmem ib).mp hm).1
      exact ⟨hexact.physical e he ib hm hin, hexact.shared e he ib hm hin⟩
  · intro hfits
    have htell := htrue.mpr hfits.merges
    have hin : ∀ e ∈ s.extents l, ∀ ib ∈ s.blocksOf n, e.Has ib.off → ib ∈ l :=
      fun e he ib hm hin => (hmem ib).mpr ⟨hm, (hfrom e he).trans hin.1⟩
    refine ⟨hcover.ordered, fun q hq => (hpages q hq).trans ?_, ?_, ?_, fun e he => ?_⟩
    · refine and_congr_right fun ⟨ib, hm, hat⟩ => (and_iff_left_of_imp fun hle => ?_).symm
      rw [← hat] at hle ⊢
      obtain ⟨hlen, hlt⟩ := hfits.inRange ib hm hle
      exact ⟨hlen, lt_of_offToBoff_le (h.nonneg ib hm) (h.aligned ib hm) hle, hlt⟩
    · exact fun e he ib hm hhas => (htell e he ib (hin e he ib hm hhas) hhas).1
    · exact fun e he ib hm hhas => (htell e he ib (hin e he ib hm hhas) hhas).2
    · rw [hcover.last e he]
      refine ⟨fun hall ib hm => ?_, fun hall ib hm => hall ib ((hmem ib).mp hm).1⟩
      by_cases hle : offToBoff offset ≤ ib.off
      · exact hall ib ((hmem ib).mpr ⟨hm, hle⟩)
      · have := hfrom e he
        have := (hcover.starts e he).1
        omega

/-- **When fiemap reports the true mapping.** -/
theorem fiemap_exact_iff (apiMapMaxSize : ℕ) (x : Sys)
    (h : ((toyfs apiMapMaxSize).restrict fun _ a => a.InFile).Reachable x) (n : RecPtr)
    (hreg : (x.sbi.inodes n).iMode = .reg) (offset : ℤ) (len : UInt64) (extentsMax : ℕ)
    (fill : List FiemapExtent → FiemapExtent → FillResult × List FiemapExtent)
    (hfill : ∀ l e, l.length < extentsMax → fill l e = (.next, l ++ [e]))
    (hmax : (x.sbi.blocksOf n).length ≤ extentsMax) :
    x.sbi.FiemapExact n offset len (x.sbi.fiemap fill n offset len).2 ↔
      x.sbi.FiemapFits n offset len := by
  have hoffs := ((toyfs_filesOk h).onFile hreg).offsets
  have hsub : (fetchIblkrefFrom (x.sbi.blocksOf n) offset).Sublist (x.sbi.blocksOf n) :=
    List.dropWhile_sublist _
  have hroom : ([] : List FiemapExtent).length +
      (fetchIblkrefFrom (x.sbi.blocksOf n) offset).length ≤ extentsMax := by
    rw [List.length_nil, Nat.zero_add]
    exact hsub.length_le.trans hmax
  have hflags : (0 : UInt32) &&& extentLast ≠ 0 →
      fetchIblkrefFrom (x.sbi.blocksOf n) offset = [] := fun hne => absurd (by decide) hne
  unfold Sbi.fiemap
  rw [if_neg (not_not.mpr hreg), fiemapLoop_eq hfill hroom hflags (hoffs.sublist hsub),
    List.nil_append]
  exact fiemapExact_iff_fits hoffs

/-- A page that is shared is written first, then two pages before it, the second of them first: the
two make up one extent, the shared one is another, and a list of ten has room for them. -/
theorem fiemap_exact_iff_merged : ∃ x,
    ((toyfs 65536).restrict fun _ a => a.InFile).Reachable x ∧
      let exts := (x.sbi.fiemap (fun l e =>
        if l.length < 10 then (.next, l ++ [e]) else (.full, l)) ⟨1023, 1⟩ 50 40000).2
      exts.map FiemapExtent.logical = [0, 20480] ∧
      exts.map FiemapExtent.length = [8192, 4096] ∧
      exts.map (fun e => decide e.IsShared) = [false, true] ∧
      x.sbi.FiemapExact ⟨1023, 1⟩ 50 40000 exts := by
  obtain ⟨x, hx, hp⟩ := exists_restrict_of_mounted 65536 (fun _ a => a.InFile)
    [.newInode ⟨1023, 0⟩ ⟨.reg, 0, 0, [], fun _ => 0, false⟩ (some 2),
      .newInode ⟨1023, 0⟩ ⟨.reg, 0, 0, [], fun _ => 0, false⟩ (some 3),
      .write ⟨1023, 1⟩ (fun _ => 7) 20480 4096, .write ⟨1023, 1⟩ (fun _ => 8) 4096 4096,
      .write ⟨1023, 1⟩ (fun _ => 9) 0 4096, .clone ⟨1023, 1⟩ ⟨1023, 2⟩ 20480 0 4096]
    (p := fun x =>
      let exts := (x.sbi.fiemap (fun l e =>
        if l.length < 10 then (.next, l ++ [e]) else (.full, l)) ⟨1023, 1⟩ 50 40000).2
      decide ((x.sbi.inodes ⟨1023, 1⟩).iMode = .reg ∧ (x.sbi.blocksOf ⟨1023, 1⟩).length ≤ 10 ∧
        x.sbi.FiemapFits ⟨1023, 1⟩ 50 40000 ∧
        exts.map FiemapExtent.logical = [0, 20480] ∧
        exts.map FiemapExtent.length = [8192, 4096] ∧
        exts.map (fun e => decide e.IsShared) = [false, true]))
    (by decide +kernel)
  obtain ⟨hreg, hmax, hfits, hlogical, hlength, hshared⟩ := of_decide_eq_true hp
  have hiff := fiemap_exact_iff 65536 x hx ⟨1023, 1⟩ hreg 50 40000 10
    (fun l e => if l.length < 10 then (.next, l ++ [e]) else (.full, l))
    (fun l e hlt => if_pos hlt) hmax
  exact ⟨x, hx, hlogical, hlength, hshared, hiff.mpr hfits⟩

/-- Two pages written one after the other lie one before the other, and their one extent says
they lie one after the other. -/
theorem fiemap_merges_apart : ¬ ∀ x,
    ((toyfs 65536).restrict fun _ a => a.InFile).Reachable x →
    ∀ n, (x.sbi.inodes n).iMode = .reg → ∀ (offset : ℤ) (len : UInt64) (extentsMax : ℕ)
      (fill : List FiemapExtent → FiemapExtent → FillResult × List FiemapExtent),
      (∀ l e, l.length < extentsMax → fill l e = (.next, l ++ [e])) →
      (x.sbi.blocksOf n).length ≤ extentsMax →
      x.sbi.FiemapExact n offset len (x.sbi.fiemap fill n offset len).2 := by
  intro hall
  obtain ⟨x, hx, hp⟩ := exists_restrict_of_mounted 65536 (fun _ a => a.InFile)
    [.newInode ⟨1023, 0⟩ ⟨.reg, 0, 0, [], fun _ => 0, false⟩ (some 2),
      .write ⟨1023, 1⟩ (fun _ => 7) 0 8192]
    (p := fun x => (x.sbi.inodes ⟨1023, 1⟩).iMode == .reg &&
      (x.sbi.fiemap (fun l e => (.next, l ++ [e])) ⟨1023, 1⟩ 0 8192).2.any fun e =>
        (x.sbi.blocksOf ⟨1023, 1⟩).any fun ib =>
          decide (e.Has ib.off) && e.phys + (ib.off - e.logical) != x.sbi.physaddrOf ib)
    (by decide +kernel)
  simp only [Bool.and_eq_true, beq_iff_eq, List.any_eq_true, decide_eq_true_eq, bne_iff_ne] at hp
  obtain ⟨hreg, e, he, ib, hm, hin, hne⟩ := hp
  have hexact := hall x hx ⟨1023, 1⟩ hreg 0 8192 _ (fun l e => (.next, l ++ [e]))
    (fun _ _ _ => rfl) le_rfl
  exact hne (hexact.physical e he ib hm hin)

end Zus.Toyfs
