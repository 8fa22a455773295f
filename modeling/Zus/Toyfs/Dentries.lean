import Mathlib.Order.Interval.Finset.Nat
import Zus.Lib.Tiling
import Zus.Toyfs.System

/-!
# Pages of directory entries

A page of entries is tiled by cells: a free slot is a cell of one slot, an entry one of as
many slots as its name needs. Every walk of `dir.c` steps from cell to cell, so it never
takes the bytes of a name for the header of an entry. Entries are added over free cells and
leave free cells behind.
-/

namespace Zus.Toyfs

open Zus.Lib Dirent

/-! ## Cells -/

/-- What an entry says. The numbers of inodes start after `TOYFS_NULL_INO`. -/
structure Entry where
  name : List UInt8
  ino : UInt64
  type : UInt8
  valid : ValidName name
  ino_ne : ino ≠ 0

/-- The pieces of a page. -/
inductive Cell
  | free
  | live (e : Entry)

namespace Cell

/-- The slots of a cell. -/
def size : Cell → ℕ
  | free => 1
  | live e => namelenToNde e.name.length

/-- The entry of a cell. -/
def entry : Cell → Option Entry
  | free => none
  | live e => some e

/-- The cell holds an entry of this name. -/
def named (name : List UInt8) : Cell → Bool
  | free => false
  | live e => e.name == name

@[simp] theorem size_free : size free = 1 := rfl

@[simp] theorem size_live (e : Entry) : size (live e) = namelenToNde e.name.length := rfl

theorem size_pos (c : Cell) : 0 < c.size := by
  cases c with
  | free => exact Nat.one_pos
  | live e => exact namelenToNde_pos _

end Cell

/-- The slot holds the entry. -/
structure EntryAt (pg : Bytes) (i off : ℕ) (e : Entry) : Prop where
  nlen : dNlen pg i = e.name.length
  ino : dIno pg i = e.ino.toNat
  type : dType pg i = e.type
  name : dName pg i e.name.length = e.name
  off : dOff pg i = toLoff (.ofNat off)

/-- The slot holds the cell; `base` is the `d_off` of the first slot of the page. -/
def CellAt (pg : Bytes) (base i : ℕ) : Cell → Prop
  | .free => dNlen pg i = 0
  | .live e => EntryAt pg i (base + i) e

/-- The slots from `i` on hold the cells. -/
def CellsAt (pg : Bytes) (base i : ℕ) (cs : List Cell) : Prop :=
  ∀ p ∈ placed Cell.size i cs, CellAt pg base p.1 p.2

theorem Entry.name_pos (e : Entry) : 0 < e.name.length := List.length_pos_iff.mpr e.valid.1

theorem Entry.ino_toNat_ne (e : Entry) : e.ino.toNat ≠ 0 := fun h =>
  e.ino_ne (UInt64.toNat_inj.mp h)

variable {pg pg' : Bytes} {base i : ℕ}

@[simp] theorem cellsAt_nil : CellsAt pg base i [] := fun _ h => by cases h

@[simp] theorem cellsAt_cons {c : Cell} {cs : List Cell} :
    CellsAt pg base i (c :: cs) ↔ CellAt pg base i c ∧ CellsAt pg base (i + c.size) cs := by
  simp [CellsAt]

@[simp] theorem cellsAt_append {cs cs' : List Cell} :
    CellsAt pg base i (cs ++ cs') ↔
      CellsAt pg base i cs ∧ CellsAt pg base (i + total Cell.size cs) cs' := by
  simp only [CellsAt, placed_append, List.mem_append, or_imp, forall_and]

/-- The bytes of a name lie in the slots of its entry. -/
theorem slot_add_le (i n : ℕ) : slot i + 18 + n ≤ slot (i + namelenToNde n) := by
  unfold slot namelenToNde
  split <;> omega

/-- A cell is known from the bytes of its slots. -/
theorem CellAt.congr {c : Cell} (h : CellAt pg base i c)
    (hpg : ∀ j, slot i ≤ j → j < slot (i + c.size) → pg' j = pg j) : CellAt pg' base i c := by
  have hslice : ∀ off len, slot i ≤ off → off + len ≤ slot (i + c.size) →
      pg'.slice off len = pg.slice off len :=
    fun off len hlo hhi => Bytes.slice_congr fun j hj => hpg _ (by omega) (by omega)
  have hroom : slot i + 18 + 14 ≤ slot (i + c.size) := by
    have := c.size_pos
    unfold slot
    omega
  have hnlen : dNlen pg' i = dNlen pg i := by
    rw [dNlen, hpg _ (by omega) (by omega), ← dNlen]
  cases c with
  | free =>
    rw [CellAt, hnlen]
    exact h
  | live e =>
    have hname := slot_add_le i e.name.length
    rw [Cell.size_live] at hslice hroom hpg
    refine ⟨hnlen.trans h.nlen, ?_, ?_, ?_, ?_⟩
    · rw [dIno, hslice _ _ (by omega) (by omega)]
      exact h.ino
    · rw [dType, hpg _ (by omega) (by omega)]
      exact h.type
    · rw [dName, hslice _ _ (by omega) (by omega)]
      exact h.name
    · rw [dOff, hslice _ _ (by omega) (by omega)]
      exact h.off

theorem slot_mono {i j : ℕ} (h : i ≤ j) : slot i ≤ slot j := by
  unfold slot
  omega

/-- Cells are known from the bytes of their slots. -/
theorem CellsAt.congr {cs : List Cell} (h : CellsAt pg base i cs)
    (hpg : ∀ j, slot i ≤ j → j < slot (i + total Cell.size cs) → pg' j = pg j) :
    CellsAt pg' base i cs := by
  intro p hp
  obtain ⟨hlo, hhi⟩ := bounds_of_mem_placed hp
  refine (h p hp).congr fun j h₁ h₂ => hpg j ?_ ?_
  · exact (slot_mono hlo).trans h₁
  · exact h₂.trans_le (slot_mono hhi)

/-! ## Stores -/

/-- Zeroed slots are free cells. -/
theorem cellsAt_zero {n : ℕ} (h : ∀ j, slot i ≤ j → j < slot (i + n) → pg j = 0) :
    CellsAt pg base i (List.replicate n .free) := by
  induction n generalizing i with
  | zero => exact cellsAt_nil
  | succ n ih =>
    rw [List.replicate_succ, cellsAt_cons]
    refine ⟨?_, ih fun j hlo hhi => h j ?_ ?_⟩
    · have hlast : slot i + 17 < slot (i + (n + 1)) := by
        unfold slot
        omega
      rw [CellAt, dNlen, h _ (by omega) hlast]
      rfl
    · exact (slot_mono (Nat.le_add_right i 1)).trans hlo
    · rwa [Cell.size_free, Nat.add_assoc, Nat.add_comm 1 n] at hhi

/-- A removed entry leaves free cells behind. -/
theorem cellsAt_resetDirent {e : Entry} (h : EntryAt pg i (base + i) e) :
    CellsAt (resetDirent pg i) base i
      (List.replicate (namelenToNde e.name.length) .free) := by
  refine cellsAt_zero fun j hlo hhi => ?_
  rw [resetDirent, h.nlen, Bytes.store_of_mem _ _ hlo (by unfold slot at *; omega)]

theorem resetDirent_eq {e : Entry} (h : EntryAt pg i (base + i) e) {j : ℕ}
    (hj : j < slot i ∨ slot (i + namelenToNde e.name.length) ≤ j) : resetDirent pg i j = pg j := by
  rw [resetDirent, h.nlen]
  obtain hj | hj := hj
  · exact Bytes.store_of_lt _ _ hj
  · exact Bytes.store_of_ge _ _ (by unfold slot at *; omega)

/-- A stored entry is read back. -/
theorem entryAt_setDirent (e : Entry) (off : ℕ) :
    EntryAt (setDirent pg i e.name e.ino e.type off) i off e := by
  have hlen8 : ∀ n, (leBytes 8 n).length = 8 := length_leBytes 8
  have hstored : ∀ (m : Bytes) (o n : ℕ),
      (m.store o 8 (.ofList (leBytes 8 n))).slice o 8 = leBytes 8 n := fun m o n => by
    have := @Bytes.slice_store_ofList m o (leBytes 8 n)
    rwa [hlen8] at this
  unfold setDirent
  constructor
  · rw [dNlen, Bytes.store_of_ge _ _ (by omega), Bytes.store_of_ge _ _ (by omega),
      Bytes.store_of_ge _ _ (by omega), Bytes.store_of_mem _ _ (by omega) (by omega),
      UInt8.toNat_ofNat']
    exact Nat.mod_eq_of_lt (Nat.lt_succ_of_le e.valid.2.1)
  · rw [dIno, Bytes.slice_store_of_disjoint _ _ (.inr (by omega)),
      Bytes.slice_store_of_disjoint _ _ (.inl (by omega)), hstored]
    exact leNat_leBytes (e.ino.toNat_lt.trans_eq (by norm_num))
  · rw [dType, Bytes.store_of_ge _ _ (by omega), Bytes.store_of_mem _ _ (by omega) (by omega)]
  · rw [dName, Bytes.slice_store_of_disjoint _ _ (.inr (by omega)),
      Bytes.slice_store_of_disjoint _ _ (.inr (by omega)),
      Bytes.slice_store_of_disjoint _ _ (.inr (by omega)),
      Bytes.slice_store_of_disjoint _ _ (.inr (by omega)), Bytes.slice_store_ofList]
  · have hval : UInt64.ofNat (off % 256 ^ 8) = UInt64.ofNat off := by
      rw [← UInt64.toNat_inj, UInt64.toNat_ofNat', UInt64.toNat_ofNat']
      exact Nat.mod_mod off (2 ^ 64)
    rw [dOff, hstored, leNat_leBytes_mod, hval]

theorem setDirent_eq {name : List UInt8} {ino : UInt64} {type : UInt8} {off j : ℕ}
    (hj : j < slot i ∨ slot (i + namelenToNde name.length) ≤ j) :
    setDirent pg i name ino type off j = pg j := by
  have hname := slot_add_le i name.length
  have hend : slot (i + namelenToNde name.length) = slot i + namelenToNde name.length * 32 := by
    unfold slot
    omega
  unfold setDirent
  obtain hj | hj := hj
  · rw [Bytes.store_of_lt _ _ (by omega), Bytes.store_of_lt _ _ (by omega),
      Bytes.store_of_lt _ _ (by omega), Bytes.store_of_lt _ _ (by omega),
      Bytes.store_of_lt _ _ (by omega), Bytes.store_of_lt _ _ (by omega)]
  · rw [Bytes.store_of_ge _ _ (by omega), Bytes.store_of_ge _ _ (by omega),
      Bytes.store_of_ge _ _ (by omega), Bytes.store_of_ge _ _ (by omega),
      Bytes.store_of_ge _ _ (by omega), Bytes.store_of_ge _ _ (by omega)]

/-- **Adding an entry** over free cells. -/
theorem CellsAt.setDirent {cs cs' : List Cell} (e : Entry)
    (h : CellsAt pg base 0
      (cs ++ List.replicate (namelenToNde e.name.length) .free ++ cs')) :
    CellsAt (setDirent pg (total Cell.size cs) e.name e.ino e.type (base + total Cell.size cs)) base
      0 (cs ++ .live e :: cs') := by
  simp only [cellsAt_append, cellsAt_cons, total_append, total_replicate, Cell.size_free,
    Nat.mul_one, Nat.zero_add, Cell.size_live] at h ⊢
  obtain ⟨⟨hbefore, -⟩, hbehind⟩ := h
  refine ⟨hbefore.congr fun j _ hj => setDirent_eq (.inl ?_), entryAt_setDirent e _,
    hbehind.congr fun j hj _ => setDirent_eq (.inr ?_)⟩
  · rwa [Nat.zero_add] at hj
  · exact hj

/-- **Removing an entry**: free cells take its place. -/
theorem CellsAt.resetDirent {cs cs' : List Cell} {e : Entry}
    (h : CellsAt pg base 0 (cs ++ .live e :: cs')) :
    CellsAt (resetDirent pg (total Cell.size cs)) base 0
      (cs ++ List.replicate (namelenToNde e.name.length) .free ++ cs') := by
  simp only [cellsAt_append, cellsAt_cons, total_append, total_replicate, Cell.size_free,
    Nat.mul_one, Nat.zero_add, Cell.size_live] at h ⊢
  obtain ⟨hbefore, hentry, hbehind⟩ := h
  refine ⟨⟨hbefore.congr fun j _ hj => resetDirent_eq hentry (.inl ?_),
    cellsAt_resetDirent hentry⟩, hbehind.congr fun j hj _ => resetDirent_eq hentry (.inr hj)⟩
  rwa [Nat.zero_add] at hj

/-! ## Walks -/

theorem strncmpEq_iff {xs ys : List UInt8} (hlen : xs.length = ys.length) (h0 : (0 : UInt8) ∉ xs) :
    strncmpEq xs ys = true ↔ xs = ys := by
  induction xs generalizing ys with
  | nil => simp [strncmpEq, List.eq_nil_of_length_eq_zero hlen.symm]
  | cons x xs ih =>
    cases ys with
    | nil => cases hlen
    | cons y ys =>
      rw [List.mem_cons, not_or] at h0
      have hrest := ih (Nat.succ_inj.mp hlen) h0.2
      simp [strncmpEq, hrest, Ne.symm h0.1]

/-- The step of a walk is the size of the cell. -/
theorem CellAt.nextDirent {c : Cell} (h : CellAt pg base i c) :
    Dirent.nextDirent pg i = i + c.size := by
  cases c with
  | free =>
    have hnlen : dNlen pg i = 0 := h
    simp [Dirent.nextDirent, isActive, hnlen]
  | live e =>
    have hnlen := e.name_pos
    have hino := e.ino_toNat_ne
    simp [Dirent.nextDirent, isActive, h.nlen, h.ino, hnlen, hino]

/-- Only the entry of a name is taken for it. -/
theorem CellAt.hasname {c : Cell} (h : CellAt pg base i c) {name : List UInt8}
    (hname : name ≠ []) : Dirent.hasname pg i name = c.named name := by
  cases c with
  | free =>
    have hnlen : dNlen pg i = 0 := h
    have hpos : (0 == name.length) = false :=
      beq_eq_false_iff_ne.mpr (List.length_pos_iff.mpr hname).ne
    rw [Dirent.hasname, hnlen, hpos]
    rfl
  | live e =>
    rw [Dirent.hasname, h.nlen, h.name, Cell.named]
    by_cases hlen : e.name.length = name.length
    · have hcmp := strncmpEq_iff hlen e.valid.2.2
      rw [Bool.eq_iff_iff]
      simp [hlen, hcmp]
    · have hne : (e.name == name) = false :=
        beq_eq_false_iff_ne.mpr fun heq => hlen (congrArg List.length heq)
      have hne' : (e.name.length == name.length) = false := beq_eq_false_iff_ne.mpr hlen
      rw [hne, hne', Bool.false_and]

/-- `_find_dirent` finds the first cell of the name. -/
theorem CellsAt.findDirentFrom {cs : List Cell} (h : CellsAt pg base i cs)
    (hfull : i + total Cell.size cs = dentriesPerPage) {name : List UInt8} (hname : name ≠ []) :
    Dirent.findDirentFrom pg name i =
      ((placed Cell.size i cs).find? fun p => p.2.named name).map Prod.fst := by
  induction cs generalizing i with
  | nil =>
    rw [Dirent.findDirentFrom, if_neg (by rw [total_nil] at hfull; omega)]
    rfl
  | cons c cs ih =>
    obtain ⟨hc, hcs⟩ := cellsAt_cons.mp h
    have hpos := c.size_pos
    rw [total_cons] at hfull
    rw [Dirent.findDirentFrom, if_pos (by omega), hc.hasname hname, hc.nextDirent,
      ih hcs (by omega), placed_cons, List.find?_cons]
    cases c.named name <;> rfl

/-- `_count_free_de` counts the free cells up to the next entry. -/
theorem CellsAt.countFreeDe {cs : List Cell} (h : CellsAt pg base i cs)
    (hfull : i + total Cell.size cs = dentriesPerPage) :
    ∃ cs', cs = List.replicate (Dirent.countFreeDe pg i) .free ++ cs' ∧
      ∀ c ∈ cs'.head?, c ≠ .free := by
  induction cs generalizing i with
  | nil =>
    rw [Dirent.countFreeDe, if_neg (by rw [total_nil] at hfull; omega)]
    exact ⟨[], rfl, by simp⟩
  | cons c cs ih =>
    obtain ⟨hc, hcs⟩ := cellsAt_cons.mp h
    have hpos := c.size_pos
    rw [total_cons] at hfull
    rw [Dirent.countFreeDe, if_pos (by omega)]
    cases c with
    | free =>
      have hnlen : dNlen pg i = 0 := hc
      obtain ⟨cs', hcs', hhead⟩ := ih hcs (by omega)
      rw [if_neg (not_not.mpr hnlen)]
      refine ⟨cs', ?_, hhead⟩
      rw [Nat.add_comm 1, List.replicate_succ, List.cons_append]
      exact congrArg _ hcs'
    | live e =>
      have hnlen : dNlen pg i ≠ 0 := by
        rw [hc.nlen]
        exact e.name_pos.ne'
      rw [if_pos hnlen]
      exact ⟨.live e :: cs, rfl, by simp⟩

/-- `_search_free` finds free cells. -/
theorem CellsAt.searchFreeFrom {cs : List Cell} (h : CellsAt pg base i cs)
    (hfull : i + total Cell.size cs = dentriesPerPage) {required j : ℕ}
    (hj : Dirent.searchFreeFrom pg required i = some j) :
    ∃ xs ys, cs = xs ++ List.replicate required .free ++ ys ∧ j = i + total Cell.size xs := by
  induction hn : cs.length using Nat.strong_induction_on generalizing i cs with
  | _ n ih =>
    subst hn
    rw [Dirent.searchFreeFrom] at hj
    split at hj
    · next hlt =>
      obtain ⟨cs', hcs', hhead⟩ := h.countFreeDe hfull
      set count := Dirent.countFreeDe pg i
      dsimp only at hj
      split at hj
      · next hle =>
        obtain rfl := Option.some.inj hj
        refine ⟨[], List.replicate (count - required) .free ++ cs', ?_, rfl⟩
        rw [List.nil_append, ← List.append_assoc, ← List.replicate_add,
          Nat.add_sub_cancel' hle]
        exact hcs'
      · next hle =>
        -- step over the free cells, or over the entry
        obtain ⟨skip, rest, hsplit, hskip, hstep⟩ : ∃ skip rest, cs = skip ++ rest ∧ skip ≠ [] ∧
            i + (if count ≠ 0 then count else namelenToNde (dNlen pg i)) =
              i + total Cell.size skip := by
          by_cases h0 : count = 0
          · rw [h0, List.replicate_zero, List.nil_append] at hcs'
            subst hcs'
            cases cs with
            | nil =>
              rw [total_nil] at hfull
              omega
            | cons c cs =>
              cases c with
              | free => exact absurd rfl (hhead .free rfl)
              | live e =>
                refine ⟨[.live e], cs, rfl, by simp, ?_⟩
                have hentry : EntryAt pg i (base + i) e := (cellsAt_cons.mp h).1
                simp [h0, hentry.nlen]
          · exact ⟨List.replicate count .free, cs', hcs', by simpa using h0, by simp [h0]⟩
        subst hsplit
        rw [hstep] at hj
        rw [total_append] at hfull
        have hshort : rest.length < (skip ++ rest).length := by
          rw [List.length_append]
          have := List.length_pos_iff.mpr hskip
          omega
        obtain ⟨xs, ys, rfl, rfl⟩ := ih _ hshort (cellsAt_append.mp h).2 (by omega) hj rfl
        refine ⟨skip ++ xs, ys, by simp, ?_⟩
        rw [total_append]
        omega
    · cases hj

/-! ## Lists of pages -/

/-- A page of entries with the cells that tile it. -/
structure Dentries where
  bn : ℕ
  cells : List Cell
  full : total Cell.size cells = dentriesPerPage

/-- An entry at its place. -/
structure LiveDirent where
  bn : ℕ
  idx : ℕ
  off : ℕ
  entry : Entry

/-- The pages of a directory hold the cells; `base` is the `d_off` of the first slot. -/
def PagesAt (mem : ℕ → Bytes) : ℕ → List Dentries → Prop
  | _, [] => True
  | base, d :: ds => CellsAt (mem d.bn) base 0 d.cells ∧ PagesAt mem (base + dentriesPerPage) ds

/-- The entries among cells, with their places. -/
def liveIn (bn base i : ℕ) (cs : List Cell) : List LiveDirent :=
  (placed Cell.size i cs).filterMap fun p => p.2.entry.map fun e => ⟨bn, p.1, base + p.1, e⟩

/-- The entries of a directory, in the order of its pages and slots. -/
def dirents : ℕ → List Dentries → List LiveDirent
  | _, [] => []
  | base, d :: ds => liveIn d.bn base 0 d.cells ++ dirents (base + dentriesPerPage) ds

variable {bn : ℕ} {mem mem' : ℕ → Bytes} {ds ds' : List Dentries}

@[simp] theorem liveIn_append (cs cs' : List Cell) : liveIn bn base i (cs ++ cs') =
    liveIn bn base i cs ++ liveIn bn base (i + total Cell.size cs) cs' := by
  simp [liveIn]

@[simp] theorem liveIn_live (e : Entry) (cs : List Cell) : liveIn bn base i (.live e :: cs) =
    ⟨bn, i, base + i, e⟩ :: liveIn bn base (i + namelenToNde e.name.length) cs := by
  simp [liveIn, Cell.entry]

@[simp] theorem liveIn_free (n : ℕ) : liveIn bn base i (List.replicate n .free) = [] := by
  induction n generalizing i with
  | zero => rfl
  | succ n ih =>
    have hcons : liveIn bn base i (.free :: List.replicate n .free) =
        liveIn bn base (i + 1) (List.replicate n .free) := by
      simp [liveIn, Cell.entry]
    rw [List.replicate_succ, hcons, ih]

@[simp] theorem dirents_append : dirents base (ds ++ ds') =
    dirents base ds ++ dirents (base + dentriesPerPage * ds.length) ds' := by
  induction ds generalizing base with
  | nil => simp [dirents]
  | cons d ds ih =>
    simp only [List.cons_append, dirents, ih, List.append_assoc, List.length_cons]
    rw [Nat.add_assoc base, Nat.mul_succ, Nat.add_comm dentriesPerPage]

@[simp] theorem pagesAt_append : PagesAt mem base (ds ++ ds') ↔
    PagesAt mem base ds ∧ PagesAt mem (base + dentriesPerPage * ds.length) ds' := by
  induction ds generalizing base with
  | nil => simp [PagesAt]
  | cons d ds ih =>
    simp only [List.cons_append, PagesAt, ih, and_assoc, List.length_cons]
    rw [Nat.add_assoc base, Nat.mul_succ, Nat.add_comm dentriesPerPage]

theorem PagesAt.congr (h : PagesAt mem base ds) (hmem : ∀ d ∈ ds, mem' d.bn = mem d.bn) :
    PagesAt mem' base ds := by
  induction ds generalizing base with
  | nil => trivial
  | cons d ds ih =>
    rw [List.forall_mem_cons] at hmem
    refine ⟨?_, ih h.2 hmem.2⟩
    rw [hmem.1]
    exact h.1

/-- One page is stored anew. -/
theorem PagesAt.update {d d' : Dentries} {ds₁ ds₂ : List Dentries}
    (h : PagesAt mem base (ds₁ ++ d :: ds₂)) (hnodup : ((ds₁ ++ d :: ds₂).map Dentries.bn).Nodup)
    (hbn : d'.bn = d.bn) (hcells : CellsAt pg (base + dentriesPerPage * ds₁.length) 0 d'.cells) :
    PagesAt (Function.update mem d.bn pg) base (ds₁ ++ d' :: ds₂) := by
  obtain ⟨h₁, -, h₂⟩ := pagesAt_append.mp h
  rw [List.map_append, List.map_cons, List.perm_middle.nodup_iff, List.nodup_cons,
    List.mem_append, not_or] at hnodup
  obtain ⟨⟨hne₁, hne₂⟩, -⟩ := hnodup
  have hother : ∀ {ds : List Dentries}, d.bn ∉ ds.map Dentries.bn → ∀ x ∈ ds,
      Function.update mem d.bn pg x.bn = mem x.bn := fun hne x hx =>
    Function.update_of_ne (fun heq => hne (List.mem_map.mpr ⟨x, hx, heq⟩)) ..
  refine pagesAt_append.mpr ⟨h₁.congr (hother hne₁), ?_, h₂.congr (hother hne₂)⟩
  rw [hbn, Function.update_self]
  exact hcells

/-- An entry of a page splits its cells. -/
theorem exists_of_mem_liveIn {x : LiveDirent} {cs : List Cell} (h : x ∈ liveIn bn base i cs) :
    ∃ xs ys, cs = xs ++ .live x.entry :: ys ∧ x.bn = bn ∧ x.idx = i + total Cell.size xs ∧
      x.off = base + x.idx := by
  obtain ⟨p, hp, hx⟩ := List.mem_filterMap.mp h
  obtain ⟨xs, ys, rfl, hstart⟩ := exists_append_of_mem_placed hp
  obtain ⟨j, c⟩ := p
  cases c with
  | free => cases hx
  | live e =>
    obtain rfl : _ = x := Option.some.inj hx
    exact ⟨xs, ys, rfl, rfl, hstart, rfl⟩

/-- An entry of a directory splits its pages, and the cells of its page. -/
theorem exists_of_mem_dirents {x : LiveDirent} (h : x ∈ dirents base ds) :
    ∃ ds₁ d ds₂ xs ys, ds = ds₁ ++ d :: ds₂ ∧ d.cells = xs ++ .live x.entry :: ys ∧
      x = ⟨d.bn, total Cell.size xs, base + dentriesPerPage * ds₁.length + total Cell.size xs,
        x.entry⟩ := by
  induction ds generalizing base with
  | nil => cases h
  | cons d ds ih =>
    obtain h | h := List.mem_append.mp h
    · obtain ⟨xs, ys, hcells, hbn, hidx, hoff⟩ := exists_of_mem_liveIn h
      refine ⟨[], d, ds, xs, ys, rfl, hcells, ?_⟩
      obtain ⟨bn, idx, off, e⟩ := x
      simp only [Nat.zero_add] at hbn hidx hoff
      subst hbn hidx hoff
      simp
    · obtain ⟨ds₁, d', ds₂, xs, ys, rfl, hcells, hx⟩ := ih h
      refine ⟨d :: ds₁, d', ds₂, xs, ys, rfl, hcells, ?_⟩
      rw [hx, List.length_cons, Nat.mul_succ]
      simp only [LiveDirent.mk.injEq, true_and, and_true]
      omega

/-- An entry in place of the free cells it takes: one more entry in the directory. -/
theorem dirents_insert {d d' : Dentries} {ds₁ ds₂ : List Dentries} {xs ys : List Cell} {e : Entry}
    (hbn : d'.bn = d.bn)
    (hcells : d.cells = xs ++ List.replicate (namelenToNde e.name.length) .free ++ ys)
    (hcells' : d'.cells = xs ++ .live e :: ys) :
    ∃ ls rs, dirents base (ds₁ ++ d :: ds₂) = ls ++ rs ∧
      dirents base (ds₁ ++ d' :: ds₂) = ls ++ ⟨d.bn, total Cell.size xs,
        base + dentriesPerPage * ds₁.length + total Cell.size xs, e⟩ :: rs := by
  refine ⟨dirents base ds₁ ++ liveIn d.bn (base + dentriesPerPage * ds₁.length) 0 xs,
    liveIn d.bn (base + dentriesPerPage * ds₁.length)
      (total Cell.size xs + namelenToNde e.name.length) ys ++
        dirents (base + dentriesPerPage * ds₁.length + dentriesPerPage) ds₂, ?_, ?_⟩
  · simp [dirents, hcells]
  · simp [dirents, hcells', hbn]

/-- The bounds of the offsets of entries. -/
theorem off_bounds {x : LiveDirent} (h : x ∈ dirents base ds) :
    base ≤ x.off ∧ x.off < base + dentriesPerPage * ds.length := by
  obtain ⟨ds₁, d, ds₂, xs, ys, rfl, hcells, hx⟩ := exists_of_mem_dirents h
  have hfull := d.full
  have hpos := namelenToNde_pos x.entry.name.length
  rw [hcells, total_append, total_cons, Cell.size_live] at hfull
  rw [hx, List.length_append, List.length_cons]
  simp only [Nat.mul_add, Nat.mul_succ]
  omega

/-- The slots of an entry end before the next entries. -/
theorem dirents_pairwise : (dirents base ds).Pairwise fun x y =>
    x.off + namelenToNde x.entry.name.length ≤ y.off := by
  induction ds generalizing base with
  | nil => exact .nil
  | cons d ds ih =>
    refine List.pairwise_append.mpr ⟨?_, ih, fun x hx y hy => ?_⟩
    · refine (placed_pairwise 0 d.cells).filterMap _ fun p q hpq x hx y hy => ?_
      obtain ⟨e, he, rfl⟩ := Option.map_eq_some_iff.mp hx
      obtain ⟨e', -, rfl⟩ := Option.map_eq_some_iff.mp hy
      have hsize : p.2.size = namelenToNde e.name.length := by
        obtain ⟨i, c⟩ := p
        cases c with
        | free => cases he
        | live e₀ =>
          obtain rfl := Option.some.inj he
          rfl
      simp only
      omega
    · obtain ⟨xs, ys, hcells, -, hidx, hoff⟩ := exists_of_mem_liveIn hx
      obtain ⟨hlo, -⟩ := off_bounds hy
      have hfull := d.full
      rw [hcells, total_append, total_cons, Cell.size_live] at hfull
      omega

/-- There are not more entries than slots. -/
theorem length_dirents_le (base : ℕ) (ds : List Dentries) :
    (dirents base ds).length ≤ dentriesPerPage * ds.length := by
  have hnodup : ((dirents base ds).map LiveDirent.off).Nodup :=
    List.pairwise_map.mpr (dirents_pairwise.imp fun {x y} h => by
      have := namelenToNde_pos x.entry.name.length
      omega)
  have hsub : ((dirents base ds).map LiveDirent.off).toFinset ⊆
      Finset.Ico base (base + dentriesPerPage * ds.length) := fun off hoff => by
    obtain ⟨x, hx, rfl⟩ := List.mem_map.mp (List.mem_toFinset.mp hoff)
    exact Finset.mem_Ico.mpr (off_bounds hx)
  have hcard := Finset.card_le_card hsub
  rwa [List.toFinset_card_of_nodup hnodup, List.length_map, Nat.card_Ico,
    Nat.add_sub_cancel_left] at hcard

/-- The offset of an entry tells its page and its slot. -/
theorem off_eq {x : LiveDirent} (hnodup : (ds.map Dentries.bn).Nodup) (h : x ∈ dirents base ds) :
    x.off = base + dentriesPerPage * (ds.map Dentries.bn).idxOf x.bn + x.idx := by
  obtain ⟨ds₁, d, ds₂, xs, ys, rfl, -, hx⟩ := exists_of_mem_dirents h
  rw [List.map_append, List.map_cons, List.perm_middle.nodup_iff, List.nodup_cons,
    List.mem_append, not_or] at hnodup
  have hidx : ((ds₁ ++ d :: ds₂).map Dentries.bn).idxOf d.bn = ds₁.length := by
    rw [List.map_append, List.map_cons, List.idxOf_append_of_notMem hnodup.1.1,
      List.idxOf_cons_self, List.length_map]
    rfl
  rw [hx, hidx]

/-- The searches of a page: the first entry of the name. -/
theorem CellsAt.findDirent {d : Dentries} (h : CellsAt (mem d.bn) base 0 d.cells)
    {name : List UInt8} (hname : name ≠ []) :
    Dirent.findDirentFrom (mem d.bn) name 0 =
      ((liveIn d.bn base 0 d.cells).find? fun x => x.entry.name == name).map LiveDirent.idx := by
  have hnamed : ∀ c : Cell, c.named name = c.entry.any fun e => e.name == name := by
    intro c
    cases c <;> rfl
  rw [h.findDirentFrom (by rw [Nat.zero_add, d.full]) hname, liveIn, List.find?_filterMap]
  simp only [Option.any_map, ← hnamed]
  cases hfind : (placed Cell.size 0 d.cells).find? fun p => p.2.named name with
  | none => rfl
  | some p =>
    have hp := List.find?_some hfind
    obtain ⟨j, c⟩ := p
    cases c with
    | free => cases hp
    | live e => rfl

/-- **`toyfs_lookup_dirent`** finds the first entry of the name. -/
theorem PagesAt.lookup (h : PagesAt mem base ds) {name : List UInt8} (hname : name ≠ []) :
    ((ds.map Dentries.bn).findSome? fun bn =>
        (Dirent.findDirentFrom (mem bn) name 0).map fun i => (bn, i)) =
      ((dirents base ds).find? fun x => x.entry.name == name).map fun x => (x.bn, x.idx) := by
  induction ds generalizing base with
  | nil => rfl
  | cons d ds ih =>
    rw [List.map_cons, List.findSome?_cons, h.1.findDirent hname, dirents, List.find?_append,
      ih h.2]
    cases hfind : (liveIn d.bn base 0 d.cells).find? fun x => x.entry.name == name with
    | none => rfl
    | some x =>
      obtain ⟨-, -, -, hbn, -⟩ := exists_of_mem_liveIn (List.mem_of_find?_eq_some hfind)
      simp [hbn]

/-- **The search of `_acquire_dirent`** finds free cells. -/
theorem PagesAt.searchChilds {s : Sbi} (h : PagesAt s.mem base ds) {required : ℕ}
    {place : ℕ × ℕ × ℕ} (hs : s.searchChilds required base (ds.map Dentries.bn) = some place) :
    ∃ ds₁ d ds₂ xs ys, ds = ds₁ ++ d :: ds₂ ∧
      d.cells = xs ++ List.replicate required .free ++ ys ∧
      place = (d.bn, total Cell.size xs,
        base + dentriesPerPage * ds₁.length + total Cell.size xs) := by
  induction ds generalizing base with
  | nil => cases hs
  | cons d ds ih =>
    rw [List.map_cons, Sbi.searchChilds] at hs
    split at hs
    · next i hi =>
      obtain rfl := Option.some.inj hs
      obtain ⟨xs, ys, hcells, rfl⟩ := h.1.searchFreeFrom (by rw [Nat.zero_add, d.full]) hi
      exact ⟨[], d, ds, xs, ys, rfl, hcells, by simp⟩
    · obtain ⟨ds₁, d', ds₂, xs, ys, rfl, hcells, rfl⟩ := ih h.2 hs
      refine ⟨d :: ds₁, d', ds₂, xs, ys, rfl, hcells, ?_⟩
      rw [List.length_cons, Nat.mul_succ]
      simp only [Prod.mk.injEq, true_and]
      omega

end Zus.Toyfs
