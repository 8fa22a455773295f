import Zus.Toyfs.DirMap

/-!
# Reading a directory

A directory is read in a series of calls. Each call gives the position the next one
resumes at, and entries may come and go between two calls. The position is behind the last
entry emitted, and entries keep their offsets; so none is emitted twice, and none that
stays is left out.

The two entries that are not on the disk are an exception: the position moves behind
`..` even when it did not fit.
-/

namespace Zus.Toyfs

open Zus.Lib Dirent

variable {zdeSize : ℕ → ℕ} {dir : RecPtr} {ds : List Dentries}

/-! ## One call -/

/-- `_emit_dirent` for all entries at the position or behind it, until one does not fit. -/
def scan (zdeSize : ℕ → ℕ) : List LiveDirent → GetdentsCtx → Bool × GetdentsCtx
  | [], ctx => (true, ctx)
  | y :: ys, ctx =>
    if ctx.pos ≤ y.off then
      match ctx.emit zdeSize y.entry.name y.entry.ino.toNat y.entry.type with
      | (true, ctx') => scan zdeSize ys { ctx' with pos := y.off + 1 }
      | (false, ctx') => (false, ctx')
    else scan zdeSize ys ctx

theorem scan_append (xs ys : List LiveDirent) (ctx : GetdentsCtx) :
    scan zdeSize (xs ++ ys) ctx = match scan zdeSize xs ctx with
      | (true, ctx') => scan zdeSize ys ctx'
      | (false, ctx') => (false, ctx') := by
  induction xs generalizing ctx with
  | nil => rfl
  | cons x xs ih =>
    rw [List.cons_append, scan, scan]
    split
    · split
      · exact ih _
      · rfl
    · exact ih ctx

/-- The walk over a page emits its entries. -/
theorem iterateDentries_eq {pg : Bytes} {base i bn : ℕ} {cs : List Cell} (ctx : GetdentsCtx)
    (h : CellsAt pg base i cs) (hfull : i + total Cell.size cs = dentriesPerPage)
    (hbase : base + dentriesPerPage ≤ 2 ^ 63) :
    iterateDentries zdeSize pg i ctx = scan zdeSize (liveIn bn base i cs) ctx := by
  induction cs generalizing i ctx with
  | nil =>
    rw [iterateDentries, if_neg (by rw [total_nil] at hfull; omega)]
    rfl
  | cons c cs ih =>
    obtain ⟨hc, hcs⟩ := cellsAt_cons.mp h
    have hpos := c.size_pos
    rw [total_cons] at hfull
    rw [iterateDentries, if_pos (by omega), hc.nextDirent]
    cases c with
    | free =>
      have hnlen : dNlen pg i = 0 := hc
      have hfree : liveIn bn base i (.free :: cs) = liveIn bn base (i + 1) cs := by
        simp [liveIn, Cell.entry]
      rw [if_neg (fun hd => hd.1 hnlen), hfree]
      exact ih ctx hcs (by simp only [Cell.size_free] at hfull ⊢; omega)
    | live e =>
      have hnlen : dNlen pg i ≠ 0 := by
        rw [hc.nlen]
        exact e.name_pos.ne'
      have hval : (UInt64.ofNat (base + i)).toNat = base + i := by
        rw [UInt64.toNat_ofNat']
        exact Nat.mod_eq_of_lt (by omega)
      have hoff : dOff pg i = (base + i : ℕ) := by
        rw [hc.off, toLoff_of_lt (by omega), hval]
      have hrest := fun ctx => ih ctx hcs (by omega)
      rw [liveIn_live, scan]
      by_cases hle : ctx.pos ≤ (base + i : ℕ)
      · rw [if_pos ⟨hnlen, by rwa [hoff]⟩, if_pos hle, emitDirent, hc.nlen, hc.name, hc.ino,
          hc.type, hoff]
        rcases ctx.emit zdeSize e.name e.ino.toNat e.type with ⟨_ | _, ctx'⟩
        · rfl
        · exact hrest _
      · rw [if_neg (fun hd => hle (by rw [← hoff]; exact hd.2)), if_neg hle]
        exact hrest _

/-- The loop over the pages emits the entries of the directory; there is more to read if
one did not fit. -/
theorem iterateChilds_eq {mem : ℕ → Bytes} {base : ℕ} (ctx : GetdentsCtx)
    (h : PagesAt mem base ds) (hbase : base + dentriesPerPage * ds.length ≤ 2 ^ 63) :
    iterateChilds zdeSize mem (ds.map Dentries.bn) true ctx =
      (!(scan zdeSize (dirents base ds) ctx).1, (scan zdeSize (dirents base ds) ctx).2) := by
  induction ds generalizing base ctx with
  | nil => rfl
  | cons d ds ih =>
    rw [List.length_cons, Nat.mul_succ] at hbase
    have hpage := @iterateDentries_eq zdeSize _ base 0 d.bn _ ctx h.1
      (by rw [Nat.zero_add, d.full]) (by omega)
    rw [List.map_cons, iterateChilds, hpage, dirents, scan_append]
    rcases scan zdeSize (liveIn d.bn base 0 d.cells) ctx with ⟨_ | _, ctx'⟩
    · rfl
    · exact ih ctx' h.2 (by omega)

theorem emit_cases (zdeSize : ℕ → ℕ) (ctx : GetdentsCtx) (name : List UInt8) (ino : ℕ) (type : UInt8) :
    ctx.emit zdeSize name ino type = (true, { ctx with
        room := ctx.room - zdeSize name.length, out := ctx.out ++ [⟨ino, type, ctx.pos, name⟩] }) ∨
      ctx.emit zdeSize name ino type = (false, ctx) := by
  unfold GetdentsCtx.emit
  split
  · exact .inl rfl
  · exact .inr rfl

/-- A call that went from `ctx` to `r` over the entries has emitted `taken`: entries at the
position or behind it, each once, up to the new position; all of them if they fit. -/
structure Emits (ys : List LiveDirent) (ctx : GetdentsCtx) (r : Bool × GetdentsCtx)
    (taken : List (LiveDirent × Zde)) : Prop where
  out : r.2.out = ctx.out ++ taken.map Prod.snd
  pos : ctx.pos ≤ r.2.pos
  names : ∀ t ∈ taken, t.2.name = t.1.entry.name ∧ ctx.pos ≤ t.2.pos
  sorted : (taken.map Prod.fst).Pairwise fun x y => x.off < y.off
  mem : ∀ y, y ∈ taken.map Prod.fst ↔ y ∈ ys ∧ ctx.pos ≤ y.off ∧ y.off < r.2.pos
  all : r.1 = true → ∀ y ∈ ys, y.off < r.2.pos

/-- **The scan** of entries with increasing offsets. -/
theorem scan_emits (zdeSize : ℕ → ℕ) (ys : List LiveDirent) (ctx : GetdentsCtx)
    (hsorted : ys.Pairwise fun x y => x.off < y.off) :
    ∃ taken, Emits ys ctx (scan zdeSize ys ctx) taken := by
  induction ys generalizing ctx with
  | nil => exact ⟨[], by simp [scan], le_rfl, by simp, .nil, by simp [scan], by simp⟩
  | cons y ys ih =>
    obtain ⟨hlt, hsorted'⟩ := List.pairwise_cons.mp hsorted
    rw [scan]
    split
    · next hle =>
      obtain hemit | hemit := emit_cases zdeSize ctx y.entry.name y.entry.ino.toNat
        y.entry.type
      · rw [hemit]
        dsimp only
        set z : Zde := ⟨y.entry.ino.toNat, y.entry.type, ctx.pos, y.entry.name⟩
        set ctx' : GetdentsCtx := ⟨y.off + 1, _, ctx.out ++ [z]⟩
        obtain ⟨taken, h⟩ := ih ctx' hsorted'
        have hpos : (y.off : ℤ) + 1 ≤ (scan zdeSize ys ctx').2.pos := h.pos
        refine ⟨(y, z) :: taken, ?_, by omega, ?_, ?_, fun w => ?_, fun hok => ?_⟩
        · rw [h.out]
          simp [ctx']
        · rw [List.forall_mem_cons]
          refine ⟨⟨rfl, le_rfl⟩, fun t ht => ⟨(h.names t ht).1, ?_⟩⟩
          have hge : (y.off : ℤ) + 1 ≤ t.2.pos := (h.names t ht).2
          omega
        · refine List.pairwise_cons.mpr ⟨fun w hw => ?_, h.sorted⟩
          exact hlt w ((h.mem w).mp hw).1
        · rw [List.map_cons, List.mem_cons, h.mem, List.mem_cons]
          constructor
          · rintro (rfl | ⟨hw, hge, hlt'⟩)
            · exact ⟨.inl rfl, hle, by omega⟩
            · have hge' : (y.off : ℤ) + 1 ≤ w.off := hge
              exact ⟨.inr hw, by omega, hlt'⟩
          · rintro ⟨rfl | hw, hge, hlt'⟩
            · exact .inl rfl
            · have hge' : (y.off : ℤ) + 1 ≤ w.off := by
                have := hlt w hw
                omega
              exact .inr ⟨hw, hge', hlt'⟩
        · rw [List.forall_mem_cons]
          exact ⟨by omega, h.all hok⟩
      · rw [hemit]
        refine ⟨[], by simp, le_rfl, by simp, .nil, fun w => ?_, fun hok => by cases hok⟩
        constructor
        · intro hw
          cases hw
        · rintro ⟨-, hge, hlt'⟩
          exact absurd hge (not_le.mpr hlt')
    · next hle =>
      obtain ⟨taken, h⟩ := ih ctx hsorted'
      have hpos := h.pos
      refine ⟨taken, h.out, h.pos, h.names, h.sorted, fun w => ?_, fun hok => ?_⟩
      · rw [h.mem, List.mem_cons]
        constructor
        · exact fun ⟨hw, hrest⟩ => ⟨.inr hw, hrest⟩
        · rintro ⟨rfl | hw, hge, hlt'⟩
          · exact absurd hge hle
          · exact ⟨hw, hge, hlt'⟩
      · rw [List.forall_mem_cons]
        exact ⟨by omega, h.all hok⟩

/-! ## Series of calls -/

/-- What is emitted: one of the two entries that are not on the disk, or an entry, with the
number of times its name was added before. -/
inductive Emitted
  | dot
  | dotdot
  | entry (name : List UInt8) (birth : ℕ)
  deriving DecidableEq

/-- `.` and `..` are the entries at the positions `0` and `1`. -/
def Zde.emitted (births : List UInt8 → ℕ) (z : Zde) : Emitted :=
  if z.pos = 0 then .dot else if z.pos = 1 then .dotdot else .entry z.name (births z.name)

/-- What a call emits before the entries on the disk. -/
def specials (zdeSize : ℕ → ℕ) (pos : ℤ) (room : ℕ) : List Emitted :=
  if pos = 0 then if zdeSize 1 + zdeSize 2 ≤ room then [.dot, .dotdot] else [.dot] else []

/-- **`_iterate_dir`** emits `.` and `..` at the start, and then entries on the disk; it
stops before them, with the position behind `..`, when `..` does not fit. -/
theorem iterateDir_emits (zdeSize : ℕ → ℕ) {s : Sbi} {pos : ℤ} {room : ℕ} (h : DirAt s dir ds)
    (hoff : 2 + dentriesPerPage * ds.length ≤ 2 ^ 63) (hpos : pos = 0 ∨ 2 ≤ pos)
    (hroom : zdeSize 1 ≤ room) (births : List UInt8 → ℕ) :
    ∃ ctx' taken, ctx'.pos = max pos 2 ∧
      ctx'.out.map (Zde.emitted births) = specials zdeSize pos room ∧
      Emits (dirents 2 ds) ctx' (!(s.iterateDir zdeSize dir ⟨pos, room, []⟩).1,
        (s.iterateDir zdeSize dir ⟨pos, room, []⟩).2) taken := by
  have hsorted : (dirents 2 ds).Pairwise fun x y => x.off < y.off :=
    dirents_pairwise.imp fun {x y} hxy => by
      have := namelenToNde_pos x.entry.name.length
      omega
  have hscan : ∀ ctx, iterateChilds zdeSize s.mem (s.inodes dir).childs true ctx =
      (!(scan zdeSize (dirents 2 ds) ctx).1, (scan zdeSize (dirents 2 ds) ctx).2) := fun ctx => by
    rw [h.childs]
    exact iterateChilds_eq ctx h.pages hoff
  obtain rfl | hge := hpos
  · by_cases hfits : zdeSize 1 + zdeSize 2 ≤ room
    · have hdotdot : zdeSize 2 ≤ room - zdeSize 1 := by omega
      let ctx' : GetdentsCtx := ⟨2, room - zdeSize 1 - zdeSize 2,
        [⟨(s.inodes dir).iIno.toNat, dtDir, 0, [46]⟩,
          ⟨(s.inodes dir).iDirParent.toNat, dtDir, 1, [46, 46]⟩]⟩
      have heq : s.iterateDir zdeSize dir ⟨0, room, []⟩ =
          iterateChilds zdeSize s.mem (s.inodes dir).childs true ctx' := by
        simp [Sbi.iterateDir, GetdentsCtx.emit, hroom, hdotdot, ctx']
      obtain ⟨taken, hemits⟩ := scan_emits zdeSize (dirents 2 ds) ctx' hsorted
      refine ⟨ctx', taken, rfl, by simp [ctx', specials, hfits, Zde.emitted], ?_⟩
      rw [heq, hscan]
      simpa using hemits
    · have hdotdot : ¬ zdeSize 2 ≤ room - zdeSize 1 := by omega
      let ctx' : GetdentsCtx := ⟨2, room - zdeSize 1,
        [⟨(s.inodes dir).iIno.toNat, dtDir, 0, [46]⟩]⟩
      have heq : s.iterateDir zdeSize dir ⟨0, room, []⟩ =
          iterateChilds zdeSize s.mem (s.inodes dir).childs false ctx' := by
        simp [Sbi.iterateDir, GetdentsCtx.emit, hroom, hdotdot, ctx']
      have hstop : ∀ childs, iterateChilds zdeSize s.mem childs false ctx' =
          (!childs.isEmpty, ctx') := fun childs => by
        cases childs <;> rfl
      refine ⟨ctx', [], rfl, by simp [ctx', specials, hfits, Zde.emitted], ?_⟩
      rw [heq, hstop, h.childs]
      refine ⟨by simp, le_rfl, by simp, .nil, fun y => ?_, fun hempty y hy => ?_⟩
      · constructor
        · intro hy
          cases hy
        · rintro ⟨-, hge, hlt⟩
          exact absurd hge (not_le.mpr hlt)
      · have hnil : ds = [] := by simpa using hempty
        subst hnil
        cases hy
  · have h0 : pos ≠ 0 := by omega
    have h1 : pos ≠ 1 := by omega
    obtain ⟨taken, hemits⟩ := scan_emits zdeSize (dirents 2 ds) ⟨pos, room, []⟩ hsorted
    have heq : s.iterateDir zdeSize dir ⟨pos, room, []⟩ =
        iterateChilds zdeSize s.mem (s.inodes dir).childs true ⟨pos, room, []⟩ := by
      simp [Sbi.iterateDir, h0, h1]
    refine ⟨⟨pos, room, []⟩, taken, (max_eq_left hge).symm, by simp [specials, h0], ?_⟩
    rw [heq, hscan]
    simpa using hemits

/-- A series of calls on a directory, so far. -/
structure Series where
  dir : DirRun
  /-- where the next call resumes -/
  pos : ℤ
  /-- there is a next call -/
  more : Bool
  /-- the room of the buffer of the first call -/
  firstRoom : Option ℕ
  /-- how often each name was added during the series -/
  births : List UInt8 → ℕ
  /-- the names present since the series began -/
  steady : Finset (List UInt8)
  log : List Emitted

/-- A call of `toyfs_iterate_dir` with a buffer, or a change of the directory. -/
inductive SeriesStep
  | call (room : ℕ)
  | edit (c : DirCall)

/-- The ends of names that were added and removed. -/
def Series.edited (x : Series) (d : DirRun) : DirCall → Series
  | .add _ name => { x with dir := d, births := Function.update x.births name (x.births name + 1) }
  | .remove _ name => { x with dir := d, steady := x.steady.erase name }

/-- One step. A buffer has room for at least one entry, and no entry is shorter than `.` is. -/
def Series.next (zdeSize : ℕ → ℕ) (dir : RecPtr) (x : Series) : SeriesStep → Option Series
  | .call room =>
    if x.more ∧ zdeSize 1 ≤ room then
      let (more, ctx) := x.dir.sbi.iterateDir zdeSize dir ⟨x.pos, room, []⟩
      some { x with
        pos := ctx.pos, more := more, firstRoom := x.firstRoom.orElse fun _ => some room
        log := x.log ++ ctx.out.map (Zde.emitted x.births) }
    else none
  | .edit c => if x.more then (x.dir.next dir c).map fun d => x.edited d c else none

/-- A directory about to be read. -/
structure Series.Start (dir : RecPtr) (x : Series) : Prop where
  reach : (dirRuns dir).Reachable x.dir
  pos : x.pos = 0
  more : x.more = true
  firstRoom : x.firstRoom = none
  births : ∀ name, x.births name = 0
  steady : x.steady = x.dir.spec.keys
  log : x.log = []

/-- The series of calls on a directory. -/
def series (zdeSize : ℕ → ℕ) (dir : RecPtr) : Lts Series SeriesStep :=
  .ofNext (Series.Start dir) (Series.next zdeSize dir)

/-- `.`, `..` and every entry present all the time were emitted once, and none twice. -/
structure Series.Complete (x : Series) : Prop where
  dot : x.log.count .dot = 1
  dotdot : x.log.count .dotdot = 1
  steady : ∀ name ∈ x.steady, x.log.count (.entry name 0) = 1
  once : ∀ e, x.log.count e ≤ 1

/-! ## The invariant -/

/-- Entries before the position were emitted, those behind it were not. -/
structure Series.Inv (zdeSize : ℕ → ℕ) (dir : RecPtr) (x : Series) (ds : List Dentries) : Prop where
  dir : DirRun.Inv dir x.dir ds
  steady : ∀ name ∈ x.steady, x.births name = 0 ∧ ∃ y ∈ dirents 2 ds, y.entry.name = name
  start : x.firstRoom = none → x.pos = 0 ∧ x.log = [] ∧ x.more = true
  begun : ∀ room ∈ x.firstRoom, 2 ≤ x.pos ∧ x.log.count .dot = 1 ∧
    x.log.count .dotdot = if zdeSize 1 + zdeSize 2 ≤ room then 1 else 0
  once : ∀ name k, x.log.count (.entry name k) ≤ 1
  old : ∀ name k, .entry name k ∈ x.log → k ≤ x.births name ∧
    (k = x.births name → ∀ y ∈ dirents 2 ds, y.entry.name = name → y.off < x.pos)
  seen : ∀ name ∈ x.steady, ∀ y ∈ dirents 2 ds, y.entry.name = name → y.off < x.pos →
    .entry name 0 ∈ x.log
  ended : x.more = false → ∀ y ∈ dirents 2 ds, y.off < x.pos

namespace Series

variable {x x' : Series}

theorem Start.inv (h : Start dir x) : ∃ ds, Inv zdeSize dir x ds := by
  obtain ⟨ds, hdir⟩ := dirRuns_inv h.reach
  refine ⟨ds, hdir, fun name hname => ⟨h.births name, ?_⟩, fun _ => ⟨h.pos, h.log, h.more⟩, ?_, ?_,
    ?_, ?_, fun hmore => ?_⟩
  · rw [h.steady, Finmap.mem_keys] at hname
    exact hdir.mem_spec.mp hname
  · rw [h.firstRoom]
    exact fun room hr => by cases hr
  · rw [h.log]
    exact fun name k => Nat.zero_le 1
  · rw [h.log]
    exact fun name k hin => by cases hin
  · intro name _ y hy _ hlt
    rw [h.pos] at hlt
    omega
  · rw [h.more] at hmore
    cases hmore

/-- The entries emitted for a part of the directory. -/
theorem map_emitted {ys : List LiveDirent} {ctx : GetdentsCtx} {r : Bool × GetdentsCtx}
    {taken : List (LiveDirent × Zde)} (births : List UInt8 → ℕ) (h : Emits ys ctx r taken)
    (hpos : 2 ≤ ctx.pos) :
    (taken.map Prod.snd).map (Zde.emitted births) = (taken.map Prod.fst).map fun y =>
      .entry y.entry.name (births y.entry.name) := by
  rw [List.map_map, List.map_map]
  refine List.map_congr_left fun t ht => ?_
  obtain ⟨hname, hge⟩ := h.names t ht
  have h0 : t.2.pos ≠ 0 := by omega
  have h1 : t.2.pos ≠ 1 := by omega
  simp [Zde.emitted, h0, h1, hname]

/-- What a call emits from the disk, to its end at `pos`: the entries between the positions, each
once. -/
structure Emitting (x : Series) (ds : List Dentries) (pos : ℤ) (new : List Emitted) : Prop where
  two_le : 2 ≤ pos
  pos_le : x.pos ≤ pos
  nodup : new.Nodup
  mem : ∀ e, e ∈ new ↔ ∃ y ∈ dirents 2 ds,
    e = .entry y.entry.name (x.births y.entry.name) ∧ x.pos ≤ y.off ∧ y.off < pos

theorem Inv.firstRoom_cases (h : Inv zdeSize dir x ds) :
    x.pos = 0 ∧ x.firstRoom = none ∨ 2 ≤ x.pos ∧ ∃ r, x.firstRoom = some r := by
  cases hfirst : x.firstRoom with
  | none => exact .inl ⟨(h.start hfirst).1, rfl⟩
  | some r => exact .inr ⟨(h.begun r hfirst).1, r, rfl⟩

theorem Inv.emits {room : ℕ} (h : Inv zdeSize dir x ds) (hroom : zdeSize 1 ≤ room) :
    let r := x.dir.sbi.iterateDir zdeSize dir ⟨x.pos, room, []⟩
    (∃ new, r.2.out.map (Zde.emitted x.births) = specials zdeSize x.pos room ++ new ∧
      Emitting x ds r.2.pos new) ∧
    (r.1 = false → ∀ y ∈ dirents 2 ds, y.off < r.2.pos) := by
  obtain ⟨ctx', taken, hctx, hout, hemits⟩ := iterateDir_emits zdeSize h.dir.dirAt h.dir.offs_lt
    (h.firstRoom_cases.imp And.left And.left) hroom x.births
  generalize x.dir.sbi.iterateDir zdeSize dir ⟨x.pos, room, []⟩ = r at hemits
  have hge : 2 ≤ ctx'.pos ∧ x.pos ≤ ctx'.pos := by
    rw [hctx]
    exact ⟨le_max_right _ _, le_max_left _ _⟩
  have hle : ctx'.pos ≤ r.2.pos := hemits.pos
  refine ⟨⟨(taken.map Prod.fst).map fun y => .entry y.entry.name (x.births y.entry.name), ?_,
    hge.1.trans hle, hge.2.trans hle, ?_, fun e => ?_⟩, fun hend y hy => ?_⟩
  · rw [hemits.out, List.map_append, hout, map_emitted x.births hemits hge.1]
  · refine List.Nodup.map_on (fun y hy z hz heq => ?_) ?_
    · obtain ⟨hname, -⟩ := Emitted.entry.inj heq
      exact List.inj_on_of_nodup_map h.dir.dirAt.names ((hemits.mem y).mp hy).1
        ((hemits.mem z).mp hz).1 hname
    · exact hemits.sorted.imp fun hlt heq => by
        subst heq
        exact Nat.lt_irrefl _ hlt
  · rw [List.mem_map]
    constructor
    · rintro ⟨y, hy, rfl⟩
      obtain ⟨hin, hge', hlt⟩ := (hemits.mem y).mp hy
      exact ⟨y, hin, rfl, by omega, hlt⟩
    · rintro ⟨y, hin, rfl, hge', hlt⟩
      have hbase := (off_bounds hin).1
      refine ⟨y, (hemits.mem y).mpr ⟨hin, ?_, hlt⟩, rfl⟩
      rw [hctx]
      omega
  · exact hemits.all (by rw [hend]; rfl) y hy

theorem count_entry_specials {pos : ℤ} {room : ℕ} (name : List UInt8) (k : ℕ) :
    (specials zdeSize pos room).count (.entry name k) = 0 := by
  unfold specials
  split
  · split <;> rfl
  · rfl

/-- **A call** keeps the invariant. -/
theorem Inv.call {room : ℕ} (h : Inv zdeSize dir x ds) (hmore : x.more = true)
    (hroom : zdeSize 1 ≤ room) (hn : x.next zdeSize dir (.call room) = some x') :
    Inv zdeSize dir x' ds := by
  obtain ⟨⟨new, hlog, hnew⟩, hended⟩ := h.emits hroom
  rw [Series.next, if_pos ⟨hmore, hroom⟩] at hn
  generalize x.dir.sbi.iterateDir zdeSize dir ⟨x.pos, room, []⟩ = r at hn hlog hnew hended
  obtain rfl := Option.some.inj hn
  have htwo := hnew.two_le
  have hle := hnew.pos_le
  have hmem : ∀ name k, .entry name k ∈ new ↔ ∃ y ∈ dirents 2 ds, y.entry.name = name ∧
      k = x.births name ∧ x.pos ≤ y.off ∧ y.off < r.2.pos := fun name k => by
    rw [hnew.mem]
    constructor
    · rintro ⟨y, hy, heq, hrest⟩
      obtain ⟨rfl, rfl⟩ := Emitted.entry.inj heq
      exact ⟨y, hy, rfl, rfl, hrest⟩
    · rintro ⟨y, hy, rfl, rfl, hrest⟩
      exact ⟨y, hy, rfl, hrest⟩
  refine ⟨h.dir, h.steady, fun hnone => ?_, fun first hfirst => ?_, fun name k => ?_,
    fun name k hin => ?_, fun name hname y hy hyname hlt => ?_, hended⟩
  all_goals dsimp only at *
  · cases hfirst : x.firstRoom <;> rw [hfirst] at hnone <;> cases hnone
  · have hdots : new.count .dot = 0 ∧ new.count .dotdot = 0 := by
      constructor <;>
        exact List.count_eq_zero.mpr fun hin => by
          obtain ⟨y, -, heq, -⟩ := (hnew.mem _).mp hin
          cases heq
    rw [hlog, List.count_append, List.count_append, List.count_append, List.count_append, hdots.1,
      hdots.2]
    obtain ⟨hzero, hnone⟩ | ⟨htwo, r₀, hr₀⟩ := h.firstRoom_cases
    · rw [hnone] at hfirst
      obtain rfl : room = first := Option.some.inj hfirst
      rw [(h.start hnone).2.1, hzero]
      refine ⟨by omega, ?_⟩
      by_cases hfits : zdeSize 1 + zdeSize 2 ≤ room
      · simp [specials, hfits]
      · simp [specials, hfits]
    · rw [hr₀] at hfirst
      obtain rfl : r₀ = first := Option.some.inj hfirst
      obtain ⟨-, hdot, hdotdot⟩ := h.begun r₀ hr₀
      have hpos0 : x.pos ≠ 0 := by omega
      rw [specials, if_neg hpos0]
      exact ⟨by omega, hdot, hdotdot⟩
  · rw [hlog, List.count_append, List.count_append, count_entry_specials, Nat.zero_add]
    by_cases hin : .entry name k ∈ new
    · obtain ⟨y, hy, hname, hk, hge', -⟩ := (hmem name k).mp hin
      have hnone : x.log.count (.entry name k) = 0 := List.count_eq_zero.mpr fun hold => by
        have hlt := (h.old name k hold).2 hk y hy hname
        omega
      rw [hnone, Nat.zero_add]
      exact List.nodup_iff_count_le_one.mp hnew.nodup _
    · rw [List.count_eq_zero.mpr hin]
      exact h.once name k
  · rw [hlog, List.mem_append, List.mem_append] at hin
    obtain hin | hin | hin := hin
    · obtain ⟨hk, hbefore⟩ := h.old name k hin
      refine ⟨hk, fun heq y hy hname => ?_⟩
      have hlt := hbefore heq y hy hname
      omega
    · exact absurd hin (List.count_eq_zero.mp (count_entry_specials name k))
    · obtain ⟨y, hy, hname, hk, -, hlt⟩ := (hmem name k).mp hin
      refine ⟨hk.le, fun _ z hz hzname => ?_⟩
      rw [List.inj_on_of_nodup_map h.dir.dirAt.names hz hy (hzname.trans hname.symm)]
      exact hlt
  · rw [hlog, List.mem_append, List.mem_append]
    by_cases hbefore : (y.off : ℤ) < x.pos
    · exact .inl (h.seen name hname y hy hyname hbefore)
    · refine .inr (.inr ((hmem name 0).mpr ⟨y, hy, hyname, ?_, by omega, hlt⟩))
      exact (h.steady name hname).1.symm

/-- **A change of the directory** between two calls keeps the invariant. -/
theorem Inv.edit {c : DirCall} {d : DirRun} (h : Inv zdeSize dir x ds) (hmore : x.more = true)
    (hn : x.dir.next dir c = some d) : ∃ ds', Inv zdeSize dir (x.edited d c) ds' := by
  obtain ⟨ds', hd, hedit⟩ := h.dir.next hn
  refine ⟨ds', ?_⟩
  cases c with
  | add n name =>
    -- a steady name is there, and only a name that is not can be added
    have hne : ∀ name' ∈ x.steady, name' ≠ name := fun name' hname heq => by
      subst heq
      exact hedit.added n _ rfl (h.dir.mem_spec.mpr (h.steady _ hname).2)
    have hbirths : ∀ name' ≠ name, (x.edited d (.add n name)).births name' = x.births name' :=
      fun name' hname' => Function.update_of_ne hname' ..
    have hborn : (x.edited d (.add n name)).births name = x.births name + 1 :=
      Function.update_self ..
    refine ⟨hd, fun name' hname => ?_, h.start, h.begun, h.once, fun name' k hin => ?_,
      fun name' hname y hy hyname hlt => ?_, fun hend => ?_⟩
    · obtain ⟨hzero, y, hy, hyname⟩ := h.steady name' hname
      refine ⟨(hbirths _ (hne name' hname)).trans hzero, y, ?_, hyname⟩
      exact (hedit.others y (hyname ▸ hne name' hname)).mpr hy
    · obtain ⟨hk, hbefore⟩ := h.old name' k hin
      obtain rfl | hne' := eq_or_ne name' name
      · rw [hborn]
        exact ⟨by omega, fun heq => by omega⟩
      · rw [hbirths name' hne']
        refine ⟨hk, fun heq y hy hname => ?_⟩
        exact hbefore heq y ((hedit.others y (hname ▸ hne')).mp hy) hname
    · have hy' := (hedit.others y (hyname ▸ hne name' hname)).mp hy
      exact h.seen name' hname y hy' hyname hlt
    · have hmore' : x.more = false := hend
      rw [hmore] at hmore'
      cases hmore'
  | remove n name =>
    have hgone := hedit.removed n name rfl
    have hothers : ∀ y ∈ dirents 2 ds', y ∈ dirents 2 ds := fun y hy =>
      (hedit.others y (hgone y hy)).mp hy
    refine ⟨hd, fun name' hname => ?_, h.start, h.begun, h.once, fun name' k hin => ?_,
      fun name' hname y hy hyname hlt => ?_, fun hend => ?_⟩
    · obtain ⟨hne, hin⟩ := Finset.mem_erase.mp hname
      obtain ⟨hzero, y, hy, hyname⟩ := h.steady name' hin
      exact ⟨hzero, y, (hedit.others y (hyname ▸ hne)).mpr hy, hyname⟩
    · obtain ⟨hk, hbefore⟩ := h.old name' k hin
      exact ⟨hk, fun heq y hy hname => hbefore heq y (hothers y hy) hname⟩
    · exact h.seen name' (Finset.mem_of_mem_erase hname) y (hothers y hy) hyname hlt
    · have hmore' : x.more = false := hend
      rw [hmore] at hmore'
      cases hmore'

theorem inv_of_reachable (hreach : (series zdeSize dir).Reachable x) :
    ∃ ds, Inv zdeSize dir x ds := by
  have hinit : ∀ x, Start dir x → ∃ ds, Inv zdeSize dir x ds := fun _ h => h.inv
  refine hreach.invariant (I := fun x => ∃ ds, Inv zdeSize dir x ds) hinit ?_
  rintro x l x' ⟨ds, h⟩ hn
  cases l with
  | call room =>
    have hcond : x.more = true ∧ zdeSize 1 ≤ room := by
      by_contra hno
      simp only [series, Lts.ofNext, Series.next, if_neg hno] at hn
      cases hn
    exact ⟨ds, h.call hcond.1 hcond.2 hn⟩
  | edit c =>
    have hmore : x.more = true := by
      by_contra hno
      simp only [series, Lts.ofNext, Series.next, if_neg hno] at hn
      cases hn
    simp only [series, Lts.ofNext, Series.next, if_pos hmore] at hn
    obtain ⟨d, hd, rfl⟩ := Option.map_eq_some_iff.mp hn
    exact h.edit hmore hd

/-- What an ended series has emitted. -/
theorem Inv.complete_iff (h : Inv zdeSize dir x ds) (hend : x.more = false) :
    x.Complete ↔ ∃ room ∈ x.firstRoom, zdeSize 1 + zdeSize 2 ≤ room := by
  obtain ⟨room, hroom⟩ : ∃ room, x.firstRoom = some room := by
    cases hfirst : x.firstRoom with
    | none =>
      rw [(h.start hfirst).2.2] at hend
      cases hend
    | some room => exact ⟨room, rfl⟩
  obtain ⟨-, hdot, hdotdot⟩ := h.begun room hroom
  constructor
  · intro hc
    refine ⟨room, hroom, ?_⟩
    by_contra hno
    rw [if_neg hno, hc.dotdot] at hdotdot
    cases hdotdot
  · rintro ⟨room', hroom', hfits⟩
    obtain rfl : room = room' := Option.some.inj (hroom.symm.trans hroom')
    rw [if_pos hfits] at hdotdot
    refine ⟨hdot, hdotdot, fun name hname => ?_, fun e => ?_⟩
    · obtain ⟨-, y, hy, hyname⟩ := h.steady name hname
      have hin := h.seen name hname y hy hyname (h.ended hend y hy)
      exact Nat.le_antisymm (h.once name 0) (List.count_pos_iff.mpr hin)
    · cases e with
      | dot => exact hdot.le
      | dotdot => exact hdotdot.le
      | entry name k => exact h.once name k

end Series

/-- **Readdir is complete exactly if `..` fits in the first buffer**: in every series of
calls that has ended, with any changes of the directory between two calls. -/
theorem readdir_complete_iff (zdeSize : ℕ → ℕ) (dir : RecPtr) (x : Series)
    (hreach : (series zdeSize dir).Reachable x) (hend : x.more = false) :
    x.Complete ↔ ∃ room ∈ x.firstRoom, zdeSize 1 + zdeSize 2 ≤ room := by
  obtain ⟨ds, h⟩ := Series.inv_of_reachable hreach
  exact h.complete_iff hend

/-- A series about to begin, on an empty directory. -/
def emptySeries : Series where
  dir := ⟨oneFreePage, ∅⟩
  pos := 0
  more := true
  firstRoom := none
  births _ := 0
  steady := ∅
  log := []

theorem emptySeries_reachable (zdeSize : ℕ → ℕ) :
    (series zdeSize ⟨9, 0⟩).Reachable emptySeries :=
  .init ⟨.init ⟨rfl, rfl, rfl, by decide, by decide, rfl⟩, rfl, rfl, rfl, fun _ => rfl, rfl, rfl⟩

/-- An entry is added during a series that reads it with a large buffer. -/
theorem readdir_complete_large : ∃ x, (series (24 + ·) ⟨9, 0⟩).Reachable x ∧
    x.log = [.dot, .dotdot, .entry [97] 1] ∧ x.Complete := by
  obtain ⟨x, hx, hp⟩ := (emptySeries_reachable (24 + ·)).exists_of_runAll
    [.edit (.add ⟨9, 1⟩ [97]), .call 4096]
    (p := fun x => !x.more && x.firstRoom == some 4096 && x.log == [.dot, .dotdot, .entry [97] 1])
    (by decide +kernel)
  simp only [Bool.and_eq_true, Bool.not_eq_true', beq_iff_eq] at hp
  obtain ⟨⟨hend, hroom⟩, hlog⟩ := hp
  exact ⟨x, hx, hlog,
    (readdir_complete_iff _ _ x hx hend).mpr ⟨4096, hroom, by decide⟩⟩

/-- A buffer for one entry: `..` is lost, and the series has ended. -/
theorem readdir_loses_dotdot : ¬ ∀ x, (series (24 + ·) ⟨9, 0⟩).Reachable x → x.more = false →
    x.Complete := by
  intro hall
  obtain ⟨x, hx, hp⟩ := (emptySeries_reachable (24 + ·)).exists_of_runAll [.call 40]
    (p := fun x => !x.more && x.log == [.dot]) (by decide +kernel)
  simp only [Bool.and_eq_true, Bool.not_eq_true', beq_iff_eq] at hp
  have hdotdot := (hall x hx hp.1).dotdot
  rw [hp.2] at hdotdot
  cases hdotdot

end Zus.Toyfs
