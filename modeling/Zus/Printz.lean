import Mathlib.Algebra.Group.Nat.Defs
import Mathlib.Data.List.TakeDrop
import Zus.CopyFormat

/-!
# The listing of the debug messages

Every module that is loaded has a table of its debug messages. `zus_add_module_ddbg` numbers
the entries, and `zus_ddbg_read` lists them a buffer at a time: a call lists the entries with
numbers above the one that the caller passes, and the number of the last one listed is passed
back with the next call.

`struct zufs_ddbg_info` is in the headers of the kernel module, which come from elsewhere.
-/

namespace Zus.Printz

open Zus.Lib

/-! ## The tables -/

/-- `struct _ddebug`, as `DEFINE_DYNAMIC_DEBUG_METADATA` leaves it by default. -/
structure Ddebug where
  id : UInt32 := 0
  modname : CStr := ⟨[], List.not_mem_nil⟩
  function : CStr
  filename : CStr
  lineno : UInt32
  format : CStr
  active : Bool := false

/-- `struct module_ddbg`. -/
structure ModuleDdbg where
  name : CStr
  nDbgEntries : UInt16
  dbgEntries : List Ddebug

/-- `struct ddbg_db`. The modules are those before `mod_count`. -/
structure DdbgDb where
  modules : List ModuleDdbg := []
  nextId : UInt32 := 0

/-- `struct zufs_ddbg_info`. -/
structure DdbgInfo where
  id : UInt32
  len : ℕ
  msg : List UInt8

/-- The errors of `zus_add_module_ddbg`. -/
inductive Errno
  | einval
  | enomem
  deriving DecidableEq

/-- `ZUS_LIBFS_MAX_PATH`, the size of the name of a module. -/
def zusLibfsMaxPath : ℕ := 256

/-- `ZUS_LIBFS_MAX_NR`, the size of `ddbg_db.modules`. -/
def zusLibfsMaxNr : ℕ := 16

/-- What comes after the last slash, if there is one. -/
def afterSlash (name : CStr) : CStr where
  bytes := (name.bytes.reverse.takeWhile (· ≠ 47)).reverse
  noNul h := name.noNul
    (List.mem_reverse.mp ((List.takeWhile_sublist _).subset (List.mem_reverse.mp h)))

/-- `_init_ddbg`. -/
def initDdbg (nextId : UInt32) (dd : Ddebug) (modname : CStr) : Ddebug :=
  { dd with id := nextId + 1, modname := modname, filename := afterSlash dd.filename }

/-- The loop of `zus_add_module_ddbg`: the entries, and the last number given. -/
def initLoop (modname : CStr) : UInt32 → List Ddebug → List Ddebug × UInt32
  | nextId, [] => ([], nextId)
  | nextId, dd :: dds =>
    let (rest, last) := initLoop modname (nextId + 1) dds
    (initDdbg nextId dd modname :: rest, last)

/-- `zus_add_module_ddbg`. `handle` has the entries between the two symbols of the library, if
it has the symbols, and `calloc` says whether there is memory. -/
def zusAddModuleDdbg (db : DdbgDb) (fsName : CStr) (handle : Option (List Ddebug))
    (calloc : Bool) : Option Errno × DdbgDb :=
  if zusLibfsMaxPath ≤ fsName.bytes.length then (some .einval, db)
  else match handle with
    | none => (some .einval, db)
    | some entries =>
      if calloc = false then (some .enomem, db)
      else
        let (dds, last) := initLoop fsName db.nextId entries
        -- the number of the entries is kept in 16 bits
        (none, { modules := db.modules ++ [⟨fsName, UInt16.ofNat entries.length, dds⟩]
                 nextId := last })

/-! ## Reading -/

/-- `MAX_FORMAT_SIZE`. -/
def maxFormatSize : ℕ := 512

/-- `%d` of an `unsigned int`. -/
def printD (x : UInt32) : List UInt8 :=
  if x.toNat < 2 ^ 31 then (Nat.toDigits 10 x.toNat).map ascii
  else ascii '-' :: (Nat.toDigits 10 (2 ^ 32 - x.toNat)).map ascii

/-- What `zus_ddbg_read` prints of an entry, with the format as it was copied:
`"%s:%d [%s] %s =%s \"%s\"\n"`. -/
def printEntry (ddbg : Ddebug) (format : List UInt8) : List UInt8 :=
  ddbg.filename.bytes ++ [ascii ':'] ++ printD ddbg.lineno ++ [' ', '['].map ascii ++
    ddbg.modname.bytes ++ [']', ' '].map ascii ++ ddbg.function.bytes ++ [' ', '='].map ascii ++
    [if ddbg.active then ascii 'p' else ascii '_'] ++ [' ', '"'].map ascii ++ format ++
    ['"', '\n'].map ascii

/-- The variables of `zus_ddbg_read`: `zdi->id` and `zdi->msg`, the place of `buff` in the
message, the room from there on, and the array that formats are copied to. -/
structure Cursor where
  id : UInt32
  msg : List UInt8
  buff : ℕ
  buffSz : ℕ
  format : List UInt8

/-- The inner loop of `zus_ddbg_read`, and whether it goes `out`. -/
def readEntries (c : Cursor) : List Ddebug → Bool × Cursor
  | [] => (false, c)
  | ddbg :: ddbgs =>
    if c.buffSz = 0 then (false, c)
    else if ddbg.id ≤ c.id then readEntries c ddbgs
    else
      let format := copyFormat ddbg.format c.format maxFormatSize
      let text := printEntry ddbg (cstr format)
      let buffJmp := text.length
      let msg := snprintf c.msg c.buff c.buffSz text
      if c.buffSz < buffJmp then (true, { c with msg := poke msg c.buff [0], format := format })
      else readEntries ⟨ddbg.id, msg, c.buff + buffJmp, c.buffSz - buffJmp, format⟩ ddbgs

/-- The entries of a module that the inner loop goes through. -/
def ModuleDdbg.scanned (modd : ModuleDdbg) : List Ddebug :=
  modd.dbgEntries.take modd.nDbgEntries.toNat

/-- The outer loop. -/
def readModules (c : Cursor) : List ModuleDdbg → Cursor
  | [] => c
  | modd :: modds =>
    match readEntries c modd.scanned with
    | (true, c') => c'
    | (false, c') => readModules c' modds

/-- `zus_ddbg_read`; `format` is what the array on the stack holds at first. -/
def zusDdbgRead (db : DdbgDb) (format : List UInt8) (zdi : DdbgInfo) : DdbgInfo :=
  let c := readModules ⟨zdi.id, zdi.msg, 0, zdi.len, format⟩ db.modules
  { id := c.id, len := (cstr c.msg).length, msg := c.msg }

variable {db : DdbgDb} {d : Ddebug} {ddbgs l : List Ddebug} {id id' : UInt32} {c c' : Cursor}
  {text : List UInt8}

/-! ## What is printed of an entry -/

/-- The complete line of an entry. -/
def Ddebug.line (d : Ddebug) : List UInt8 := printEntry d (escape d.format)

theorem zero_notMem_printD (x : UInt32) : 0 ∉ printD x := by
  have hdigits : ∀ n, 0 ∉ (Nat.toDigits 10 n).map ascii := by
    intro n h
    obtain ⟨c, hc, h₀⟩ := List.mem_map.mp h
    have hdigit := Nat.isDigit_of_mem_toDigits (by decide) (by decide) hc
    simp only [Char.isDigit, Bool.and_eq_true, decide_eq_true_eq, UInt32.le_iff_toNat_le] at hdigit
    have hmod := congrArg UInt8.toNat h₀
    rw [ascii, UInt8.toNat_ofNat'] at hmod
    have hlo : 48 ≤ c.toNat := hdigit.1
    have hhi : c.toNat ≤ 57 := hdigit.2
    simp only [UInt8.toNat_zero] at hmod
    omega
  unfold printD
  split
  · exact hdigits _
  · rw [List.mem_cons, not_or]
    exact ⟨by decide, hdigits _⟩

theorem Ddebug.zero_notMem_line (d : Ddebug) : 0 ∉ d.line := by
  have hactive : (0 : UInt8) ≠ if d.active then ascii 'p' else ascii '_' := by
    split <;> decide
  simp only [Ddebug.line, printEntry, List.mem_append, not_or, and_assoc]
  refine ⟨d.filename.noNul, ?_, zero_notMem_printD _, ?_, d.modname.noNul, ?_, d.function.noNul, ?_,
    ?_, ?_, zero_notMem_escape _, ?_⟩
  · decide
  · decide
  · decide
  · decide
  · rwa [List.mem_singleton]
  · decide
  · decide

theorem Ddebug.line_ne_nil (d : Ddebug) : d.line ≠ [] := by
  simp [Ddebug.line, printEntry]

/-! ## One call -/

/-- The entries still to be listed: each with a number above that of the one before it. -/
def fresh : UInt32 → List Ddebug → List Ddebug
  | _, [] => []
  | id, d :: ddbgs => if d.id ≤ id then fresh id ddbgs else d :: fresh d.id ddbgs

/-- The number of the last entry that was listed. -/
def lastId (id : UInt32) (l : List Ddebug) : UInt32 := (l.getLast?.map Ddebug.id).getD id

theorem lastId_cons : lastId id (d :: l) = lastId d.id l := by
  cases l with
  | nil => rfl
  | cons e l => simp [lastId, List.getLast?_eq_getLast_of_ne_nil]

theorem fresh_sublist : List.Sublist (fresh id ddbgs) ddbgs := by
  induction ddbgs generalizing id with
  | nil => exact .slnil
  | cons d ddbgs ih =>
    unfold fresh
    split
    · exact ih.cons d
    · exact ih.cons_cons d

theorem le_lastId (h : l <+: fresh id ddbgs) : id ≤ lastId id l := by
  induction ddbgs generalizing id l with
  | nil =>
    rw [fresh, List.prefix_nil] at h
    rw [h]
    exact UInt32.le_refl id
  | cons d ddbgs ih =>
    unfold fresh at h
    split at h
    · exact ih h
    · next hlt =>
      cases l with
      | nil => exact UInt32.le_refl id
      | cons e l =>
        obtain ⟨rfl, hpre⟩ := List.cons_prefix_cons.mp h
        rw [lastId_cons]
        exact UInt32.le_trans (UInt32.le_of_lt (UInt32.not_le.mp hlt)) (ih hpre)

/-- **The next call starts where this one stopped.** -/
theorem fresh_lastId (h : l <+: fresh id ddbgs) :
    fresh (lastId id l) ddbgs = (fresh id ddbgs).drop l.length := by
  induction ddbgs generalizing id l with
  | nil => simp [fresh]
  | cons d ddbgs ih =>
    have hle := le_lastId h
    unfold fresh at h ⊢
    split at h
    · next hid =>
      rw [if_pos (UInt32.le_trans hid hle), if_pos hid]
      exact ih h
    · next hid =>
      cases l with
      | nil => simp [lastId, hid]
      | cons e l =>
        obtain ⟨rfl, hpre⟩ := List.cons_prefix_cons.mp h
        rw [lastId_cons, if_pos (le_lastId hpre), if_neg hid, ih hpre]
        rfl

/-- The message so far has the text: with the zero byte after it, or in the place of its last
byte where the buffer is at its end. -/
structure Cursor.Has (c : Cursor) (text : List UInt8) : Prop where
  buff : c.buff = text.length
  noNul : 0 ∉ text
  length : c.msg.length = text.length + c.buffSz
  room : c.buffSz ≠ 0 → ∃ tail, c.msg = text ++ 0 :: tail
  str : cstr c.msg = text.take (c.msg.length - 1)

namespace Cursor.Has

variable {line format : List UInt8}

/-- What `snprintf` leaves from `buff` on. -/
theorem snprintf_eq (h : c.Has text) (hsz : c.buffSz ≠ 0) :
    ∃ tail, snprintf c.msg c.buff c.buffSz line =
      text ++ (line.take (c.buffSz - 1) ++ [0]) ++ tail ∧
      tail.length = c.buffSz - ((line.take (c.buffSz - 1)).length + 1) := by
  obtain ⟨tail, hmsg⟩ := h.room hsz
  have hlen := h.length
  rw [hmsg] at hlen
  refine ⟨(0 :: tail).drop ((line.take (c.buffSz - 1)).length + 1), ?_, ?_⟩
  · rw [snprintf, if_neg hsz, hmsg, h.buff, poke_append, List.length_append, List.length_singleton]
  · simp only [List.length_append, List.length_cons, List.length_drop] at hlen ⊢
    omega

/-- A line that there is no room for is taken back. -/
theorem cut (h : c.Has text) (hsz : c.buffSz ≠ 0) :
    cstr (poke (snprintf c.msg c.buff c.buffSz line) c.buff [0]) = text := by
  obtain ⟨tail, heq, -⟩ := @snprintf_eq c text line h hsz
  rw [heq, List.append_assoc, h.buff, poke_append, List.append_assoc]
  exact cstr_append h.noNul

/-- A line that there is room for. -/
theorem print (h : c.Has text) (hsz : c.buffSz ≠ 0) (h₀ : 0 ∉ line)
    (hle : line.length ≤ c.buffSz) :
    Has ⟨id, snprintf c.msg c.buff c.buffSz line, c.buff + line.length, c.buffSz - line.length,
      format⟩ (text ++ line) ∧
    (snprintf c.msg c.buff c.buffSz line).length = c.msg.length := by
  obtain ⟨tail, heq, htail⟩ := @snprintf_eq c text line h hsz
  have hlen := h.length
  rw [List.length_take] at htail
  have hmsg : (snprintf c.msg c.buff c.buffSz line).length = c.msg.length := by
    rw [heq]
    simp only [List.length_append, List.length_take, List.length_singleton]
    omega
  have hnew : 0 ∉ text ++ line := by simp [h.noNul, h₀]
  -- the line is whole, but for the last byte when it fills the buffer
  have hstr : cstr (snprintf c.msg c.buff c.buffSz line) = text ++ line.take (c.buffSz - 1) := by
    rw [heq, ← List.append_assoc, List.append_assoc, List.singleton_append]
    apply cstr_append
    rw [List.mem_append, not_or]
    exact ⟨h.noNul, fun hm => h₀ (List.mem_of_mem_take hm)⟩
  refine ⟨⟨?_, hnew, ?_, fun hmore => ⟨tail, ?_⟩, ?_⟩, hmsg⟩
  · rw [List.length_append, h.buff]
  · simp only [hmsg, hlen, List.length_append]
    omega
  · have hall : line.take (c.buffSz - 1) = line := List.take_of_length_le (by simp only at hmore; omega)
    simp [heq, hall]
  · simp only [hmsg, hstr]
    have hpast : c.msg.length - 1 = text.length + (c.buffSz - 1) := by omega
    rw [hpast, List.take_length_add_append]

end Cursor.Has

/-- **The loops of `zus_ddbg_read`**, over all entries. -/
theorem readEntries_spec (hfmt : ∀ d ∈ ddbgs, (escape d.format).length ≤ maxFormatSize)
    (h : c.Has text) {out : Bool} (hr : readEntries c ddbgs = (out, c')) :
    let l := fill Ddebug.line c.buffSz (fresh c.id ddbgs)
    c'.id = lastId c.id l ∧ cstr c'.msg = (text ++ l.flatMap Ddebug.line).take (c.msg.length - 1) := by
  induction ddbgs generalizing c text with
  | nil =>
    obtain ⟨rfl, rfl⟩ := Prod.mk.inj hr
    simp [fresh, fill, lastId, h.str]
  | cons d ddbgs ih =>
    have hrest : ∀ e ∈ ddbgs, (escape e.format).length ≤ maxFormatSize :=
      fun e he => hfmt e (List.mem_cons_of_mem _ he)
    have hpos : 0 < d.line.length := List.length_pos_iff.mpr d.line_ne_nil
    have hline : printEntry d (cstr (copyFormat d.format c.format maxFormatSize)) = d.line := by
      rw [cstr_copyFormat (hfmt d List.mem_cons_self), Ddebug.line]
    unfold readEntries at hr
    split at hr
    · next hsz =>
      obtain ⟨rfl, rfl⟩ := Prod.mk.inj hr
      have hnone : fill Ddebug.line c.buffSz (fresh c.id (d :: ddbgs)) = [] := by
        rw [hsz]
        cases hl : fresh c.id (d :: ddbgs) with
        | nil => rfl
        | cons e l =>
          have := List.length_pos_iff.mpr e.line_ne_nil
          rw [fill, if_neg (by omega)]
      rw [hnone]
      simp [lastId, h.str]
    next hsz =>
    split at hr
    · next hid =>
      rw [fresh, if_pos hid]
      exact ih hrest h hr
    next hid =>
    rw [fresh, if_neg hid]
    simp only [hline] at hr
    split at hr
    · next hlt =>
      obtain ⟨rfl, rfl⟩ := Prod.mk.inj hr
      have hlen := h.length
      rw [fill, if_neg (by omega)]
      simp only [h.cut hsz, lastId, List.getLast?_nil, Option.map_none, Option.getD_none,
        List.flatMap_nil, List.append_nil, true_and]
      rw [List.take_of_length_le (by omega)]
    · next hge =>
      obtain ⟨hnext, hlen⟩ := h.print hsz d.zero_notMem_line (by omega)
      obtain ⟨hlast, hstr⟩ := ih hrest hnext hr
      rw [fill, if_pos (by omega)]
      refine ⟨by rw [hlast, lastId_cons], ?_⟩
      rw [hstr, List.flatMap_cons, List.append_assoc, hlen]

theorem readEntries_of_full (h : c.buffSz = 0) : readEntries c ddbgs = (false, c) := by
  cases ddbgs with
  | nil => rfl
  | cons d ddbgs => rw [readEntries, if_pos h]

theorem readEntries_append {ddbgs' : List Ddebug} : readEntries c (ddbgs ++ ddbgs') =
    match readEntries c ddbgs with
    | (true, c') => (true, c')
    | (false, c') => readEntries c' ddbgs' := by
  induction ddbgs generalizing c with
  | nil => rfl
  | cons d ddbgs ih =>
    rw [List.cons_append, readEntries, readEntries]
    split
    · next hsz => exact (readEntries_of_full hsz).symm
    split
    · exact ih
    · simp only
      split
      · rfl
      · exact ih

/-- The entries of all modules that the loops go through. -/
def DdbgDb.scanned (db : DdbgDb) : List Ddebug := db.modules.flatMap ModuleDdbg.scanned

/-- The entries of all modules. -/
def DdbgDb.entries (db : DdbgDb) : List Ddebug := db.modules.flatMap ModuleDdbg.dbgEntries

theorem readModules_eq {modds : List ModuleDdbg} :
    readModules c modds = (readEntries c (modds.flatMap ModuleDdbg.scanned)).2 := by
  induction modds generalizing c with
  | nil => rfl
  | cons modd modds ih =>
    rw [List.flatMap_cons, readEntries_append, readModules]
    split
    · rfl
    · exact ih

/-- The message of a reply. -/
def DdbgInfo.str (zdi : DdbgInfo) : List UInt8 := zdi.msg.take zdi.len

/-- **`zus_ddbg_read`**, with an empty message. -/
theorem zusDdbgRead_spec (hfmt : ∀ d ∈ db.scanned, (escape d.format).length ≤ maxFormatSize)
    {msg format : List UInt8} (hmsg : msg.head? = some 0) :
    let l := fresh id db.scanned
    let r := zusDdbgRead db format ⟨id, msg.length, msg⟩
    r.id = lastId id (fill Ddebug.line msg.length l) ∧ r.str = page Ddebug.line msg.length l ∧
      r.len = r.str.length := by
  intro l r
  obtain ⟨tail, rfl⟩ : ∃ tail, msg = 0 :: tail := by
    cases msg with
    | nil => cases hmsg
    | cons b tail => exact ⟨tail, by rw [Option.some.inj hmsg]⟩
  have hhas : Cursor.Has ⟨id, 0 :: tail, 0, (0 :: tail).length, format⟩ [] :=
    ⟨rfl, List.not_mem_nil, by simp, fun _ => ⟨tail, rfl⟩, by simp [cstr]⟩
  obtain ⟨hid, hstr⟩ := readEntries_spec hfmt hhas rfl
  have hcut : ∀ m : List UInt8, m.take (cstr m).length = cstr m :=
    fun m => (List.prefix_iff_eq_take.mp (List.takeWhile_prefix _)).symm
  have hr : r.str = page Ddebug.line (0 :: tail).length l := by
    rw [DdbgInfo.str]
    simp only [r, zusDdbgRead, readModules_eq]
    rw [hcut]
    exact hstr
  refine ⟨?_, hr, ?_⟩
  · simp only [r, zusDdbgRead, readModules_eq]
    exact hid
  · rw [DdbgInfo.str]
    simp only [r, zusDdbgRead]
    rw [hcut]

/-! ## A series of calls -/

/-- What the caller of `zus_ddbg_read` has: the buffer for the message, and what is on the
stack. -/
structure Call where
  msg : List UInt8
  format : List UInt8
  deriving DecidableEq

/-- A buffer has room for the line of the next entry, and a zero byte. -/
def DdbgDb.RoomForNext (db : DdbgDb) (id : UInt32) (room : ℕ) : Prop :=
  ∀ d ∈ db.entries, id < d.id → (∀ e ∈ db.entries, id < e.id → d.id ≤ e.id) → d.line.length < room

instance (room : ℕ) : Decidable (db.RoomForNext id room) :=
  inferInstanceAs (Decidable (∀ d ∈ db.entries, _ → _ → _))

/-- A series of calls, with an empty message each, up to the first empty reply. -/
def DdbgDb.Series (db : DdbgDb) : UInt32 → List Call → Prop
  | _, [] => False
  | id, call :: calls =>
    let r := zusDdbgRead db call.format ⟨id, call.msg.length, call.msg⟩
    call.msg.head? = some 0 ∧ db.RoomForNext id call.msg.length ∧
      if r.len = 0 then calls = [] else db.Series r.id calls

instance DdbgDb.Series.dec (db : DdbgDb) :
    (id : UInt32) → (calls : List Call) → Decidable (db.Series id calls)
  | _, [] => inferInstanceAs (Decidable False)
  | id, call :: calls =>
    have := DdbgDb.Series.dec db
      (zusDdbgRead db call.format ⟨id, call.msg.length, call.msg⟩).id calls
    inferInstanceAs (Decidable (_ ∧ _ ∧
      if (zusDdbgRead db call.format ⟨id, call.msg.length, call.msg⟩).len = 0 then calls = []
      else db.Series (zusDdbgRead db call.format ⟨id, call.msg.length, call.msg⟩).id calls))

/-- The messages of the replies. -/
def DdbgDb.replies (db : DdbgDb) : UInt32 → List Call → List (List UInt8)
  | _, [] => []
  | id, call :: calls =>
    let r := zusDdbgRead db call.format ⟨id, call.msg.length, call.msg⟩
    r.str :: db.replies r.id calls

/-- The full listing: the lines of all entries, in the order of their numbers. -/
def DdbgDb.listing (db : DdbgDb) : List UInt8 :=
  (db.entries.mergeSort fun d e => d.id ≤ e.id).flatMap Ddebug.line

section Series

variable {calls : List Call} (hfmt : ∀ d ∈ db.scanned, (escape d.format).length ≤ maxFormatSize)

include hfmt

/-- What is still to be listed after a call. -/
theorem fresh_zusDdbgRead {msg format : List UInt8} (hmsg : msg.head? = some 0) :
    fresh (zusDdbgRead db format ⟨id, msg.length, msg⟩).id db.scanned =
      (fresh id db.scanned).drop (fill Ddebug.line msg.length (fresh id db.scanned)).length := by
  obtain ⟨hid, -, -⟩ := @zusDdbgRead_spec db id hfmt msg format hmsg
  rw [hid]
  apply fresh_lastId
  rw [List.prefix_iff_eq_take]
  exact fill_eq_take

/-- **The replies of a series** are pages of the listing. -/
theorem replies_eq (h : db.Series id calls) : db.replies id calls =
    pages Ddebug.line (fresh id db.scanned) (calls.map fun call => call.msg.length) := by
  induction calls generalizing id with
  | nil => exact h.elim
  | cons call calls ih =>
    obtain ⟨hmsg, -, hnext⟩ := h
    obtain ⟨-, hstr, -⟩ := @zusDdbgRead_spec db id hfmt call.msg call.format hmsg
    rw [DdbgDb.replies, List.map_cons, pages, hstr]
    split at hnext
    · subst hnext
      rfl
    · rw [ih hnext, fresh_zusDdbgRead hfmt hmsg]

end Series

/-! ## The numbers of the entries -/

/-- The states of the tables after modules were loaded, or failed to be. `ddbg_db.modules` has
no place for more, and the number of entries of a module is an `int`. -/
inductive Loaded : DdbgDb → Prop
  | init : Loaded {}
  | add {db : DdbgDb} (fsName : CStr) (handle : Option (List Ddebug)) (calloc : Bool)
      (h : Loaded db) (hroom : db.modules.length < zusLibfsMaxNr)
      (hint : ∀ entries ∈ handle, entries.length < 2 ^ 31) :
      Loaded (zusAddModuleDdbg db fsName handle calloc).2

theorem initLoop_spec {modname : CStr} {nextId : UInt32} :
    (initLoop modname nextId ddbgs).1.length = ddbgs.length ∧
    (initLoop modname nextId ddbgs).2 = nextId + UInt32.ofNat ddbgs.length ∧
    (initLoop modname nextId ddbgs).1.map Ddebug.id =
      (List.range ddbgs.length).map fun i => nextId + UInt32.ofNat (i + 1) := by
  induction ddbgs generalizing nextId with
  | nil => simp [initLoop]
  | cons d ddbgs ih =>
    obtain ⟨hlen, hlast, hids⟩ := @ih (nextId + 1)
    have hone : ∀ k, nextId + 1 + UInt32.ofNat k = nextId + UInt32.ofNat (k + 1) := by
      intro k
      rw [UInt32.add_assoc, UInt32.add_comm 1, ← UInt32.ofNat_one, ← UInt32.ofNat_add]
    rw [initLoop]
    simp only [List.length_cons, List.map_cons, hlen, hlast, hids, hone, true_and]
    rw [List.range_succ_eq_map, List.map_cons, List.map_map]
    rfl

/-- What loading makes of the tables. -/
structure DdbgDb.Ok (db : DdbgDb) : Prop where
  room : db.modules.length ≤ zusLibfsMaxNr
  count : ∀ modd ∈ db.modules, modd.nDbgEntries = UInt16.ofNat modd.dbgEntries.length
  next : db.nextId = UInt32.ofNat db.entries.length
  ids : db.entries.map Ddebug.id = (List.range db.entries.length).map fun i => UInt32.ofNat (i + 1)

theorem Loaded.ok (h : Loaded db) : db.Ok := by
  induction h with
  | init => exact ⟨Nat.zero_le _, by simp, rfl, rfl⟩
  | @add db fsName handle calloc h hroom _ ih =>
    unfold zusAddModuleDdbg
    split
    · exact ih
    cases handle with
    | none => exact ih
    | some entries =>
    simp only
    split
    · exact ih
    obtain ⟨hlen, hlast, hids⟩ := @initLoop_spec entries fsName db.nextId
    have hentries : ∀ modd last, DdbgDb.entries ⟨db.modules ++ [modd], last⟩ =
        db.entries ++ modd.dbgEntries := by
      intro modd last
      simp [DdbgDb.entries]
    refine ⟨?_, ?_, ?_, ?_⟩
    · simp only [List.length_append, List.length_singleton]
      omega
    · simp only [List.mem_append, List.mem_singleton]
      rintro modd (hm | rfl)
      · exact ih.count modd hm
      · rw [hlen]
    · rw [hentries, List.length_append, hlen, hlast, ih.next, UInt32.ofNat_add]
    · rw [hentries, List.map_append, List.length_append, hlen, hids, ih.ids, ih.next]
      rw [List.range_add, List.map_append, List.map_map]
      congr 1
      apply List.map_congr_left
      intro i _
      simp only [Function.comp_apply]
      rw [← UInt32.ofNat_add, Nat.add_assoc]

/-! ## The listing -/

/-- Entries in the order of their numbers are listed one after the other. -/
theorem fresh_of_pairwise (h : ddbgs.Pairwise fun d e => d.id < e.id) :
    fresh id ddbgs = ddbgs.filter fun d => id < d.id := by
  induction ddbgs generalizing id with
  | nil => rfl
  | cons d ddbgs ih =>
    obtain ⟨hd, hrest⟩ := List.pairwise_cons.mp h
    unfold fresh
    split
    · next hle => rw [List.filter_cons_of_neg (by simpa using hle), ih hrest]
    · next hlt =>
      have hid : id < d.id := UInt32.not_le.mp hlt
      rw [List.filter_cons_of_pos (by simpa using hid), ih hrest, List.filter_eq_self.mpr,
        List.filter_eq_self.mpr]
      · exact fun e he => by simpa using UInt32.lt_trans hid (hd e he)
      · exact fun e he => by simpa using hd e he

/-- The entry that is listed next is the next one by its number. -/
theorem head_fresh (h : ddbgs.Pairwise fun d e => d.id < e.id) (hd : d ∈ (fresh id ddbgs).head?) :
    d ∈ ddbgs ∧ id < d.id ∧ ∀ e ∈ ddbgs, id < e.id → d.id ≤ e.id := by
  rw [fresh_of_pairwise h] at hd
  have hsorted := h.filter fun d => decide (id < d.id)
  have hmem := List.mem_filter.mp (List.mem_of_mem_head? hd)
  refine ⟨hmem.1, by simpa using hmem.2, fun e he hlt => ?_⟩
  have hin : e ∈ ddbgs.filter fun d => decide (id < d.id) :=
    List.mem_filter.mpr ⟨he, by simpa using hlt⟩
  cases hl : ddbgs.filter fun d => decide (id < d.id) with
  | nil =>
    rw [hl] at hin
    cases hin
  | cons d' l =>
    rw [hl] at hin hd hsorted
    obtain rfl := Option.some.inj hd
    rcases List.mem_cons.mp hin with rfl | hin
    · exact UInt32.le_refl _
    · exact UInt32.le_of_lt ((List.pairwise_cons.mp hsorted).1 e hin)

/-- The lines of some of the entries, in their order. -/
theorem length_flatMap_of_sublist (h : List.Sublist l ddbgs) :
    (l.flatMap Ddebug.line).length ≤ (ddbgs.flatMap Ddebug.line).length := by
  induction h with
  | slnil => exact Nat.le_refl _
  | cons d h ih =>
    rw [List.flatMap_cons, List.length_append]
    omega
  | cons_cons d h ih =>
    rw [List.flatMap_cons, List.length_append, List.flatMap_cons, List.length_append]
    omega

/-- The lines of all entries are longer than those of some. -/
theorem eq_of_length_flatMap (h : List.Sublist l ddbgs)
    (hle : (ddbgs.flatMap Ddebug.line).length ≤ (l.flatMap Ddebug.line).length) : l = ddbgs := by
  induction h with
  | slnil => rfl
  | cons d h _ =>
    have hlen := length_flatMap_of_sublist h
    have hpos := List.length_pos_iff.mpr d.line_ne_nil
    rw [List.flatMap_cons, List.length_append] at hle
    omega
  | cons_cons d h ih =>
    rw [List.flatMap_cons, List.length_append, List.flatMap_cons, List.length_append] at hle
    rw [ih (by omega)]

theorem scanned_sublist_modules {modds : List ModuleDdbg} :
    List.Sublist (modds.flatMap ModuleDdbg.scanned) (modds.flatMap ModuleDdbg.dbgEntries) := by
  induction modds with
  | nil => exact .slnil
  | cons modd modds ih => exact (List.take_sublist _ _).append ih

/-- All entries are gone through when those of each module are. -/
theorem scanned_modules_iff {modds : List ModuleDdbg} :
    modds.flatMap ModuleDdbg.scanned = modds.flatMap ModuleDdbg.dbgEntries ↔
      ∀ modd ∈ modds, modd.scanned = modd.dbgEntries := by
  induction modds with
  | nil => simp
  | cons modd modds ih =>
    rw [List.flatMap_cons, List.flatMap_cons, List.forall_mem_cons, ← ih]
    constructor
    · intro heq
      have hhead : modd.scanned.length ≤ modd.dbgEntries.length := (List.take_sublist _ _).length_le
      have htail := (@scanned_sublist_modules modds).length_le
      have hlen := congrArg List.length heq
      rw [List.length_append, List.length_append] at hlen
      exact List.append_inj heq (by omega)
    · rintro ⟨hhead, htail⟩
      rw [hhead, htail]

/-- The number of the entries of every module fits in 16 bits. -/
def DdbgDb.Small (db : DdbgDb) : Prop := ∀ modd ∈ db.modules, modd.dbgEntries.length < 2 ^ 16

instance : Decidable db.Small :=
  inferInstanceAs (Decidable (∀ modd ∈ db.modules, modd.dbgEntries.length < 2 ^ 16))

namespace DdbgDb.Ok

variable (h : db.Ok)

include h

theorem scanned_eq_iff : db.scanned = db.entries ↔ db.Small := by
  refine scanned_modules_iff.trans (forall₂_congr fun modd hm => ?_)
  rw [ModuleDdbg.scanned, List.take_eq_self_iff, h.count modd hm, UInt16.toNat_ofNat']
  omega

/-- The numbers do not come to their limit. -/
theorem length_entries (hsmall : db.Small) : db.entries.length < 2 ^ 32 := by
  have hle : ∀ modds : List ModuleDdbg, (∀ modd ∈ modds, modd.dbgEntries.length < 2 ^ 16) →
      (modds.flatMap ModuleDdbg.dbgEntries).length ≤ modds.length * 2 ^ 16 := by
    intro modds hlt
    induction modds with
    | nil => exact Nat.le_refl _
    | cons modd modds ih =>
      obtain ⟨hhead, htail⟩ := List.forall_mem_cons.mp hlt
      have := ih htail
      rw [List.flatMap_cons, List.length_append, List.length_cons]
      omega
  have hroom := h.room
  have hall : db.entries.length ≤ db.modules.length * 2 ^ 16 := hle _ hsmall
  unfold zusLibfsMaxNr at hroom
  omega

theorem id_getElem (hsmall : db.Small) (i : ℕ) (hi : i < db.entries.length) :
    (db.entries[i]).id.toNat = i + 1 := by
  have hlt := h.length_entries hsmall
  have hget : (db.entries.map Ddebug.id)[i]? = some (db.entries[i]).id := by simp [hi]
  rw [h.ids] at hget
  simp only [List.getElem?_map, List.getElem?_range hi, Option.map_some, Option.some.injEq] at hget
  rw [← hget, UInt32.toNat_ofNat']
  omega

theorem pairwise (hsmall : db.Small) : db.entries.Pairwise fun d e => d.id < e.id := by
  rw [List.pairwise_iff_getElem]
  intro i j hi hj hij
  rw [UInt32.lt_iff_toNat_lt, h.id_getElem hsmall, h.id_getElem hsmall]
  omega

theorem fresh_zero (hsmall : db.Small) : fresh 0 db.entries = db.entries := by
  rw [fresh_of_pairwise (h.pairwise hsmall), List.filter_eq_self]
  intro d hd
  obtain ⟨i, hi, rfl⟩ := List.getElem_of_mem hd
  rw [decide_eq_true_eq, UInt32.lt_iff_toNat_lt, h.id_getElem hsmall]
  exact Nat.zero_lt_succ i

theorem listing_eq (hsmall : db.Small) : db.listing = db.entries.flatMap Ddebug.line := by
  rw [DdbgDb.listing, List.mergeSort_of_pairwise]
  refine (h.pairwise hsmall).imp fun hlt => ?_
  simpa using UInt32.le_of_lt hlt

end DdbgDb.Ok

/-- The buffers of a series have room for what is listed next. -/
theorem exhausts_of_series (hfmt : ∀ d ∈ db.scanned, (escape d.format).length ≤ maxFormatSize)
    (hall : db.scanned = db.entries) (hids : db.entries.Pairwise fun d e => d.id < e.id)
    {calls : List Call} (h : db.Series id calls) : Exhausts Ddebug.line (fresh id db.scanned)
      (calls.map fun call => call.msg.length) := by
  induction calls generalizing id with
  | nil => exact h.elim
  | cons call calls ih =>
    obtain ⟨hmsg, hroom, hnext⟩ := h
    obtain ⟨-, hstr, hlen⟩ := @zusDdbgRead_spec db id hfmt call.msg call.format hmsg
    have hnil : (zusDdbgRead db call.format ⟨id, call.msg.length, call.msg⟩).len = 0 ↔
        page Ddebug.line call.msg.length (fresh id db.scanned) = [] := by
      rw [hlen, hstr, List.length_eq_zero_iff]
    refine ⟨?_, fun d hd => ?_, ?_⟩
    · cases hm : call.msg with
      | nil =>
        rw [hm] at hmsg
        cases hmsg
      | cons b tail => simp only [hm, List.length_cons, Nat.zero_lt_succ]
    · rw [hall] at hd
      obtain ⟨hm, hlt, hleast⟩ := head_fresh hids hd
      exact hroom d hm hlt hleast
    · simp only [hnil] at hnext
      split at hnext
      · next hnone =>
        rw [if_pos hnone, hnext]
        rfl
      · next hsome =>
        rw [if_neg hsome, ← fresh_zusDdbgRead hfmt hmsg]
        exact ih hnext

/-- **The replies of a series are together the full listing just when** the entries of every
module can be counted and no lines that are to come are just as long as the buffer. -/
theorem replies_exact_iff (db : DdbgDb) (h : Loaded db)
    (hfmt : ∀ d ∈ db.entries, (escape d.format).length < maxFormatSize) (calls : List Call)
    (hseries : db.Series 0 calls) : (db.replies 0 calls).flatten = db.listing ↔
      db.Small ∧ NeverFull Ddebug.line db.entries (calls.map fun call => call.msg.length) := by
  have hok := h.ok
  have hscan : List.Sublist db.scanned db.entries := scanned_sublist_modules
  have hfmt' : ∀ d ∈ db.scanned, (escape d.format).length ≤ maxFormatSize :=
    fun d hd => (hfmt d (hscan.subset hd)).le
  rw [replies_eq hfmt' hseries]
  by_cases hsmall : db.Small
  · have hall := hok.scanned_eq_iff.mpr hsmall
    have hexh := exhausts_of_series hfmt' hall (hok.pairwise hsmall) hseries
    rw [hall, hok.fresh_zero hsmall] at hexh ⊢
    rw [hok.listing_eq hsmall, flatten_pages_iff (fun d _ => d.line_ne_nil) hexh]
    simp [hsmall]
  · -- some entries are not gone through
    refine iff_of_false (fun heq => hsmall ?_) fun hand => hsmall hand.1
    rw [← hok.scanned_eq_iff]
    apply eq_of_length_flatMap hscan
    have hlen := congrArg List.length heq
    have hpages := @length_flatten_pages_le _ _ Ddebug.line (fresh 0 db.scanned)
      (calls.map fun call => call.msg.length)
    have hfresh := length_flatMap_of_sublist (@fresh_sublist db.scanned 0)
    have hperm : db.listing.length = (db.entries.flatMap Ddebug.line).length :=
      ((List.mergeSort_perm _ _).flatMap_right _).length_eq
    omega

/-- A module with two entries, whose lines have 17 bytes each. -/
def twoEntries : DdbgDb :=
  let dd : Ddebug :=
    { function := ⟨[103], by decide⟩, filename := ⟨[102], by decide⟩, lineno := 1,
      format := ⟨[120], by decide⟩ }
  (zusAddModuleDdbg {} ⟨[116], by decide⟩ (some [dd, dd]) true).2

/-- Both lines are returned in a buffer that is larger than they are. -/
theorem replies_exact_iff_larger :
    (twoEntries.replies 0 [⟨List.replicate 35 0, []⟩, ⟨[0], []⟩]).flatten = twoEntries.listing := by
  have hiff := replies_exact_iff twoEntries
    (.add _ _ _ .init (by decide) fun _ h => by obtain rfl := Option.some.inj h; decide)
    (by decide +kernel) [⟨List.replicate 35 0, []⟩, ⟨[0], []⟩] (by decide +kernel)
  have hlen : (twoEntries.entries.flatMap Ddebug.line).length = 34 := by decide +kernel
  refine hiff.mpr ⟨by decide, fun k hk => ?_, fun k hk => ?_, trivial⟩
  · have hle := length_flatMap_of_sublist (List.take_sublist k twoEntries.entries)
    rw [hk, hlen] at hle
    exact absurd hle (by decide)
  · -- nothing is left to be listed
    have hnil : twoEntries.entries.drop
        (fill Ddebug.line (List.replicate 35 (0 : UInt8)).length twoEntries.entries).length = [] := by
      rw [List.drop_eq_nil_iff]
      decide +kernel
    rw [hnil, List.take_nil] at hk
    cases hk

/-- Two lines in a buffer as long as they are: the last newline is lost. -/
theorem replies_lose_newline : ¬ ∀ db, Loaded db →
    (∀ d ∈ db.entries, (escape d.format).length < maxFormatSize) → ∀ calls, db.Series 0 calls →
      (db.replies 0 calls).flatten = db.listing := by
  intro hall
  have heq := hall twoEntries
    (.add _ _ _ .init (by decide) fun _ h => by obtain rfl := Option.some.inj h; decide)
    (by decide +kernel) [⟨List.replicate 34 0, []⟩, ⟨[0], []⟩] (by decide +kernel)
  have hreplies : (twoEntries.replies 0 [⟨List.replicate 34 0, []⟩, ⟨[0], []⟩]).flatten.length = 33 := by
    decide +kernel
  have hlisting : twoEntries.listing.length = 34 := by
    rw [DdbgDb.listing, ((List.mergeSort_perm _ _).flatMap_right _).length_eq]
    decide +kernel
  rw [heq, hlisting] at hreplies
  cases hreplies

end Zus.Printz
