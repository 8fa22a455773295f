import Zus.Lib.Bytes
import Zus.Lib.Lts
import Zus.Toyfs.State

/-!
# Extended attributes

`xattr.c` keeps the attributes of an inode in one page: entries of variable length, each
a header (value size, name length) followed by the name and the value, packed one after
the other and ended by a header whose name length is zero. The page is a `Bytes`, an
entry is named by its offset.

No function checks that it stays in the page. The functions of this module work on the memory from
the page on, and `lim` is where the part of it ends that a call may touch: `none` is the result of a
call that reads or writes at `lim` or behind. With `lim = xeEnd` that is a call that leaves its page;
with the end of the device it is one that faults.
-/

namespace Zus.Toyfs

open Zus.Lib

/-- `xe_end`: the `1024` entries of `struct toyfs_xattr`, four bytes each. -/
def xeEnd : ℕ := 4096

/-- The offset of `data` in `struct toyfs_xattr_entry`. -/
def xeData : ℕ := 3

namespace Xattr

section

variable (pg : Bytes) (lim : ℕ)

/-- `xe->value_size`. -/
def valueSize (xe : ℕ) : ℕ := (pg xe).toNat + 256 * (pg (xe + 1)).toNat

/-- `xe->name_len`. -/
def nameLen (xe : ℕ) : ℕ := (pg (xe + 2)).toNat

/-- `_has_name`: `memcmp` may read the whole name. -/
def hasName (xe : ℕ) (name : List UInt8) : Option Bool :=
  if nameLen pg xe ≠ name.length then some false
  else if xe + xeData + name.length ≤ lim then
    some (pg.slice (xe + xeData) name.length == name)
  else none

/-- `_next_of`. -/
def nextOf (xe : ℕ) : ℕ := xe + nameLen pg xe + valueSize pg xe

/-- `_copy_value_to_buf`: the bytes copied out. -/
def copyValueToBuf (xe size : ℕ) : Option (Except Errno (List UInt8)) :=
  if size < valueSize pg xe then some (.error .erange)
  else if xe + xeData + nameLen pg xe + valueSize pg xe ≤ lim then
    some (.ok (pg.slice (xe + xeData + nameLen pg xe) (valueSize pg xe)))
  else none

variable {pg} in
theorem lt_nextOf {xe : ℕ} (h : nameLen pg xe ≠ 0) : xe < nextOf pg xe := by
  unfold nextOf
  omega

/-- The walk of `_find_xe` from an entry on. -/
def findXeFrom (name : List UInt8) (xe : ℕ) : Option (Option ℕ) :=
  if xe < xeEnd then
    if lim ≤ xe + 2 then none
    else if nameLen pg xe = 0 then some none
    else
      match hasName pg lim xe name with
      | none => none
      | some true => some (some xe)
      | some false => findXeFrom name (nextOf pg xe)
  else some none
termination_by xeEnd - xe
decreasing_by
  have := lt_nextOf ‹_›
  omega

/-- `_find_xe`. -/
def findXe (name : List UInt8) : Option (Option ℕ) := findXeFrom pg lim name 0

/-- `_do_getxattr`. -/
def doGetxattr (name : List UInt8) (size : ℕ) : Option (Except Errno (List UInt8)) :=
  match findXe pg lim name with
  | none => none
  | some none => some (.error .enodata)
  | some (some xe) => copyValueToBuf pg lim xe size

/-- `_nbytes_distance`, a `size_t`. -/
def nbytesDistance (beg last : ℕ) : ℕ := (((last : ℤ) - beg) % 2 ^ 64).toNat

/-- `_discard_xattr`: the bytes after the entry move down over it. The two ranges
overlap; the destination is the lower one and the copy goes upwards. From an entry that ends behind
the page on, the count is close to `2 ^ 64` and the copy faults. -/
def discardXattr (xe : ℕ) : Option Bytes :=
  let xeNext := nextOf pg xe
  let cnt := nbytesDistance xeNext xeEnd
  if xeNext + cnt ≤ lim then some (pg.store xe cnt fun i => pg (xeNext + i)) else none

/-- `_do_removexattr`. -/
def doRemovexattr (name : List UInt8) : Option (Except Errno Unit × Bytes) :=
  match findXe pg lim name with
  | none => none
  | some none => some (.error .enodata, pg)
  | some (some xe) => (discardXattr pg lim xe).map fun pg' => (.ok (), pg')

/-- The walk of `_append_xattr` to the first header without data. -/
def endFrom (xe : ℕ) : Option ℕ :=
  if xe < xeEnd then
    if lim ≤ xe + 2 then none
    else if nameLen pg xe = 0 then some xe
    else endFrom (nextOf pg xe)
  else some xe
termination_by xeEnd - xe
decreasing_by
  have := lt_nextOf ‹_›
  omega

/-- The stores of `_append_xattr`: the name, the value, the two header fields. -/
def writeEntry (xe : ℕ) (name value : List UInt8) : Bytes :=
  let pg₁ := pg.store (xe + xeData) name.length (.ofList name)
  let pg₂ := pg₁.store (xe + xeData + name.length) value.length (.ofList value)
  let pg₃ := pg₂.store (xe + 2) 1 fun _ => UInt8.ofNat name.length
  pg₃.store xe 2 (.ofList (leBytes 2 value.length))

/-- `_append_xattr`. -/
def appendXattr (name value : List UInt8) : Option (Except Errno Unit × Bytes) :=
  match endFrom pg lim 0 with
  | none => none
  | some xe =>
    if nbytesDistance xe xeEnd < name.length + value.length then some (.error .enospc, pg)
    else if xe + xeData + name.length + value.length ≤ lim then
      some (.ok (), writeEntry pg xe name value)
    else none

/-- `_do_setxattr`. -/
def doSetxattr (name value : List UInt8) (create replace : Bool) :
    Option (Except Errno Unit × Bytes) :=
  match findXe pg lim name with
  | none => none
  | some xe =>
    if create && xe.isSome then some (.error .eexist, pg)
    else if replace && xe.isNone then some (.error .enodata, pg)
    else
      match doRemovexattr pg lim name with
      | none => none
      | some (_, pg') => appendXattr pg' lim name value

end

end Xattr

/-- The fields of `struct zufs_ioc_xattr` that `toyfs_setxattr` reads. -/
structure IocXattr where
  /-- the name in `buf`, without its final NUL -/
  name : List UInt8
  /-- the `user_buf_size` bytes after the name -/
  userBuf : List UInt8
  /-- `ZUFS_XATTR_SET_EMPTY` in `ioc_flags` -/
  setEmpty : Bool
  /-- `XATTR_CREATE` in `flags` -/
  create : Bool
  /-- `XATTR_REPLACE` in `flags` -/
  replace : Bool

namespace IocXattr

/-- The `value` of `toyfs_setxattr`; `none` is the `NULL` that asks for a removal. -/
def value (ioc : IocXattr) : Option (List UInt8) :=
  if ioc.userBuf ≠ [] ∨ ioc.setEmpty then some ioc.userBuf else none

/-- A name the kernel passes: not empty, at most `255` bytes, no NUL. -/
def ValidName (name : List UInt8) : Prop :=
  name ≠ [] ∧ name.length ≤ 255 ∧ (0 : UInt8) ∉ name

instance (name : List UInt8) : Decidable (ValidName name) :=
  inferInstanceAs (Decidable (_ ∧ _ ∧ _))

end IocXattr

/-- `toyfs_setxattr` once the inode has its page. -/
def setxattrPage (pg : Bytes) (lim : ℕ) (ioc : IocXattr) : Option (Except Errno Unit × Bytes) :=
  match ioc.value with
  | none => Xattr.doRemovexattr pg lim ioc.name
  | some value => Xattr.doSetxattr pg lim ioc.name value ioc.create ioc.replace

/-! ## Calls that stay in the page -/

namespace Xattr

/-- The memory `m` has the bytes of `pg` up to the end of the page. -/
def OnPage (pg m : Bytes) : Prop := ∀ i < xeEnd, m i = pg i

variable {pg pg' m : Bytes} {lim xe : ℕ} {name value : List UInt8}

theorem OnPage.header (h : OnPage pg m) (hxe : xe + 2 < xeEnd) :
    nameLen m xe = nameLen pg xe ∧ valueSize m xe = valueSize pg xe ∧ nextOf m xe = nextOf pg xe := by
  have hlen : nameLen m xe = nameLen pg xe := by rw [nameLen, nameLen, h _ hxe]
  have hsize : valueSize m xe = valueSize pg xe := by
    rw [valueSize, valueSize, h _ (by omega), h _ (by omega)]
  exact ⟨hlen, hsize, by rw [nextOf, nextOf, hlen, hsize]⟩

theorem OnPage.slice (h : OnPage pg m) {off len : ℕ} (hin : off + len ≤ xeEnd) :
    m.slice off len = pg.slice off len :=
  Bytes.slice_congr fun _ hi => h _ (by omega)

/-- A comparison inside the page comes out the same in the memory. -/
theorem OnPage.hasName (h : OnPage pg m) (hlim : xeEnd ≤ lim) (hxe : xe + 2 < xeEnd) {b : Bool}
    (hb : hasName pg xeEnd xe name = some b) : hasName m lim xe name = some b := by
  rw [Xattr.hasName] at hb ⊢
  rw [(h.header hxe).1]
  split_ifs at hb with hlen hin
  · rw [if_pos hlen]
    exact hb
  · rw [if_neg hlen, if_pos (by omega), h.slice hin]
    exact hb

/-- So does a search inside the page. -/
theorem OnPage.findXeFrom (h : OnPage pg m) (hlim : xeEnd ≤ lim) {r : Option ℕ}
    (hr : findXeFrom pg xeEnd name xe = some r) : findXeFrom m lim name xe = some r := by
  induction xe using findXeFrom.induct pg xeEnd name with
  | case1 xe hlt hout =>
    rw [Xattr.findXeFrom, if_pos hlt, if_pos hout] at hr
    cases hr
  | case2 xe hlt hin hzero =>
    rw [Xattr.findXeFrom, if_pos hlt, if_neg hin, if_pos hzero] at hr
    rw [Xattr.findXeFrom, if_pos hlt, if_neg (by omega), (h.header (by omega)).1, if_pos hzero]
    exact hr
  | case3 xe hlt hin hlen hname =>
    rw [Xattr.findXeFrom, if_pos hlt, if_neg hin, if_neg hlen, hname] at hr
    cases hr
  | case4 xe hlt hin hlen hname =>
    rw [Xattr.findXeFrom, if_pos hlt, if_neg hin, if_neg hlen, hname] at hr
    rw [Xattr.findXeFrom, if_pos hlt, if_neg (by omega), (h.header (by omega)).1, if_neg hlen,
      h.hasName hlim (by omega) hname]
    exact hr
  | case5 xe hlt hin hlen hname ih =>
    rw [Xattr.findXeFrom, if_pos hlt, if_neg hin, if_neg hlen, hname] at hr
    rw [Xattr.findXeFrom, if_pos hlt, if_neg (by omega), (h.header (by omega)).1, if_neg hlen,
      h.hasName hlim (by omega) hname, (h.header (by omega)).2.2]
    exact ih hr
  | case6 xe hlt =>
    rw [Xattr.findXeFrom, if_neg hlt] at hr ⊢
    exact hr

/-- An entry that is found has the name, and its header before the limit. -/
theorem findXeFrom_found {p : ℕ} (h : findXeFrom pg lim name xe = some (some p)) :
    p + 2 < lim ∧ hasName pg lim p name = some true := by
  induction xe using findXeFrom.induct pg lim name with
  | case1 xe hlt hout =>
    rw [findXeFrom, if_pos hlt, if_pos hout] at h
    cases h
  | case2 xe hlt hin hzero =>
    rw [findXeFrom, if_pos hlt, if_neg hin, if_pos hzero] at h
    cases h
  | case3 xe hlt hin hlen hname =>
    rw [findXeFrom, if_pos hlt, if_neg hin, if_neg hlen, hname] at h
    cases h
  | case4 xe hlt hin hlen hname =>
    rw [findXeFrom, if_pos hlt, if_neg hin, if_neg hlen, hname] at h
    cases h
    exact ⟨Nat.lt_of_not_le hin, hname⟩
  | case5 xe hlt hin hlen hname ih =>
    rw [findXeFrom, if_pos hlt, if_neg hin, if_neg hlen, hname] at h
    exact ih h
  | case6 xe hlt =>
    rw [findXeFrom, if_neg hlt] at h
    cases h

/-- The walk to the end, inside the page. -/
theorem OnPage.endFrom (h : OnPage pg m) (hlim : xeEnd ≤ lim) {p : ℕ}
    (hp : endFrom pg xeEnd xe = some p) : endFrom m lim xe = some p := by
  induction xe using endFrom.induct pg xeEnd with
  | case1 xe hlt hout =>
    rw [Xattr.endFrom, if_pos hlt, if_pos hout] at hp
    cases hp
  | case2 xe hlt hin hzero =>
    rw [Xattr.endFrom, if_pos hlt, if_neg hin, if_pos hzero] at hp
    rw [Xattr.endFrom, if_pos hlt, if_neg (by omega), (h.header (by omega)).1, if_pos hzero]
    exact hp
  | case3 xe hlt hin hlen ih =>
    rw [Xattr.endFrom, if_pos hlt, if_neg hin, if_neg hlen] at hp
    rw [Xattr.endFrom, if_pos hlt, if_neg (by omega), (h.header (by omega)).1, if_neg hlen,
      (h.header (by omega)).2.2]
    exact ih hp
  | case4 xe hlt =>
    rw [Xattr.endFrom, if_neg hlt] at hp ⊢
    exact hp

/-- A store inside the page does to the memory what it does to the page. -/
theorem OnPage.store (h : OnPage pg m) (off len : ℕ) (src src' : Bytes) (hin : off + len ≤ xeEnd)
    (hsrc : ∀ i < len, src' i = src i) : OnPage (pg.store off len src) (m.store off len src') ∧
      ∀ i, xeEnd ≤ i → m.store off len src' i = m i := by
  refine ⟨fun i hi => ?_, fun i hi => Bytes.store_of_ge _ _ (by omega)⟩
  by_cases hlo : off ≤ i
  · by_cases hhi : i < off + len
    · rw [Bytes.store_of_mem _ _ hlo hhi, Bytes.store_of_mem _ _ hlo hhi]
      exact hsrc _ (by omega)
    · rw [Bytes.store_of_ge _ _ (by omega), Bytes.store_of_ge _ _ (by omega)]
      exact h i hi
  · rw [Bytes.store_of_lt _ _ (by omega), Bytes.store_of_lt _ _ (by omega)]
    exact h i hi

theorem OnPage.discardXattr (h : OnPage pg m) (hlim : xeEnd ≤ lim) (hxe : xe + 2 < xeEnd)
    (hd : discardXattr pg xeEnd xe = some pg') :
    ∃ m', discardXattr m lim xe = some m' ∧ OnPage pg' m' ∧ ∀ i, xeEnd ≤ i → m' i = m i := by
  simp only [Xattr.discardXattr] at hd
  split at hd
  case isFalse => cases hd
  next hin =>
    obtain rfl := Option.some.inj hd
    have hnext := (h.header hxe).2.2
    have hle : xe ≤ nextOf pg xe := by
      unfold nextOf
      omega
    obtain ⟨hpage, hout⟩ := h.store xe (nbytesDistance (nextOf pg xe) xeEnd)
      (fun i => pg (nextOf pg xe + i)) (fun i => m (nextOf pg xe + i)) (by omega)
      fun i hi => h _ (by omega)
    refine ⟨_, ?_, hpage, hout⟩
    simp only [Xattr.discardXattr, hnext]
    rw [if_pos (by omega)]

theorem OnPage.writeEntry (h : OnPage pg m)
    (hin : xe + xeData + name.length + value.length ≤ xeEnd) :
    OnPage (writeEntry pg xe name value) (writeEntry m xe name value) ∧
      ∀ i, xeEnd ≤ i → writeEntry m xe name value i = m i := by
  simp only [xeData] at hin
  have h₁ := h.store (xe + xeData) name.length (.ofList name) (.ofList name)
    (by simp only [xeData]; omega) fun _ _ => rfl
  have h₂ := h₁.1.store (xe + xeData + name.length) value.length (.ofList value) (.ofList value)
    (by simp only [xeData]; omega) fun _ _ => rfl
  have h₃ := h₂.1.store (xe + 2) 1 (fun _ => UInt8.ofNat name.length)
    (fun _ => UInt8.ofNat name.length) (by omega) fun _ _ => rfl
  have h₄ := h₃.1.store xe 2 (.ofList (leBytes 2 value.length))
    (.ofList (leBytes 2 value.length)) (by omega) fun _ _ => rfl
  exact ⟨h₄.1, fun i hi => by
    rw [Xattr.writeEntry, h₄.2 i hi, h₃.2 i hi, h₂.2 i hi, h₁.2 i hi]⟩

theorem OnPage.doRemovexattr (h : OnPage pg m) (hlim : xeEnd ≤ lim) {res : Except Errno Unit}
    (hr : doRemovexattr pg xeEnd name = some (res, pg')) :
    ∃ m', doRemovexattr m lim name = some (res, m') ∧ OnPage pg' m' ∧
      ∀ i, xeEnd ≤ i → m' i = m i := by
  rw [Xattr.doRemovexattr] at hr ⊢
  rcases hfind : findXe pg xeEnd name with _ | _ | xe
  · simp [hfind] at hr
  · simp only [hfind, Option.some.injEq, Prod.mk.injEq] at hr
    obtain ⟨rfl, rfl⟩ := hr
    rw [findXe, h.findXeFrom hlim hfind]
    exact ⟨m, rfl, h, fun _ _ => rfl⟩
  · simp only [hfind, Option.map_eq_some_iff, Prod.mk.injEq] at hr
    obtain ⟨pg'', hd, rfl, rfl⟩ := hr
    obtain ⟨m', hd', hpage, hout⟩ := h.discardXattr hlim (findXeFrom_found hfind).1 hd
    rw [findXe, h.findXeFrom hlim hfind]
    simp only [hd', Option.map_some]
    exact ⟨m', rfl, hpage, hout⟩

theorem OnPage.appendXattr (h : OnPage pg m) (hlim : xeEnd ≤ lim) {res : Except Errno Unit}
    (hr : appendXattr pg xeEnd name value = some (res, pg')) :
    ∃ m', appendXattr m lim name value = some (res, m') ∧ OnPage pg' m' ∧
      ∀ i, xeEnd ≤ i → m' i = m i := by
  rw [Xattr.appendXattr] at hr ⊢
  rcases hend : Xattr.endFrom pg xeEnd 0 with _ | p
  · simp [hend] at hr
  · rw [h.endFrom hlim hend]
    simp only [hend] at hr ⊢
    split_ifs at hr with hfull hin
    · cases hr
      rw [if_pos hfull]
      exact ⟨m, rfl, h, fun _ _ => rfl⟩
    · cases hr
      rw [if_neg hfull, if_pos (by omega)]
      exact ⟨_, rfl, h.writeEntry hin⟩

theorem OnPage.doSetxattr (h : OnPage pg m) (hlim : xeEnd ≤ lim) {create replace : Bool}
    {res : Except Errno Unit} (hr : doSetxattr pg xeEnd name value create replace = some (res, pg')) :
    ∃ m', doSetxattr m lim name value create replace = some (res, m') ∧ OnPage pg' m' ∧
      ∀ i, xeEnd ≤ i → m' i = m i := by
  rw [Xattr.doSetxattr] at hr ⊢
  rcases hfind : findXe pg xeEnd name with _ | xe
  · simp [hfind] at hr
  · have hfind' : findXe m lim name = some xe := h.findXeFrom hlim hfind
    simp only [hfind, hfind'] at hr ⊢
    split_ifs at hr ⊢ with hcreate hreplace
    · cases hr
      exact ⟨m, rfl, h, fun _ _ => rfl⟩
    · cases hr
      exact ⟨m, rfl, h, fun _ _ => rfl⟩
    · rcases hrem : Xattr.doRemovexattr pg xeEnd name with _ | ⟨res₁, pg₁⟩
      · simp [hrem] at hr
      · simp only [hrem] at hr
        obtain ⟨m₁, hrem', hpage₁, hout₁⟩ := h.doRemovexattr hlim hrem
        obtain ⟨m', happ, hpage, hout⟩ := hpage₁.appendXattr hlim hr
        rw [hrem']
        exact ⟨m', happ, hpage, fun i hi => (hout i hi).trans (hout₁ i hi)⟩

end Xattr

/-- **A call that stays in its page** does the same in the memory around it and leaves the rest. -/
theorem setxattrPage_onPage {pg pg' m : Bytes} {lim : ℕ} {ioc : IocXattr}
    {res : Except Errno Unit} (h : Xattr.OnPage pg m) (hlim : xeEnd ≤ lim)
    (hr : setxattrPage pg xeEnd ioc = some (res, pg')) :
    ∃ m', setxattrPage m lim ioc = some (res, m') ∧ Xattr.OnPage pg' m' ∧
      ∀ i, xeEnd ≤ i → m' i = m i := by
  rw [setxattrPage] at hr ⊢
  rcases hval : ioc.value with _ | value
  · rw [hval] at hr
    exact h.doRemovexattr hlim hr
  · rw [hval] at hr
    exact h.doSetxattr hlim hr

end Zus.Toyfs
