import Zus.Toyfs.Inode
import Zus.Toyfs.XattrMap

/-!
# The calls on extended attributes

`toyfs_getxattr` and `toyfs_listxattr` answer into a buffer of the caller: a size of zero asks how
much there is to answer, any other size is the room there is. `toyfs_setxattr` replaces a value by
a removal and an append.

The entries of a page are those that the walk by `_next_of` meets, in its order. Four things go
wrong. `toyfs_getxattr` takes a size of zero for a room of zero. `toyfs_listxattr` copies every name
to the beginning of the buffer, and takes a room that is used up between two entries for a size of
zero. `toyfs_setxattr` removes the old value before it looks for room for the new one.

No call checks that it stays in its page. The calls of this module work on the memory: `rest` is
what lies behind the page of the inode, and `lim` is where the memory ends.
-/

namespace Zus.Toyfs

open Zus.Lib Xattr

/-- What a call that reads attributes leaves in `struct zufs_ioc_xattr`. -/
structure XattrReply where
  /-- `user_buf_size` -/
  userBufSize : ℕ
  /-- what is added to `hdr.out_len` -/
  outLen : ℕ
  /-- the bytes stored in `buf`, from its beginning -/
  buf : List UInt8

/-- The end of `toyfs_getxattr` and `toyfs_listxattr`: `n` is the size to report. -/
def XattrReply.of (userBufSize n : ℕ) (buf : List UInt8) : XattrReply :=
  ⟨n, if userBufSize ≠ 0 then n else 0, buf⟩

namespace Xattr

variable (pg : Bytes) (lim : ℕ)

/-- `_copy_name_to_buf`: the name and its NUL. `*buf` is not moved on, so they are stored over the
beginning of what is in the buffer. -/
def copyNameToBuf (xe : ℕ) (buf : List UInt8) : List UInt8 :=
  pg.slice (xe + xeData) (nameLen pg xe) ++ [0] ++ buf.drop (nameLen pg xe + 1)

end Xattr

namespace Sbi

/-- The memory from a page on, with `rest` behind it. -/
def memFrom (s : Sbi) (rest : Bytes) (bn : ℕ) : Bytes :=
  fun i => if i < xeEnd then s.mem bn i else rest (i - xeEnd)

variable (s : Sbi) (rest : Bytes) (lim : ℕ) (n : RecPtr)

/-- `toyfs_getxattr`; `none` is an access at `lim` or behind. -/
def getxattr (name : List UInt8) (userBufSize : ℕ) : Option (Except Errno XattrReply) :=
  if (s.inodes n).iXattr = 0 then some (.error .enodata)
  else (doGetxattr (s.memFrom rest (s.inodes n).iXattr) lim name userBufSize).map fun r =>
    r.map fun value => .of userBufSize value.length value

/-- `toyfs_setxattr` in the memory: the second part is what lies behind the page after the call. -/
def setxattrIn (ioc : IocXattr) : Option (Except Errno Unit × Sbi × Bytes) :=
  match s.requireXattr n with
  | none => some (.error .enospc, s, rest)
  | some s₁ =>
    let bn := (s₁.inodes n).iXattr
    match setxattrPage (s₁.memFrom rest bn) lim ioc with
    | none => none
    | some (res, m) =>
      some (res, s₁.setPage bn (fun i => if i < xeEnd then m i else s₁.mem bn i),
        fun i => m (xeEnd + i))

end Sbi

/-! ## The entries of a page -/

section Entries

variable {pg : Bytes} {lim xe size ret : ℕ} {es : List ℕ} {buf : List UInt8}

/-- From the place `xe` on the walk meets the entries `es`, each inside the page. -/
inductive Walk (pg : Bytes) : ℕ → List ℕ → Prop where
  /-- the end of the page -/
  | last {xe : ℕ} : xeEnd ≤ xe → Walk pg xe []
  /-- a header without data -/
  | stop {xe : ℕ} : xe + 2 < xeEnd → nameLen pg xe = 0 → Walk pg xe []
  | step {xe : ℕ} {es : List ℕ} : nameLen pg xe ≠ 0 →
      xe + xeData + nameLen pg xe + valueSize pg xe ≤ xeEnd → Walk pg (nextOf pg xe) es →
      Walk pg xe (xe :: es)

/-- The names, each with its NUL. -/
def listing (pg : Bytes) (es : List ℕ) : List UInt8 :=
  es.flatMap fun xe => entryName pg xe ++ [0]

@[simp] theorem listing_nil : listing pg [] = [] := rfl

@[simp] theorem listing_cons :
    listing pg (xe :: es) = entryName pg xe ++ [0] ++ listing pg es := by
  simp [listing]

theorem length_listing_cons :
    (listing pg (xe :: es)).length = nameLen pg xe + 1 + (listing pg es).length := by
  simp [Nat.add_assoc, Nat.add_comm 1]

theorem Walk.inside (h : Walk pg xe es) :
    ∀ x ∈ es, x + xeData + nameLen pg x + valueSize pg x ≤ xeEnd := by
  induction h with
  | last | stop => exact fun x hx => by cases hx
  | step _ hin _ ih =>
    intro x hx
    rcases List.mem_cons.mp hx with rfl | hx
    · exact hin
    · exact ih x hx

/-- **`_find_xe` finds the first entry of the name.** -/
theorem Walk.findXeFrom (h : Walk pg xe es) (hlim : xeEnd ≤ lim) (name : List UInt8) :
    findXeFrom pg lim name xe = some (es.find? fun xe => entryName pg xe == name) := by
  induction h with
  | last hend =>
    rw [Xattr.findXeFrom, if_neg (Nat.not_lt.mpr hend)]
    rfl
  | @stop xe hin hzero =>
    rw [Xattr.findXeFrom, if_pos (by omega), if_neg (by omega), if_pos hzero]
    rfl
  | @step xe es hlen hin _ ih =>
    simp only [xeData] at hin
    rw [Xattr.findXeFrom, if_pos (by omega), if_neg (by omega), if_neg hlen,
      hasName_eq (by simp only [xeData]; omega)]
    rcases hname : entryName pg xe == name
    · simp only [hname, List.find?_cons, ih]
    · simp only [hname, List.find?_cons]

/-! ## The listing -/

/-- What the copies leave in the buffer. -/
def copied (pg : Bytes) (es : List ℕ) (buf : List UInt8) : List UInt8 :=
  es.foldl (fun buf xe => copyNameToBuf pg xe buf) buf

/-- The room is used up between two entries. -/
def UsedUp (pg : Bytes) (es : List ℕ) (size : ℕ) : Prop :=
  ∃ j, 0 < j ∧ j < es.length ∧ (listing pg (es.take j)).length = size

theorem length_listing_pos (hne : es ≠ []) : 0 < (listing pg es).length := by
  obtain ⟨xe, es, rfl⟩ := List.exists_cons_of_ne_nil hne
  rw [length_listing_cons]
  omega

theorem UsedUp.lt (h : UsedUp pg es size) : 0 < size ∧ size < (listing pg es).length := by
  obtain ⟨j, hpos, hlt, rfl⟩ := h
  have hsplit : listing pg es = listing pg (es.take j) ++ listing pg (es.drop j) := by
    rw [listing, listing, listing, ← List.flatMap_append, List.take_append_drop]
  have htake : es.take j ≠ [] := by
    apply List.ne_nil_of_length_pos
    rw [List.length_take]
    omega
  have hdrop : es.drop j ≠ [] := by
    apply List.ne_nil_of_length_pos
    rw [List.length_drop]
    omega
  have hpos' := @length_listing_pos pg _ hdrop
  rw [hsplit, List.length_append]
  exact ⟨length_listing_pos htake, by omega⟩

end Entries

/-! ## The buffer -/

theorem onPage_memFrom (s : Sbi) (rest : Bytes) (bn : ℕ) :
    OnPage (s.mem bn) (s.memFrom rest bn) := fun _ hi => if_pos hi

variable {s : Sbi} {n : RecPtr} {es : List ℕ} {lim size xe : ℕ} {name : List UInt8}

/-- A state whose inodes all have the attribute page `pg`. -/
def withXattrPage (pg : Bytes) : Sbi where
  mem _ := pg
  dblkrefs _ := {}
  inodes _ := { iMode := .reg, iXattr := 1 }
  pool := ⟨[], fun _ => []⟩
  fBlocks := 0
  fBfree := 0
  fBavail := 0
  fFiles := 0
  fFfree := 0
  fFavail := 0
  imap _ := []
  icount := 0
  tiis _ := none
  sTopIno := 0
  panicked := false

section AllOrNothing

variable {pg pg' m m' : Bytes} {value : List UInt8} {ioc : IocXattr} {e : Errno}

/-- A call that returns an error leaves every answer of `toyfs_getxattr` as it was. -/
def AllOrNothing (s : Sbi) (n : RecPtr) (ioc : IocXattr) (rest : Bytes) (lim : ℕ) : Prop :=
  ∀ e s' rest', s.setxattrIn rest lim n ioc = some (.error e, s', rest') →
    ∀ name size, s'.getxattr rest' lim n name size = s.getxattr rest lim n name size

/-- The call takes out the old value at `xe`, which leaves `m'`, and finds no room there for the
new one. -/
structure RunsOutOfRoom (m : Bytes) (lim : ℕ) (ioc : IocXattr) (value : List UInt8) (xe : ℕ)
    (m' : Bytes) : Prop where
  set : ioc.value = some value
  create : ioc.create = false
  found : findXe m lim ioc.name = some (some xe)
  removed : discardXattr m lim xe = some m'
  room : ∃ last, endFrom m' lim 0 = some last ∧
    nbytesDistance last xeEnd < ioc.name.length + value.length

/-- With the old entry out the name is found again, with a value as long as the old one. -/
def FoundAgain (m : Bytes) (lim : ℕ) (name : List UInt8) (xe : ℕ) (m' : Bytes) : Prop :=
  ∃ xe', findXe m' lim name = some (some xe') ∧ valueSize m' xe' = valueSize m xe

theorem RunsOutOfRoom.setxattrPage (h : RunsOutOfRoom m lim ioc value xe m') :
    setxattrPage m lim ioc = some (.error .enospc, m') := by
  obtain ⟨last, hlast, hroom⟩ := h.room
  simp only [Toyfs.setxattrPage, h.set, doSetxattr, h.found, h.create, doRemovexattr, h.removed,
    appendXattr, Option.map_some, hlast, if_pos hroom]
  simp

/-- A failing append leaves the page as it was. -/
theorem appendXattr_error (h : appendXattr m lim name value = some (.error e, m')) :
    m' = m ∧ ∃ last, endFrom m lim 0 = some last ∧
      nbytesDistance last xeEnd < name.length + value.length := by
  rw [appendXattr] at h
  split at h
  · cases h
  · next last hlast =>
    split_ifs at h with hroom
    · cases h
      exact ⟨rfl, last, hlast, hroom⟩
    · cases h

/-- An error leaves the page as it was, but for that one. -/
theorem setxattrPage_error (h : setxattrPage m lim ioc = some (.error e, m')) :
    m' = m ∨ ∃ value xe, RunsOutOfRoom m lim ioc value xe m' := by
  rw [setxattrPage] at h
  rcases hval : ioc.value with _ | value
  · simp only [hval, doRemovexattr] at h
    rcases hfind : findXe m lim ioc.name with _ | _ | xe
    · simp [hfind] at h
    · simp [hfind] at h
      exact .inl h.2.symm
    · simp [hfind] at h
  · simp only [hval, doSetxattr] at h
    rcases hfind : findXe m lim ioc.name with _ | _ | xe
    · simp [hfind] at h
    · -- a new name: at most the append can fail
      simp only [hfind, doRemovexattr] at h
      split_ifs at h
      · cases h
        exact .inl rfl
      · cases h
        exact .inl rfl
      · exact .inl (appendXattr_error h).1
    · simp only [hfind, doRemovexattr] at h
      split_ifs at h with hcreate hreplace
      · cases h
        exact .inl rfl
      · simp at hreplace
      · rcases hdis : discardXattr m lim xe with _ | m₁
        · simp [hdis] at h
        · simp only [hdis, Option.map_some] at h
          obtain ⟨rfl, hroom⟩ := appendXattr_error h
          exact .inr ⟨value, xe, hval, by simpa using hcreate, hfind, hdis, hroom⟩

/-- The question of the length of a value that is there stays before the limit. -/
theorem copyValueToBuf_zero (hfind : findXe m lim name = some (some xe)) :
    copyValueToBuf m lim xe 0 = some (.error .erange) ∨
      ∃ value, copyValueToBuf m lim xe 0 = some (.ok value) := by
  have hname := (findXeFrom_found hfind).2
  rw [hasName] at hname
  split_ifs at hname with hlen hin
  · cases hname
  · rw [copyValueToBuf]
    rcases Nat.eq_zero_or_pos (valueSize m xe) with hzero | hpos
    · rw [if_neg (by omega), if_pos (by omega)]
      exact .inr ⟨_, rfl⟩
    · rw [if_pos hpos]
      exact .inl rfl

/-- A name that is not found again, or with a value of another length, is answered differently. -/
theorem RunsOutOfRoom.shows (h : RunsOutOfRoom m lim ioc value xe m')
    (hnot : ¬ FoundAgain m lim ioc.name xe m') :
    ∃ size, doGetxattr m' lim ioc.name size ≠ doGetxattr m lim ioc.name size := by
  have hzero := copyValueToBuf_zero h.found
  rcases hfind : findXe m' lim ioc.name with _ | _ | xe'
  · refine ⟨0, ?_⟩
    rw [doGetxattr, doGetxattr, hfind, h.found]
    rcases hzero with hzero | ⟨v, hzero⟩ <;> simp [hzero]
  · refine ⟨0, ?_⟩
    rw [doGetxattr, doGetxattr, hfind, h.found]
    rcases hzero with hzero | ⟨v, hzero⟩ <;> simp [hzero]
  · -- the shorter of the two lengths is enough for one of them only
    have hne : valueSize m' xe' ≠ valueSize m xe := fun heq => hnot ⟨xe', hfind, heq⟩
    refine ⟨min (valueSize m' xe') (valueSize m xe), ?_⟩
    rw [doGetxattr, doGetxattr, hfind, h.found]
    simp only [copyValueToBuf]
    rcases Nat.lt_or_gt_of_ne hne with hlt | hlt
    · rw [if_neg (by omega), if_pos (show min _ _ < valueSize m xe by omega)]
      split_ifs <;> simp
    · rw [if_pos (by omega), if_neg (show ¬ min _ _ < valueSize m xe by omega)]
      split_ifs <;> simp

/-- What a read of the attributes gives is what their page gives. -/
theorem getxattr_congr_iff {s s' : Sbi} {n : RecPtr} {rest rest' : Bytes}
    (hpage : (s.inodes n).iXattr ≠ 0) (hpage' : (s'.inodes n).iXattr ≠ 0) {size : ℕ} :
    s'.getxattr rest' lim n name size = s.getxattr rest lim n name size ↔
      doGetxattr (s'.memFrom rest' (s'.inodes n).iXattr) lim name size =
        doGetxattr (s.memFrom rest (s.inodes n).iXattr) lim name size := by
  rw [Sbi.getxattr, Sbi.getxattr, if_neg hpage, if_neg hpage']
  constructor
  · apply Option.map_injective
    rintro (e | value) (e' | value') heq
    · simpa [Except.map] using heq
    · cases heq
    · cases heq
    · simp only [Except.map, XattrReply.of, Except.ok.injEq, XattrReply.mk.injEq] at heq
      rw [heq.2.2]
  · intro heq
    rw [heq]

/-- On an empty page no name is found. -/
theorem findXe_empty (hempty : nameLen m 0 = 0) (hlim : 2 < lim) (name : List UInt8) :
    findXe m lim name = some none := by
  rw [findXe, findXeFrom, if_pos (by decide), if_neg (by omega), if_pos hempty]

/-- A call on attributes that comes back has read the first header. -/
theorem setxattrPage_lim {res : Except Errno Unit} (h : setxattrPage m lim ioc = some (res, m')) :
    2 < lim := by
  by_contra hlim
  have hfind : findXe m lim ioc.name = none := by
    rw [findXe, findXeFrom, if_pos (by decide), if_pos (by omega)]
  rw [setxattrPage] at h
  rcases hval : ioc.value with _ | value
  · simp [hval, doRemovexattr, hfind] at h
  · simp [hval, doSetxattr, hfind] at h

/-- The page that an inode gets for its first attribute is empty. -/
theorem empty_requireXattr {s s₁ : Sbi} {n : RecPtr} (hpage : (s.inodes n).iXattr = 0)
    (hr : s.requireXattr n = some s₁) (rest : Bytes) :
    nameLen (s₁.memFrom rest (s₁.inodes n).iXattr) 0 = 0 := by
  rw [Sbi.requireXattr, if_neg (not_not.mpr hpage)] at hr
  split at hr
  · cases hr
  · next bn s₀ hacq =>
    obtain rfl := Option.some.inj hr
    have hzero : s₀.mem bn = fun _ => 0 := by
      rw [Sbi.acquirePmemb] at hacq
      split_ifs at hacq
      split at hacq
      · cases hacq
      · cases hacq
        simp [Sbi.setPage]
    have hpg : (s₀.setInode n { s₀.inodes n with iXattr := bn }).mem
        ((s₀.setInode n { s₀.inodes n with iXattr := bn }).inodes n).iXattr = s₀.mem bn := by
      simp [Sbi.setInode]
    rw [nameLen, Sbi.memFrom, if_pos (by decide), hpg, hzero]
    rfl

/-- What `toyfs_setxattr` leaves in the memory. -/
theorem memFrom_setxattr (s : Sbi) (bn : ℕ) (m : Bytes) :
    (s.setPage bn fun i => if i < xeEnd then m i else s.mem bn i).memFrom
      (fun i => m (xeEnd + i)) bn = m := by
  funext i
  simp only [Sbi.memFrom, Sbi.setPage, Function.update_self]
  split_ifs with hi
  · rfl
  · rw [Nat.add_sub_cancel' (Nat.not_lt.mp hi)]

/-- For its first attribute an inode gets an empty page, on which nothing is found before or after a
call that fails. -/
theorem allOrNothing_of_new {s : Sbi} {n : RecPtr} (hpage : (s.inodes n).iXattr = 0)
    (ioc : IocXattr) (rest : Bytes) (lim : ℕ) : AllOrNothing s n ioc rest lim := by
  intro e s' rest' hr name size
  have hbefore : s.getxattr rest lim n name size = some (.error .enodata) := if_pos hpage
  rw [hbefore]
  rcases hreq : s.requireXattr n with _ | s₁
  · simp only [Sbi.setxattrIn, hreq] at hr
    cases hr
    exact if_pos hpage
  · have hempty := empty_requireXattr hpage hreq rest
    rcases hpg : setxattrPage (s₁.memFrom rest (s₁.inodes n).iXattr) lim ioc with _ | ⟨res, m⟩
    · simp [Sbi.setxattrIn, hreq, hpg] at hr
    · have hlim := setxattrPage_lim hpg
      simp only [Sbi.setxattrIn, hreq, hpg] at hr
      cases hr
      have hm : m = s₁.memFrom rest (s₁.inodes n).iXattr := by
        rcases setxattrPage_error hpg with hm | ⟨value, xe, hroom⟩
        · exact hm
        · have hfound := hroom.found
          rw [findXe_empty hempty hlim] at hfound
          cases hfound
      rw [Sbi.getxattr]
      split_ifs
      · rfl
      · change (doGetxattr (Sbi.memFrom _ _ (s₁.inodes n).iXattr) lim name size).map _ = _
        rw [memFrom_setxattr, hm, doGetxattr, findXe_empty hempty hlim]
        rfl

/-- With a page there, the call works on it. -/
theorem setxattrIn_eq {s : Sbi} {n : RecPtr} (hpage : (s.inodes n).iXattr ≠ 0) (rest : Bytes)
    (lim : ℕ) (ioc : IocXattr) :
    s.setxattrIn rest lim n ioc =
      (setxattrPage (s.memFrom rest (s.inodes n).iXattr) lim ioc).map fun r =>
        (r.1, s.setPage (s.inodes n).iXattr
          (fun i => if i < xeEnd then r.2 i else s.mem (s.inodes n).iXattr i),
          fun i => r.2 (xeEnd + i)) := by
  have hreq : s.requireXattr n = some s := if_pos hpage
  simp only [Sbi.setxattrIn, hreq]
  rcases setxattrPage (s.memFrom rest (s.inodes n).iXattr) lim ioc with _ | ⟨res, m⟩ <;> rfl

/-- What is read after the call is what the memory it leaves gives. -/
theorem getxattr_setxattr_iff {s : Sbi} {n : RecPtr} (hpage : (s.inodes n).iXattr ≠ 0)
    (rest : Bytes) (size : ℕ) :
    (s.setPage (s.inodes n).iXattr
          (fun i => if i < xeEnd then m i else s.mem (s.inodes n).iXattr i)).getxattr
        (fun i => m (xeEnd + i)) lim n name size = s.getxattr rest lim n name size ↔
      doGetxattr m lim name size =
        doGetxattr (s.memFrom rest (s.inodes n).iXattr) lim name size := by
  have hcongr := @getxattr_congr_iff lim name s (s.setPage (s.inodes n).iXattr
    fun i => if i < xeEnd then m i else s.mem (s.inodes n).iXattr i) n rest
    (fun i => m (xeEnd + i)) hpage hpage size
  have hm := memFrom_setxattr s (s.inodes n).iXattr m
  rw [show (s.setPage (s.inodes n).iXattr fun i =>
    if i < xeEnd then m i else s.mem (s.inodes n).iXattr i).inodes = s.inodes from rfl, hm] at hcongr
  exact hcongr

/-- A value that is taken out and not found again is lost. -/
theorem RunsOutOfRoom.loses {s : Sbi} {n : RecPtr} {rest : Bytes}
    (hpage : (s.inodes n).iXattr ≠ 0)
    (h : RunsOutOfRoom (s.memFrom rest (s.inodes n).iXattr) lim ioc value xe m')
    (hnot : ¬ FoundAgain (s.memFrom rest (s.inodes n).iXattr) lim ioc.name xe m') :
    ¬ AllOrNothing s n ioc rest lim := by
  intro hall
  obtain ⟨size, hne⟩ := h.shows hnot
  apply hne
  rw [← getxattr_setxattr_iff hpage]
  exact hall .enospc _ _ (by rw [setxattrIn_eq hpage, h.setxattrPage]; rfl) ioc.name size

/-- **`toyfs_setxattr` is all or nothing**, unless it replaces a value that is there and finds no
room for the new one after it has taken the old one out. Then the old value is lost, unless the name
is found again with a value of the same length. -/
theorem setxattr_allOrNothing (s : Sbi) (n : RecPtr) (ioc : IocXattr) (rest : Bytes) (lim : ℕ) :
    ((s.inodes n).iXattr = 0 ∨ (¬ ∃ value xe m',
        RunsOutOfRoom (s.memFrom rest (s.inodes n).iXattr) lim ioc value xe m') →
      AllOrNothing s n ioc rest lim) ∧
    ((s.inodes n).iXattr ≠ 0 ∧ (∃ value xe m',
        RunsOutOfRoom (s.memFrom rest (s.inodes n).iXattr) lim ioc value xe m' ∧
        ¬ FoundAgain (s.memFrom rest (s.inodes n).iXattr) lim ioc.name xe m') →
      ¬ AllOrNothing s n ioc rest lim) := by
  constructor
  · intro hnot
    by_cases hpage : (s.inodes n).iXattr = 0
    · exact allOrNothing_of_new hpage ioc rest lim
    · intro e s' rest' hr name size
      rw [setxattrIn_eq hpage, Option.map_eq_some_iff] at hr
      obtain ⟨⟨res, m⟩, hpg, hr⟩ := hr
      cases hr
      rw [getxattr_setxattr_iff hpage]
      rcases setxattrPage_error hpg with rfl | ⟨value, xe, hroom⟩
      · rfl
      · exact absurd ⟨value, xe, m, hroom⟩ (hnot.resolve_left hpage)
  · rintro ⟨hpage, value, xe, m', hroom, hagain⟩
    exact hroom.loses hpage hagain

/-- The page on which `toyfs_setxattr` has stored `v`, NUL under the name `a`. -/
def oneAttr : Bytes := writeEntry (fun _ => 0) 0 [97] [118, 0]

/-- A new value of `4096` bytes for `a`: the memory ends with the page, and without its entry the
page is empty. -/
theorem setxattr_loses_value :
    ¬ ∀ (s : Sbi) (n : RecPtr) (ioc : IocXattr) (rest : Bytes) (lim : ℕ),
      AllOrNothing s n ioc rest lim := by
  intro hall
  obtain ⟨userBuf, hbuf⟩ : ∃ userBuf : List UInt8, userBuf.length = 4096 :=
    ⟨List.replicate 4096 0, List.length_replicate⟩
  have hm : (withXattrPage oneAttr).memFrom (fun _ => 0) 1 =
      fun i => if i < xeEnd then oneAttr i else 0 := rfl
  have hfind : findXe (fun i => if i < xeEnd then oneAttr i else 0) xeEnd [97] = some (some 0) := by
    decide +kernel
  obtain ⟨m', hdis, hempty⟩ : ∃ m', discardXattr (fun i => if i < xeEnd then oneAttr i else 0)
      xeEnd 0 = some m' ∧ (nameLen m' 0 == 0) = true :=
    (Option.any_eq_true _ _).mp (by decide +kernel)
  rw [beq_iff_eq] at hempty
  have hroom : RunsOutOfRoom ((withXattrPage oneAttr).memFrom (fun _ => 0) 1) xeEnd
      ⟨[97], userBuf, true, false, false⟩ userBuf 0 m' := by
    rw [hm]
    refine ⟨if_pos (.inr rfl), rfl, hfind, hdis, 0, ?_, ?_⟩
    · rw [endFrom, if_pos (by decide), if_neg (by decide), if_pos hempty]
    · change nbytesDistance 0 xeEnd < 1 + userBuf.length
      rw [hbuf]
      decide
  refine hroom.loses (s := withXattrPage oneAttr) (n := ⟨1, 0⟩) Nat.one_ne_zero ?_ (hall _ _ _ _ _)
  rintro ⟨xe', hagain, -⟩
  rw [findXe_empty hempty (by decide)] at hagain
  cases hagain

end AllOrNothing

end Zus.Toyfs
