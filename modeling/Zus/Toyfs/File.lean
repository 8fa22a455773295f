import Zus.Toyfs.Pool

/-!
# Regular files

`file.c` and the block requests of `mmap.c`. The content of a file is a list of
`iblkref`s, each naming a page-aligned offset and a data block. A data block is a page
with a count of the `iblkref`s that share it; `toyfs_clone` makes files share blocks, and
the store paths are meant to give a file its own copy before they change a byte.

A file is named by its inode record, to which both `tii->ti` and `tii->zii.zi` point.
Loops over byte ranges go page by page, on the distance to the end of the range; loops
over a block list go down the list. An operation returns its result with the state it
leaves, also when it fails half-way.
-/

namespace Zus.Toyfs

open Zus.Lib

/-- `TOYFS_ISIZE_MAX`. -/
def isizeMax : UInt64 := (1 : UInt64) <<< 50

/-- The bits of `<linux/falloc.h>`. -/
def fallocKeepSize : UInt32 := 0x01
def fallocPunchHole : UInt32 := 0x02
def fallocNoHideStale : UInt32 := 0x04
def fallocCollapseRange : UInt32 := 0x08
def fallocZeroRange : UInt32 := 0x10
def fallocInsertRange : UInt32 := 0x20
def fallocUnshareRange : UInt32 := 0x40

/-! ## Checks -/

/-- `_check_io`. -/
def checkIo (off : ℤ) (len : UInt64) : Option Errno :=
  if off < 0 then some .einval
  else if len = 0 then some .einval
  else if isizeMax < toSize off then some .efbig
  else if isizeMax < toSize off + len then some .efbig
  else none

/-- `_check_rw`, with `ZUS_API_MAP_MAX_SIZE` as a parameter. -/
def checkRw (apiMapMaxSize : ℕ) (off : ℤ) (len : UInt64) : Option Errno :=
  if apiMapMaxSize < len.toNat then some .einval else checkIo off len

/-- `_check_falloc`. -/
def checkFalloc (flags : UInt32) (off : ℤ) (len : UInt64) : Option Errno :=
  if flags &&& fallocNoHideStale ≠ 0 then some .enotsup
  else if flags &&& fallocInsertRange ≠ 0 then some .enotsup
  else if flags &&& fallocUnshareRange ≠ 0 then some .enotsup
  else if flags &&& fallocPunchHole ≠ 0 ∧ flags &&& fallocKeepSize = 0 then some .enotsup
  else if flags &&& fallocCollapseRange ≠ 0 ∧ flags ≠ fallocCollapseRange then some .enotsup
  else if flags &&& fallocCollapseRange ≠ 0 ∧ ispagealigned off len = false then some .enotsup
  else none

/-- `_max_offset`. -/
def maxOffset (off : ℤ) (len isize : UInt64) : ℤ :=
  let last := off + toLoff len
  if last > toLoff isize then last else toLoff isize

/-- `_tin_offset`. -/
def tinOffset (off : ℤ) (len isize : UInt64) : ℤ :=
  let last := off + toLoff len
  if last < toLoff isize then last else toLoff isize

/-! ## Block lists -/

/-- `_fetch_iblkref`. -/
def fetchIblkref (l : List Iblkref) (off : ℤ) : Option Iblkref :=
  l.find? fun ib => ib.off == offToBoff off

/-- The list from the result of `_fetch_iblkref_from` on. -/
def fetchIblkrefFrom (l : List Iblkref) (off : ℤ) : List Iblkref :=
  l.dropWhile fun ib => ib.off < offToBoff off

/-- The search of `_require_iblkref`, which stops at the first larger offset. -/
def scanIblkref (boff : ℤ) : List Iblkref → Option Iblkref
  | [] => none
  | ib :: rest =>
    if ib.off = boff then some ib
    else if boff < ib.off then none
    else scanIblkref boff rest

/-- Link before the `iblkref` the search stopped at. -/
def insertIblkref (ib : Iblkref) : List Iblkref → List Iblkref
  | [] => [ib]
  | x :: rest => if ib.off < x.off then ib :: x :: rest else x :: insertIblkref ib rest

/-- Set the `dblkref` field of an `iblkref`. -/
def retargetIblkref (ptr d : RecPtr) (l : List Iblkref) : List Iblkref :=
  l.map fun ib => if ib.ptr = ptr then { ib with dblkref := d } else ib

namespace Sbi

variable (s : Sbi)

/-- `toyfs_iblkrefs_list_of`. -/
def blocksOf (n : RecPtr) : List Iblkref := (s.inodes n).iblkrefs

/-- Replace the block list of a file. -/
def setBlocks (n : RecPtr) (l : List Iblkref) : Sbi :=
  s.setInode n { s.inodes n with iblkrefs := l }

/-- Set `i_size`. -/
def setSize (n : RecPtr) (size : UInt64) : Sbi :=
  s.setInode n { s.inodes n with iSize := size }

/-- The page of a data block: `dblkref->bn`. -/
def pageOf (d : RecPtr) : ℕ := (s.dblkrefs d).bn

/-! ## References to blocks -/

/-- `_new_dblkref`. -/
def newDblkref : Option RecPtr × Sbi :=
  match s.acquirePmemb with
  | none => (none, s)
  | some (bn, s₁) =>
    match s₁.acquireDblkref with
    | none => (none, s₁.releasePmemb bn)
    | some (d, s₂) => (some d, s₂.setDblkref d ⟨1, bn⟩)

/-- `_free_dblkref`. -/
def freeDblkref (d : RecPtr) : Sbi := (s.releaseDblkref d).releasePmemb (s.pageOf d)

/-- Take one off `refcnt`. -/
def decRefcnt (d : RecPtr) : Sbi :=
  s.setDblkref d { s.dblkrefs d with refcnt := (s.dblkrefs d).refcnt - 1 }

/-- Add one to `refcnt`. -/
def incRefcnt (d : RecPtr) : Sbi :=
  s.setDblkref d { s.dblkrefs d with refcnt := (s.dblkrefs d).refcnt + 1 }

/-- Take one off `refcnt`, and free the block when none is left. -/
def putDblkref (d : RecPtr) : Sbi :=
  if (s.dblkrefs d).refcnt - 1 = 0 then (s.decRefcnt d).freeDblkref d else s.decRefcnt d

/-- `_decref_dblkref`. -/
def decrefDblkref (d : RecPtr) : Sbi := (s.assert (0 < (s.dblkrefs d).refcnt)).putDblkref d

/-- `_new_iblkref`. -/
def newIblkref (n : RecPtr) (off : ℤ) : Option Iblkref × Sbi :=
  match s.newDblkref with
  | (none, s₁) => (none, s₁)
  | (some d, s₁) =>
    match s₁.acquireIblkref with
    | none => (none, s₁.decrefDblkref d)
    | some (r, s₂) =>
      (some ⟨r, d, off⟩,
        s₂.setInode n { s₂.inodes n with iBlocks := (s₂.inodes n).iBlocks + 1 })

/-- `_free_iblkref`. -/
def freeIblkref (n : RecPtr) (ib : Iblkref) : Sbi :=
  let s₁ := (s.assert (0 < (s.inodes n).iBlocks)).decrefDblkref ib.dblkref
  let s₂ := s₁.releaseIblkref ib.ptr
  s₂.setInode n { s₂.inodes n with iBlocks := (s₂.inodes n).iBlocks - 1 }

/-- `_drop_iblkref`. -/
def dropIblkref (n : RecPtr) (ib : Iblkref) : Sbi :=
  (s.setBlocks n ((s.blocksOf n).filter fun x => x.ptr ≠ ib.ptr)).freeIblkref n ib

/-! ## Reading -/

/-- The page of `_fetch_pmemb_by_offset`. -/
def fetchPmemb (n : RecPtr) (off : ℤ) : Option Bytes :=
  (fetchIblkref (s.blocksOf n) off).map fun ib => s.mem (s.pageOf ib.dblkref)

/-- The loop of `_read`: the bytes copied to the buffer. -/
def readLoop (n : RecPtr) (off last : ℤ) : List UInt8 :=
  if off < last then
    let nxt := nextPage off
    let len := nbytesInRange off nxt last
    let piece :=
      match s.fetchPmemb n off with
      | some pg => pg.slice (offInPage off).toNat len.toNat
      | none => List.replicate len.toNat 0
    piece ++ readLoop n nxt last
  else []
termination_by (last - off).toNat
decreasing_by
  have := lt_nextPage off
  omega

/-- `_read`. -/
def read (apiMapMaxSize : ℕ) (n : RecPtr) (off : ℤ) (len : UInt64) :
    Except Errno (List UInt8) :=
  match checkRw apiMapMaxSize off len with
  | some err => .error err
  | none => .ok (s.readLoop n off (tinOffset off len (s.inodes n).iSize))

/-! ## Writing -/

/-- `_clone_data`. -/
def cloneData (dst src : RecPtr) : Sbi := s.storeAt (s.pageOf dst) 0 4096 (s.mem (s.pageOf src))

/-- `_require_iblkref`. -/
def requireIblkref (n : RecPtr) (off : ℤ) : Option Iblkref × Sbi :=
  match scanIblkref (offToBoff off) (s.blocksOf n) with
  | none =>
    match s.newIblkref n (offToBoff off) with
    | (none, s₁) => (none, s₁)
    | (some ib, s₁) => (some ib, s₁.setBlocks n (insertIblkref ib (s₁.blocksOf n)))
  | some ib =>
    if 1 < (s.dblkrefs ib.dblkref).refcnt then
      match s.newDblkref with
      | (none, s₁) => (none, s₁)
      | (some d, s₁) =>
        let s₂ := s₁.cloneData d ib.dblkref
        (some { ib with dblkref := d }, s₂.setBlocks n (retargetIblkref ib.ptr d (s₂.blocksOf n)))
    else (some ib, s)

/-- The loop of `_write`; `buf` is what is left of the buffer. -/
def writeLoop (s : Sbi) (n : RecPtr) (buf : Bytes) (off last : ℤ) (cnt : UInt64) :
    Except Errno UInt64 × Sbi :=
  if off < last then
    match s.requireIblkref n off with
    | (none, s₁) => (.error .enospc, s₁)
    | (some ib, s₁) =>
      let len := nbytesInRange off (nextPage off) last
      let s₂ := s₁.storeAt (s₁.pageOf ib.dblkref) (offInPage off) len buf
      writeLoop s₂ n (fun i => buf (len.toNat + i)) (nextPage off) last (cnt + len)
  else (.ok cnt, s)
termination_by (last - off).toNat
decreasing_by
  have := lt_nextPage off
  omega

/-- `_write`. -/
def write (apiMapMaxSize : ℕ) (n : RecPtr) (buf : Bytes) (off : ℤ) (len : UInt64) :
    Except Errno UInt64 × Sbi :=
  match checkRw apiMapMaxSize off len with
  | some err => (.error err, s)
  | none =>
    match s.writeLoop n buf off (off + toLoff len) 0 with
    | (.error err, s₁) => (.error err, s₁)
    | (.ok cnt, s₁) => (.ok cnt, s₁.setSize n (toSize (maxOffset off cnt (s₁.inodes n).iSize)))

/-! ## Fallocate -/

/-- `_zero_range_at`. -/
def zeroRangeAt (ib : Iblkref) (off : ℤ) (len : UInt64) : Sbi :=
  let poff := offInPage off
  s.storeAt (s.pageOf ib.dblkref) poff
    (nbytesInRange poff (nextPage poff) (poff + toLoff len)) fun _ => 0

/-- `_punch_hole_at`. -/
def punchHoleAt (n : RecPtr) (ib : Iblkref) (off : ℤ) (len : UInt64) : Sbi :=
  if len.toNat < pageSize then s.zeroRangeAt ib off len else s.dropIblkref n ib

/-- The loop of `_punch_hole`. -/
def punchHoleLoop (s : Sbi) (n : RecPtr) (off last : ℤ) : Sbi :=
  if off < last then
    let nxt := nextPage off
    let s₁ :=
      match fetchIblkref (s.blocksOf n) off with
      | some ib => s.punchHoleAt n ib off (nbytesInRange off nxt last)
      | none => s
    punchHoleLoop s₁ n nxt last
  else s
termination_by (last - off).toNat
decreasing_by
  have := lt_nextPage off
  omega

/-- `_punch_hole`. -/
def punchHole (n : RecPtr) (off : ℤ) (nbytes : UInt64) : Sbi :=
  s.punchHoleLoop n off (off + toLoff nbytes)

/-- The loop of `_zero_range`, down the list from the first block at or after the
range; `off` is the start of the range at first, and then the offset of each block. -/
def zeroRangeLoop (s : Sbi) (off last : ℤ) : List Iblkref → Sbi
  | [] => s
  | ib :: rest =>
    if ib.off < last then
      let s₁ := s.zeroRangeAt ib off (nbytesInRange off (nextPage ib.off) last)
      let off' :=
        match rest with
        | [] => off
        | ib' :: _ => ib'.off
      zeroRangeLoop s₁ off' last rest
    else s

/-- `_zero_range`. -/
def zeroRange (n : RecPtr) (off : ℤ) (nbytes : UInt64) : Sbi :=
  s.zeroRangeLoop off (off + toLoff nbytes) (fetchIblkrefFrom (s.blocksOf n) off)

/-- `_collapse_range`. -/
def collapseRange (n : RecPtr) (off : ℤ) (nbytes : UInt64) : Sbi :=
  let s₁ := s.punchHole n off nbytes
  let isize := (s₁.inodes n).iSize
  let s₂ := if nbytes ≤ isize then s₁.setSize n (isize - nbytes) else s₁
  let l := s₂.blocksOf n
  s₂.setBlocks n (l.takeWhile (fun ib => ib.off < offToBoff off) ++
    (fetchIblkrefFrom l off).map fun ib => { ib with off := ib.off - toLoff nbytes })

/-- The loop of `_falloc_range`. -/
def fallocRangeLoop (s : Sbi) (n : RecPtr) (off last : ℤ) (cnt : UInt64) : Except Errno UInt64 × Sbi :=
  if off < last then
    match s.requireIblkref n off with
    | (none, s₁) => (.error .enospc, s₁)
    | (some _, s₁) =>
      fallocRangeLoop s₁ n (nextPage off) last (cnt + nbytesInRange off (nextPage off) last)
  else (.ok cnt, s)
termination_by (last - off).toNat
decreasing_by
  have := lt_nextPage off
  omega

/-- `_falloc_range`. -/
def fallocRange (n : RecPtr) (off : ℤ) (nbytes : UInt64) : Option Errno × Sbi :=
  match s.fallocRangeLoop n off (off + toLoff nbytes) 0 with
  | (.error err, s₁) => (some err, s₁)
  | (.ok cnt, s₁) => (none, s₁.setSize n (toSize (maxOffset off cnt (s₁.inodes n).iSize)))

/-- `_fallocate`. -/
def fallocate (n : RecPtr) (mode : UInt32) (off : ℤ) (len : UInt64) : Option Errno × Sbi :=
  match checkIo off len with
  | some err => (some err, s)
  | none =>
    match checkFalloc mode off len with
    | some err => (some err, s)
    | none =>
      if mode &&& fallocPunchHole ≠ 0 then (none, s.punchHole n off len)
      else if mode &&& fallocZeroRange ≠ 0 then (none, s.zeroRange n off len)
      else if mode &&& fallocCollapseRange ≠ 0 then (none, s.collapseRange n off len)
      else s.fallocRange n off len

/-! ## Truncate -/

/-- `_drop_range`. -/
def dropRange (n : RecPtr) (pos : ℤ) : Sbi :=
  let pos' := if pos % pageSize ≠ 0 then nextPage pos else pos
  (s.blocksOf n).foldl (fun s ib => if pos' ≤ ib.off then s.dropIblkref n ib else s) s

/-- `_unique_pmemb` of a block of file `n`: the page to store into. -/
def uniquePmemb (n : RecPtr) (ib : Iblkref) : Option ℕ × Sbi :=
  if 1 < (s.dblkrefs ib.dblkref).refcnt then
    match s.newDblkref with
    | (none, s₁) => (none, s₁)
    | (some d, s₁) =>
      let s₂ := (s₁.cloneData d ib.dblkref).decRefcnt ib.dblkref
      (some (s₂.pageOf d), s₂.setBlocks n (retargetIblkref ib.ptr d (s₂.blocksOf n)))
  else (some (s.pageOf ib.dblkref), s)

/-- `_zero_after`. -/
def zeroAfter (n : RecPtr) (pos : ℤ) : Option Errno × Sbi :=
  if pos % pageSize = 0 then (none, s)
  else
    match fetchIblkref (s.blocksOf n) pos with
    | none => (none, s)
    | some ib =>
      match s.uniquePmemb n ib with
      | (none, s₁) => (some .enospc, s₁)
      | (some bn, s₁) =>
        (none, s₁.storeAt bn (offInPage pos) (toSize (pageSize - offInPage pos)) fun _ => 0)

/-- `toyfs_truncate`. -/
def truncate (n : RecPtr) (size : UInt64) : Option Errno × Sbi :=
  if (s.inodes n).iMode = .dir then (some .eisdir, s)
  else if (s.inodes n).iMode ≠ .reg then (some .einval, s)
  else if size < (s.inodes n).iSize then
    match (s.dropRange n (toLoff size)).zeroAfter n (toLoff size) with
    | (err, s₁) => (err, s₁.setSize n size)
  else (none, s.setSize n size)

/-! ## Clone -/

/-- The loop of `_clone_entire_file_range` over the blocks of the source; the flag says
that it came to their end. -/
def cloneEntireLoop (s : Sbi) (dst : RecPtr) : List Iblkref → Bool × Sbi
  | [] => (true, s)
  | ib :: rest =>
    match s.acquireIblkref with
    | none => (false, s)
    | some (r, s₁) =>
      let s₂ := s₁.incRefcnt ib.dblkref
      let i := s₂.inodes dst
      cloneEntireLoop (s₂.setInode dst { i with
        iblkrefs := i.iblkrefs ++ [⟨r, ib.dblkref, ib.off⟩], iBlocks := i.iBlocks + 1 }) dst rest

/-- `_clone_entire_file_range`. -/
def cloneEntireFileRange (src dst : RecPtr) : Option Errno × Sbi :=
  let s₁ := s.dropRange dst 0
  match s₁.cloneEntireLoop dst (s₁.blocksOf src) with
  | (false, s₂) => (some .enospc, s₂)
  | (true, s₂) => (none, s₂.setSize dst (s₂.inodes src).iSize)

/-- `_share_page`: block `dstIb` of file `dst` takes the data of `srcIb`. -/
def sharePage (dst : RecPtr) (srcIb dstIb : Iblkref) : Sbi :=
  let s₁ := s.putDblkref dstIb.dblkref
  (s₁.setBlocks dst (retargetIblkref dstIb.ptr srcIb.dblkref (s₁.blocksOf dst))).incRefcnt
    srcIb.dblkref

/-- `_is_entire_page`. -/
def isEntirePage (srcOff dstOff : ℤ) (len : UInt64) : Bool :=
  len == 4096 && offInPage srcOff == 0 && offInPage dstOff == 0

/-- The end of `_clone_range`: the file grows to the end of the page. -/
def growTo (n : RecPtr) (size : UInt64) : Sbi :=
  if (s.inodes n).iSize < size then s.setSize n size else s

/-- `_clone_range`, one page. -/
def cloneRange (src dst : RecPtr) (srcOff dstOff : ℤ) (len : UInt64) : Option Errno × Sbi :=
  let s₀ := s.assert (isEntirePage srcOff dstOff len)
  match fetchIblkref (s₀.blocksOf src) srcOff with
  | some srcIb =>
    match s₀.requireIblkref dst dstOff with
    | (none, s₁) => (some .enospc, s₁)
    | (some dstIb, s₁) => (none, (s₁.sharePage dst srcIb dstIb).growTo dst (toSize dstOff + len))
  | none =>
    match fetchIblkref (s₀.blocksOf dst) dstOff with
    | none => (none, s₀)
    | some dstIb =>
      match s₀.uniquePmemb dst dstIb with
      | (none, s₁) => (some .enospc, s₁)
      | (some bn, s₁) =>
        (none, (s₁.storeAt bn (offInPage dstOff) len fun _ => 0).growTo dst (toSize dstOff + len))

/-- The shorter of the two pieces of a step of `_clone_sub_file_range`. -/
def cloneStep (srcOff srcEnd dstOff dstEnd : ℤ) : UInt64 :=
  let srcLen := nbytesInRange srcOff (nextPage srcOff) srcEnd
  let dstLen := nbytesInRange dstOff (nextPage dstOff) dstEnd
  if srcLen < dstLen then srcLen else dstLen

theorem cloneStep_pos {srcOff srcEnd dstOff dstEnd : ℤ} (hs : srcOff < srcEnd)
    (hd : dstOff < dstEnd) : 0 < toLoff (cloneStep srcOff srcEnd dstOff dstEnd) := by
  have h₁ := nbytesInRange_pos (lt_nextPage srcOff) hs (nextPage_le srcOff)
  have h₂ := nbytesInRange_pos (lt_nextPage dstOff) hd (nextPage_le dstOff)
  unfold cloneStep
  simp only
  split
  · exact h₁
  · exact h₂

/-- The loop of `_clone_sub_file_range`. -/
def cloneSubLoop (s : Sbi) (src dst : RecPtr) (srcOff srcEnd dstOff dstEnd : ℤ) :
    Option Errno × Sbi :=
  if srcOff < srcEnd ∧ dstOff < dstEnd then
    let len := cloneStep srcOff srcEnd dstOff dstEnd
    match s.cloneRange src dst srcOff dstOff len with
    | (some err, s₁) => (some err, s₁)
    | (none, s₁) => cloneSubLoop s₁ src dst (srcOff + toLoff len) srcEnd (dstOff + toLoff len) dstEnd
  else (none, s)
termination_by (srcEnd - srcOff).toNat
decreasing_by
  rename_i h
  have := cloneStep_pos h.1 h.2
  omega

/-- `_clone_sub_file_range`. -/
def cloneSubFileRange (src dst : RecPtr) (srcPos dstPos : ℤ) (nbytes : UInt64) :
    Option Errno × Sbi :=
  s.cloneSubLoop src dst srcPos (srcPos + toLoff nbytes) dstPos (dstPos + toLoff nbytes)

/-- `_clone`. -/
def clone (src dst : RecPtr) (srcPos dstPos : ℤ) (len : UInt64) : Option Errno × Sbi :=
  if (s.inodes src).iMode ≠ .reg ∨ (s.inodes dst).iMode ≠ .reg then (some .enotsup, s)
  else if src = dst then (none, s)
  else if srcPos = 0 ∧ len = 0 ∧ dstPos = 0 then s.cloneEntireFileRange src dst
  else if ispagealigned srcPos len = false ∨ ispagealigned dstPos len = false then
    (some .enotsup, s)
  else s.cloneSubFileRange src dst srcPos dstPos len

/-! ## Blocks for mmap -/

/-- `toyfs_require_pmem_bn`. -/
def requirePmemBn (n : RecPtr) (off : ℤ) : ℕ × Sbi :=
  match s.requireIblkref n off with
  | (none, s₁) => (0, s₁)
  | (some ib, s₁) => (s₁.pageOf ib.dblkref, s₁)

/-- `_get_block_wr`: the block number encoded in the reply. -/
def getBlockWr (n : RecPtr) (off : ℤ) : Except Errno ℕ × Sbi :=
  match fetchIblkref (s.blocksOf n) off with
  | some ib => (.ok (s.pageOf ib.dblkref), s)
  | none =>
    match s.requirePmemBn n off with
    | (0, s₁) => (.error .enospc, s₁)
    | (bn, s₁) => (.ok bn, s₁)

/-- `_get_block_wr` followed by a store of the application to the block it returned. -/
def mmapStore (n : RecPtr) (off : ℤ) (poff len : ℕ) (data : Bytes) : Sbi :=
  match s.getBlockWr n off with
  | (.error _, s₁) => s₁
  | (.ok bn, s₁) => s₁.setPage bn ((s₁.mem bn).store poff len data)

end Sbi

end Zus.Toyfs
