import Mathlib.Logic.Function.Basic
import Zus.Lib.Bytes
import Zus.Lib.Loff

/-!
# The state of toyfs

A mounted toyfs is a pool of persistent-memory pages. A page is free, holds file data,
directory entries, extended attributes or the text of a long symlink, or has been cut
into records: inodes, data-block references (`dblkref`) and inode-block references
(`iblkref`). A record is named by its page and its index in it, a page by its block
number.

File data lives in `mem`. The records have maps of their own, except that an `iblkref`
is kept in the list of the inode it is on: it is on exactly one list at a time, the one
of a file or the free list of the pool. That a page is never used for two of these
purposes at once is proved, not assumed.

`panicked` is set when an assertion of the code fails (the process aborts) or an access
leaves its page.
-/

namespace Zus.Toyfs

open Zus.Lib

/-- The error codes, as the positive constants the code negates. -/
inductive Errno
  | einval
  | efbig
  | enotsup
  | enospc
  | enoent
  | enomem
  | enodata
  | eexist
  | erange
  | eisdir
  | enotempty
  deriving DecidableEq

/-- The file type in `i_mode`; `unset` is every value the code does not support. -/
inductive FileType
  | unset
  | fifo
  | chr
  | dir
  | blk
  | reg
  | lnk
  | sock
  deriving DecidableEq

/-- `IFTODT`. -/
def FileType.iftodt : FileType → UInt8
  | .unset => 0
  | .fifo => 1
  | .chr => 2
  | .dir => 4
  | .blk => 6
  | .reg => 8
  | .lnk => 10
  | .sock => 12

/-! ## Records -/

/-- A record: the page it was cut from and its index in the page. -/
structure RecPtr where
  bn : ℕ
  idx : ℕ
  deriving DecidableEq

/-- The kinds of records a page is cut into. -/
inductive RecKind
  | inode
  | dblkref
  | iblkref
  deriving DecidableEq

/-- `TOYFS_INODES_PER_PAGE`, `TOYFS_DBLKREFS_PER_PAGE`, `TOYFS_IBLKREFS_PER_PAGE`. -/
def RecKind.perPage : RecKind → ℕ
  | .inode => 32
  | .dblkref => 128
  | .iblkref => 128

/-- `struct toyfs_dblkref`. -/
structure Dblkref where
  refcnt : ℕ := 0
  bn : ℕ := 0
  deriving DecidableEq

/-- `struct toyfs_iblkref`, with the record it is stored in. -/
structure Iblkref where
  ptr : RecPtr
  dblkref : RecPtr
  off : ℤ
  deriving DecidableEq

/-- `struct toyfs_inode`. `list_head` heads the block list of a file or the list of
entry pages of a directory. The default value is a zeroed record. -/
structure Inode where
  iMode : FileType := .unset
  iNlink : UInt32 := 0
  iSize : UInt64 := 0
  /-- the list of a regular file -/
  iblkrefs : List Iblkref := []
  /-- the list of a directory: the block numbers of its `toyfs_dentries` pages -/
  childs : List ℕ := []
  iBlocks : ℕ := 0
  iMtime : UInt64 := 0
  iCtime : UInt64 := 0
  iIno : UInt64 := 0
  iXattr : ℕ := 0
  iSymlink : List UInt8 := []
  iSymDpp : ℕ := 0
  iDirParent : UInt64 := 0

/-- `struct toyfs_pool`. -/
structure Pool where
  /-- the free pages, next one to pop first -/
  pages : List ℕ
  /-- `free_inodes`, `free_dblkrefs`, `free_iblkrefs` -/
  free : RecKind → List RecPtr

/-! ## The inode table -/

/-- `struct toyfs_inode_ref`; an in-memory info is named by its address. -/
structure InodeRef where
  tii : Option ℕ
  ti : Option RecPtr
  ino : UInt64
  deriving DecidableEq

/-- `struct toyfs_inode_info`, while it is allocated. -/
structure InodeInfo where
  /-- `ti` -/
  ti : Option RecPtr := none
  /-- `zii.zi` -/
  zi : Option RecPtr := none
  ino : UInt64 := 0
  ref : ℤ := 0
  mapped : Bool := false
  deriving DecidableEq

/-! ## The file system -/

/-- `struct toyfs_sb_info`, with the memory and the records behind it. -/
structure Sbi where
  /-- the bytes of each page -/
  mem : ℕ → Bytes
  dblkrefs : RecPtr → Dblkref
  inodes : RecPtr → Inode
  pool : Pool
  fBlocks : ℕ
  fBfree : ℕ
  fBavail : ℕ
  fFiles : ℕ
  fFfree : ℕ
  fFavail : ℕ
  /-- the chains of `s_itable.imap` -/
  imap : ℕ → List InodeRef
  icount : ℕ
  /-- the allocated in-memory infos -/
  tiis : ℕ → Option InodeInfo
  sTopIno : UInt64
  panicked : Bool

namespace Sbi

variable (s : Sbi)

/-- `toyfs_assert`. -/
def assert (cond : Bool) : Sbi := { s with panicked := s.panicked || !cond }

/-- Replace an inode record. -/
def setInode (n : RecPtr) (i : Inode) : Sbi := { s with inodes := Function.update s.inodes n i }

/-- Replace a data-block reference. -/
def setDblkref (d : RecPtr) (r : Dblkref) : Sbi :=
  { s with dblkrefs := Function.update s.dblkrefs d r }

/-- Replace a page. -/
def setPage (bn : ℕ) (pg : Bytes) : Sbi := { s with mem := Function.update s.mem bn pg }

/-- Store `len` bytes of `src` at `off` of a page, as `_copy_in` and `_assign_zeros` do
behind their assertions. -/
def storeAt (bn : ℕ) (off : ℤ) (len : UInt64) (src : Bytes) : Sbi :=
  (s.assert (0 ≤ off && off + len.toNat ≤ pageSize)).setPage bn
    ((s.mem bn).store off.toNat len.toNat src)

end Sbi

end Zus.Toyfs
