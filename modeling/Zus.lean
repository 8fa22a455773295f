import Zus.PaRace
import Zus.SlabSafety
import Zus.Toyfs.CloneOps
import Zus.Toyfs.System
import Zus.Toyfs.XattrMap
import Zus.Wtz
import Zus.Toyfs.InodeStorage
import Zus.Iom
import Zus.Toyfs.Mkfs
import Zus.MdT2
import Zus.Lib.Tiling
import Zus.Toyfs.Dentries
import Zus.Toyfs.DirMap
import Zus.Toyfs.Readdir
import Zus.Toyfs.PageFlow
import Zus.Toyfs.SystemStorage
import Zus.Toyfs.BlockList
import Zus.Toyfs.Room
import Zus.Toyfs.Frame
import Zus.Toyfs.Tail
import Zus.Toyfs.Gap
import Zus.Toyfs.Content
import Zus.Toyfs.Ranges
import Zus.Toyfs.Falloc
import Zus.Toyfs.Fiemap
import Zus.Lib.CStr
import Zus.Lib.Paging
import Zus.Printz
import Zus.Toyfs.CloneRoom
import Zus.Toyfs.WriteContent
import Zus.Toyfs.Atomic
import Zus.Toyfs.Refcount
import Zus.Lib.Chains
import Zus.Toyfs.InodeTable
import Zus.Toyfs.DirSystem
import Zus.Toyfs.Rename
import Zus.Lib.Links
import Zus.Malloc
import Zus.MdMap
import Zus.PaRuns
import Zus.MallocSafety
import Zus.Toyfs.XattrCalls
import Zus.Toyfs.XattrMemory
import Zus.Toyfs.NewInode
import Zus.Toyfs.Symlink
import Zus.Toyfs.FailedCreate
import Zus.Toyfs.FullDevice
import Zus.Toyfs.Links
import Zus.Toyfs.LinkRuns
import Zus.Toyfs.Isolation
import Zus.Lib.Lines
import Zus.Movnt
import Zus.Timespec
import Zus.CopyFormat
import Zus.Fba
import Zus.Lib.Strtoul
import Zus.Lib.Words
import Zus.Tokenize
import Zus.DdbgWrite
import Zus.Memmove
import Zus.MdSum
import Zus.SlabLinks
import Zus.SlabFini
import Zus.Toyfs.VolumeRuns
import Zus.MountLedger
import Zus.ZtPool
import Zus.Cpus
