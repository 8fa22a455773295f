import Zus.Toyfs.Content

/-!
# Seeking data and holes

`toyfs_seek` walks the file page by page from the position it is given, and answers with the
first position whose page has a block, or has none. It ends at `i_size`: when no page up to
there is a hole the answer is that there is none, and not the hole at the end of the file.
-/

namespace Zus.Toyfs

open Zus.Lib

variable {s : Sbi} {n : RecPtr} {off last p q : ℤ}

namespace Sbi

variable (s : Sbi)

end Sbi

end Zus.Toyfs
