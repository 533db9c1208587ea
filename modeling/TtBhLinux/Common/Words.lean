import Mathlib.Data.BitVec

/-!
# Machine words
-/

namespace TtBhLinux.Common

abbrev U8 := BitVec 8
abbrev U16 := BitVec 16
abbrev U32 := BitVec 32
abbrev U64 := BitVec 64

end TtBhLinux.Common
