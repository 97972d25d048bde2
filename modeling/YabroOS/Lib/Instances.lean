import Mathlib.Algebra.GroupWithZero.Nat

namespace YabroOS.Lib

-- The sizes of the tables and the texts that definitions compare, each with one fact that they all
-- mention.

instance neZero32 : NeZero 32 := ⟨by decide⟩

instance neZero64 : NeZero 64 := ⟨by decide⟩

instance lawfulWord : LawfulBEq (List Char) := inferInstance

instance lawfulHead : LawfulBEq (Option Char) := inferInstance

end YabroOS.Lib
