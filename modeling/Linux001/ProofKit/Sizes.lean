import Mathlib

/-! The sizes of fixed tables, as instances with names: numerals in an index type then mean the same
term wherever they stand. -/

namespace Linux001.ProofKit

instance neZero3 : NeZero 3 := ⟨by decide⟩
instance neZero8 : NeZero 8 := ⟨by decide⟩
instance neZero32 : NeZero 32 := ⟨by decide⟩
instance neZero64 : NeZero 64 := ⟨by decide⟩
instance neZero512 : NeZero 512 := ⟨by decide⟩

end Linux001.ProofKit
