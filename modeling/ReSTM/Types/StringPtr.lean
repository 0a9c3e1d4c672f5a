import Mathlib.Init

/-!
# Pointers

`StringPtr` (`storage/types/StringPtr.scala`): pointers are equal when their ids
are.
-/

namespace ReSTM

/-- `class StringPtr(val id: String)`. -/
structure StringPtr where
  id : String
deriving DecidableEq

end ReSTM
