/-! Values with an identity. -/
namespace TimeZones

/-- A value that was made once and is held in several places. Two holders have the same one exactly
when the keys agree; equal values made twice have different keys. -/
structure Shared (α : Type) where
  key : Nat
  value : α

namespace Shared
variable {α β : Type}

def isSame (a : Shared α) (b : Shared β) : Bool := a.key = b.key

end Shared

end TimeZones
