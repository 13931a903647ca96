import TimeZones.Offset

/-! The transition table of one time zone. -/
namespace TimeZones

/-- From `instant` on, in seconds since 1970, the type with this index is in effect. -/
structure Transition where
  instant : Int
  typeIndex : Nat
  deriving DecidableEq

/-- A zone's transitions in order of time, its types, and the index of the first standard type. -/
structure Table where
  id : String
  transitions : Array Transition
  types : Array OffsetType
  firstStandard : Nat
  deriving DecidableEq

namespace Table

def typeAtIndex (t : Table) (i : Nat) : OffsetType := t.types.getD i default

def firstStandardType (t : Table) : OffsetType := t.typeAtIndex t.firstStandard

/-- The type in effect from transition `i` on. -/
def typeOf (t : Table) (i : Nat) : OffsetType :=
  match t.transitions[i]? with
  | some tr => t.typeAtIndex tr.typeIndex
  | none => t.firstStandardType

/-- Same transitions and types, whatever the identifiers. -/
def hasSameRules (t u : Table) : Bool := t.transitions = u.transitions && t.types = u.types

/-- Greenwich time at every instant. -/
def gmt : Table where
  id := "GMT"
  transitions := #[⟨Int32.minValue.toInt, 0⟩]
  types := #[⟨0, false⟩]
  firstStandard := 0

end Table

end TimeZones
