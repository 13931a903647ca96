/-! Offsets from UTC, in seconds. They have 32 bits and stop at the ends of that range. -/
namespace TimeZones

/-- Addition that stays at the nearest end of the range instead of leaving it. -/
def satAdd (a b : Int32) : Int32 := .ofIntClamp (a.toInt + b.toInt)

/-- Subtraction that stays at the nearest end of the range instead of leaving it. -/
def satSub (a b : Int32) : Int32 := .ofIntClamp (a.toInt - b.toInt)

/-- A local time type: an offset and whether it counts as daylight saving time. -/
structure OffsetType where
  utcOffset : Int32
  isDst : Bool
  deriving DecidableEq

instance : Inhabited OffsetType := ⟨⟨0, false⟩⟩

/-- An offset split into its standard part and what daylight saving time adds. -/
structure Offsets where
  total : Int32
  raw : Int32
  dst : Int32
  deriving DecidableEq

namespace Offsets

/-- The split of an offset in standard time. -/
def standard (offset : Int32) : Offsets := ⟨offset, offset, 0⟩

/-- Moves the total and the raw part alike. -/
def shift (o : Offsets) (seconds : Int32) : Offsets :=
  ⟨satAdd o.total seconds, satAdd o.raw seconds, o.dst⟩

end Offsets

end TimeZones
