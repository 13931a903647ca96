import TimeZones.Civil
import TimeZones.Shared
import TimeZones.Zone.Snapshot

/-! Zones as callers hold them: a table with a summary and overrides of their own. -/
namespace TimeZones

/-- `rawShift` is what overrides have added to the raw offset of the table in all. -/
structure Zone where
  table : Shared Table
  snapshot : Snapshot
  rawShift : Int32

namespace Zone

def ofTable (t : Shared Table) (now : Int) : Zone := ⟨t, .ofTable t.value now, 0⟩

def id (z : Zone) : String := z.snapshot.id

def rawOffset (z : Zone) : Int32 := z.snapshot.rawOffset

def usesDst (z : Zone) : Bool := z.snapshot.usesDst

def dstSavings (z : Zone) : Int32 := z.snapshot.dstSavings

def offsetAtMillis (z : Zone) (millis : Int) : Int32 :=
  satAdd (z.table.value.offsetAtMillis millis).utcOffset z.rawShift

def offsetsAtMillis (z : Zone) (millis : Int) : Offsets :=
  (z.table.value.offsetsAtMillis millis).shift z.rawShift

def inDaylightTime (z : Zone) (millis : Int) : Bool := z.table.value.inDaylightTime millis

/-- Overrides the raw offset. All offsets move by the difference to the one before. -/
def withRawOffset (z : Zone) (rawOffset : Int32) : Zone :=
  { z with
    snapshot := { z.snapshot with rawOffset }
    rawShift := satAdd z.rawShift (satSub rawOffset z.rawOffset) }

def withId (z : Zone) (id : String) : Zone := { z with snapshot := { z.snapshot with id } }

/-- Same raw offset, use of daylight saving time and table rules, whatever the identifiers. -/
def hasSameRules (a b : Zone) : Bool :=
  a.rawOffset = b.rawOffset && a.usesDst = b.usesDst && a.table.value.hasSameRules b.table.value

/-- The offset at a civil time, which is taken to be in standard time. -/
def offsetAtCivil (z : Zone) (t : CivilTime) : Except CivilTime.Fault Int32 :=
  match t.fault? with
  | some f => .error f
  | none => .ok (z.offsetAtMillis (t.millisAt z.rawOffset))

end Zone

end TimeZones
