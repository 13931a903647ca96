import TimeZones.Table.Query

/-! A summary of a table at one instant. -/
namespace TimeZones

/-- The raw offset, whether daylight saving time is used from then on, and what it adds. -/
structure Snapshot where
  id : String
  rawOffset : Int32
  usesDst : Bool
  dstSavings : Int32
  deriving DecidableEq

namespace Snapshot

/-- What the last change to daylight saving time adds, unless it came before `now`. -/
def savings? (t : Table) (now : Int) : Option Int32 := do
  let i ← t.lastDstBefore t.transitions.size
  let tr ← t.transitions[i]?
  if now ≤ tr.instant * 1000 then
    some (satSub (t.typeOf i).utcOffset (t.standardOffsetBefore i))
  else none

def ofTable (t : Table) (now : Int) : Snapshot where
  id := t.id
  rawOffset := (t.offsetsAtMillis now).raw
  usesDst := (savings? t now).isSome
  dstSavings := (savings? t now).getD 0

end Snapshot

end TimeZones
