import TimeZones.Search
import TimeZones.Table.Basic

/-! What a transition table says about an instant. -/
namespace TimeZones.Table

/-- How many transitions have been reached at `seconds`. -/
def reached (t : Table) (seconds : Int) : Nat :=
  Search.partitionPoint (fun tr => tr.instant ≤ seconds) t.transitions

/-- The type in effect: that of the last transition reached, or the first standard type. -/
def offsetAt (t : Table) (seconds : Int) : OffsetType :=
  match t.reached seconds with
  | 0 => t.firstStandardType
  | i + 1 => t.typeOf i

/-- The whole second that holds a millisecond, also before 1970. -/
def secondOf (millis : Int) : Int := millis / 1000

def offsetAtMillis (t : Table) (millis : Int) : OffsetType := t.offsetAt (secondOf millis)

def inDaylightTime (t : Table) (millis : Int) : Bool := (t.offsetAtMillis millis).isDst

/-- The offset of the latest standard time before transition `i`. -/
def standardOffsetBefore (t : Table) : Nat → Int32
  | 0 => t.firstStandardType.utcOffset
  | i + 1 => if (t.typeOf i).isDst then t.standardOffsetBefore i else (t.typeOf i).utcOffset

/-- The offset at an instant and its parts. The raw part in daylight saving time is the offset of
the standard time before it. -/
def offsetsAtMillis (t : Table) (millis : Int) : Offsets :=
  match t.reached (secondOf millis) with
  | 0 => .standard t.firstStandardType.utcOffset
  | i + 1 =>
    if (t.typeOf i).isDst then
      let total := (t.typeOf i).utcOffset
      let raw := t.standardOffsetBefore i
      ⟨total, raw, satSub total raw⟩
    else .standard (t.typeOf i).utcOffset

/-- The last of the first `n` transitions that starts daylight saving time. -/
def lastDstBefore (t : Table) : Nat → Option Nat
  | 0 => none
  | i + 1 => if (t.typeOf i).isDst then some i else t.lastDstBefore i

end TimeZones.Table
