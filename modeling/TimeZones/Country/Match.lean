import TimeZones.Catalog.Lookup

/-! Choosing among a country's zones by the offset at an instant. -/
namespace TimeZones

/-- What is known of the offset at an instant. With `isDst` true, `dstOffset` says how much daylight
saving time adds. -/
structure OffsetQuery where
  offset : Int32
  isDst : Option Bool
  dstOffset : Option Int32

def OffsetQuery.accepts (q : OffsetQuery) (o : Offsets) : Bool :=
  o.total = q.offset &&
    match q.isDst with
    | none => true
    | some true => o.dst ≠ 0 && q.dstOffset.all (o.dst = ·)
    | some false => o.dst = 0

/-- The zone chosen for an offset, and whether no other zone fits. -/
structure OffsetResult where
  zoneId : String
  oneMatch : Bool
  deriving DecidableEq

/-- What a look-up by offset has found so far: the first zone that fits, whether the bias fits too,
and how many mappings do. -/
structure OffsetMatches where
  first : Option String
  biasFits : Bool
  count : Nat

namespace OffsetMatches

def empty : OffsetMatches := ⟨none, false, 0⟩

/-- After one more mapping that fits. -/
def add (bias : Option String) (found : OffsetMatches) (id : String) : OffsetMatches where
  first := found.first.or (some id)
  biasFits := found.biasFits || bias = some id
  count := found.count + 1

/-- The bias if it fits, or else the first zone that does. -/
def result (bias : Option String) (found : OffsetMatches) : Option OffsetResult :=
  let chosen := match bias, found.biasFits with
    | some b, true => some b
    | _, _ => found.first
  chosen.map fun id => ⟨id, found.count = 1⟩

end OffsetMatches

namespace CountryZones

/-- The first of several zones whose type in effect is the one wanted, after `first` has been found
before them. The zone `bias` is preferred. -/
def resolveAmong (catalog : Shared Catalog) (wanted : OffsetType) (millis : Int)
    (bias : Option String) : Option String → List String → Session (Option String)
  | first, [] => return first
  | first, id :: ids => do
    match ← Catalog.lookup catalog id with
    | none => resolveAmong catalog wanted millis bias first ids
    | some t =>
      if t.value.offsetAtMillis millis ≠ wanted then
        resolveAmong catalog wanted millis bias first ids
      else if bias = some id then return some id
      else resolveAmong catalog wanted millis bias (first.or (some id)) ids

/-- The zone in which the type is in effect. If there are several, `bias` is preferred, then the
order of the country. -/
def resolve (c : CountryZones) (catalog : Shared Catalog) (wanted : OffsetType) (millis : Int)
    (bias : Option String) : Session (Option String) :=
  resolveAmong catalog wanted millis bias none c.zoneIds

/-- What fits among mappings, after `found` has been found before them. -/
def matchesAmong (catalog : Shared Catalog) (q : OffsetQuery) (millis : Int)
    (bias : Option String) : OffsetMatches → List Mapping → Session OffsetMatches
  | found, [] => return found
  | found, m :: ms => do
    match ← Catalog.lookup catalog m.id with
    | none => matchesAmong catalog q millis bias found ms
    | some t =>
      if q.accepts (t.value.offsetsAtMillis millis) then
        matchesAmong catalog q millis bias (found.add bias m.id) ms
      else matchesAmong catalog q millis bias found ms

/-- The zone in effect at an instant that has offsets as asked. If there are several, `bias` is
preferred, then the order of the country. -/
def lookupByOffset (c : CountryZones) (catalog : Shared Catalog) (q : OffsetQuery) (millis : Int)
    (bias : Option String) : Session (Option OffsetResult) :=
  return (← matchesAmong catalog q millis bias .empty (c.effectiveMappings millis)).result bias

/-- Whether a zone is known and has the given offset at an instant. -/
def zoneHasOffset (catalog : Shared Catalog) (millis : Int) (offset : Int32) (m : Mapping) :
    Session Bool :=
  return (← Catalog.lookup catalog m.id).any fun t =>
    (t.value.offsetAtMillis millis).utcOffset = offset

/-- Whether a zone in effect has no offset from UTC, in a country that uses UTC at some time. -/
def hasUtcZone (c : CountryZones) (catalog : Shared Catalog) (millis : Int) : Session Bool :=
  if c.everUsesUtc then (c.effectiveMappings millis).anyM (zoneHasOffset catalog millis 0)
  else return false

/-- Whether all zones in effect have the offset of the default zone. A single zone needs no
default. -/
def isDefaultOkayAt (c : CountryZones) (catalog : Shared Catalog) (millis : Int) :
    Session Bool :=
  match c.effectiveMappings millis with
  | [] => return false
  | [_] => return true
  | ms => do
    match c.defaultZoneId with
    | none => return false
    | some id =>
      match ← Catalog.lookup catalog id with
      | none => return false
      | some t => ms.allM (zoneHasOffset catalog millis (t.value.offsetAtMillis millis).utcOffset)

end CountryZones

end TimeZones
