import TimeZones.Catalog.Basic
import TimeZones.Country.Document

/-! Configurations that name only zones of a catalog. -/
namespace TimeZones

namespace CountryZones

/-- Drops the zones that the catalog does not have, and a default that it does not have. In strict
mode the default must be one of the zones that stay. -/
def validated (c : CountryZones) (catalog : Catalog) (mode : Mode) :
    Logged (Except Country.Fault CountryZones) :=
  let code := c.code.toLower
  let kept := c.mappings.filter fun m => catalog.hasZone m.id
  let dropped := c.mappings.filter fun m => !catalog.hasZone m.id
  let drops := dropped.map fun m => Note.zoneDropped m.id code catalog.version
  match mode, Country.missingDefault? c.defaultZoneId kept with
  | .strict, some id => ⟨.error (.defaultNotCandidate code id), drops⟩
  | _, _ =>
    match c.defaultZoneId.filter fun id => !catalog.hasZone id with
    | some id =>
      ⟨.ok ⟨code, none, c.everUsesUtc, kept⟩,
        drops ++ [.defaultIgnored id code catalog.version]⟩
    | none => ⟨.ok ⟨code, c.defaultZoneId, c.everUsesUtc, kept⟩, drops⟩

/-- Validates countries in order, up to the first that is refused. -/
def validateAll (catalog : Catalog) (mode : Mode) :
    List CountryZones → Logged (Except Country.Fault (List CountryZones))
  | [] => ⟨.ok [], []⟩
  | c :: cs =>
    (c.validated catalog mode).andThen fun c =>
      (validateAll catalog mode cs).andThen fun cs => ⟨.ok (c :: cs), []⟩

end CountryZones

namespace CountryIndex

def validated (x : CountryIndex) (catalog : Catalog) (mode : Mode) :
    Logged (Except Country.Fault CountryIndex) :=
  (CountryZones.validateAll catalog mode x.countries.toList).andThen fun cs =>
    ⟨.ok { x with countries := cs.toArray }, []⟩

/-- Reads a configuration and validates it. -/
def load (text : String) (mode : Mode) (catalog : Catalog) :
    Logged (Except Country.Fault CountryIndex) :=
  (parse text mode).andThen (·.validated catalog mode)

end CountryIndex

end TimeZones
