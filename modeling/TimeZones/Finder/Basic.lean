import TimeZones.Country.Match
import TimeZones.Country.Validated

/-! Finders: the countries of a configuration, with zones of one catalog. -/
namespace TimeZones.Finder

/-- Keeps of a configuration what the catalog has. -/
def ofIndex (catalog : Shared Catalog) (x : CountryIndex) : Session Finder := do
  match ← Session.logged (x.validated catalog.value .lenient) with
  | .ok x => return ⟨catalog, x⟩
  | .error f =>
    Session.note (.configurationDiscarded f)
    return ⟨catalog, .empty⟩

def lookupCountry (f : Finder) (code : String) : Option CountryZones := f.index.country? code

def lookupDefault (f : Finder) (code : String) : Option String := f.index.lookupDefault code

def resolve (f : Finder) (code : String) (wanted : OffsetType) (millis : Int)
    (bias : Option String) : Session (Option String) :=
  match f.lookupCountry code with
  | none => return none
  | some c => c.resolve f.catalog wanted millis bias

def lookupByOffset (f : Finder) (code : String) (q : OffsetQuery) (millis : Int)
    (bias : Option String) : Session (Option OffsetResult) :=
  match f.lookupCountry code with
  | none => return none
  | some c => c.lookupByOffset f.catalog q millis bias

def hasUtcZone (f : Finder) (code : String) (millis : Int) : Session Bool :=
  match f.lookupCountry code with
  | none => return false
  | some c => c.hasUtcZone f.catalog millis

def isDefaultOkayAt (f : Finder) (code : String) (millis : Int) : Session Bool :=
  match f.lookupCountry code with
  | none => return false
  | some c => c.isDefaultOkayAt f.catalog millis

end TimeZones.Finder
