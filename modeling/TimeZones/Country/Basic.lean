import TimeZones.Markup.Fault
import TimeZones.Search

/-! Which zones are used in a country. -/
namespace TimeZones

/-- Whether a configuration is checked in full or trusted to have been checked before. -/
inductive Mode where
  | strict
  | lenient
  deriving DecidableEq

/-- A zone of a country. After `notUsedAfter`, in milliseconds since 1970, another zone stands for
it. -/
structure Mapping where
  id : String
  showInPicker : Bool
  notUsedAfter : Option Int
  deriving DecidableEq

def Mapping.isEffectiveAt (m : Mapping) (millis : Int) : Bool := m.notUsedAfter.all (millis ≤ ·)

/-- The zones of a country, preferred ones first. The code is in lower case. -/
structure CountryZones where
  code : String
  defaultZoneId : Option String
  everUsesUtc : Bool
  mappings : List Mapping
  deriving DecidableEq

namespace CountryZones

/-- Codes are compared in lower case, where only ASCII letters have one. -/
def isForCountry (c : CountryZones) (code : String) : Bool := c.code.toLower = code.toLower

def zoneIds (c : CountryZones) : List String := c.mappings.map (·.id)

def effectiveMappings (c : CountryZones) (millis : Int) : List Mapping :=
  c.mappings.filter (·.isEffectiveAt millis)

end CountryZones

/-- A configuration: countries with strictly increasing codes, and the version of the rules that it
was made for. -/
structure CountryIndex where
  ianaVersion : Option String
  countries : Array CountryZones
  deriving DecidableEq

namespace CountryIndex

def empty : CountryIndex := ⟨none, #[]⟩

/-- The country with a code, in whichever case. -/
def country? (x : CountryIndex) (code : String) : Option CountryZones :=
  Search.byKey (·.code) code.toLower x.countries

def countryCodes (x : CountryIndex) : List String := x.countries.toList.map (·.code)

def lookupCandidates (x : CountryIndex) (code : String) : Option (List String) :=
  (x.country? code).map (·.zoneIds)

def lookupDefault (x : CountryIndex) (code : String) : Option String :=
  (x.country? code).bind (·.defaultZoneId)

end CountryIndex

namespace Country

/-- Why a configuration is refused. -/
inductive Fault where
  | markup (error : Markup.Error)
  | missingRoot
  | unexpectedRoot (name : String)
  | missingCountryZones
  | missingAttribute (element key : String)
  | invalidAttribute (element key value : String)
  | unexpectedChild (parent child : String)
  | emptyId
  | defaultNotCandidate (code defaultId : String)
  | duplicateCountry (code : String)
  | truncated
  deriving DecidableEq

/-- What sort of fault a configuration has. -/
inductive Kind where
  | markup
  | missingRoot
  | unexpectedRoot
  | missingCountryZones
  | missingAttribute
  | invalidAttribute
  | unexpectedChild
  | emptyId
  | defaultNotCandidate
  | duplicateCountry
  | truncated
  deriving DecidableEq

def Fault.kind : Fault → Kind
  | .markup .. => .markup
  | .missingRoot => .missingRoot
  | .unexpectedRoot .. => .unexpectedRoot
  | .missingCountryZones => .missingCountryZones
  | .missingAttribute .. => .missingAttribute
  | .invalidAttribute .. => .invalidAttribute
  | .unexpectedChild .. => .unexpectedChild
  | .emptyId => .emptyId
  | .defaultNotCandidate .. => .defaultNotCandidate
  | .duplicateCountry .. => .duplicateCountry
  | .truncated => .truncated

def Fault.message : Fault → String
  | .markup e => s!"invalid country configuration XML {e.message}"
  | .missingRoot => "country configuration has no root element"
  | .unexpectedRoot n =>
    s!"expected root element `timezones` in country configuration, but found `{n}`"
  | .missingCountryZones => "expected `countryzones` element in country configuration"
  | .missingAttribute e a => s!"`{e}` element is missing required attribute `{a}`"
  | .invalidAttribute e a v => s!"`{e}` element has invalid value `{v}` for attribute `{a}`"
  | .unexpectedChild p c => s!"unexpected element `{c}` inside `{p}` element"
  | .emptyId => "found `id` element with no text"
  | .defaultNotCandidate c d =>
    s!"default time zone `{d}` for country `{c}` is not one of its time zones"
  | .duplicateCountry c => s!"found more than one entry for country `{c}`"
  | .truncated => "country configuration ends inside an element"

end Country

end TimeZones
