import TimeZones.Failure
import TimeZones.Text.Quoted

/-! Notes: what is written to the log. -/
namespace TimeZones

inductive Level where
  | warn
  | debug
  | trace

def Level.name : Level → String
  | .warn => "WARN"
  | .debug => "DEBUG"
  | .trace => "TRACE"

/-- One of the two places from which a catalog can be loaded. -/
inductive Source where
  | primary
  | secondary

def Source.name : Source → String
  | .primary => "primary"
  | .secondary => "secondary"

/-- The variable that names a catalog file. -/
def catalogVariable : String := "TZRULES_TZDATA"

inductive Note where
  | recordDecoded (id : String) (transitions types : Nat)
  | zoneDecoded (id : String) (transitions : Nat)
  | failed (failure : Failure)
  | sourceLoaded (source : Source) (version : String)
  | sourceRefused (source : Source) (failure : Failure)
  | noSourceLoaded (failure : Failure)
  | fileLoaded (version : String) (zones : Nat) (path : String)
  | noPathLoaded (paths : Nat)
  | variableTried (path : String)
  | variableRefused (path : String) (failure : Failure)
  | locationTried (path : String)
  | locationRefused (path : String) (failure : Failure)
  | noLocationLoaded (paths : List String)
  | catalogReplaced (old new : String)
  | countryRepeated (code : String)
  | configurationParsed (countries : Nat) (version : Option String)
  | zoneDropped (id code version : String)
  | defaultIgnored (id code version : String)
  | configurationDiscarded (fault : Country.Fault)
  | configurationUnread (path : String) (fault : FileTree.Fault)
  | configurationLoaded (path : String)
  | configurationRefused (path : String) (fault : Country.Fault)
  | noConfigurationRead (paths : Nat)

namespace Note

def level : Note → Level
  | recordDecoded .. | zoneDecoded .. => .trace
  | failed .. | sourceRefused .. | noSourceLoaded .. | noPathLoaded .. | variableRefused ..
  | noLocationLoaded .. | countryRepeated .. | zoneDropped .. | defaultIgnored ..
  | configurationDiscarded .. | configurationRefused .. | noConfigurationRead .. => .warn
  | sourceLoaded .. | fileLoaded .. | variableTried .. | locationTried .. | locationRefused ..
  | catalogReplaced .. | configurationParsed .. | configurationUnread ..
  | configurationLoaded .. => .debug

/-- A version that may be missing, in quotes if it is there. -/
def versionText : Option String → String
  | none => "None"
  | some v => s!"Some({Text.quoted v})"

def text : Note → String
  | recordDecoded id n k => s!"decoded zone record for {id}: {n} transitions, {k} types"
  | zoneDecoded id n => s!"decoded time zone {id} with {n} transitions"
  | failed f => f.text
  | sourceLoaded s v => s!"loaded {s.name} time zone catalog, version {v}"
  | sourceRefused s f => s!"failed to load {s.name} time zone catalog: {f.text}"
  | noSourceLoaded f =>
    s!"falling back to built-in time zone catalog because no source could be loaded: {f.text}"
  | fileLoaded v n p => s!"loaded time zone catalog version {v} with {n} zones from {p}"
  | noPathLoaded n =>
    s!"falling back to built-in time zone catalog because none of {n} paths could be loaded"
  | variableTried p => s!"opening time zone catalog at {catalogVariable}={p}"
  | variableRefused p f => s!"failed opening {catalogVariable}={p}: {f.text}"
  | locationTried p => s!"opening time zone catalog at {p}"
  | locationRefused p f => s!"failed opening {p}: {f.text}"
  | noLocationLoaded ps =>
    let list := String.intercalate ", " ps
    s!"could not find time zone catalog at any of the following paths: {list}"
  | catalogReplaced old new => s!"replacing time zone catalog version {old} with version {new}"
  | countryRepeated c => s!"ignoring duplicate entry for country {c}"
  | configurationParsed n v =>
    s!"parsed country configuration with {n} countries, IANA version {versionText v}"
  | zoneDropped id c v =>
    s!"dropping time zone {id} for country {c} because it is not in catalog version {v}"
  | defaultIgnored id c v =>
    s!"ignoring default time zone {id} for country {c} because it is not in catalog version {v}"
  | configurationDiscarded f => s!"discarding country configuration: {f.message}"
  | configurationUnread p f => s!"failed to read country configuration {p}: {f.message}"
  | configurationLoaded p => s!"loaded country configuration from {p}"
  | configurationRefused p f => s!"failed to parse country configuration {p}: {f.message}"
  | noConfigurationRead n => s!"could not read country configuration from any of {n} paths"

/-- A note as a line of the log. -/
def line (n : Note) : String := s!"{n.level.name} {n.text}"

end Note

end TimeZones
