import TimeZones.Country.Element
import TimeZones.Logged

/-! The configuration document. Its root `timezones` holds an element `countryzones`, which holds
elements `country`. -/
namespace TimeZones.Country
open Markup

/-- Countries in order of appearance, and the events behind them or what stopped the reading. -/
structure Entries where
  countries : List CountryZones
  outcome : Except Fault (List Event)

/-- Reads the content of the element `countryzones`. -/
def readCountries (ended : Fault) (mode : Mode) : List Event → Entries
  | [] => ⟨[], .error ended⟩
  | .close :: es => ⟨[], .ok es⟩
  | .text _ :: es => readCountries ended mode es
  | .empty t :: es =>
    if t.name = "country" then
      match countryTag mode t >>= fun head => country mode head [] with
      | .error f => ⟨[], .error f⟩
      | .ok c =>
        let next := readCountries ended mode es
        { next with countries := c :: next.countries }
    else readCountries ended mode es
  | .start t :: es =>
    if t.name = "country" then
      match _h : readCountry ended mode t es with
      | .error f => ⟨[], .error f⟩
      | .ok (c, es) =>
        let next := readCountries ended mode es
        { next with countries := c :: next.countries }
    else
      match _h : skip ended 0 es with
      | .error f => ⟨[], .error f⟩
      | .ok es => readCountries ended mode es
termination_by es => es.length
decreasing_by
  all_goals simp
  · have := length_of_readCountry _h
    omega
  · have := length_of_skip _h
    omega

/-- The codes of countries that come after one with the same code, or with one in `seen`. -/
def repeatedCodes (seen : List String) : List CountryZones → List String
  | [] => []
  | c :: cs =>
    if c.code ∈ seen then c.code :: repeatedCodes seen cs
    else repeatedCodes (c.code :: seen) cs

/-- The first country of each code that is not in `seen`. -/
def firstOfCode (seen : List String) : List CountryZones → List CountryZones
  | [] => []
  | c :: cs =>
    if c.code ∈ seen then firstOfCode seen cs
    else c :: firstOfCode (c.code :: seen) cs

/-- Finds the root element, whether it has content, and what comes after its tag. -/
def root? : List Event → Option (Tag × Bool × List Event)
  | [] => none
  | .start t :: es => some (t, true, es)
  | .empty t :: es => some (t, false, es)
  | .close :: es => root? es
  | .text _ :: es => root? es

/-- Passes over the root's content up to behind the first tag `countryzones`. Says whether that
element has content. -/
def findCountryZones (ended : Fault) : List Event → Except Fault (Bool × List Event)
  | [] => .error ended
  | .close :: _ => .error .missingCountryZones
  | .text _ :: es => findCountryZones ended es
  | .empty t :: es =>
    if t.name = "countryzones" then .ok (false, es) else findCountryZones ended es
  | .start t :: es =>
    if t.name = "countryzones" then .ok (true, es)
    else
      match _h : skip ended 0 es with
      | .error f => .error f
      | .ok es => findCountryZones ended es
termination_by es => es.length
decreasing_by
  all_goals simp
  have := length_of_skip _h
  omega

/-- Opens the root: its tag, and the entries of the first `countryzones` in it. -/
def readRoot (read : Reading Markup.Error Event) (mode : Mode) : Except Fault (Tag × Entries) :=
  let ended := read.error.elim .truncated .markup
  match root? read.items with
  | none => .error (read.error.elim .missingRoot .markup)
  | some (t, hasContent, es) =>
    if t.name ≠ "timezones" then .error (.unexpectedRoot t.name)
    else if !hasContent then .error .missingCountryZones
    else (findCountryZones ended es).map fun (hasCountries, es) =>
      (t, if hasCountries then readCountries ended mode es else ⟨[], .ok es⟩)

/-- The index that the root's tag and entries describe, if the rest of the root is well formed. -/
def index (ended : Fault) (t : Tag) (e : Entries) : Except Fault CountryIndex :=
  match e.outcome >>= skip ended 0 with
  | .error f => .error f
  | .ok _ =>
    let countries := firstOfCode [] e.countries
    .ok {
      ianaVersion := t.attribute? "ianaversion"
      countries := (countries.mergeSort fun a b => a.code ≤ b.code).toArray }

end TimeZones.Country

namespace TimeZones.CountryIndex
open Country

/-- Reads a configuration. In lenient mode a country that comes a second time is passed over. -/
def parse (text : String) (mode : Mode) : Logged (Except Fault CountryIndex) :=
  let read := Markup.events text
  match readRoot read mode with
  | .error f => ⟨.error f, []⟩
  | .ok (t, entries) =>
    match mode, repeatedCodes [] entries.countries with
    | .strict, code :: _ => ⟨.error (.duplicateCountry code), []⟩
    | _, codes =>
      let repeats := codes.map .countryRepeated
      match index (read.error.elim .truncated .markup) t entries with
      | .error f => ⟨.error f, repeats⟩
      | .ok x => ⟨.ok x, repeats ++ [.configurationParsed x.countries.size x.ianaVersion]⟩

end TimeZones.CountryIndex
