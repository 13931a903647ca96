import TimeZones.Catalog.Basic
import TimeZones.Country.Basic
import TimeZones.Logged
import TimeZones.Shared

/-! The state that holders of catalogs share: what has been decoded so far, the catalog and the
finder in use, and the log. -/
namespace TimeZones

/-- A catalog and the configuration that goes with it. -/
structure Finder where
  catalog : Shared Catalog
  index : CountryIndex

/-- All keys below `nextKey` may be in use. For a catalog's key and an identifier, `decoded` holds
the table, or `none` if the record cannot be read. No catalog and no finder is in use until one is
asked for or installed. -/
structure Registry where
  nextKey : Nat
  decoded : List ((Nat × String) × Option (Shared Table))
  log : List Note
  catalog : Option (Shared Catalog)
  finder : Option Finder

namespace Registry

/-- Nothing is decoded and nothing is in use. -/
def initial : Registry where
  nextKey := 0
  decoded := []
  log := []
  catalog := none
  finder := none

end Registry

/-- A computation that reads and changes the registry. -/
abbrev Session := StateM Registry

namespace Session
variable {α : Type}

def note (n : Note) : Session Unit := modify fun r => { r with log := r.log ++ [n] }

/-- Writes the notes of a result to the log. -/
def logged (x : Logged α) : Session α :=
  modifyGet fun r => (x.value, { r with log := r.log ++ x.notes })

/-- Gives a value a key of its own. -/
def share (a : α) : Session (Shared α) :=
  modifyGet fun r => (⟨r.nextKey, a⟩, { r with nextKey := r.nextKey + 1 })

/-- Keeps what a zone of a catalog has been decoded to. -/
def remember (catalog : Nat) (id : String) (t : Option (Shared Table)) : Session Unit :=
  modify fun r => { r with decoded := ((catalog, id), t) :: r.decoded }

/-- Puts a catalog in use. -/
def useCatalog (c : Shared Catalog) : Session Unit := modify fun r => { r with catalog := some c }

/-- Puts a finder in use. -/
def useFinder (f : Finder) : Session Unit := modify fun r => { r with finder := some f }

/-- Reads a zone record, and notes if that succeeds. -/
def readRecord (id : String) (b : Bytes) : Session (Except Record.Fault Table) := do
  match Table.ofRecord id b with
  | .error f => return .error f
  | .ok t =>
    note (.recordDecoded id t.transitions.size t.types.size)
    return .ok t

end Session

end TimeZones
