import TimeZones.Container.Read
import TimeZones.Search
import TimeZones.Table.Record

/-! Catalogs: the zones of one version of the rules, found by identifier. -/
namespace TimeZones

/-- What a catalog holds of a zone: a record still to be read, or a table. -/
inductive Payload where
  | record (bytes : Bytes)
  | table (t : Table)

structure Catalog.Entry where
  id : String
  payload : Payload

/-- Entries have strictly increasing identifiers. -/
structure Catalog where
  version : String
  entries : Array Catalog.Entry
  zoneTab : Bytes
  isBuiltin : Bool

namespace Catalog

/-- The table of an entry, if its record can be read. -/
def Entry.read (e : Entry) : Except Record.Fault Table :=
  match e.payload with
  | .record b => Table.ofRecord e.id b
  | .table t => .ok t

/-- The catalog of a container. Records are cut out and not yet read. -/
def ofBytes (b : Bytes) : Except Container.Fault Catalog :=
  (Container.ofBytes b).map fun c => {
    version := c.version
    entries := (c.entries.map fun e =>
      (⟨e.name, .record (b.slice e.start (e.stop - e.start))⟩ : Entry)).toArray
    zoneTab := b.drop c.zoneTab
    isBuiltin := false }

/-- The catalog to fall back on, with Greenwich time only. -/
def builtin : Catalog where
  version := "missing"
  entries := #[⟨"GMT", .table .gmt⟩]
  zoneTab := []
  isBuiltin := true

def size (c : Catalog) : Nat := c.entries.size

def isEmpty (c : Catalog) : Bool := c.entries.isEmpty

/-- All identifiers, in increasing order. -/
def availableIds (c : Catalog) : List String := c.entries.toList.map (·.id)

def find? (c : Catalog) (id : String) : Option Entry := Search.byKey (·.id) id c.entries

def hasZone (c : Catalog) (id : String) : Bool := (c.find? id).isSome

/-- The table of a zone, read anew. -/
def table? (c : Catalog) (id : String) : Option Table := (c.find? id).bind (·.read.toOption)

/-- The text at the end of the container, if there is one and it is UTF-8. -/
def zoneTabText (c : Catalog) : Option String :=
  if c.zoneTab.isEmpty then none else String.fromUTF8? ⟨c.zoneTab.toArray⟩

end Catalog

end TimeZones
