import TimeZones.Registry
import TimeZones.Zone.Basic

/-! Finding zones in a catalog. A record is read the first time that its zone is asked for. -/
namespace TimeZones.Catalog

/-- Reads the table of an entry. -/
def Entry.decode (e : Entry) : Session (Except Failure Table) := do
  match e.payload with
  | .table t => return .ok t
  | .record b =>
    return (← Session.readRecord e.id b).mapError fun f =>
      (Failure.root (.record f)).inContext (.root (.zone e.id))

/-- Reads an entry for good: its table, if there is one, gets a key of its own. -/
def Entry.decodeShared (e : Entry) : Session (Option (Shared Table)) := do
  match e.payload with
  | .table t => return some (← Session.share t)
  | .record _ =>
    match ← e.decode with
    | .error f =>
      Session.note (.failed f)
      return none
    | .ok t =>
      Session.note (.zoneDecoded e.id t.transitions.size)
      return some (← Session.share t)

/-- The table of a zone, which is the same one each time. -/
def lookup (c : Shared Catalog) (id : String) : Session (Option (Shared Table)) := do
  match c.value.find? id with
  | none => return none
  | some e =>
    match (← get).decoded.lookup (c.key, e.id) with
    | some known => return known
    | none =>
      let t ← e.decodeShared
      Session.remember c.key e.id t
      return t

/-- A zone of the catalog, summarised at `now`. -/
def makeZone (c : Shared Catalog) (id : String) (now : Int) : Session (Option Zone) := do
  return (← lookup c id).map fun t => .ofTable t now

def snapshot (c : Shared Catalog) (id : String) (now : Int) : Session (Option Snapshot) := do
  return (← makeZone c id now).map (·.snapshot)

/-- The first failure among entries, of which those known to be good are not read again. -/
def firstFailure? (key : Nat) : List Entry → Session (Option Failure)
  | [] => return none
  | e :: es => do
    match (← get).decoded.lookup (key, e.id) with
    | some (some _) => firstFailure? key es
    | _ =>
      match ← e.decode with
      | .error f => return some f
      | .ok _ => firstFailure? key es

/-- Checks that all records can be read. -/
def validate (c : Shared Catalog) : Session (Except Failure Unit) := do
  match ← firstFailure? c.key c.value.entries.toList with
  | some f => return .error f
  | none => return .ok ()

end TimeZones.Catalog
