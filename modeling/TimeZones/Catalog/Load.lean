import TimeZones.Registry

/-! Loading catalogs from bytes, files and the environment. -/
namespace TimeZones.Catalog

/-- Where catalogs are looked for when the environment names none. -/
def locations : List String :=
  ["/apex/com.android.tzdata/etc/tz/tzdata",
   "/data/misc/zoneinfo/current/tzdata",
   "/system/usr/share/zoneinfo/tzdata"]

def ofBytes? (b : Bytes) : Except Failure Catalog :=
  (ofBytes b).mapError fun f => .root (.container f)

def makeBuiltin : Session (Shared Catalog) := Session.share builtin

/-- The catalog of the first source that can be read, after `last` has failed. -/
def firstSource (last : Failure) :
    List (Source × Bytes) → Session (Except Failure (Shared Catalog))
  | [] => return .error last
  | (source, b) :: rest => do
    match ofBytes? b with
    | .error f =>
      Session.note (.sourceRefused source f)
      firstSource f rest
    | .ok c =>
      Session.note (.sourceLoaded source c.version)
      return .ok (← Session.share c)

/-- Loads a catalog from the primary source, or else from the secondary one. -/
def tryLoad (primary secondary : Option Bytes) : Session (Except Failure (Shared Catalog)) :=
  firstSource (.root .noCatalogSource) <|
    (primary.map ((.primary, ·))).toList ++ (secondary.map ((.secondary, ·))).toList

/-- Loads a catalog, which may be the built-in one. -/
def load (primary secondary : Option Bytes) : Session (Shared Catalog) := do
  match ← tryLoad primary secondary with
  | .ok c => return c
  | .error f =>
    Session.note (.noSourceLoaded f)
    makeBuiltin

/-- Loads a catalog from a file. -/
def ofFile (files : FileTree) (path : String) : Session (Except Failure (Shared Catalog)) := do
  match files.read path with
  | .error f => return .error ((Failure.root (.file f)).atPath path)
  | .ok b =>
    match ofBytes? b with
    | .error f => return .error (f.atPath path)
    | .ok c =>
      Session.note (.fileLoaded c.version c.size path)
      return .ok (← Session.share c)

/-- The catalog of the first file that can be loaded. -/
def firstFile (files : FileTree) : List String → Session (Option (Shared Catalog))
  | [] => return none
  | path :: paths => do
    match ← ofFile files path with
    | .ok c => return some c
    | .error f =>
      Session.note (.failed f)
      firstFile files paths

/-- Loads the first catalog that can be loaded, or the built-in one. -/
def ofPaths (files : FileTree) (paths : List String) : Session (Shared Catalog) := do
  match ← firstFile files paths with
  | some c => return c
  | none =>
    Session.note (.noPathLoaded paths.length)
    makeBuiltin

/-- The catalog of the first of several locations that can be loaded. -/
def firstLocation (files : FileTree) : List String → Session (Option (Shared Catalog))
  | [] => return none
  | path :: paths => do
    Session.note (.locationTried path)
    match ← ofFile files path with
    | .ok c => return some c
    | .error f =>
      Session.note (.locationRefused path f)
      firstLocation files paths

/-- Loads the catalog at one of the usual locations, or the built-in one. -/
def ofLocations (files : FileTree) : Session (Shared Catalog) := do
  match ← firstLocation files locations with
  | some c => return c
  | none =>
    Session.note (.noLocationLoaded locations)
    makeBuiltin

/-- Loads the catalog that the environment names, or one at the usual locations. -/
def ofEnvironment (env : Environment) : Session (Shared Catalog) := do
  match env.catalogPath with
  | none => ofLocations env.files
  | some path =>
    Session.note (.variableTried path)
    match ← ofFile env.files path with
    | .ok c => return c
    | .error f =>
      Session.note (.variableRefused path f)
      ofLocations env.files

/-- The version of the catalog in a file, of which only the first bytes are read. -/
def rulesVersion (files : FileTree) (path : String) : Except Failure String :=
  match files.read path with
  | .error f => .error ((Failure.root (.file f)).atPath path)
  | .ok b =>
    match Container.readVersion (b.take Container.versionHeaderLength) with
    | .error f => .error ((Failure.root (.container f)).atPath path)
    | .ok v => .ok v

/-- The catalog in use. If there is none yet, the one of the environment is put in use. -/
def current (env : Environment) : Session (Shared Catalog) := do
  match (← get).catalog with
  | some c => return c
  | none =>
    let c ← ofEnvironment env
    Session.useCatalog c
    return c

/-- Puts a catalog in use and returns the one that it replaces, if there is one. -/
def install (c : Shared Catalog) : Session (Option (Shared Catalog)) := do
  match (← get).catalog with
  | none =>
    Session.useCatalog c
    return none
  | some old =>
    Session.note (.catalogReplaced old.value.version c.value.version)
    Session.useCatalog c
    return some old

end TimeZones.Catalog
