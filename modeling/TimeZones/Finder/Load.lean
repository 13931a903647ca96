import TimeZones.Catalog.Load
import TimeZones.Finder.Basic

/-! Building finders from texts, files and the environment. -/
namespace TimeZones.Finder

/-- Where configurations are looked for: next to the usual locations of catalogs. -/
def locations : List String :=
  ["/apex/com.android.tzdata/etc/tz/tzlookup.xml",
   "/data/misc/zoneinfo/current/tzlookup.xml",
   "/system/usr/share/zoneinfo/tzlookup.xml"]

/-- Builds a finder from the primary text, or from the secondary one if there is no primary text. -/
def ofText (catalog : Shared Catalog) (primary secondary : Option String) :
    Session (Except Failure Finder) := do
  match primary.or secondary with
  | none => return .error (.root .noFinderSource)
  | some text =>
    match ← Session.logged (CountryIndex.parse text .lenient) with
    | .error f => return .error (.root (.country f))
    | .ok x => return .ok (← ofIndex catalog x)

/-- Builds a finder from the first file that can be read. If it is not a configuration, later files
are not read and the finder knows no countries. -/
def ofPaths (files : FileTree) (catalog : Shared Catalog) (paths : List String) :
    Session Finder :=
  go paths
where
  go : List String → Session Finder
    | [] => do
      Session.note (.noConfigurationRead paths.length)
      ofIndex catalog .empty
    | path :: rest => do
      match files.readText path with
      | .error f =>
        Session.note (.configurationUnread path f)
        go rest
      | .ok text =>
        match ← Session.logged (CountryIndex.parse text .lenient) with
        | .ok x =>
          Session.note (.configurationLoaded path)
          ofIndex catalog x
        | .error f =>
          Session.note (.configurationRefused path f)
          ofIndex catalog .empty

/-- Builds a finder over the catalog in use from the file that the environment names, or else from
the usual locations. -/
def ofEnvironment (env : Environment) : Session Finder := do
  ofPaths env.files (← Catalog.current env) (env.configurationPath.toList ++ locations)

/-- The finder in use. If there is none yet, the one of the environment is put in use. -/
def current (env : Environment) : Session Finder := do
  match (← get).finder with
  | some f => return f
  | none =>
    let f ← ofEnvironment env
    Session.useFinder f
    return f

/-- Puts a finder in use and returns the one that it replaces, if there is one. -/
def install (f : Finder) : Session (Option Finder) := do
  let old := (← get).finder
  Session.useFinder f
  return old

end TimeZones.Finder
