import TimeZones.Civil
import TimeZones.Container.Basic
import TimeZones.Country.Basic
import TimeZones.Files
import TimeZones.Table.Record

/-! Failures: a cause, and the contexts in which it came up. -/
namespace TimeZones

/-- One link in the chain of a failure. -/
inductive Cause where
  | message (text : String)
  | path (path : String)
  | record (fault : Record.Fault)
  | container (fault : Container.Fault)
  | country (fault : Country.Fault)
  | civil (fault : CivilTime.Fault)
  | file (fault : FileTree.Fault)
  | zone (id : String)
  | noCatalogSource
  | noFinderSource
  | unknown

def Cause.text : Cause → String
  | .message s => s
  | .path p => p
  | .record f => f.message
  | .container f => f.message
  | .country f => f.message
  | .civil f => f.message
  | .file f => f.message
  | .zone id => s!"failed to decode time zone `{id}` from time zone catalog"
  | .noCatalogSource =>
    "no tzdata source was given, so there is nothing to load a time zone catalog from"
  | .noFinderSource =>
    "no country configuration source was given, so there is nothing to build a time zone finder from"
  | .unknown => "unknown tzrules error"

/-- A cause that may itself have come from another failure. -/
inductive Failure where
  | root (cause : Cause)
  | because (cause : Cause) (source : Failure)

namespace Failure

/-- All links, the root last. -/
def text : Failure → String
  | .root c => c.text
  | .because c f => s!"{c.text}: {f.text}"

/-- The link that all others are contexts of. -/
def rootCause : Failure → Cause
  | .root c => c
  | .because _ f => f.rootCause

/-- The sort of fault of a zone record at the root, if there is one. -/
def formatKind (f : Failure) : Option Record.Kind :=
  match f.rootCause with
  | .record fault => some fault.kind
  | _ => none

/-- The sort of fault of a configuration at the root, if there is one. -/
def parseKind (f : Failure) : Option Country.Kind :=
  match f.rootCause with
  | .country fault => some fault.kind
  | _ => none

/-- Whether it all began with a file that could not be read. -/
def isIo (f : Failure) : Bool :=
  match f.rootCause with
  | .file _ => true
  | _ => false

/-- Puts a failure in the context of another. A context that has a source of its own is kept as its
text. -/
def inContext (f context : Failure) : Failure :=
  match context with
  | .root c => .because c f
  | .because c g => .because (.message (Failure.because c g).text) f

def atPath (f : Failure) (path : String) : Failure := f.inContext (.root (.path path))

end Failure

end TimeZones
