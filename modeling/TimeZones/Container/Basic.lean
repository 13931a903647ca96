import TimeZones.Bytes

/-! Containers: the records of many zones in one file. A header with a version and three offsets
is followed by an index, the zone data, and a text for readers of the data. -/
namespace TimeZones.Container

/-- One name of the index, and where in the file its record lies. -/
structure Entry where
  name : String
  start : Nat
  stop : Nat
  deriving DecidableEq

/-- Why a container is refused. -/
inductive Fault where
  | header
  | magic
  | version
  | versionEnd
  | indexDataOffsets
  | finalOffset
  | indexBlock
  | dataBlock
  | indexLength
  | emptyIndex
  | name
  | range (name : String)
  | duplicate (name : String)
  | unsorted (name : String)
  deriving DecidableEq

def versionHeaderLength : Nat := 12

def headerLength : Nat := 24

def nameLength : Nat := 40

def entryLength : Nat := 52

def Fault.message : Fault → String
  | .header => "failed to read tzdata header"
  | .magic => "expected first 6 bytes of tzdata header to be `tzdata`"
  | .version => "expected version in tzdata header to be printable ASCII"
  | .versionEnd => "expected last byte of tzdata header to be `NUL`"
  | .indexDataOffsets =>
    "invalid index and data offsets, expected index offset to be less than or equal to data offset"
  | .finalOffset => "invalid final offset, expected it to be at least the data offset"
  | .indexBlock => "failed to read index block"
  | .dataBlock => "failed to read zone data block"
  | .indexLength => s!"length of index block is not a multiple of {entryLength}"
  | .emptyIndex => "found no time zone identifiers in tzdata index block"
  | .name => "expected time zone identifier in tzdata index to be non-empty printable ASCII"
  | .range n => s!"byte range for time zone `{n}` is outside the zone data block"
  | .duplicate n => s!"found duplicate time zone identifier `{n}` in tzdata index"
  | .unsorted n => s!"time zone identifier `{n}` is out of order in tzdata index"

end TimeZones.Container

namespace TimeZones

/-- What a container's header and index say. The text at the end starts at `zoneTab`. -/
structure Container where
  version : String
  entries : List Container.Entry
  zoneTab : Nat
  deriving DecidableEq

end TimeZones
