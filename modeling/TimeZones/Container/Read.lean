import TimeZones.Container.Basic

/-! Reading the header and the index of a container. -/
namespace TimeZones.Container

/-- The letters tzdata. -/
def magic : Bytes := [0x74, 0x7A, 0x64, 0x61, 0x74, 0x61]

/-- Reads the version, which takes no more than the first twelve bytes. -/
def readVersion (b : Bytes) : Except Fault String :=
  if b.length < versionHeaderLength then .error .header
  else if b.take 6 ≠ magic then .error .magic
  else if !(b.slice 6 5).all Bytes.isGraphic then .error .version
  else if b[11]? ≠ some 0 then .error .versionEnd
  else .ok (Bytes.text (b.slice 6 5))

/-- Where the index, the zone data and the text at the end start. -/
structure Blocks where
  index : Nat
  data : Nat
  final : Nat

/-- Reads the three offsets and checks that they come in order and lie within the file. -/
def readBlocks (b : Bytes) : Except Fault Blocks :=
  let index := (b.int32At 12).toInt
  let data := (b.int32At 16).toInt
  let final := (b.int32At 20).toInt
  if b.length < headerLength then .error .header
  else if index < 0 ∨ data < 0 then .error .indexDataOffsets
  else if final < 0 then .error .finalOffset
  else if index < headerLength ∨ data < index then .error .indexDataOffsets
  else if b.length < data then .error .indexBlock
  else if final < data then .error .finalOffset
  else if b.length < final then .error .dataBlock
  else .ok ⟨index.toNat, data.toNat, final.toNat⟩

/-- Reads an entry of the index. Its name is padded with zeros, its range counts from the start of
the zone data. -/
def readEntry (blocks : Blocks) (b : Bytes) : Except Fault Entry :=
  let name := (b.take nameLength).takeWhile (· ≠ 0)
  let start := (b.int32At 40).toInt
  let len := (b.int32At 44).toInt
  if name = [] ∨ !name.all Bytes.isGraphic then .error .name
  else if start < 0 ∨ len < 0 ∨ (blocks.final - blocks.data : Nat) < start + len then
    .error (.range (Bytes.text name))
  else
    .ok ⟨Bytes.text name, blocks.data + start.toNat, blocks.data + start.toNat + len.toNat⟩

/-- Names have to increase strictly. -/
def orderFault? (previous : Option String) (name : String) : Option Fault :=
  match previous with
  | none => none
  | some p => if p = name then some (.duplicate name) else if name < p then some (.unsorted name)
    else none

/-- Reads entries that come after the name `previous`. -/
def readEntries (blocks : Blocks) : Option String → List Bytes → Except Fault (List Entry)
  | _, [] => .ok []
  | previous, b :: rest =>
    match readEntry blocks b with
    | .error f => .error f
    | .ok e =>
      match orderFault? previous e.name with
      | some f => .error f
      | none => (readEntries blocks (some e.name) rest).map (e :: ·)

/-- Reads the index, of which there must be at least one entry. -/
def readIndex (b : Bytes) (blocks : Blocks) : Except Fault (List Entry) :=
  let len := blocks.data - blocks.index
  if len % entryLength ≠ 0 then .error .indexLength
  else if len = 0 then .error .emptyIndex
  else
    readEntries blocks none (Bytes.pieces entryLength (len / entryLength) (b.drop blocks.index))

/-- Reads a container, or reports its first fault: version, offsets, index. -/
def ofBytes (b : Bytes) : Except Fault Container := do
  let version ← readVersion b
  let blocks ← readBlocks b
  let entries ← readIndex b blocks
  return ⟨version, entries, blocks.final⟩

end TimeZones.Container
