/-! Byte strings: slices, big-endian fields and pieces of one size. -/
namespace TimeZones

abbrev Bytes := List UInt8

namespace Bytes

/-- The `len` bytes from `start` on, or as many of them as there are. -/
def slice (b : Bytes) (start len : Nat) : Bytes := (b.drop start).take len

/-- Reads all bytes as one big-endian number. -/
def bigEndian (b : Bytes) : Nat := b.foldl (fun n x => 256 * n + x.toNat) 0

/-- The signed 32-bit field that starts at `start`. -/
def int32At (b : Bytes) (start : Nat) : Int32 := .ofInt (bigEndian (slice b start 4))

/-- The first `count` pieces of `size` bytes each, in order. -/
def pieces (size : Nat) : Nat → Bytes → List Bytes
  | 0, _ => []
  | count + 1, b => b.take size :: pieces size count (b.drop size)

/-- Printable ASCII other than the space. -/
def isGraphic (x : UInt8) : Bool := 0x21 ≤ x && x ≤ 0x7E

/-- The characters whose codes are the given bytes. -/
def text (b : Bytes) : String := String.ofList (b.map fun x => Char.ofNat x.toNat)

end Bytes

end TimeZones
