import TimeZones.Bytes
import TimeZones.Table.Basic

/-! Zone records: the binary form of a transition table. A record is a header of 44 bytes with two
counts, the instants, one type index for each, and the types. What follows is not looked at. -/
namespace TimeZones.Record

/-- The parts of a record that can be cut short, in the order in which they come. -/
inductive Section where
  | header | transitionTimes | transitionTypes | localTimeTypes
  deriving DecidableEq

def Section.name : Section → String
  | .header => "header"
  | .transitionTimes => "transition times"
  | .transitionTypes => "transition types"
  | .localTimeTypes => "local time types"

/-- Why a record is refused. -/
inductive Fault where
  | badMagic
  | empty (transitions types : Int)
  | tooManyTypes (types : Int)
  | tooManyTransitions (transitions : Int)
  | notSorted (index : Nat) (previous instant : Int)
  | invalidTypeIndex (index typeIndex types : Nat)
  | invalidDstFlag (typeIndex : Nat) (flag : UInt8)
  | noStandardType
  | truncated (part : Section)
  deriving DecidableEq

/-- What sort of fault a record has. -/
inductive Kind where
  | badMagic
  | empty
  | tooManyTypes
  | tooManyTransitions
  | notSorted
  | invalidTypeIndex
  | invalidDstFlag
  | noStandardType
  | truncated
  deriving DecidableEq

def Fault.kind : Fault → Kind
  | .badMagic => .badMagic
  | .empty .. => .empty
  | .tooManyTypes .. => .tooManyTypes
  | .tooManyTransitions .. => .tooManyTransitions
  | .notSorted .. => .notSorted
  | .invalidTypeIndex .. => .invalidTypeIndex
  | .invalidDstFlag .. => .invalidDstFlag
  | .noStandardType => .noStandardType
  | .truncated .. => .truncated

/-- The letters TZif. -/
def magic : Bytes := [0x54, 0x5A, 0x69, 0x66]

def maxTypes : Nat := 256

def maxTransitions : Nat := 2000

def Fault.detail : Fault → String
  | .badMagic => "expected first four bytes to be `TZif`"
  | .empty t k => s!"found {t} transitions and {k} types, but both must be positive"
  | .tooManyTypes k => s!"found {k} types, but at most {maxTypes} are allowed"
  | .tooManyTransitions t => s!"found {t} transitions, but at most {maxTransitions} are allowed"
  | .notSorted i p s =>
    s!"transition {i} at {s} does not come after previous transition at {p}"
  | .invalidTypeIndex i j k =>
    s!"transition {i} refers to type {j}, but there are only {k} types"
  | .invalidDstFlag i f => s!"type {i} has DST flag {f}, but it must be 0 or 1"
  | .noStandardType => "no transition refers to a standard time type"
  | .truncated p => s!"expected bytes for '{p.name}', but found fewer bytes than declared"

def Fault.message (f : Fault) : String := s!"invalid zone record: {f.detail}"

/-- The numbers of transitions and types that a record declares. -/
structure Counts where
  transitions : Nat
  types : Nat

namespace Counts

def indicesStart (c : Counts) : Nat := 44 + 4 * c.transitions

def typesStart (c : Counts) : Nat := 44 + 5 * c.transitions

/-- Where the last section that is read ends. -/
def stop (c : Counts) : Nat := 44 + 5 * c.transitions + 6 * c.types

end Counts

/-- Reads the counts from the header and checks that they are in range. -/
def readCounts (b : Bytes) : Except Fault Counts :=
  if b.take 4 ≠ magic then .error .badMagic
  else if b.length < 44 then .error (.truncated .header)
  else
    let transitions := (b.int32At 32).toInt
    let types := (b.int32At 36).toInt
    if transitions ≤ 0 ∨ types ≤ 0 then .error (.empty transitions types)
    else if maxTypes < types then .error (.tooManyTypes types)
    else if maxTransitions < transitions then .error (.tooManyTransitions transitions)
    else .ok ⟨transitions.toNat, types.toNat⟩

/-- The first section that the bytes do not hold in full. -/
def missingSection? (b : Bytes) (c : Counts) : Option Section :=
  if b.length < c.indicesStart then some .transitionTimes
  else if b.length < c.typesStart then some .transitionTypes
  else if b.length < c.stop then some .localTimeTypes
  else none

/-- The transitions as written. -/
def rawTransitions (b : Bytes) (c : Counts) : List Transition :=
  List.zipWith (fun instant index => ⟨(Bytes.int32At instant 0).toInt, index.toNat⟩)
    (Bytes.pieces 4 c.transitions (b.drop 44)) (b.slice c.indicesStart c.transitions)

/-- The types as written, each an offset and a flag byte. -/
def rawTypes (b : Bytes) (c : Counts) : List (Int32 × UInt8) :=
  (Bytes.pieces 6 c.types (b.drop c.typesStart)).map fun p => (Bytes.int32At p 0, p.getD 4 0)

/-- The first fault among transitions, of which the first has number `index` and comes after
`previous`. -/
def transitionFault? (types : Nat) : Nat → Option Int → List Transition → Option Fault
  | _, _, [] => none
  | index, previous, tr :: rest =>
    match previous.filter (tr.instant ≤ ·) with
    | some p => some (.notSorted index p tr.instant)
    | none =>
      if types ≤ tr.typeIndex then some (.invalidTypeIndex index tr.typeIndex types)
      else transitionFault? types (index + 1) (some tr.instant) rest

/-- The first type, counted from `index`, whose flag is neither 0 nor 1. -/
def flagFault? : Nat → List (Int32 × UInt8) → Option Fault
  | _, [] => none
  | index, (_, flag) :: rest =>
    if flag = 0 ∨ flag = 1 then flagFault? (index + 1) rest else some (.invalidDstFlag index flag)

/-- The types, once their flags are known to be 0 or 1. -/
def offsetTypes (b : Bytes) (c : Counts) : List OffsetType :=
  (rawTypes b c).map fun (offset, flag) => ⟨offset, flag = 1⟩

/-- Whether some transition leads to standard time. -/
def reachesStandard (b : Bytes) (c : Counts) : Bool :=
  (rawTransitions b c).any fun tr => !((offsetTypes b c).getD tr.typeIndex default).isDst

/-- The first fault behind the header: a section cut short, then the transitions in order, then the
types, then that nothing leads to standard time. -/
def fault? (b : Bytes) (c : Counts) : Option Fault :=
  ((missingSection? b c).map .truncated).or <|
  (transitionFault? c.types 0 none (rawTransitions b c)).or <|
  (flagFault? 0 (rawTypes b c)).or <|
  if reachesStandard b c then none else some .noStandardType

end TimeZones.Record

namespace TimeZones.Table
open TimeZones.Record

/-- Reads a zone record, or reports its first fault. -/
def ofRecord (id : String) (b : Bytes) : Except Fault Table :=
  match readCounts b with
  | .error f => .error f
  | .ok c =>
    match fault? b c with
    | some f => .error f
    | none => .ok {
        id
        transitions := (rawTransitions b c).toArray
        types := (offsetTypes b c).toArray
        firstStandard := (offsetTypes b c).findIdx fun t => !t.isDst }

end TimeZones.Table
