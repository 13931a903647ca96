import TimeZones.Markup.Fault

/-! References: names and numbers that stand for characters. -/
namespace TimeZones.Markup

/-- The five predefined entities. -/
def entity? (name : String) : Option Char :=
  match name with
  | "lt" => some '<'
  | "gt" => some '>'
  | "amp" => some '&'
  | "apos" => some '\''
  | "quot" => some '"'
  | _ => none

/-- The value of a digit, of either case. -/
def digit? (radix : Nat) (c : Char) : Option Nat :=
  let value :=
    if '0' ≤ c ∧ c ≤ '9' then some (c.toNat - '0'.toNat)
    else if 'a' ≤ c ∧ c ≤ 'f' then some (c.toNat - 'a'.toNat + 10)
    else if 'A' ≤ c ∧ c ≤ 'F' then some (c.toNat - 'A'.toNat + 10)
    else none
  value.filter (· < radix)

/-- Reads digits into a number of at most 32 bits, with `n` read so far. -/
def number (radix : Nat) : Nat → List Char → Except NumberFault Nat
  | n, [] => .ok n
  | n, c :: cs =>
    match digit? radix c with
    | none => .error .badDigit
    | some d =>
      if UInt32.size ≤ n * radix + d then .error .tooLarge else number radix (n * radix + d) cs

/-- Reads digits without a sign, of which there must be one. -/
def unsigned (radix : Nat) : List Char → Except NumberFault Nat
  | [] => .error .noDigits
  | '+' :: _ => .error .sign
  | '-' :: _ => .error .sign
  | cs => number radix 0 cs

/-- The character with a number: hexadecimal after an x, otherwise decimal. -/
def numbered (cs : List Char) : Except NumberFault Char :=
  let value := match cs with
    | 'x' :: ds => unsigned 16 ds
    | ds => unsigned 10 ds
  match value with
  | .error f => .error f
  | .ok n =>
    if n = 0 then .error .zero
    else if n.isValidChar then .ok (.ofNat n)
    else .error (.noCharacter n)

/-- The character that a reference stands for. An unknown name gives `none`. -/
def resolve (name : List Char) : Except NumberFault (Option Char) :=
  match name with
  | '#' :: cs => (numbered cs).map some
  | _ => .ok (entity? (String.ofList name))

end TimeZones.Markup
