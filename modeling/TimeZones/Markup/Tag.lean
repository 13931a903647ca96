import TimeZones.Markup.Reference
import TimeZones.Markup.Text

/-! Tags: a name and attributes. -/
namespace TimeZones.Markup

/-- Attributes are in order of appearance and have different keys. -/
structure Tag where
  name : String
  attributes : List (String × String)
  deriving DecidableEq

namespace Tag

def attribute? (t : Tag) (key : String) : Option String := t.attributes.lookup key

/-- Whether a character belongs to the name of a reference. -/
def inReference (c : Char) : Bool := c ≠ '&' && c ≠ ';'

/-- Replaces the references in the value of an attribute, of `length` bytes in all. -/
def unescape (length : Nat) : List Char → Except AttributeFault (List Char)
  | [] => .ok []
  | '&' :: cs =>
    match _h : cs.dropWhile inReference with
    | ';' :: rest =>
      let name := cs.takeWhile inReference
      let start := length - byteLength cs
      match resolve name with
      | .error f => .error (.number f)
      | .ok none =>
        .error (.unknownEntity start (start + byteLength name) (String.ofList name))
      | .ok (some c) => (unescape length rest).map (c :: ·)
    | _ => .error (.noSemicolon (length - byteLength ('&' :: cs)) length)
  | c :: cs => (unescape length cs).map (c :: ·)
termination_by cs => cs.length
decreasing_by
  · have := length_dropWhile_le inReference cs
    simp_all
    omega
  · simp

/-- Whether a character after the first belongs to the key of an attribute. -/
def inKey (c : Char) : Bool := c ≠ '=' && !isSpace c

/-- Splits off a value in quotes, in a tag of `length` bytes. -/
def quotedValue (length : Nat) (cs : List Char) :
    Except AttributeFault (List Char × List Char) :=
  match cs.dropWhile isSpace with
  | [] => .error (.noValue length)
  | q :: cs =>
    if q = '"' ∨ q = '\'' then
      match cs.dropWhile (· ≠ q) with
      | [] => .error (.notClosed length q)
      | _ :: rest => .ok (cs.takeWhile (· ≠ q), rest)
    else .error (.notQuoted (length - byteLength (q :: cs)))

theorem length_of_quotedValue {length : Nat} {cs value rest : List Char}
    (h : quotedValue length cs = .ok (value, rest)) : rest.length < cs.length := by
  have h1 := length_dropWhile_le isSpace cs
  unfold quotedValue at h
  split at h
  · simp at h
  · rename_i q cs' hq
    have h2 := length_dropWhile_le (· ≠ q) cs'
    split at h
    · split at h
      · simp at h
      · simp_all
        omega
    · simp at h

/-- Splits off the rest of a key and the equals sign. -/
def keyEnd (length : Nat) (cs : List Char) : Except AttributeFault (List Char × List Char) :=
  match (cs.dropWhile inKey).dropWhile isSpace with
  | '=' :: rest => .ok (cs.takeWhile inKey, rest)
  | rest => .error (.noEquals (length - byteLength rest))

theorem length_of_keyEnd {length : Nat} {cs key rest : List Char}
    (h : keyEnd length cs = .ok (key, rest)) : rest.length < cs.length := by
  have h1 := length_dropWhile_le inKey cs
  have h2 := length_dropWhile_le isSpace (cs.dropWhile inKey)
  unfold keyEnd at h
  split at h
  · simp_all
    omega
  · simp at h

/-- Reads attributes up to the end of a tag of `length` bytes. The keys before, with the positions
where they start, are `seen`. -/
def readAttributes (length : Nat) (seen : List (List Char × Nat)) (cs : List Char) :
    Except AttributeFault (List (String × String)) :=
  match _h : cs.dropWhile isSpace with
  | [] => .ok []
  | k :: cs₁ =>
    match _hk : keyEnd length cs₁ with
    | .error f => .error f
    | .ok (key, cs₂) =>
      let position := length - byteLength (k :: cs₁)
      match seen.lookup (k :: key) with
      | some previous => .error (.duplicate position previous)
      | none =>
        match _hv : quotedValue length cs₂ with
        | .error f => .error f
        | .ok (value, rest) =>
          match unescape (byteLength value) value with
          | .error f => .error f
          | .ok value =>
            (readAttributes length ((k :: key, position) :: seen) rest).map
              ((String.ofList (k :: key), String.ofList value) :: ·)
termination_by cs.length
decreasing_by
  have h1 := length_dropWhile_le isSpace cs
  have h2 := length_of_keyEnd _hk
  have h3 := length_of_quotedValue _hv
  simp_all
  omega

/-- Reads what stands between the angle brackets: a name, which runs to the first space, and
attributes. -/
def ofContent (content : List Char) : Except AttributeFault Tag :=
  (readAttributes (byteLength content) [] (content.dropWhile (!isSpace ·))).map fun attributes =>
    ⟨String.ofList (content.takeWhile (!isSpace ·)), attributes⟩

end Tag

end TimeZones.Markup
