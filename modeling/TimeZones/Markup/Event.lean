import TimeZones.Markup.Tag
import TimeZones.Markup.TokenLength

/-! Events: the tags and the text of a document in order, as a reader of the document meets them. -/
namespace TimeZones.Markup

/-- An element without content is one `empty` event, any other a `start` and a `close`. -/
inductive Event where
  | start (tag : Tag)
  | empty (tag : Tag)
  | close
  | text (s : String)
  deriving DecidableEq

/-- What has been read, in order, up to the end of the input or to an error. -/
structure Reading (ε α : Type) where
  items : List α
  error : Option ε

namespace Reading
variable {ε α : Type}

def push (a : α) (r : Reading ε α) : Reading ε α := { r with items := a :: r.items }

end Reading

/-- Reads all tokens, each with the input that is left after it. -/
def tokens (cs : List Char) : Reading Stop (Token × List Char) :=
  match _h : cs.dropWhile isSpace with
  | [] => ⟨[], none⟩
  | c :: cs₁ =>
    match _hn : Token.next c cs₁ with
    | .error s => ⟨[], some s⟩
    | .ok (t, rest) => (tokens rest).push (t, rest)
termination_by cs.length
decreasing_by
  have h1 := length_dropWhile_le isSpace cs
  have h2 := Token.next_length _hn
  simp_all
  omega

namespace Event

/-- Turns tokens into events, with the names of the open elements given, innermost first. -/
def ofTokens : List String → List (Token × List Char) → Reading Stop Event
  | _, [] => ⟨[], none⟩
  | opened, (t, rest) :: ts =>
    match t with
    | .ignored => ofTokens opened ts
    | .text s => (ofTokens opened ts).push (.text (String.ofList s))
    | .reference name =>
      match resolve name with
      | .error f => ⟨[], some ⟨.number f, rest⟩⟩
      | .ok none => ⟨[], some ⟨.unknownEntity (String.ofList name), rest⟩⟩
      | .ok (some c) => (ofTokens opened ts).push (.text (String.ofList [c]))
    | .start content =>
      match Tag.ofContent content with
      | .error f => ⟨[], some ⟨.inTag f, rest⟩⟩
      | .ok tag => (ofTokens (tag.name :: opened) ts).push (.start tag)
    | .empty content =>
      match Tag.ofContent content with
      | .error f => ⟨[], some ⟨.inTag f, rest⟩⟩
      | .ok tag => (ofTokens opened ts).push (.empty tag)
    | .close name =>
      match opened with
      | [] => ⟨[], some ⟨.closeWithoutOpen (String.ofList name), rest⟩⟩
      | o :: opened =>
        if o = String.ofList name then (ofTokens opened ts).push .close
        else ⟨[], some ⟨.closeMismatch o (String.ofList name), rest⟩⟩

end Event

/-- Drops one byte order mark at the start. -/
def dropMark (cs : List Char) : List Char :=
  match cs with
  | '\uFEFF' :: rest => rest
  | _ => cs

/-- Reads the events of a document. Positions do not count a byte order mark. -/
def events (text : String) : Reading Error Event :=
  let cs := dropMark text.toList
  let ts := tokens cs
  let es := Event.ofTokens [] ts.items
  ⟨es.items, (es.error.or ts.error).map fun s => ⟨byteLength cs - byteLength s.rest, s.fault⟩⟩

end TimeZones.Markup
