import TimeZones.Markup.Doctype
import TimeZones.Markup.Fault

/-! Tokens of marked-up text. Space next to markup and references belongs to no token. -/
namespace TimeZones.Markup

/-- A piece of the input. Tags and references are still as written, without their delimiters.
Comments, instructions and document types are `ignored`. -/
inductive Token where
  | text (s : List Char)
  | reference (name : List Char)
  | start (content : List Char)
  | empty (content : List Char)
  | close (name : List Char)
  | ignored
  deriving DecidableEq

/-- A fault and the input that was left when it was found. -/
structure Stop where
  fault : Fault
  rest : List Char

namespace Token

/-- A reference, after its ampersand. -/
def reference? (cs : List Char) : Except Stop (Token × List Char) :=
  match cs.dropWhile (fun c => c ≠ ';' && c ≠ '&' && c ≠ '<') with
  | ';' :: rest =>
    .ok (.reference (cs.takeWhile fun c => c ≠ ';' && c ≠ '&' && c ≠ '<'), rest)
  | rest => .error ⟨.referenceNotClosed, rest⟩

/-- Text up to the next markup or reference. -/
def plainText (cs : List Char) : Token × List Char :=
  (.text (trimEnd (cs.takeWhile fun c => c ≠ '<' && c ≠ '&')),
    cs.dropWhile fun c => c ≠ '<' && c ≠ '&')

/-- A comment, which ends at the first `-->` after its opening. -/
def comment? (cs : List Char) : Except Stop (Token × List Char) :=
  match splitAfter (fun n c => if c = '>' ∧ 2 ≤ n then none else some (countAfter '-' n c)) 0
      (cs.drop 3) with
  | .error _ => .error ⟨.commentNotClosed, []⟩
  | .ok (_, rest) =>
    if "!--".toList.isPrefixOf cs then .ok (.ignored, rest) else .error ⟨.commentNotClosed, rest⟩

/-- Character data, which is text as it stands. -/
def cdata? (cs : List Char) : Except Stop (Token × List Char) :=
  match splitAfter (fun n c => if c = '>' ∧ 2 ≤ n then none else some (countAfter ']' n c)) 0
      cs with
  | .error _ => .error ⟨.cdataNotClosed, []⟩
  | .ok (a, rest) =>
    if "![CDATA[".toList.isPrefixOf a then .ok (.text ((a.take (a.length - 3)).drop 8), rest)
    else .error ⟨.cdataNotClosed, rest⟩

/-- A document type, whose keyword may have either case and which must have some content. -/
def doctype? (cs : List Char) : Except Stop (Token × List Char) :=
  match splitAfter Doctype.step (.before none) cs with
  | .error _ => .error ⟨.doctypeNotClosed, []⟩
  | .ok (a, rest) =>
    if (a.take 8).map Char.toUpper ≠ "!DOCTYPE".toList then .error ⟨.doctypeNotClosed, rest⟩
    else if (a.drop 8).dropLast.all isSpace then .error ⟨.doctypeWithoutName, rest⟩
    else .ok (.ignored, rest)

/-- Whether an instruction that is not closed is an XML declaration. -/
def startsDeclaration (cs : List Char) : Bool :=
  "?xml".toList.isPrefixOf cs && (cs.drop 4).head?.all fun c => isSpace c || c = '?'

/-- A processing instruction, which ends at the first `?>` after its opening. -/
def instruction? (cs : List Char) : Except Stop (Token × List Char) :=
  match splitAfter (fun n c => if c = '>' ∧ 1 ≤ n then none else some (countAfter '?' n c)) 0
      cs with
  | .error _ =>
    .error ⟨if startsDeclaration cs then .declarationNotClosed else .instructionNotClosed, []⟩
  | .ok (a, rest) =>
    if a.length = 2 then .error ⟨.instructionNotClosed, rest⟩ else .ok (.ignored, rest)

/-- The name in a closing tag: spaces after it do not count, unless there is nothing else. -/
def closingName (cs : List Char) : List Char := if cs.all isSpace then cs else trimEnd cs

/-- A tag, which ends at the first angle bracket outside quotes. -/
def tag? (cs : List Char) : Except Stop (Token × List Char) :=
  match splitAfter (fun q c => if c = '>' ∧ q = none then none else some (quoteAfter q c)) none
      cs with
  | .error none => .error ⟨.tagNotClosed, []⟩
  | .error (some q) => .error ⟨.quoteNotClosed q, []⟩
  | .ok (a, rest) =>
    let content := a.dropLast
    match content with
    | '/' :: name => .ok (.close (closingName name), rest)
    | _ =>
      if content.getLast? = some '/' then .ok (.empty content.dropLast, rest)
      else .ok (.start content, rest)

/-- Markup, after its opening angle bracket. -/
def markup? (cs : List Char) : Except Stop (Token × List Char) :=
  match cs with
  | [] => .error ⟨.tagNotClosed, '<' :: cs⟩
  | '!' :: '-' :: _ => comment? cs
  | '!' :: '[' :: _ => cdata? cs
  | '!' :: 'D' :: _ => doctype? cs
  | '!' :: 'd' :: _ => doctype? cs
  | '!' :: _ => .error ⟨.unknownMarkup, '<' :: cs⟩
  | '?' :: _ => instruction? cs
  | _ => tag? cs

/-- The token that starts with a character other than space. -/
def next (c : Char) (cs : List Char) : Except Stop (Token × List Char) :=
  if c = '<' then markup? cs
  else if c = '&' then reference? cs
  else .ok (plainText (c :: cs))

end Token

end TimeZones.Markup
