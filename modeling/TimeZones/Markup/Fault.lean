/-! What can be wrong with marked-up text. -/
namespace TimeZones.Markup

/-- A character reference whose number is not that of a character. -/
inductive NumberFault where
  | sign
  | noDigits
  | badDigit
  | tooLarge
  | zero
  | noCharacter (number : Nat)
  deriving DecidableEq

def NumberFault.message (f : NumberFault) : String :=
  let detail := match f with
    | .sign => "unexpected number sign"
    | .noDigits => "cannot parse integer from empty string"
    | .badDigit => "invalid digit found in string"
    | .tooLarge => "number too large to fit in target type"
    | .zero => "0x0 character is not permitted in XML"
    | .noCharacter n => s!"`{n}` is not a valid codepoint"
  s!"invalid character reference: {detail}"

/-- A faulty attribute. Positions are bytes from the start of the tag's name, ranges are bytes
from the start of the value. -/
inductive AttributeFault where
  | noEquals (position : Nat)
  | duplicate (position previous : Nat)
  | noValue (position : Nat)
  | notQuoted (position : Nat)
  | notClosed (position : Nat) (quote : Char)
  | noSemicolon (start stop : Nat)
  | number (fault : NumberFault)
  | unknownEntity (start stop : Nat) (name : String)
  deriving DecidableEq

def AttributeFault.message : AttributeFault → String
  | .noEquals p => s!"position {p}: attribute key must be directly followed by `=` or space"
  | .duplicate p q =>
    s!"position {p}: duplicated attribute, previous declaration at position {q}"
  | .noValue p => s!"position {p}: `=` must be followed by an attribute value"
  | .notQuoted p => s!"position {p}: attribute value must be enclosed in `\"` or `'`"
  | .notClosed p q => s!"position {p}: missing closing quote `{q}` in attribute value"
  | .noSemicolon a b =>
    s!"Error while escaping character at range {a}..{b}: Cannot find ';' after '&'"
  | .number f => f.message
  | .unknownEntity a b n => s!"at {a}..{b}: unrecognized entity `{n}`"

inductive Fault where
  | tagNotClosed
  | quoteNotClosed (quote : Char)
  | unknownMarkup
  | commentNotClosed
  | cdataNotClosed
  | doctypeNotClosed
  | doctypeWithoutName
  | declarationNotClosed
  | instructionNotClosed
  | referenceNotClosed
  | closeWithoutOpen (name : String)
  | closeMismatch (opened closed : String)
  | number (fault : NumberFault)
  | unknownEntity (name : String)
  | inTag (fault : AttributeFault)
  deriving DecidableEq

def Fault.message : Fault → String
  | .tagNotClosed => "syntax error: tag not closed: `>` not found before end of input"
  | .quoteNotClosed q =>
    s!"syntax error: attribute value not closed: `{q}` not found before end of input"
  | .unknownMarkup => "syntax error: unknown or missed symbol in markup"
  | .commentNotClosed => "syntax error: comment not closed: `-->` not found before end of input"
  | .cdataNotClosed => "syntax error: CDATA not closed: `]]>` not found before end of input"
  | .doctypeNotClosed => "syntax error: DOCTYPE not closed: `>` not found before end of input"
  | .doctypeWithoutName =>
    "ill-formed document: `<!DOCTYPE>` declaration does not contain a name of a document type"
  | .declarationNotClosed =>
    "syntax error: XML declaration not closed: `?>` not found before end of input"
  | .instructionNotClosed =>
    "syntax error: processing instruction not closed: `?>` not found before end of input"
  | .referenceNotClosed =>
    "ill-formed document: entity or character reference not closed: " ++
      "`;` not found before end of input"
  | .closeWithoutOpen n => s!"ill-formed document: close tag `</{n}>` does not match any open tag"
  | .closeMismatch o n => s!"ill-formed document: expected `</{o}>`, but `</{n}>` was found"
  | .number f => f.message
  | .unknownEntity n => s!"unknown entity `&{n};`"
  | .inTag f => f.message

/-- A fault and the number of bytes read when it was found. -/
structure Error where
  position : Nat
  fault : Fault
  deriving DecidableEq

def Error.message (e : Error) : String := s!"at byte {e.position}: {e.fault.message}"

end TimeZones.Markup
