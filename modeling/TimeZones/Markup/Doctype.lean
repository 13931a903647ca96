import TimeZones.Markup.Text

/-! Finding the end of a document type declaration. -/
namespace TimeZones.Markup

/-- The quote that is open after a character, if any. -/
def quoteAfter (quote : Option Char) (c : Char) : Option Char :=
  match quote with
  | none => if c = '"' ∨ c = '\'' then some c else none
  | some q => if c = q then none else some q

/-- The number of characters `mark` that come together at the end, after one more character. -/
def countAfter (mark : Char) (n : Nat) (c : Char) : Nat := if c = mark then n + 1 else 0

namespace Doctype

/-- Where a scan stands: before, in or after the brackets of the internal subset, or in markup
within it, of which `seen` is what has been read while its kind is open. -/
inductive State where
  | before (quote : Option Char)
  | subset
  | markup (seen : List Char)
  | comment (dashes : Nat)
  | instruction (questions : Nat)
  | declaration (quote : Option Char)
  | other
  | after

/-- How markup starts whose end is not simply the next angle bracket. -/
def kinds : List (List Char × State) :=
  [("?".toList, .instruction 0),
   ("!--".toList, .comment 0),
   ("!ENTITY".toList, .declaration none),
   ("!ATTLIST".toList, .declaration none),
   ("!NOTATION".toList, .declaration none)]

/-- Stops at the angle bracket that ends the declaration. -/
def step (s : State) (c : Char) : Option State :=
  match s with
  | .before (some q) => some (.before (quoteAfter (some q) c))
  | .before none =>
    if c = '>' then none else if c = '[' then some .subset
    else some (.before (quoteAfter none c))
  | .subset => some (if c = ']' then .after else if c = '<' then .markup [] else .subset)
  | .markup seen =>
    let seen := seen ++ [c]
    match kinds.lookup seen with
    | some s => some s
    | none =>
      some (if kinds.any (seen.isPrefixOf ·.1) then .markup seen
        else if c = '>' then .subset else .other)
  | .comment n => some (if c = '>' ∧ 2 ≤ n then .subset else .comment (countAfter '-' n c))
  | .instruction n => some (if c = '>' ∧ 1 ≤ n then .subset else .instruction (countAfter '?' n c))
  | .declaration none =>
    some (if c = '>' then .subset else .declaration (quoteAfter none c))
  | .declaration (some q) => some (.declaration (quoteAfter (some q) c))
  | .other => some (if c = '>' then .subset else .other)
  | .after => if c = '>' then none else some .after

end Doctype

end TimeZones.Markup
