import TimeZones.Country.Basic
import TimeZones.Markup.Event
import TimeZones.Text.Blank

/-! The elements of a configuration document: `country`, and in it `id`. Other elements and
attributes are passed over.

Every function reads events from the front and returns what is left. The fault for events that run
out is `ended`. -/
namespace TimeZones.Country
open Markup

/-- Passes over events up to the one that closes the element around them. Of the elements within,
`depth` are open already. -/
def skip (ended : Fault) : Nat → List Event → Except Fault (List Event)
  | _, [] => .error ended
  | depth, .start _ :: es => skip ended (depth + 1) es
  | 0, .close :: es => .ok es
  | depth + 1, .close :: es => skip ended depth es
  | depth, .empty _ :: es => skip ended depth es
  | depth, .text _ :: es => skip ended depth es

theorem length_of_skip {ended : Fault} {depth : Nat} {es rest : List Event}
    (h : skip ended depth es = .ok rest) : rest.length < es.length := by
  induction es generalizing depth with
  | nil => simp [skip] at h
  | cons e es ih =>
    cases e with
    | close =>
      cases depth with
      | zero => simp_all [skip]
      | succ depth => have := ih (by simpa [skip] using h); simp; omega
    | _ => have := ih (by simpa [skip] using h); simp; omega

/-- The text of an element `id`, which may not hold other elements. -/
def idText (ended : Fault) : List Event → Except Fault (String × List Event)
  | [] => .error ended
  | .text s :: es => (idText ended es).map fun (text, rest) => (s ++ text, rest)
  | .start t :: _ => .error (.unexpectedChild "id" t.name)
  | .empty t :: _ => .error (.unexpectedChild "id" t.name)
  | .close :: es => .ok ("", es)

theorem length_of_idText {ended : Fault} {es rest : List Event} {text : String}
    (h : idText ended es = .ok (text, rest)) : rest.length < es.length := by
  induction es generalizing text with
  | nil => simp [idText] at h
  | cons e es ih =>
    cases e with
    | text s =>
      simp only [idText] at h
      cases hi : idText ended es with
      | error f => simp [hi, Except.map] at h
      | ok p =>
        simp only [hi, Except.map, Except.ok.injEq, Prod.mk.injEq] at h
        obtain ⟨-, rfl⟩ := h
        have := ih (show idText ended es = .ok (p.1, p.2) from hi)
        simp
        omega
    | close => simp_all [idText]
    | _ => simp [idText] at h

/-- The value of an attribute that says yes or no. -/
def flag (t : Tag) (key : String) (absent : Bool) : Except Fault Bool :=
  match t.attribute? key with
  | none => .ok absent
  | some "y" => .ok true
  | some "n" => .ok false
  | some v => .error (.invalidAttribute t.name key v)

/-- Reads decimal digits, of which there must be one. -/
def decimal? (cs : List Char) : Option Nat :=
  if cs = [] ∨ !cs.all Char.isDigit then none
  else some (cs.foldl (fun n c => 10 * n + (c.toNat - '0'.toNat)) 0)

/-- Reads a 64-bit number, which may have a sign. -/
def int64? (s : String) : Option Int :=
  let value := match s.toList with
    | '-' :: cs => (decimal? cs).map fun n => -(n : Int)
    | '+' :: cs => (decimal? cs).map Int.ofNat
    | cs => (decimal? cs).map Int.ofNat
  value.filter fun n => Int64.minValue.toInt ≤ n ∧ n ≤ Int64.maxValue.toInt

/-- What the tag of an element `id` says: whether to show it, and until when it is used. -/
def idTag (t : Tag) : Except Fault (Bool × Option Int) := do
  let showInPicker ← flag t "picker" true
  match t.attribute? "notafter" with
  | none => return (showInPicker, none)
  | some v =>
    match int64? v with
    | none => throw (.invalidAttribute "id" "notafter" v)
    | some n => return (showInPicker, some n)

/-- The mapping that an element `id` with the given text describes. -/
def mapping (head : Bool × Option Int) (text : String) : Except Fault Mapping :=
  let id := Text.trim text
  if id = "" then .error .emptyId else .ok ⟨id, head.1, head.2⟩

/-- Reads an element `id` after its tag. -/
def readMapping (ended : Fault) (t : Tag) (es : List Event) :
    Except Fault (Mapping × List Event) := do
  let head ← idTag t
  let (text, rest) ← idText ended es
  return (← mapping head text, rest)

theorem length_of_readMapping {ended : Fault} {t : Tag} {es rest : List Event} {m : Mapping}
    (h : readMapping ended t es = .ok (m, rest)) : rest.length < es.length := by
  unfold readMapping at h
  cases ht : idTag t with
  | error f => simp [ht, bind, Except.bind] at h
  | ok head =>
    cases hi : idText ended es with
    | error f => simp [ht, hi, bind, Except.bind] at h
    | ok p =>
      cases hm : mapping head p.1 with
      | error f => simp [ht, hi, hm, bind, Except.bind] at h
      | ok m' =>
        simp [ht, hi, hm, bind, Except.bind, pure, Except.pure] at h
        obtain ⟨-, rfl⟩ := h
        exact length_of_idText hi

/-- Reads the content of an element `country`. -/
def readMappings (ended : Fault) : List Event → Except Fault (List Mapping × List Event)
  | [] => .error ended
  | .close :: es => .ok ([], es)
  | .text _ :: es => readMappings ended es
  | .empty t :: es =>
    if t.name = "id" then
      match idTag t with
      | .error f => .error f
      | .ok _ => .error .emptyId
    else readMappings ended es
  | .start t :: es =>
    if t.name = "id" then
      match _h : readMapping ended t es with
      | .error f => .error f
      | .ok (m, es) => (readMappings ended es).map fun (ms, rest) => (m :: ms, rest)
    else
      match _h : skip ended 0 es with
      | .error f => .error f
      | .ok es => readMappings ended es
termination_by es => es.length
decreasing_by
  all_goals simp
  · have := length_of_readMapping _h
    omega
  · have := length_of_skip _h
    omega

theorem length_of_readMappings {ended : Fault} {es rest : List Event} {ms : List Mapping}
    (h : readMappings ended es = .ok (ms, rest)) : rest.length < es.length := by
  fun_induction readMappings ended es generalizing ms with
  | case1 => simp at h
  | case2 => simp_all
  | case3 _ es ih => have := ih h; simp; omega
  | case4 => simp at h
  | case5 => simp at h
  | case6 t es ht ih => have := ih h; simp; omega
  | case7 => simp at h
  | case8 t es ht m es' hm ih =>
    cases hr : readMappings ended es' with
    | error f => simp [hr, Except.map] at h
    | ok p =>
      simp only [hr, Except.map, Except.ok.injEq, Prod.mk.injEq] at h
      obtain ⟨-, rfl⟩ := h
      have := ih (show readMappings ended es' = .ok (p.1, p.2) from hr)
      have := length_of_readMapping hm
      simp
      omega
  | case9 => simp at h
  | case10 t es ht es' hs ih =>
    have := ih h
    have := length_of_skip hs
    simp
    omega

/-- What the tag of an element `country` says. Without a default it is refused in strict mode. -/
def countryTag (mode : Mode) (t : Tag) : Except Fault (String × Option String × Bool) :=
  match t.attribute? "code" with
  | none => .error (.missingAttribute "country" "code")
  | some code =>
    let defaultId := t.attribute? "default"
    if mode = .strict ∧ defaultId = none then .error (.missingAttribute "country" "default")
    else (flag t "everutc" false).map fun everUsesUtc => (code.toLower, defaultId, everUsesUtc)

/-- A default that a list of mappings does not hold. -/
def missingDefault? (defaultId : Option String) (mappings : List Mapping) : Option String :=
  defaultId.filter fun id => !mappings.any (·.id = id)

/-- The country that a tag and mappings describe. Its default must be one of them in strict mode. -/
def country (mode : Mode) (head : String × Option String × Bool) (mappings : List Mapping) :
    Except Fault CountryZones :=
  let (code, defaultId, everUsesUtc) := head
  match mode, missingDefault? defaultId mappings with
  | .strict, some id => .error (.defaultNotCandidate code id)
  | _, _ => .ok ⟨code, defaultId, everUsesUtc, mappings⟩

/-- Reads an element `country` after its tag. -/
def readCountry (ended : Fault) (mode : Mode) (t : Tag) (es : List Event) :
    Except Fault (CountryZones × List Event) := do
  let head ← countryTag mode t
  let (mappings, rest) ← readMappings ended es
  return (← country mode head mappings, rest)

theorem length_of_readCountry {ended : Fault} {mode : Mode} {t : Tag} {es rest : List Event}
    {c : CountryZones} (h : readCountry ended mode t es = .ok (c, rest)) :
    rest.length < es.length := by
  unfold readCountry at h
  cases ht : countryTag mode t with
  | error f => simp [ht, bind, Except.bind] at h
  | ok head =>
    cases hm : readMappings ended es with
    | error f => simp [ht, hm, bind, Except.bind] at h
    | ok p =>
      cases hc : country mode head p.1 with
      | error f => simp [ht, hm, hc, bind, Except.bind] at h
      | ok c' =>
        simp [ht, hm, hc, bind, Except.bind, pure, Except.pure] at h
        obtain ⟨-, rfl⟩ := h
        exact length_of_readMappings hm

end TimeZones.Country
