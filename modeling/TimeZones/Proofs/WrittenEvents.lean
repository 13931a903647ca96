import TimeZones.Proofs.ElementTree
import TimeZones.Proofs.WrittenTokens

/-! Texts and the events they are read as. A text that is written of whole pieces leads from the
elements that are open before it to those that are open behind it. -/
namespace TimeZones.Markup

variable {cs p q : List Char} {t : Token} {ts us : List Token} {es fs : List Event}
  {o o₁ o₂ : List String}

/-- The event of a token, if it has one, and the elements that are open behind it. There is nothing
if the token is at fault. -/
def tokenEvents (opened : List String) : Token → Option (List Event × List String)
  | .ignored => some ([], opened)
  | .text s => some ([.text (String.ofList s)], opened)
  | .reference name =>
    match resolve name with
    | .ok (some c) => some ([.text (String.ofList [c])], opened)
    | _ => none
  | .start content => (Tag.ofContent content).toOption.map fun tag =>
      ([.start tag], tag.name :: opened)
  | .empty content => (Tag.ofContent content).toOption.map fun tag => ([.empty tag], opened)
  | .close name =>
    match opened with
    | [] => none
    | o :: opened => if o = String.ofList name then some ([.close], opened) else none

/-- The events of tokens, up to one that is at fault. -/
def eventList (opened : List String) : List Token → List Event
  | [] => []
  | t :: ts =>
    match tokenEvents opened t with
    | none => []
    | some (es, opened) => es ++ eventList opened ts

/-- The tokens `ts` are read as the events `es`, one after the other. -/
inductive Reads : List String → List Token → List Event → List String → Prop where
  | nil (opened : List String) : Reads opened [] [] opened
  | cons {opened opened₁ opened₂ : List String} {t : Token} {ts : List Token}
      {es fs : List Event} : tokenEvents opened t = some (es, opened₁) →
      Reads opened₁ ts fs opened₂ → Reads opened (t :: ts) (es ++ fs) opened₂

/-- The text `cs` is written of whole pieces and read as the events `es`. -/
def Yields (opened : List String) (cs : List Char) (es : List Event) (opened' : List String) :
    Prop :=
  ∃ ts, Lexes cs ts ∧ Reads opened ts es opened'

theorem ofTokens_cons (opened : List String) (t : Token) (rest : List Char)
    (ts : List (Token × List Char)) :
    match tokenEvents opened t with
    | none => (Event.ofTokens opened ((t, rest) :: ts)).items = [] ∧
        (Event.ofTokens opened ((t, rest) :: ts)).error ≠ none
    | some (es, opened') =>
        (Event.ofTokens opened ((t, rest) :: ts)).items =
          es ++ (Event.ofTokens opened' ts).items ∧
        (Event.ofTokens opened ((t, rest) :: ts)).error = (Event.ofTokens opened' ts).error := by
  cases t with
  | ignored => exact ⟨rfl, rfl⟩
  | text s => exact ⟨rfl, rfl⟩
  | reference name =>
    rw [tokenEvents, Event.ofTokens]
    cases hr : resolve name with
    | error f => exact ⟨rfl, fun h => (by cases h)⟩
    | ok c =>
      cases c with
      | none => exact ⟨rfl, fun h => (by cases h)⟩
      | some c => exact ⟨rfl, rfl⟩
  | start content =>
    rw [tokenEvents, Event.ofTokens]
    cases Tag.ofContent content with
    | error f => exact ⟨rfl, fun h => (by cases h)⟩
    | ok tag => exact ⟨rfl, rfl⟩
  | empty content =>
    rw [tokenEvents, Event.ofTokens]
    cases Tag.ofContent content with
    | error f => exact ⟨rfl, fun h => (by cases h)⟩
    | ok tag => exact ⟨rfl, rfl⟩
  | close name =>
    cases opened with
    | nil => exact ⟨rfl, fun h => (by cases h)⟩
    | cons o opened =>
      rw [tokenEvents, Event.ofTokens]
      by_cases h : o = String.ofList name
      · rw [if_pos h, if_pos h]
        exact ⟨rfl, rfl⟩
      · rw [if_neg h, if_neg h]
        exact ⟨rfl, fun h => (by cases h)⟩

/-- The input that is left after each token does not matter for the events. -/
theorem items_ofTokens (opened : List String) (ts : List (Token × List Char)) :
    (Event.ofTokens opened ts).items = eventList opened (ts.map (·.1)) := by
  induction ts generalizing opened with
  | nil => rfl
  | cons p ts ih =>
    obtain ⟨t, rest⟩ := p
    have h := ofTokens_cons opened t rest ts
    rw [List.map_cons, eventList]
    split at h
    · rename_i hnone
      dsimp only
      rw [hnone]
      exact h.1
    · rename_i es opened' hsome
      dsimp only
      rw [hsome, h.1, ih]

theorem items_events (text : String) :
    (events text).items = eventList [] (tokenList (dropMark text.toList)) :=
  items_ofTokens [] _

namespace Reads

theorem single (h : tokenEvents o t = some (es, o₁)) : Reads o [t] es o₁ := by
  rw [← List.append_nil es]
  exact .cons h (.nil o₁)

theorem append (h : Reads o ts es o₁) (h' : Reads o₁ us fs o₂) :
    Reads o (ts ++ us) (es ++ fs) o₂ := by
  induction h with
  | nil => exact h'
  | cons ht _ ih =>
    rw [List.cons_append, List.append_assoc]
    exact .cons ht (ih h')

theorem eventList_append (h : Reads o ts es o₁) (us : List Token) :
    eventList o (ts ++ us) = es ++ eventList o₁ us := by
  induction h with
  | nil => rfl
  | cons ht _ ih =>
    rw [List.cons_append, eventList, ht]
    dsimp only
    rw [ih, List.append_assoc]

theorem eventList_eq (h : Reads o ts es o₁) : eventList o ts = es := by
  have := h.eventList_append []
  rwa [List.append_nil, eventList, List.append_nil] at this

/-- What is read of tokens is told by them. -/
theorem unique (h : Reads o ts es o₁) (h' : Reads o ts fs o₂) : es = fs ∧ o₁ = o₂ := by
  induction h generalizing fs with
  | nil =>
    cases h'
    exact ⟨rfl, rfl⟩
  | cons ht _ ih =>
    cases h' with
    | cons ht' h' =>
      obtain ⟨rfl, rfl⟩ := Prod.mk.inj (Option.some.inj (ht.symm.trans ht'))
      obtain ⟨rfl, rfl⟩ := ih h'
      exact ⟨rfl, rfl⟩

theorem of_append (h : Reads o (ts ++ us) es o₂) :
    ∃ es₁ es₂ o₁, es = es₁ ++ es₂ ∧ Reads o ts es₁ o₁ ∧ Reads o₁ us es₂ o₂ := by
  induction ts generalizing o es with
  | nil => exact ⟨[], es, o, rfl, .nil o, h⟩
  | cons t ts ih =>
    cases h with
    | cons ht h =>
      obtain ⟨es₁, es₂, o₁, rfl, h₁, h₂⟩ := ih h
      exact ⟨_, es₂, o₁, (List.append_assoc ..).symm, .cons ht h₁, h₂⟩

/-- The events of the first tokens come first. -/
theorem of_prefix (h : Reads o ts es o₁) (hus : us <+: ts) :
    ∃ fs o', Reads o us fs o' ∧ fs <+: es := by
  induction h generalizing us with
  | nil opened =>
    obtain rfl := List.prefix_nil.mp hus
    exact ⟨[], opened, .nil opened, List.prefix_rfl⟩
  | @cons opened _ _ t ts es fs ht _ ih =>
    cases us with
    | nil => exact ⟨[], opened, .nil opened, List.nil_prefix⟩
    | cons u us =>
      obtain ⟨rfl, htail⟩ := List.cons_prefix_cons.mp hus
      obtain ⟨gs, o', hread, hpre⟩ := ih htail
      exact ⟨es ++ gs, o', .cons ht hread, (List.prefix_append_right_inj es).mpr hpre⟩

end Reads

/-- The names of the open elements behind events, innermost first. -/
def openAfter : List String → List Event → List String
  | o, [] => o
  | o, .start t :: es => openAfter (t.name :: o) es
  | o, .close :: es => openAfter o.tail es
  | o, .empty _ :: es => openAfter o es
  | o, .text _ :: es => openAfter o es

theorem openAfter_append (o : List String) (es fs : List Event) :
    openAfter o (es ++ fs) = openAfter (openAfter o es) fs := by
  induction es generalizing o with
  | nil => rfl
  | cons e es ih =>
    cases e with
    | start t => exact ih _
    | close => exact ih _
    | empty t => exact ih _
    | text s => exact ih _

/-- The elements in a content are all closed in it. -/
theorem Content.openAfter_events (c : Content) (o : List String) : openAfter o c.events = o := by
  induction c generalizing o with
  | done => rfl
  | text s next ih => exact ih o
  | empty t next ih => exact ih o
  | element t content next ihc ihn =>
    rw [events, openAfter, openAfter_append, ihc, openAfter, ihn]
    rfl

/-- What a token can be read as. -/
theorem tokenEvents_cases (h : tokenEvents o t = some (es, o₁)) :
    (es = [] ∧ o₁ = o) ∨ (∃ s, es = [.text s] ∧ o₁ = o) ∨
      (∃ tag, es = [.start tag] ∧ o₁ = tag.name :: o) ∨ (∃ tag, es = [.empty tag] ∧ o₁ = o) ∨
      ∃ name, t = .close name ∧ es = [.close] ∧ o = String.ofList name :: o₁ := by
  cases t with
  | ignored =>
    obtain ⟨rfl, rfl⟩ := Prod.mk.inj (Option.some.inj h)
    exact Or.inl ⟨rfl, rfl⟩
  | text s =>
    obtain ⟨rfl, rfl⟩ := Prod.mk.inj (Option.some.inj h)
    exact Or.inr (Or.inl ⟨_, rfl, rfl⟩)
  | reference name =>
    rw [tokenEvents] at h
    split at h
    · obtain ⟨rfl, rfl⟩ := Prod.mk.inj (Option.some.inj h)
      exact Or.inr (Or.inl ⟨_, rfl, rfl⟩)
    · cases h
  | start content =>
    obtain ⟨tag, -, htag⟩ := Option.map_eq_some_iff.mp h
    obtain ⟨rfl, rfl⟩ := Prod.mk.inj htag
    exact Or.inr (Or.inr (Or.inl ⟨tag, rfl, rfl⟩))
  | empty content =>
    obtain ⟨tag, -, htag⟩ := Option.map_eq_some_iff.mp h
    obtain ⟨rfl, rfl⟩ := Prod.mk.inj htag
    exact Or.inr (Or.inr (Or.inr (Or.inl ⟨tag, rfl, rfl⟩)))
  | close name =>
    cases o with
    | nil => cases h
    | cons o opened =>
      rw [tokenEvents] at h
      split at h
      · rename_i ho
        obtain ⟨rfl, rfl⟩ := Prod.mk.inj (Option.some.inj h)
        exact Or.inr (Or.inr (Or.inr (Or.inr ⟨name, rfl, rfl, by rw [ho]⟩)))
      · cases h

theorem openAfter_of_tokenEvents (h : tokenEvents o t = some (es, o₁)) : openAfter o es = o₁ := by
  rcases tokenEvents_cases h with ⟨rfl, rfl⟩ | ⟨s, rfl, rfl⟩ | ⟨tag, rfl, rfl⟩ | ⟨tag, rfl, rfl⟩ |
    ⟨name, rfl, rfl, rfl⟩
  all_goals rfl

/-- Only an end tag closes an element. -/
theorem eq_close_of_tokenEvents (h : tokenEvents o t = some ([.close], o₁)) :
    ∃ name, t = .close name ∧ o = String.ofList name :: o₁ := by
  rcases tokenEvents_cases h with ⟨hes, -⟩ | ⟨s, hes, -⟩ | ⟨tag, hes, -⟩ | ⟨tag, hes, -⟩ |
    ⟨name, ht, -, ho⟩
  · cases hes
  · cases hes
  · cases hes
  · cases hes
  · exact ⟨name, ht, ho⟩

/-- A token has one event at most. -/
theorem eq_of_tokenEvents (h : tokenEvents o t = some (es, o₁)) : es = [] ∨ ∃ e, es = [e] := by
  rcases tokenEvents_cases h with ⟨rfl, -⟩ | ⟨s, rfl, -⟩ | ⟨tag, rfl, -⟩ | ⟨tag, rfl, -⟩ |
    ⟨name, -, rfl, -⟩
  · exact Or.inl rfl
  · exact Or.inr ⟨_, rfl⟩
  · exact Or.inr ⟨_, rfl⟩
  · exact Or.inr ⟨_, rfl⟩
  · exact Or.inr ⟨_, rfl⟩

theorem Reads.openAfter_eq (h : Reads o ts es o₁) : openAfter o es = o₁ := by
  induction h with
  | nil => rfl
  | cons ht _ ih => rw [openAfter_append, openAfter_of_tokenEvents ht, ih]

/-- An event comes of a token, which stands behind those that have been read before. -/
theorem exists_reads {e : Event} (h : eventList o ts = es ++ e :: fs) :
    ∃ ts₁ t ts₂ o₁ o₂, ts = ts₁ ++ t :: ts₂ ∧ Reads o ts₁ es o₁ ∧
      tokenEvents o₁ t = some ([e], o₂) := by
  induction ts generalizing o es with
  | nil => simp [eventList] at h
  | cons t ts ih =>
    rw [eventList] at h
    split at h
    · simp at h
    · rename_i gs o' ht
      rcases eq_of_tokenEvents ht with rfl | ⟨g, rfl⟩
      · obtain ⟨ts₁, u, ts₂, o₁, o₂, rfl, hread, hu⟩ := ih h
        exact ⟨t :: ts₁, u, ts₂, o₁, o₂, rfl, .cons ht hread, hu⟩
      · cases es with
        | nil =>
          obtain ⟨rfl, -⟩ := List.cons.inj h
          exact ⟨[], t, ts, o, o', rfl, .nil o, ht⟩
        | cons e' es =>
          obtain ⟨rfl, htail⟩ := List.cons.inj h
          obtain ⟨ts₁, u, ts₂, o₁, o₂, rfl, hread, hu⟩ := ih htail
          exact ⟨t :: ts₁, u, ts₂, o₁, o₂, rfl, .cons ht hread, hu⟩

theorem reads_of_ofTokens {ts : List (Token × List Char)}
    (h : (Event.ofTokens o ts).error = none) :
    ∃ o', Reads o (ts.map (·.1)) (Event.ofTokens o ts).items o' := by
  induction ts generalizing o with
  | nil => exact ⟨o, .nil o⟩
  | cons p ts ih =>
    obtain ⟨t, rest⟩ := p
    have hcons := ofTokens_cons o t rest ts
    split at hcons
    · exact (hcons.2 h).elim
    · rename_i es o₁ ht
      obtain ⟨hitems, herror⟩ := hcons
      obtain ⟨o', hread⟩ := ih (herror ▸ h)
      refine ⟨o', ?_⟩
      rw [hitems]
      exact .cons ht hread

theorem Reads.error_ofTokens {ts : List (Token × List Char)}
    (h : Reads o (ts.map (·.1)) es o₁) : (Event.ofTokens o ts).error = none := by
  induction ts generalizing o es with
  | nil => rfl
  | cons p ts ih =>
    obtain ⟨t, rest⟩ := p
    cases h with
    | cons ht hread =>
      have hcons := ofTokens_cons o t rest ts
      rw [ht] at hcons
      rw [hcons.2]
      exact ih hread

namespace Yields

theorem append (h : Yields o p es o₁) (h' : Yields o₁ q fs o₂) (hq : AtMarkup q) :
    Yields o (p ++ q) (es ++ fs) o₂ := by
  obtain ⟨ts, hp, hread⟩ := h
  obtain ⟨us, hq', hread'⟩ := h'
  exact ⟨ts ++ us, hp.append hq' hq, hread.append hread'⟩

/-- What is read before markup comes first, whatever comes then. -/
theorem eventList_append {s : List Char} (h : Yields o p es o₁) (hs : AtMarkup s) :
    eventList o (tokenList (p ++ s)) = es ++ eventList o₁ (tokenList s) := by
  obtain ⟨ts, hp, hread⟩ := h
  rw [(hp.precedes hs).1, hread.eventList_append]

theorem markup {u : List Char} (hu : IsMarkup u t) (ht : tokenEvents o t = some (es, o₁)) :
    Yields o u es o₁ := by
  refine ⟨[t], ?_, .single ht⟩
  have := Lexes.markup isPlain_nil hu (.plain isPlain_nil)
  rwa [plainTokens_nil, List.append_nil] at this

end Yields

/-- The event of plain text, if there is more in it than space. -/
def textEvents (v : List Char) : List Event :=
  match v.dropWhile isSpace with
  | [] => []
  | c :: v => [.text (String.ofList (trimEnd (c :: v)))]

theorem textEvents_nil : textEvents [] = [] := rfl

theorem textEvents_of_blank {w : List Char} (hw : IsBlank w) : textEvents w = [] := by
  rw [textEvents, List.dropWhile_eq_nil_iff.mpr hw]

theorem reads_plainTokens (o : List String) (v : List Char) :
    Reads o (plainTokens v) (textEvents v) o := by
  rw [plainTokens, textEvents]
  cases v.dropWhile isSpace with
  | nil => exact .nil o
  | cons c v => exact .single rfl

theorem IsPlain.yields {v : List Char} (hv : IsPlain v) (o : List String) :
    Yields o v (textEvents v) o :=
  ⟨_, .plain hv, reads_plainTokens o v⟩

/-- Plain text, markup, and what is read behind that. -/
theorem Yields.cons {v u : List Char} (hv : IsPlain v) (hu : IsMarkup u t)
    (ht : tokenEvents o t = some (es, o₁)) (h : Yields o₁ cs fs o₂) :
    Yields o (v ++ (u ++ cs)) (textEvents v ++ (es ++ fs)) o₂ := by
  obtain ⟨ts, hcs, hread⟩ := h
  exact ⟨_, .markup hv hu hcs, (reads_plainTokens o v).append (.cons ht hread)⟩

theorem IsMarkup.eventList_append {u : List Char} (hu : IsMarkup u t)
    (ht : tokenEvents o t = some (es, o₁)) (s : List Char) :
    eventList o (tokenList (u ++ s)) = es ++ eventList o₁ (tokenList s) := by
  rw [(hu.precedes s).1, (Reads.single ht).eventList_append]

theorem IsPlain.eventList_append {v s : List Char} (hv : IsPlain v) (hs : AtMarkup s)
    (o : List String) :
    eventList o (tokenList (v ++ s)) = textEvents v ++ eventList o (tokenList s) :=
  (hv.yields o).eventList_append hs

/-- What is read may end in plain text, which may go on. -/
theorem Yields.exists_plain (h : Yields o cs es o₁) :
    ∃ q v fs, cs = q ++ v ∧ IsPlain v ∧ openAfter o fs = o₁ ∧
      ∀ s, eventList o (tokenList (q ++ s)) = fs ++ eventList o₁ (tokenList s) := by
  obtain ⟨ts, hcs, hread⟩ := h
  obtain ⟨q, v, us, rfl, hv, rfl, hq⟩ := hcs.exists_plain
  obtain ⟨fs, gs, o₂, rfl, hread, htext⟩ := hread.of_append
  obtain ⟨-, rfl⟩ := htext.unique (reads_plainTokens o₂ v)
  refine ⟨q, v, fs, rfl, hv, hread.openAfter_eq, fun s => ?_⟩
  rw [(hq s).1, hread.eventList_append]

/-- A document that is read to its end is written of whole pieces. -/
theorem events_eq_iff {text : String} : (∃ o, Yields [] (dropMark text.toList) es o) ↔
    events text = ⟨es, none⟩ := by
  constructor
  · rintro ⟨o, ts, hlexes, hread⟩
    obtain ⟨htokens, herror⟩ := hlexes.tokenList_eq
    rw [← htokens, tokenList] at hread
    have hitems := items_events text
    rw [tokenList, hread.eventList_eq] at hitems
    rw [events] at hitems ⊢
    dsimp only at hitems ⊢
    rw [hitems, hread.error_ofTokens, herror]
    rfl
  · intro h
    have hitems := congrArg Reading.items h
    have herror := congrArg Reading.error h
    rw [events] at hitems herror
    dsimp only at hitems herror
    obtain ⟨hread, hlexes⟩ := Option.or_eq_none_iff.mp (Option.map_eq_none_iff.mp herror)
    obtain ⟨o, hreads⟩ := reads_of_ofTokens hread
    rw [hitems] at hreads
    exact ⟨o, tokenList _, lexes_of_tokens hlexes, hreads⟩

/-- A byte order mark does not depend on what follows. -/
theorem dropMark_append (hp : p ≠ []) (s : List Char) : dropMark (p ++ s) = dropMark p ++ s := by
  cases p with
  | nil => exact (hp rfl).elim
  | cons c p =>
    by_cases hc : c = '\uFEFF'
    · subst hc
      rfl
    · have hne (cs : List Char) : dropMark (c :: cs) = c :: cs := by
        unfold dropMark
        split
        · rename_i h
          exact (hc (List.cons.inj h).1).elim
        · rfl
      rw [List.cons_append, hne, hne, List.cons_append]

/-- In front of what is read there may be a byte order mark. -/
theorem exists_dropMark (cs : List Char) : ∃ m, cs = m ++ dropMark cs := by
  unfold dropMark
  split
  · exact ⟨['\uFEFF'], rfl⟩
  · exact ⟨[], rfl⟩

end TimeZones.Markup
