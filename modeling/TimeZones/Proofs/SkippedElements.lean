import TimeZones.Country.Document
import TimeZones.Proofs.ElementTree
import TimeZones.Proofs.Results

/-! Elements that are passed over. How many elements are open is counted, and where the count says
that the element has ended, what has been passed over is the events of its content: as many ends as
beginnings, and at no place more. -/
namespace TimeZones.Markup

/-- No elements are closed but those that have been opened, `depth` of them before the events. -/
def StaysInside (depth : Nat) (es : List Event) : Prop :=
  ∀ p, p <+: es → closed p ≤ opened p + depth

/-- In the events all elements are closed, those that are opened there and `depth` others. -/
structure Closes (depth : Nat) (es : List Event) : Prop where
  inside : StaysInside depth es
  closed_eq : closed es = opened es + depth

/-- Each element that is opened is closed later, and no others are. -/
def Matched (es : List Event) : Prop := Closes 0 es

variable {depth : Nat} {e : Event} {es inner rest : List Event} {t : Tag} {s : String}

theorem staysInside_nil (depth : Nat) : StaysInside depth [] := by
  intro p hp
  rw [List.prefix_nil.mp hp]
  exact Nat.zero_le _

theorem staysInside_cons : StaysInside depth (e :: es) ↔
    ∀ p, p <+: es → closed (e :: p) ≤ opened (e :: p) + depth := by
  constructor
  · intro h p hp
    exact h (e :: p) (List.cons_prefix_cons.mpr ⟨rfl, hp⟩)
  · intro h p hp
    rcases List.prefix_cons_iff.mp hp with rfl | ⟨q, rfl, hq⟩
    · exact Nat.zero_le _
    · exact h q hq

theorem staysInside_start : StaysInside depth (.start t :: es) ↔ StaysInside (depth + 1) es := by
  rw [staysInside_cons, StaysInside]
  simp only [closed_start, opened_start, Nat.add_right_comm _ 1 depth, Nat.add_assoc]

theorem staysInside_close : StaysInside (depth + 1) (.close :: es) ↔ StaysInside depth es := by
  rw [staysInside_cons, StaysInside]
  simp only [closed_close, opened_close, ← Nat.add_assoc, Nat.add_le_add_iff_right]

theorem not_staysInside_close : ¬ StaysInside 0 (.close :: es) := by
  intro h
  have hfirst := staysInside_cons.mp h [] List.nil_prefix
  cases hfirst

theorem staysInside_empty : StaysInside depth (.empty t :: es) ↔ StaysInside depth es := by
  rw [staysInside_cons, StaysInside]
  simp only [closed_empty, opened_empty]

theorem staysInside_text : StaysInside depth (.text s :: es) ↔ StaysInside depth es := by
  rw [staysInside_cons, StaysInside]
  simp only [closed_text, opened_text]

/-- What comes next may close what is open by then. -/
theorem StaysInside.append (h : StaysInside depth es)
    (h' : StaysInside (depth + opened es - closed es) rest) : StaysInside depth (es ++ rest) := by
  intro p hp
  rcases List.prefix_or_prefix_of_prefix hp (List.prefix_append es rest) with hp | ⟨q, rfl⟩
  · exact h p hp
  · have hall := h es List.prefix_rfl
    have hrest := h' q ((List.prefix_append_right_inj es).mp hp)
    rw [closed_append, opened_append]
    omega

theorem StaysInside.mono (h : StaysInside 0 es) (depth : Nat) : StaysInside depth es := by
  intro p hp
  have hle := h p hp
  omega

/-- One end more is the end of an element that is still open then. -/
theorem Closes.not_staysInside (h : Closes depth inner) (rest : List Event) :
    ¬ StaysInside depth (inner ++ .close :: rest) := by
  intro hin
  have hle := hin (inner ++ [.close]) ⟨rest, by simp⟩
  rw [closed_append, opened_append, h.closed_eq, closed_close, opened_close] at hle
  have hnil : closed [] = opened [] := rfl
  omega

/-- Either some element stays open, or there is a place where the last one ends. -/
theorem staysInside_or_closes (depth : Nat) (es : List Event) : StaysInside depth es ∨
    ∃ inner rest, Closes depth inner ∧ es = inner ++ .close :: rest := by
  induction es generalizing depth with
  | nil => exact Or.inl (staysInside_nil depth)
  | cons e es ih =>
    cases e with
    | start t =>
      rcases ih (depth + 1) with h | ⟨inner, rest, ⟨hin, heq⟩, rfl⟩
      · exact Or.inl (staysInside_start.mpr h)
      · refine Or.inr ⟨.start t :: inner, rest, ⟨staysInside_start.mpr hin, ?_⟩, rfl⟩
        rw [closed_start, opened_start]
        omega
    | close =>
      cases depth with
      | zero => exact Or.inr ⟨[], es, ⟨staysInside_nil 0, rfl⟩, rfl⟩
      | succ depth =>
        rcases ih depth with h | ⟨inner, rest, ⟨hin, heq⟩, rfl⟩
        · exact Or.inl (staysInside_close.mpr h)
        · refine Or.inr ⟨.close :: inner, rest, ⟨staysInside_close.mpr hin, ?_⟩, rfl⟩
          rw [closed_close, opened_close]
          omega
    | empty t =>
      rcases ih depth with h | ⟨inner, rest, ⟨hin, heq⟩, rfl⟩
      · exact Or.inl (staysInside_empty.mpr h)
      · refine Or.inr ⟨.empty t :: inner, rest, ⟨staysInside_empty.mpr hin, ?_⟩, rfl⟩
        rwa [closed_empty, opened_empty]
    | text s =>
      rcases ih depth with h | ⟨inner, rest, ⟨hin, heq⟩, rfl⟩
      · exact Or.inl (staysInside_text.mpr h)
      · refine Or.inr ⟨.text s :: inner, rest, ⟨staysInside_text.mpr hin, ?_⟩, rfl⟩
        rwa [closed_text, opened_text]

theorem staysInside_iff : StaysInside depth es ↔
    ¬ ∃ inner rest, Closes depth inner ∧ es = inner ++ .close :: rest := by
  constructor
  · rintro h ⟨inner, rest, hclose, rfl⟩
    exact hclose.not_staysInside rest h
  · intro h
    exact (staysInside_or_closes depth es).resolve_right h

theorem Content.staysInside_events (c : Content) : StaysInside 0 c.events := by
  induction c with
  | done => exact staysInside_nil 0
  | element t content next ihc ihn =>
    refine staysInside_start.mpr ((ihc.mono 1).append ?_)
    rw [content.opened_events, Nat.add_sub_cancel]
    exact staysInside_close.mpr ihn
  | empty t next ih => exact staysInside_empty.mpr ih
  | text s next ih => exact staysInside_text.mpr ih

theorem Content.matched_events (c : Content) : Matched c.events :=
  ⟨c.staysInside_events, c.opened_events.symm⟩

/-- Matched events are those of the content of an element. -/
theorem matched_iff : Matched es ↔ ∃ c : Content, es = c.events := by
  constructor
  · intro h
    have hopen : opened (es ++ [.close]) < closed (es ++ [.close]) := by
      have heq : closed es = opened es := h.closed_eq
      rw [closed_append, opened_append, heq]
      exact Nat.lt_succ_self _
    obtain ⟨c, rest, hc⟩ := exists_content hopen
    refine ⟨c, ?_⟩
    rcases List.eq_nil_or_concat rest with rfl | ⟨before, last, rfl⟩
    · exact (List.append_inj' hc rfl).1
    · -- the element around them would have ended before
      have hc : es ++ [.close] = (c.events ++ .close :: before) ++ [last] := by simpa using hc
      have hes := (List.append_inj' hc rfl).1
      exact (c.matched_events.not_staysInside before (hes ▸ h.inside)).elim
  · rintro ⟨c, rfl⟩
    exact c.matched_events

end TimeZones.Markup

namespace TimeZones.Country
open Markup

variable {ended f : Fault} {depth : Nat} {es inner rest : List Event} {t : Tag}

/-- The counter is the number of elements that are open, besides the one that is passed over. -/
theorem skip_append (h : StaysInside depth es) (rest : List Event) :
    skip ended depth (es ++ rest) = skip ended (depth + opened es - closed es) rest := by
  induction es generalizing depth with
  | nil => rfl
  | cons e es ih =>
    cases e with
    | start t =>
      -- a child that is open counts wherever it is closed, here or behind these events
      have hcount : depth + 1 + opened es - closed es = depth + (opened es + 1) - closed es := by
        omega
      rw [List.cons_append, skip, ih (staysInside_start.mp h), opened_start, closed_start, hcount]
    | close =>
      cases depth with
      | zero => exact (not_staysInside_close h).elim
      | succ depth =>
        have hcount : depth + opened es - closed es = depth + 1 + opened es - (closed es + 1) := by
          omega
        rw [List.cons_append, skip, ih (staysInside_close.mp h), opened_close, closed_close, hcount]
    | empty t =>
      rw [List.cons_append, skip, ih (staysInside_empty.mp h), opened_empty, closed_empty]
    | text s =>
      rw [List.cons_append, skip, ih (staysInside_text.mp h), opened_text, closed_text]

theorem skip_matched (h : Matched inner) (depth : Nat) (rest : List Event) :
    skip ended depth (inner ++ rest) = skip ended depth rest := by
  have heq : closed inner = opened inner := h.closed_eq
  rw [skip_append (h.inside.mono depth), heq, Nat.add_sub_cancel]

theorem skip_of_closes (h : Closes depth inner) (rest : List Event) :
    skip ended depth (inner ++ .close :: rest) = .ok rest := by
  have hcount : depth + opened inner - closed inner = 0 := by
    rw [h.closed_eq]
    omega
  rw [skip_append h.inside, hcount, skip]

theorem skip_of_staysInside (h : StaysInside depth es) : skip ended depth es = .error ended := by
  have happend : skip ended depth (es ++ []) = _ := skip_append h []
  rwa [List.append_nil, skip] at happend

theorem skip_eq_ok_iff : skip ended depth es = .ok rest ↔
    ∃ inner, Closes depth inner ∧ es = inner ++ .close :: rest := by
  constructor
  · intro h
    rcases staysInside_or_closes depth es with hin | ⟨inner, out, hclose, rfl⟩
    · rw [skip_of_staysInside hin] at h
      cases h
    · rw [skip_of_closes hclose] at h
      obtain rfl := Except.ok.inj h
      exact ⟨inner, hclose, rfl⟩
  · rintro ⟨inner, hclose, rfl⟩
    exact skip_of_closes hclose rest

theorem skip_eq_error_iff : skip ended depth es = .error f ↔ StaysInside depth es ∧ f = ended := by
  constructor
  · intro h
    rcases staysInside_or_closes depth es with hin | ⟨inner, out, hclose, rfl⟩
    · rw [skip_of_staysInside hin] at h
      exact ⟨hin, (Except.error.inj h).symm⟩
    · rw [skip_of_closes hclose] at h
      cases h
  · rintro ⟨hin, rfl⟩
    exact skip_of_staysInside hin

/-- A loop over events goes on right behind an element with the tag `t`. It has failed if that
element does not end. -/
structure PassesOver {β : Type} (t : Tag) (loop : List Event → β) (failed : β) : Prop where
  empty : ∀ rest, loop (.empty t :: rest) = loop rest
  element : ∀ inner rest, Matched inner →
    loop (.start t :: (inner ++ .close :: rest)) = loop rest
  unclosed : ∀ es, StaysInside 0 es → loop (.start t :: es) = failed

theorem skip_passesOver (ended : Fault) (depth : Nat) (t : Tag) :
    PassesOver t (skip ended depth) (.error ended) := by
  refine ⟨fun rest => by rw [skip], ?_, ?_⟩
  · intro inner rest h
    rw [skip, skip_matched h, skip]
  · intro es h
    rw [skip]
    exact skip_of_staysInside (h.mono (depth + 1))

theorem readMappings_passesOver (ended : Fault) (h : t.name ≠ "id") :
    PassesOver t (readMappings ended) (.error ended) := by
  refine ⟨?_, ?_, ?_⟩
  · intro rest
    rw [readMappings, if_neg h]
  · intro inner rest hinner
    rw [readMappings, if_neg h, skip_of_closes hinner]
  · intro es hes
    rw [readMappings, if_neg h, skip_of_staysInside hes]

theorem readCountries_passesOver (ended : Fault) (mode : Mode) (h : t.name ≠ "country") :
    PassesOver t (readCountries ended mode) ⟨[], .error ended⟩ := by
  refine ⟨?_, ?_, ?_⟩
  · intro rest
    rw [readCountries, if_neg h]
  · intro inner rest hinner
    rw [readCountries, if_neg h, skip_of_closes hinner]
  · intro es hes
    rw [readCountries, if_neg h, skip_of_staysInside hes]

theorem findCountryZones_passesOver (ended : Fault) (h : t.name ≠ "countryzones") :
    PassesOver t (findCountryZones ended) (.error ended) := by
  refine ⟨?_, ?_, ?_⟩
  · intro rest
    rw [findCountryZones, if_neg h]
  · intro inner rest hinner
    rw [findCountryZones, if_neg h, skip_of_closes hinner]
  · intro es hes
    rw [findCountryZones, if_neg h, skip_of_staysInside hes]

/-- What is passed over after a tag is the content of its element and the end of that, no more and
no less. If the element does not end in what is left to read, the document is refused as incomplete,
or for the error that has stopped the reading. All loops over events go on behind an element that
they pass over, which is right behind its tag if there is only one. -/
theorem skip_exact (left : Reading Markup.Error Event) :
    let ended : Fault := left.error.elim .truncated .markup
    (∀ rest, skip ended 0 left.items = .ok rest ↔
      ∃ inner, Matched inner ∧ left.items = inner ++ .close :: rest) ∧
    (∀ f, skip ended 0 left.items = .error f ↔
      (¬ ∃ inner rest, Matched inner ∧ left.items = inner ++ .close :: rest) ∧
        (left.error = none ∧ f = .truncated ∨ ∃ e, left.error = some e ∧ f = .markup e)) ∧
    ∀ t,
      (t.name ≠ "id" → PassesOver t (readMappings ended) (.error ended)) ∧
      (∀ mode, t.name ≠ "country" → PassesOver t (readCountries ended mode) ⟨[], .error ended⟩) ∧
      (t.name ≠ "countryzones" → PassesOver t (findCountryZones ended) (.error ended)) ∧
      ∀ depth, PassesOver t (skip ended depth) (.error ended) := by
  intro ended
  refine ⟨fun rest => skip_eq_ok_iff, ?_, ?_⟩
  · intro f
    have hended : f = ended ↔
        left.error = none ∧ f = .truncated ∨ ∃ e, left.error = some e ∧ f = .markup e := by
      cases herror : left.error with
      | none => simp [ended, herror]
      | some e => simp [ended, herror]
    rw [skip_eq_error_iff, hended, staysInside_iff]
    exact Iff.rfl
  · intro t
    exact ⟨readMappings_passesOver ended, fun mode => readCountries_passesOver ended mode,
      findCountryZones_passesOver ended, fun depth => skip_passesOver ended depth t⟩

/-- An element may hold others of its own name, with content or without. -/
theorem skip_exact_nested :
    let note : Tag := ⟨"note", []⟩
    let inner : List Event := [.text "a", .start note, .empty note, .close, .empty note, .text "b"]
    let error : Markup.Error := ⟨40, .tagNotClosed⟩
    skip .truncated 0 (inner ++ [.close, .text "c"]) = .ok [.text "c"] ∧
      skip .truncated 0 inner = .error .truncated ∧
      skip (.markup error) 0 inner = .error (.markup error) ∧
      readMappings .truncated (.empty note :: .start note :: (inner ++ [.close, .close])) =
        .ok ([], []) := by
  intro note inner error
  have hinner : Matched inner := matched_iff.mpr
    ⟨.text "a" (.element note (.empty note .done) (.empty note (.text "b" .done))), rfl⟩
  have hopen : ¬ ∃ before rest, Matched before ∧ inner = before ++ .close :: rest :=
    staysInside_iff.mp hinner.inside
  obtain ⟨hended, -, hloops⟩ := skip_exact ⟨inner ++ [.close, .text "c"], none⟩
  obtain ⟨-, htruncated, -⟩ := skip_exact ⟨inner, none⟩
  obtain ⟨-, hstopped, -⟩ := skip_exact ⟨inner, some error⟩
  have hmappings : PassesOver note (readMappings .truncated) (.error .truncated) :=
    (hloops note).1 (by decide)
  refine ⟨(hended _).mpr ⟨inner, hinner, rfl⟩, (htruncated _).mpr ⟨hopen, Or.inl ⟨rfl, rfl⟩⟩,
    (hstopped _).mpr ⟨hopen, Or.inr ⟨error, rfl, rfl⟩⟩, ?_⟩
  rw [hmappings.empty, hmappings.element inner [.close] hinner, readMappings]

end TimeZones.Country
