import TimeZones.Proofs.AcceptedRoot
import TimeZones.Proofs.WrittenEvents

/-! Documents that are cut off. An accepted document is read up to the end tag of its root and no
further, and what is left if it ends before is refused as incomplete. -/
namespace TimeZones.Markup

/-- Events of a content that ends too early: at some place in it, and there perhaps in text. -/
inductive Content.Cut : Content → List Event → Prop where
  | here (c : Content) : Cut c []
  | inText (c : Content) (s : String) : Cut c [.text s]
  | text {next : Content} {es : List Event} (s : String) :
      Cut next es → Cut (.text s next) (.text s :: es)
  | empty {next : Content} {es : List Event} (t : Tag) :
      Cut next es → Cut (.empty t next) (.empty t :: es)
  | inside {content : Content} {es : List Event} (t : Tag) (next : Content) :
      Cut content es → Cut (.element t content next) (.start t :: es)
  | behind {next : Content} {es : List Event} (t : Tag) (content : Content) :
      Cut next es →
      Cut (.element t content next) (.start t :: (content.events ++ .close :: es))

/-- Nothing, or text. -/
inductive IsTextEnd : List Event → Prop where
  | nil : IsTextEnd []
  | text (s : String) : IsTextEnd [.text s]

theorem Content.cut_of_prefix {c : Content} {es tail : List Event} (h : es <+: c.events)
    (ht : IsTextEnd tail) : c.Cut (es ++ tail) := by
  have hhere (c : Content) : c.Cut ([] ++ tail) := by
    cases ht with
    | nil => exact .here c
    | text s => exact .inText c s
  induction c generalizing es with
  | done =>
    obtain rfl := List.prefix_nil.mp h
    exact hhere _
  | text s next ih =>
    cases es with
    | nil => exact hhere _
    | cons e es =>
      obtain ⟨rfl, htail⟩ := List.cons_prefix_cons.mp h
      exact .text s (ih htail)
  | empty t next ih =>
    cases es with
    | nil => exact hhere _
    | cons e es =>
      obtain ⟨rfl, htail⟩ := List.cons_prefix_cons.mp h
      exact .empty t (ih htail)
  | element t content next ihc ihn =>
    cases es with
    | nil => exact hhere _
    | cons e es =>
      obtain ⟨rfl, r, hr⟩ := List.cons_prefix_cons.mp h
      rcases List.append_eq_append_iff.mp hr with ⟨q, hq, -⟩ | ⟨q, rfl, hq⟩
      · exact .inside t next (ihc ⟨q, hq.symm⟩)
      · cases q with
        | nil =>
          rw [List.append_nil]
          exact .inside t next (ihc List.prefix_rfl)
        | cons e' q =>
          obtain ⟨rfl, hnext⟩ := List.cons.inj hq
          rw [List.cons_append, List.append_assoc, List.cons_append]
          exact .behind t content (ihn ⟨r, hnext.symm⟩)

end TimeZones.Markup

namespace TimeZones.Country
open Markup

variable {ended : Fault} {mode : Mode} {t : Tag} {c : Content} {es : List Event}

theorem skip_cut (h : c.Cut es) (depth : Nat) : skip ended depth es = .error ended := by
  induction h generalizing depth with
  | here c => rw [skip]
  | inText c s => rw [skip, skip]
  | text s _ ih => rw [skip, ih]
  | empty t _ ih => rw [skip, ih]
  | inside t next _ ih => rw [skip, ih]
  | behind t content _ ih => rw [skip, skip_matched content.matched_events, skip, ih]

theorem idText_cut (h : c.Cut es) (hc : c.elements = []) : idText ended es = .error ended := by
  induction h with
  | here c => rfl
  | inText c s => rfl
  | text s _ ih =>
    rw [idText, ih hc]
    rfl
  | empty t _ ih => cases hc
  | inside t next _ ih => cases hc
  | behind t content _ ih => cases hc

theorem readMapping_cut (h : c.Cut es) (hid : IsId ⟨t, c⟩) :
    readMapping ended t es = .error ended := by
  rw [readMapping, idTag_eq_ok.mpr ⟨hid.picker, hid.notAfter, rfl⟩, idText_cut h hid.childless]
  rfl

theorem readMappings_cut (h : c.Cut es) (hids : ∀ i ∈ c.named "id", IsId i) :
    readMappings ended es = .error ended := by
  induction h with
  | here c => rw [readMappings]
  | inText c s => rw [readMappings, readMappings]
  | text s _ ih =>
    rw [readMappings]
    exact ih hids
  | empty t _ ih =>
    rw [Content.named_empty] at hids
    rw [readMappings]
    split
    · rename_i hname
      rw [if_pos hname] at hids
      exact (not_isId_empty t (hids _ List.mem_cons_self)).elim
    · rename_i hname
      rw [if_neg hname] at hids
      exact ih hids
  | inside t next h _ =>
    rw [Content.named_element] at hids
    rw [readMappings]
    split
    · rename_i hname
      rw [if_pos hname] at hids
      rw [readMapping_cut h (hids _ List.mem_cons_self)]
    · rw [skip_cut h]
  | behind t content _ ih =>
    rw [Content.named_element] at hids
    rw [readMappings]
    split
    · rename_i hname
      rw [if_pos hname, List.forall_mem_cons] at hids
      rw [readMapping_eq_ok.mpr ⟨hids.1, rfl⟩]
      dsimp only
      rw [ih hids.2]
      rfl
    · rename_i hname
      rw [if_neg hname] at hids
      rw [skip_content]
      exact ih hids

theorem readCountry_cut (h : c.Cut es) (hc : IsCountry mode ⟨t, c⟩) :
    readCountry ended mode t es = .error ended := by
  obtain ⟨hdefault, -⟩ := (default_iff t).mpr hc.default
  rw [readCountry, countryTag_eq_ok.mpr ⟨hc.code, hc.everUtc, hdefault, rfl⟩,
    readMappings_cut h hc.ids]
  rfl

/-- The countries that have been read before a document ends are the first. -/
theorem readCountries_cut (ended : Fault) (h : c.Cut es)
    (hall : ∀ e ∈ c.named "country", IsCountry mode e) :
    (readCountries ended mode es).outcome = .error ended ∧
      (readCountries ended mode es).countries <+: (c.named "country").map countryOf := by
  induction h with
  | here c =>
    rw [readCountries]
    exact ⟨rfl, List.nil_prefix⟩
  | inText c s =>
    rw [readCountries, readCountries]
    exact ⟨rfl, List.nil_prefix⟩
  | text s _ ih =>
    rw [readCountries]
    exact ih hall
  | empty t _ ih =>
    rw [Content.named_empty] at hall ⊢
    rw [readCountries]
    split
    · rename_i hname
      rw [if_pos hname, List.forall_mem_cons] at hall
      obtain ⟨houtcome, hpre⟩ := ih hall.2
      rw [country_of_empty_eq_ok.mpr ⟨hall.1, rfl⟩]
      exact ⟨houtcome, List.cons_prefix_cons.mpr ⟨rfl, hpre⟩⟩
    · rename_i hname
      rw [if_neg hname] at hall
      exact ih hall
  | inside t next h _ =>
    rw [Content.named_element] at hall ⊢
    rw [readCountries]
    split
    · rename_i hname
      rw [if_pos hname, List.forall_mem_cons] at hall
      rw [readCountry_cut h hall.1]
      exact ⟨rfl, List.nil_prefix⟩
    · rw [skip_cut h]
      exact ⟨rfl, List.nil_prefix⟩
  | behind t content _ ih =>
    rw [Content.named_element] at hall ⊢
    rw [readCountries]
    split
    · rename_i hname
      rw [if_pos hname, List.forall_mem_cons] at hall
      obtain ⟨houtcome, hpre⟩ := ih hall.2
      rw [readCountry_eq_ok.mpr ⟨hall.1, rfl⟩]
      exact ⟨houtcome, List.cons_prefix_cons.mpr ⟨rfl, hpre⟩⟩
    · rename_i hname
      rw [if_neg hname] at hall
      rw [skip_content]
      exact ih hall

/-- The input ends before the countries, within them or behind them. -/
theorem findCountryZones_cut (ended : Fault) (h : c.Cut es) :
    findCountryZones ended es = .error ended ∨
      ∃ (e : Element) (next : Content) (es' : List Event),
        (c.named "countryzones").head? = some e ∧
        (findCountryZones ended es = .ok (true, es') ∧ e.content.Cut es' ∨
          findCountryZones ended es = .ok (true, e.content.events ++ .close :: es') ∧
            next.Cut es' ∨
          findCountryZones ended es = .ok (false, es') ∧ e.content = .done ∧ next.Cut es') := by
  induction h with
  | here c => exact Or.inl (by rw [findCountryZones])
  | inText c s => exact Or.inl (by rw [findCountryZones, findCountryZones])
  | text s _ ih =>
    rw [findCountryZones]
    exact ih
  | @empty next es t h ih =>
    rw [findCountryZones, Content.named_empty]
    split
    · exact Or.inr ⟨_, next, es, rfl, Or.inr (Or.inr ⟨rfl, rfl, h⟩)⟩
    · exact ih
  | @inside content es t next h _ =>
    rw [findCountryZones, Content.named_element]
    split
    · exact Or.inr ⟨_, next, es, rfl, Or.inl ⟨rfl, h⟩⟩
    · rw [skip_cut h]
      exact Or.inl rfl
  | @behind next es t content h ih =>
    rw [findCountryZones, Content.named_element]
    split
    · exact Or.inr ⟨_, next, es, rfl, Or.inr (Or.inl ⟨rfl, h⟩)⟩
    · rw [skip_content]
      exact ih

variable {read : Reading Markup.Error Event}

/-- A root that is cut off is read as far as it goes, which is not to its end. -/
theorem readRoot_cut (hconf : IsConfiguration mode ⟨t, c⟩) (h : c.Cut es)
    (hroot : root? read.items = some (t, true, es)) :
    readRoot read mode = .error (read.error.elim .truncated .markup) ∨
      ∃ zones e, countriesOf ⟨t, c⟩ = some zones ∧ readRoot read mode = .ok (t, e) ∧
        e.outcome >>= skip (read.error.elim .truncated .markup) 0 =
          .error (read.error.elim .truncated .markup) ∧
        e.countries <+: zones.map countryOf := by
  generalize hended : read.error.elim Fault.truncated Fault.markup = ended
  have hread : readRoot read mode = (findCountryZones ended es).map fun p =>
      (t, if p.1 then readCountries ended mode p.2 else ⟨[], .ok p.2⟩) := by
    rw [readRoot, hroot, hended]
    dsimp only
    rw [if_neg (not_not_intro hconf.name)]
    rfl
  rw [hread]
  rcases findCountryZones_cut ended h with hnone | ⟨zones, next, es', hzones, hcases⟩
  · rw [hnone]
    exact Or.inl rfl
  · right
    have hcountries : countriesOf ⟨t, c⟩ = some (zones.content.named "country") := by
      rw [countriesOf, hzones, Option.map_some]
    have hall := hconf.country _ hcountries
    refine ⟨zones.content.named "country", ?_⟩
    rcases hcases with ⟨hfind, hcut⟩ | ⟨hfind, hcut⟩ | ⟨hfind, -, hcut⟩
    · obtain ⟨houtcome, hpre⟩ := readCountries_cut ended hcut hall
      refine ⟨readCountries ended mode es', hcountries, by rw [hfind]; rfl, ?_, hpre⟩
      rw [houtcome]
      rfl
    · refine ⟨readCountries ended mode (zones.content.events ++ .close :: es'), hcountries,
        by rw [hfind]; rfl, ?_⟩
      rw [readCountries_eq hall]
      exact ⟨skip_cut hcut 0, List.prefix_rfl⟩
    · refine ⟨⟨[], .ok es'⟩, hcountries, by rw [hfind]; rfl, ?_⟩
      exact ⟨skip_cut hcut 0, List.nil_prefix⟩

theorem parse_cut {text : String} (hconf : IsConfiguration mode ⟨t, c⟩) (h : c.Cut es)
    (hroot : root? (events text).items = some (t, true, es)) :
    (CountryIndex.parse text mode).value =
      .error ((events text).error.elim .truncated .markup) := by
  rw [CountryIndex.parse]
  dsimp only
  rcases readRoot_cut hconf h hroot with hread | ⟨zones, e, hzones, hread, hskip, hpre⟩
  · rw [hread]
  · rw [hread]
    dsimp only
    have hindex := index_eq_error (t := t).mpr hskip
    split
    · -- of countries with different codes none is repeated among the first
      rename_i code codes hcodes
      have hdistinct : (zones.map countryOf).Pairwise (·.code ≠ ·.code) :=
        List.pairwise_map.mpr (hconf.distinct rfl zones hzones)
      rw [repeatedCodes_eq_nil.mpr ⟨fun _ _ => List.not_mem_nil, hdistinct.sublist hpre.sublist⟩]
        at hcodes
      cases hcodes
    · rw [hindex]

/-- What is wrong with a document that ends before its root does: there is no root, or an element or
a piece of markup does not end. -/
inductive Fault.OfCutOff : Fault → Prop where
  | missingRoot : OfCutOff .missingRoot
  | markup (error : Markup.Error) : OfCutOff (.markup error)
  | truncated : OfCutOff .truncated

/-- The document `p` is read to its end and ends with the end tag of its root: without that tag all
has been read but the end of the root. -/
def EndsWithRoot (p : String) (root : Element) : Prop :=
  ∃ (body name : List Char) (before : List Event),
    p.toList = body ++ '<' :: '/' :: (name ++ ['>']) ∧
    String.ofList (Token.closingName name) = root.tag.name ∧
    (∀ e ∈ before, ∃ s, e = .text s) ∧
    events (String.ofList body) = ⟨before ++ .start root.tag :: root.content.events, none⟩ ∧
    events p = ⟨before ++ .start root.tag :: (root.content.events ++ [.close]), none⟩

variable {mode : Mode} {x : CountryIndex} {text : String} {root : Element}

/-- A text is `p`, the end tag `u` of the root, and the rest. -/
structure Extent (root : Element) (before : List Event) (p u : List Char) : Prop where
  texts : ∀ e ∈ before, ∃ s, e = .text s
  content : Yields [] p (before ++ .start root.tag :: root.content.events) [root.tag.name]
  endTag : ∃ name, IsMarkup u (.close name) ∧ String.ofList name = root.tag.name

theorem openAfter_texts {before : List Event} (h : ∀ e ∈ before, ∃ s, e = .text s)
    (o : List String) : openAfter o before = o := by
  induction before with
  | nil => rfl
  | cons e before ih =>
    obtain ⟨⟨s, rfl⟩, htail⟩ := List.forall_mem_cons.mp h
    exact ih htail

theorem exists_extent (h : HasRoot (events text).items root) (hne : root.content ≠ .done) :
    ∃ before p u rest, dropMark text.toList = p ++ (u ++ rest) ∧ Extent root before p u := by
  obtain ⟨before, after, hbefore, hitems | ⟨hdone, -⟩⟩ := h.cases
  · have hsplit : eventList [] (tokenList (dropMark text.toList)) =
        (before ++ .start root.tag :: root.content.events) ++ .close :: after := by
      rw [← items_events, hitems, List.append_assoc, List.cons_append]
    obtain ⟨ts, t, us, o, o', hts, hread, ht⟩ := exists_reads hsplit
    obtain ⟨name, rfl, rfl⟩ := eq_close_of_tokenEvents ht
    have hopen : openAfter [] (before ++ .start root.tag :: root.content.events) =
        [root.tag.name] := by
      rw [openAfter_append, openAfter_texts hbefore, openAfter, Content.openAfter_events]
    rw [hread.openAfter_eq] at hopen
    obtain ⟨hname, rfl⟩ := List.cons.inj hopen
    obtain ⟨p, u, rest, htext, hp, hu⟩ := exists_lexes hts (fun s => Token.noConfusion)
    exact ⟨before, p, u, rest, htext, hbefore, ⟨ts, hp, hname ▸ hread⟩, name, hu, hname⟩
  · exact (hne hdone).elim

namespace Extent

variable {before : List Event} {p u : List Char}

theorem closes (h : Extent root before p u) : Yields [root.tag.name] u [.close] [] := by
  obtain ⟨name, hu, hname⟩ := h.endTag
  refine Yields.markup hu ?_
  rw [tokenEvents, if_pos hname.symm]

theorem atMarkup (h : Extent root before p u) (rest : List Char) : AtMarkup (u ++ rest) := by
  obtain ⟨name, hu, -⟩ := h.endTag
  exact hu.atMarkup rest

/-- With its end tag the root is complete. -/
theorem yields (h : Extent root before p u) :
    Yields [] (p ++ u) (before ++ .start root.tag :: (root.content.events ++ [.close])) [] := by
  have hat := h.atMarkup []
  rw [List.append_nil] at hat
  have := h.content.append h.closes hat
  rwa [List.append_assoc, List.cons_append] at this

/-- The root is the same whatever comes behind it. -/
theorem hasRoot (h : Extent root before p u) {rest : List Char}
    (htext : dropMark text.toList = p ++ (u ++ rest)) : HasRoot (events text).items root := by
  obtain ⟨name, hu, hname⟩ := h.endTag
  have hclose : tokenEvents [root.tag.name] (.close name) = some ([.close], []) := by
    rw [tokenEvents, if_pos hname.symm]
  rw [items_events, htext, h.content.eventList_append (hu.atMarkup rest), (hu.precedes rest).1,
    (Reads.single hclose).eventList_append, List.append_assoc, List.cons_append]
  exact HasRoot.append_left h.texts (.element root.tag root.content _)

/-- What is read of a text that ends before the end tag does. -/
theorem cut (h : Extent root before p u) {q r : List Char} (hq : q ++ r = p ++ u) (hr : r ≠ []) :
    ∃ es tail, eventList [] (tokenList q) = es ++ tail ∧
      es <+: before ++ .start root.tag :: root.content.events ∧ IsTextEnd tail := by
  obtain ⟨ts, hp, hread⟩ := h.content
  have hcut : ∃ us, us <+: ts ∧ IsCut (tokenList q) us := by
    rcases List.append_eq_append_iff.mp hq with ⟨p', hp', -⟩ | ⟨u', rfl, hu'⟩
    · exact hp.cut hp'
    · obtain ⟨name, hu, -⟩ := h.endTag
      obtain ⟨hnil, hat⟩ := tokenList_of_cut (hu' ▸ hu) hr
      refine ⟨ts, List.prefix_rfl, Or.inl ?_⟩
      rw [(hp.precedes hat).1, hnil, List.append_nil]
  obtain ⟨us, hus, hcut⟩ := hcut
  obtain ⟨es, o, hes, hpre⟩ := hread.of_prefix hus
  rcases hcut with hq | ⟨s, hq⟩
  · exact ⟨es, [], by rw [hq, hes.eventList_eq, List.append_nil], hpre, .nil⟩
  · exact ⟨es, [.text (String.ofList s)], by rw [hq, hes.eventList_append]; rfl, hpre, .text _⟩

end Extent

theorem root?_texts {before : List Event} (h : ∀ e ∈ before, ∃ s, e = .text s)
    (es : List Event) : root? (before ++ es) = root? es := by
  induction before with
  | nil => rfl
  | cons e before ih =>
    obtain ⟨⟨s, rfl⟩, htail⟩ := List.forall_mem_cons.mp h
    exact ih htail

/-- A document that ends in the root, or before it, has nothing wrong with it but its end. -/
theorem ofCutOff_of_cut {before es tail : List Event} (hconf : IsConfiguration mode root)
    (hbefore : ∀ e ∈ before, ∃ s, e = .text s)
    (hpre : es <+: before ++ .start root.tag :: root.content.events) (ht : IsTextEnd tail)
    (hitems : (events text).items = es ++ tail) :
    ∃ f, (CountryIndex.parse text mode).value = .error f ∧ f.OfCutOff := by
  have hcases : (∀ e ∈ es, ∃ s, e = .text s) ∨
      ∃ b, es = before ++ .start root.tag :: b ∧ b <+: root.content.events := by
    obtain ⟨r, hr⟩ := hpre
    rcases List.append_eq_append_iff.mp hr with ⟨b, rfl, -⟩ | ⟨b, rfl, hb⟩
    · exact Or.inl fun e he => hbefore e (List.mem_append_left b he)
    · cases b with
      | nil =>
        rw [List.append_nil]
        exact Or.inl hbefore
      | cons e b =>
        obtain ⟨rfl, hcontent⟩ := List.cons.inj hb
        exact Or.inr ⟨b, rfl, r, hcontent.symm⟩
  rcases hcases with htexts | ⟨b, rfl, hb⟩
  · have hnone : root? (events text).items = none := by
      rw [hitems, root?_texts htexts]
      cases ht with
      | nil => rfl
      | text s => rfl
    refine ⟨(events text).error.elim .missingRoot .markup, ?_, ?_⟩
    · rw [CountryIndex.parse, readRoot]
      dsimp only
      rw [hnone]
    · cases (events text).error with
      | none => exact .missingRoot
      | some e => exact .markup e
  · have hroot : root? (events text).items = some (root.tag, true, b ++ tail) := by
      rw [hitems, List.append_assoc, root?_texts hbefore]
      rfl
    have hcut := Content.cut_of_prefix hb ht
    refine ⟨(events text).error.elim .truncated .markup, parse_cut hconf hcut hroot, ?_⟩
    cases (events text).error with
    | none => exact .truncated
    | some e => exact .markup e

theorem Extent.endsWithRoot {before : List Event} {m p u : List Char}
    (h : Extent root before p u) (hdrop : dropMark (m ++ (p ++ u)) = p ++ u) :
    EndsWithRoot (String.ofList (m ++ (p ++ u))) root := by
  obtain ⟨name, hu, hname⟩ := h.endTag
  obtain ⟨written, hwritten, rfl⟩ := eq_of_isMarkup_close hu
  have hp : m ++ p ≠ [] := by
    intro hnil
    obtain ⟨ts, hlexes, hread⟩ := h.content
    have hts := hlexes.tokenList_eq.1
    rw [(List.append_eq_nil_iff.mp hnil).2, tokenList_nil] at hts
    subst hts
    have hevents := hread.eventList_eq
    rw [eventList] at hevents
    simp at hevents
  have hbody : dropMark (m ++ p) = p := by
    rw [← List.append_assoc, dropMark_append hp] at hdrop
    exact List.append_cancel_right hdrop
  refine ⟨m ++ p, written, before, ?_, hname, h.texts, ?_, ?_⟩
  · rw [String.toList_ofList, hwritten, List.append_assoc]
  · refine events_eq_iff.mp ⟨[root.tag.name], ?_⟩
    rw [String.toList_ofList, hbody]
    exact h.content
  · refine events_eq_iff.mp ⟨[], ?_⟩
    rw [String.toList_ofList, hdrop]
    exact h.yields

theorem content_ne_done (h : IsConfiguration mode root) : root.content ≠ .done := by
  intro hdone
  have := h.countryZones
  rw [countriesOf, hdone] at this
  cases this

/-- A document is read whole or not at all, and no further than its root: an accepted document
begins with one that ends with the end tag of the root, what follows is not read, and everything
shorter is refused as cut off. -/
theorem parse_whole {text : String} (h : (CountryIndex.parse text mode).value = .ok x) :
    ∃ p rest root, text = p ++ rest ∧ EndsWithRoot p root ∧
      (∀ s, (CountryIndex.parse (p ++ s) mode).value = .ok x) ∧
      ∀ q r, p = q ++ r → r ≠ "" →
        ∃ f, (CountryIndex.parse q mode).value = .error f ∧ f.OfCutOff := by
  obtain ⟨root, hroot, hconf, hindex⟩ := exists_root_of_parse h
  obtain ⟨before, p, u, rest, htext, hextent⟩ := exists_extent hroot (content_ne_done hconf)
  obtain ⟨m, hm⟩ := exists_dropMark text.toList
  have hne : m ++ (p ++ u) ≠ [] := by
    obtain ⟨name, ⟨c, v, rfl, -⟩, -⟩ := hextent.endTag
    simp
  have hsplit : text.toList = m ++ (p ++ u) ++ rest := by
    rw [hm, htext]
    simp only [List.append_assoc]
  have hdrop : dropMark (m ++ (p ++ u)) = p ++ u := by
    rw [hsplit, dropMark_append hne, ← List.append_assoc p] at htext
    exact List.append_cancel_right htext
  refine ⟨String.ofList (m ++ (p ++ u)), String.ofList rest, root, ?_,
    hextent.endsWithRoot hdrop, ?_, ?_⟩
  · rw [← String.ofList_append, ← hsplit, String.ofList_toList]
  · intro s
    have hs : dropMark (String.ofList (m ++ (p ++ u)) ++ s).toList = p ++ (u ++ s.toList) := by
      rw [String.toList_append, String.toList_ofList, dropMark_append hne, hdrop,
        List.append_assoc]
    exact (parse_eq_ok (hextent.hasRoot hs)).mpr ⟨hconf, hindex⟩
  · intro q r hqr hr
    have hr : r.toList ≠ [] := by
      intro hnil
      exact hr (String.toList_eq_nil_iff.mp hnil)
    have hlist : q.toList ++ r.toList = m ++ (p ++ u) := by
      rw [← String.toList_append, ← hqr, String.toList_ofList]
    have hcut : ∃ r', dropMark q.toList ++ r' = p ++ u ∧ r' ≠ [] := by
      by_cases hq : q.toList = []
      · refine ⟨p ++ u, by rw [hq]; rfl, ?_⟩
        obtain ⟨name, ⟨c, v, rfl, -⟩, -⟩ := hextent.endTag
        simp
      · refine ⟨r.toList, ?_, hr⟩
        rw [← dropMark_append hq, hlist, hdrop]
    obtain ⟨r', hr', hne'⟩ := hcut
    obtain ⟨es, tail, hitems, hpre, ht⟩ := hextent.cut hr' hne'
    rw [← items_events] at hitems
    exact ofCutOff_of_cut hconf hextent.texts hpre ht hitems

/-- A document with something behind it that would not be read. -/
def trailedSample : String := sampleDocument ++ "</id><&"

theorem parse_whole_trailed :
    ∃ x, (CountryIndex.parse trailedSample .strict).value = .ok x ∧
      ∃ p rest root, trailedSample = p ++ rest ∧ EndsWithRoot p root ∧
        (∀ s, (CountryIndex.parse (p ++ s) .strict).value = .ok x) ∧
        ∀ q r, p = q ++ r → r ≠ "" →
          ∃ f, (CountryIndex.parse q .strict).value = .error f ∧ f.OfCutOff := by
  have hsome : (CountryIndex.parse trailedSample .strict).value.toOption.isSome = true := by
    decide +kernel
  obtain ⟨x, hx⟩ := Option.isSome_iff_exists.mp hsome
  have hparse := toOption_eq_some.mp hx
  exact ⟨x, hparse, parse_whole hparse⟩

end TimeZones.Country
