import TimeZones.Proofs.AcceptedRoot

/-! The two modes of reading a configuration. What strict mode accepts, lenient mode reads alike;
what it refuses besides is a matter of defaults and repeated countries. -/
namespace TimeZones.Country
open Markup

/-- What only strict mode refuses: a country without a default, with one that is none of its zones,
or with the code of another. -/
inductive Fault.OfStrictMode : Fault → Prop where
  | noDefault : OfStrictMode (.missingAttribute "country" "default")
  | defaultNotCandidate (code defaultId : String) :
      OfStrictMode (.defaultNotCandidate code defaultId)
  | duplicateCountry (code : String) : OfStrictMode (.duplicateCountry code)

variable {ended f : Fault} {mode : Mode} {t : Tag} {c : Content} {e : Element} {root : Element}
  {rest : List Event} {x : CountryIndex}

theorem IsCountry.lenient (h : IsCountry mode e) : IsCountry .lenient e :=
  ⟨h.code, h.everUtc, h.ids, fun hmode => (by cases hmode)⟩

theorem IsConfiguration.lenient (h : IsConfiguration mode root) :
    IsConfiguration .lenient root :=
  ⟨h.name, h.countryZones, fun es hes e he => (h.country es hes e he).lenient,
    fun hmode => (by cases hmode)⟩

theorem parse_lenient {text : String} (h : (CountryIndex.parse text .strict).value = .ok x) :
    (CountryIndex.parse text .lenient).value = .ok x := by
  obtain ⟨root, hroot, hconf, hindex⟩ := exists_root_of_parse h
  exact (parse_eq_ok hroot).mpr ⟨hconf.lenient, hindex⟩

theorem countryTag_lenient_of_isCountry (h : IsCountry .lenient e) :
    ∃ head, countryTag .lenient e.tag = .ok head :=
  ⟨_, countryTag_eq_ok.mpr ⟨h.code, h.everUtc, fun hmode => (by cases hmode), rfl⟩⟩

theorem ofStrictMode_of_countryTag (hc : IsCountry .lenient e)
    (h : countryTag .strict e.tag = .error f) : f.OfStrictMode := by
  obtain ⟨head, hhead⟩ := countryTag_lenient_of_isCountry hc
  rw [countryTag] at h hhead
  split at h
  · rename_i hcode
    rw [hcode] at hhead
    cases hhead
  · rename_i code hcode
    rw [hcode] at hhead
    dsimp only at h hhead
    split at h
    · obtain rfl := Except.error.inj h
      exact .noDefault
    · rw [if_neg (by rintro ⟨⟨⟩, -⟩), h] at hhead
      cases hhead

theorem ofStrictMode_of_country {head : String × Option String × Bool} {ms : List Mapping}
    (h : country .strict head ms = .error f) : f.OfStrictMode := by
  unfold country at h
  dsimp only at h
  split at h
  · obtain rfl := Except.error.inj h
    exact .defaultNotCandidate _ _
  · cases h

theorem ofStrictMode_of_emptyCountry (hc : IsCountry .lenient ⟨t, .done⟩)
    (h : (countryTag .strict t >>= fun head => country .strict head []) = .error f) :
    f.OfStrictMode := by
  rcases bind_eq_error.mp h with htag | ⟨head, -, hcountry⟩
  · exact ofStrictMode_of_countryTag hc htag
  · exact ofStrictMode_of_country hcountry

theorem ofStrictMode_of_readCountry (hc : IsCountry .lenient ⟨t, c⟩)
    (h : readCountry ended .strict t (c.events ++ .close :: rest) = .error f) :
    f.OfStrictMode := by
  rw [readCountry, readMappings_eq_ok.mpr ⟨hc.ids, rfl⟩] at h
  rcases bind_eq_error.mp h with htag | ⟨head, -, h⟩
  · exact ofStrictMode_of_countryTag hc htag
  · rcases bind_eq_error.mp h with hms | ⟨p, -, h⟩
    · cases hms
    · rcases bind_eq_error.mp h with hcountry | ⟨x, -, hpure⟩
      · exact ofStrictMode_of_country hcountry
      · cases hpure

/-- Reading countries gets to their end or stops at one that only strict mode refuses. -/
theorem readCountries_strict (h : ∀ e ∈ c.named "country", IsCountry .lenient e)
    (hf : (readCountries ended .strict (c.events ++ .close :: rest)).outcome = .error f) :
    f.OfStrictMode := by
  induction c with
  | done =>
    rw [Content.events, List.nil_append, readCountries] at hf
    cases hf
  | text s next ih =>
    rw [Content.events, List.cons_append, readCountries] at hf
    exact ih h hf
  | empty t next ih =>
    rw [Content.events, List.cons_append, readCountries] at hf
    rw [Content.named_empty] at h
    split at hf
    · rename_i hname
      rw [if_pos hname, List.forall_mem_cons] at h
      split at hf
      · rename_i g hg
        obtain rfl := Except.error.inj hf
        exact ofStrictMode_of_emptyCountry h.1 hg
      · exact ih h.2 hf
    · rename_i hname
      rw [if_neg hname] at h
      exact ih h hf
  | element t content next _ ih =>
    rw [Content.events_element_append, readCountries] at hf
    rw [Content.named_element] at h
    split at hf
    · rename_i hname
      rw [if_pos hname, List.forall_mem_cons] at h
      split at hf
      · rename_i g hg
        obtain rfl := Except.error.inj hf
        exact ofStrictMode_of_readCountry h.1 hg
      · rename_i y es hy
        obtain ⟨-, hpair⟩ := readCountry_eq_ok.mp hy
        obtain ⟨-, rfl⟩ := Prod.mk.inj hpair
        exact ih h.2 hf
    · rename_i hname
      rw [if_neg hname] at h
      rw [skip_content] at hf
      exact ih h hf

/-- If all countries could be read in lenient mode, what stops the reading is one of them. -/
theorem EntriesOf.ofStrictMode {es : List Element} {e : Entries}
    (h : EntriesOf ended .strict es e) (hall : ∀ c ∈ es, IsCountry .lenient c)
    (hf : e.outcome >>= skip ended 0 = .error f) : f.OfStrictMode := by
  rcases bind_eq_error.mp hf with hcountries | ⟨out, hcountries, hskip⟩
  · cases h with
    | content c next rest => exact readCountries_strict hall hcountries
    | empty next rest => cases hcountries
  · -- what is behind the countries is passed over to the end of the root
    have hreads := h.readsCountries
    obtain ⟨rest, hrest⟩ := hreads.outcome (hreads.isCountry ⟨out, hcountries⟩)
    cases hf.symm.trans hrest

theorem ofStrictMode_of_parse {text : String}
    (hl : (CountryIndex.parse text .lenient).value = .ok x)
    (hs : (CountryIndex.parse text .strict).value = .error f) : f.OfStrictMode := by
  obtain ⟨root, hroot, hconf, -⟩ := exists_root_of_parse hl
  rcases readRoot_cases .strict hroot with
    ⟨-, hnot⟩ | ⟨hname, es, e, hes, hread, hentries⟩
  · exact (hnot ⟨hconf.name, hconf.countryZones⟩).elim
  · rcases parse_error_of_readRoot hread hs with ⟨-, code, hcode, rfl⟩ | hindex
    · exact .duplicateCountry code
    · exact hentries.ofStrictMode (hconf.country es hes) (index_eq_error.mp hindex)

end TimeZones.Country

namespace TimeZones

theorem CountryZones.validated_of_strict {c d : CountryZones} {catalog : Catalog}
    (h : (c.validated catalog .strict).value = .ok d) :
    (c.validated catalog .lenient).value = .ok d := by
  unfold validated at h ⊢
  dsimp only at h ⊢
  split at h
  · cases h
  · exact h

theorem CountryZones.validateAll_of_strict {cs ds : List CountryZones} {catalog : Catalog}
    (h : (validateAll catalog .strict cs).value = .ok ds) :
    (validateAll catalog .lenient cs).value = .ok ds := by
  induction cs generalizing ds with
  | nil => exact h
  | cons c cs ih =>
    simp only [validateAll, Logged.value_andThen_eq_ok] at h ⊢
    obtain ⟨d, hd, ds', hds, hcons⟩ := h
    exact ⟨d, validated_of_strict hd, ds', ih hds, hcons⟩

namespace CountryIndex
open Country

theorem validated_of_strict {x y : CountryIndex} {catalog : Catalog}
    (h : (x.validated catalog .strict).value = .ok y) :
    (x.validated catalog .lenient).value = .ok y := by
  rw [validated, Logged.value_andThen_eq_ok] at h ⊢
  obtain ⟨ds, hds, hy⟩ := h
  exact ⟨ds, CountryZones.validateAll_of_strict hds, hy⟩

/-- Strict mode refuses more than lenient mode and means nothing else: what it accepts, lenient mode
accepts with the same outcome, whether documents are read, indexes are validated, or both; and what
it refuses of the documents that lenient mode accepts is a matter of defaults and repeated
countries. -/
theorem strict_refines_lenient :
    (∀ text x, (parse text .strict).value = .ok x → (parse text .lenient).value = .ok x) ∧
    (∀ text x f, (parse text .lenient).value = .ok x → (parse text .strict).value = .error f →
      f.OfStrictMode) ∧
    (∀ (x y : CountryIndex) (catalog : Catalog), (x.validated catalog .strict).value = .ok y →
      (x.validated catalog .lenient).value = .ok y) ∧
    ∀ text catalog x, (load text .strict catalog).value = .ok x →
      (load text .lenient catalog).value = .ok x := by
  refine ⟨fun text x h => parse_lenient h, fun text x f hl hs => ofStrictMode_of_parse hl hs,
    fun x y catalog h => validated_of_strict h, ?_⟩
  intro text catalog x h
  rw [load, Logged.value_andThen_eq_ok] at h ⊢
  obtain ⟨y, hy, hx⟩ := h
  exact ⟨y, parse_lenient hy, validated_of_strict hx⟩

/-- A country whose default is none of its zones. -/
def straySample : String :=
  "<timezones><countryzones><country code='GB' default='GMT'><id>Europe/London</id></country>" ++
    "</countryzones></timezones>"

theorem strict_refines_lenient_samples :
    (∃ x, (parse sampleDocument .strict).value = .ok x ∧
      (parse sampleDocument .lenient).value = .ok x) ∧
    ∃ x f, (parse straySample .lenient).value = .ok x ∧
      (parse straySample .strict).value = .error f ∧ f.OfStrictMode := by
  have hsample : (parse sampleDocument .strict).value.toOption.isSome = true := by decide +kernel
  have hlenient : (parse straySample .lenient).value.toOption.isSome = true := by decide +kernel
  have hstrict : (parse straySample .strict).value.toOption.isSome = false := by decide +kernel
  obtain ⟨x, hx⟩ := Option.isSome_iff_exists.mp hsample
  obtain ⟨y, hy⟩ := Option.isSome_iff_exists.mp hlenient
  have hx := toOption_eq_some.mp hx
  have hy := toOption_eq_some.mp hy
  obtain ⟨haccepts, hrefuses, -⟩ := strict_refines_lenient
  refine ⟨⟨x, hx, haccepts _ x hx⟩, y, ?_⟩
  cases hf : (parse straySample .strict).value with
  | error f => exact ⟨f, hy, rfl, hrefuses _ y f hy hf⟩
  | ok z =>
    rw [hf] at hstrict
    cases hstrict

end CountryIndex

end TimeZones
