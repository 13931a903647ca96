import TimeZones.Proofs.CountrySearch
import TimeZones.Proofs.WrittenConfiguration

/-! One name in two places: the default of a country, in an attribute, and its only zone, in the
text of an element. In an attribute all characters count, however they are spelled, but in text
space that stands next to a reference is lost, and then the default is not the zone. -/
namespace TimeZones.Country
open Markup

/-- How an element `id` is written of which the pieces spell the zone. -/
inductive WritesSpelled (ps : List Piece) (m : Mapping) : List Char → Prop where
  | mk {w w' cs : List Char} {picker after : List (String × String)} :
      SaysFlag "picker" true m.showInPicker picker → SaysNotAfter m.notUsedAfter after →
      IsBlank w → (∀ p ∈ ps, p.IsProper InText) → ps.map Piece.char = m.id.toList → IsBlank w' →
      WritesElement "id" (picker ++ after) (w ++ (ps.flatMap Piece.written ++ w')) cs →
      WritesSpelled ps m cs

/-- How a configuration is written with one country. The default of the country, which can be
spelled in any way, is its only zone, which the pieces spell. -/
inductive WritesLone (version : Option String) (code : String) (everUsesUtc : Bool) (m : Mapping)
    (ps : List Piece) : List Char → Prop where
  | mk {w w' body country cs : List Char} {everUtc : List (String × String)} :
      SaysFlag "everutc" false everUsesUtc everUtc → WritesAll (WritesSpelled ps) [m] body →
      WritesElement "country" (("code", code) :: ("default", m.id) :: everUtc) body country →
      Gap w → Gap w' → WritesAround version (w ++ (country ++ w')) cs →
      WritesLone version code everUsesUtc m ps cs

/-- A mapping as it is read from pieces. -/
def heardMapping (ps : List Piece) (m : Mapping) : Mapping :=
  { m with id := Text.trim (String.ofList (heard [] ps)) }

variable {version : Option String} {code id text : String} {everUsesUtc : Bool} {m : Mapping}
  {ps : List Piece} {u : List Char} {ended f : Fault} {mode : Mode} {t : Tag} {c : Content}
  {e root : Element} {rest : List Event} {x : CountryIndex}

/-- A name that is spelled is still a name as it is heard. -/
theorem heardMapping_ne (hnamed : m.id ≠ "") (htrim : Text.trim m.id = m.id)
    (hps : ps.map Piece.char = m.id.toList) : (heardMapping ps m).id ≠ "" := by
  obtain ⟨hhead, -⟩ := stripped_eq_self_iff.mp (trim_eq_iff.mp htrim)
  obtain ⟨c, cs, hcs⟩ := List.exists_cons_of_ne_nil fun h => hnamed (String.toList_eq_nil_iff.mp h)
  have hblank : Text.isBlank c = false := hhead c (by rw [hcs]; rfl)
  have hheard : c ∈ heard [] ps := by
    refine mem_heard (not_isSpace_of_not_isBlank hblank) ?_
    rw [List.nil_append, hps, hcs]
    exact List.mem_cons_self
  intro h
  have hstripped := trim_eq_iff.mp h
  rw [String.toList_ofList] at hstripped
  exact List.ne_nil_of_mem (mem_stripped hblank hheard) hstripped

/-- It is the same name exactly if no space is lost. -/
theorem heardMapping_eq_iff (htrim : Text.trim m.id = m.id)
    (hps : ps.map Piece.char = m.id.toList) :
    (heardMapping ps m).id = m.id ↔ ps.IsChain Piece.Apart := by
  have hkept : stripped Text.isBlank (ps.map Piece.char) = ps.map Piece.char := by
    rw [hps]
    exact trim_eq_iff.mp htrim
  obtain ⟨hhead, hlast⟩ := stripped_eq_self_iff.mp hkept
  rw [List.head?_map] at hhead
  rw [List.getLast?_map] at hlast
  have hkeeps : KeepsSpace ps ↔ ps.IsChain Piece.Apart := by
    refine ⟨fun h => h.apart, fun h => ⟨fun p hp => ?_, fun p hp => ?_, h⟩⟩
    · exact Piece.not_isSpace (not_isSpace_of_not_isBlank (hhead _ (Option.mem_map_of_mem _ hp)))
    · exact Piece.not_isSpace (not_isSpace_of_not_isBlank (hlast _ (Option.mem_map_of_mem _ hp)))
  have hheard : heard [] ps = ps.map Piece.char ↔ KeepsSpace ps := heard_eq_iff
  rw [← hkeeps, ← hheard, heardMapping, trim_eq_iff, String.toList_ofList, ← hps]
  constructor
  · intro h
    refine (heard_sublist [] ps).eq_of_length_le ?_
    rw [List.nil_append, ← h]
    exact (stripped_sublist _ _).length_le
  · intro h
    rw [h, hkept]

theorem WritesSpelled.isWritten (h : WritesSpelled ps m u) (hnamed : m.id ≠ "")
    (htrim : Text.trim m.id = m.id)
    (htimes : ∀ n ∈ m.notUsedAfter, Int64.minValue.toInt ≤ n ∧ n ≤ Int64.maxValue.toInt) :
    ∃ e, IsWritten u e ∧ e.tag.name = "id" ∧ IsId e ∧ mappingOf e = heardMapping ps m := by
  obtain @⟨w, w', u, picker, after, hpicker, hafter, hw, hproper, hps, hw', hu⟩ := h
  obtain ⟨c, helements, hchars, hyields⟩ := exists_content_heard hproper hw hw' isPlain_nil
  have hne := heardMapping_ne hnamed htrim hps
  rw [heardMapping, ← hchars] at hne ⊢
  exact isWritten_id hpicker hafter htimes hu hyields helements hne

theorem WritesLone.chars_eq {cs : List Char} (h : WritesLone version code everUsesUtc m ps cs) :
    ps.map Piece.char = m.id.toList := by
  obtain ⟨-, hbody, -, -, -, -⟩ := h
  cases hbody with
  | cons _ hid _ =>
    obtain ⟨-, -, -, -, hps, -, -⟩ := hid
    exact hps

theorem WritesLone.hasRoot (h : WritesLone version code everUsesUtc m ps text.toList)
    (hnamed : m.id ≠ "") (htrim : Text.trim m.id = m.id)
    (htimes : ∀ n ∈ m.notUsedAfter, Int64.minValue.toInt ≤ n ∧ n ≤ Int64.maxValue.toInt) :
    ∃ root e, HasRoot (events text).items root ∧ root.tag.name = "timezones" ∧
      countriesOf root = some [e] ∧ IsCountry .lenient e ∧
      countryOf e = ⟨code.toLower, some m.id, everUsesUtc, [heardMapping ps m]⟩ := by
  generalize htext : text.toList = written at h
  obtain @⟨w, w', body, country, cs, everUtc, hflag, hbody, hcountry, hw, hw', haround⟩ := h
  have hid : ∀ m' ∈ [m], ∀ u, WritesSpelled ps m' u → ∃ e, IsWritten u e ∧ e.tag.name = "id" ∧
      IsId e ∧ mappingOf e = heardMapping ps m' :=
    List.forall_mem_singleton.mpr fun u hu => hu.isWritten hnamed htrim htimes
  obtain ⟨c, hyields, hids⟩ := hbody.content hid
  obtain ⟨hall, hmappings⟩ := forall₂_map hids
  obtain ⟨e, hwritten, hname, rfl, hlenient, hdefault, hzones⟩ :=
    isWritten_country hflag hcountry hyields hall
  have hcountries (o : List String) : Yields o (w ++ (country ++ w'))
      (Content.element e.tag e.content .done).events o :=
    (hw.yields o).append (hwritten.yields (hw'.yields o)) (hwritten.atMarkup w')
  subst htext
  obtain ⟨root, hroot, hroot', -, hes⟩ := haround.hasRoot hcountries
  refine ⟨root, e, hroot, hroot', ?_, hlenient, ?_⟩
  · rw [hes, Content.named_element, if_pos hname]
    rfl
  · rw [hzones, hmappings]
    rfl

/-- A country whose default is none of its zones is refused in strict mode. -/
theorem readCountry_eq_error (h : IsCountry .lenient ⟨t, c⟩)
    (hdefault : t.attribute? "default" = some id) (hnone : ∀ i ∈ c.named "id", zoneIdOf i ≠ id) :
    readCountry ended .strict t (c.events ++ .close :: rest) =
      .error (.defaultNotCandidate (codeOf ⟨t, c⟩) id) := by
  have htag := (@countryTag_eq_ok .strict t _).mpr
    ⟨h.code, h.everUtc, fun _ => by rw [hdefault]; rfl, rfl⟩
  have hmissing : missingDefault? (some id) ((c.named "id").map mappingOf) = some id :=
    missingDefault?_eq_some.mpr ⟨rfl, List.forall_mem_map.mpr hnone⟩
  have hcountry (head : String × Option String × Bool) (hid : head.2.1 = some id) :
      country .strict head ((c.named "id").map mappingOf) =
        .error (.defaultNotCandidate head.1 id) := by
    unfold country
    dsimp only
    rw [hid, hmissing]
  rw [readCountry, htag, readMappings_eq_ok.mpr ⟨h.ids, rfl⟩]
  dsimp only [bind, Except.bind]
  rw [hcountry _ hdefault]
  rfl

/-- Reading countries stops at the first one if that is refused. -/
theorem readCountries_eq_error (hfirst : (c.named "country").head? = some e)
    (hcontent : e.content ≠ .done)
    (hf : ∀ rest, readCountry ended mode e.tag (e.content.events ++ .close :: rest) = .error f)
    (rest : List Event) :
    readCountries ended mode (c.events ++ .close :: rest) = ⟨[], .error f⟩ := by
  induction c with
  | done => cases hfirst
  | text s next ih =>
    rw [Content.events, List.cons_append, readCountries]
    exact ih hfirst
  | empty t next ih =>
    rw [Content.events, List.cons_append, readCountries]
    rw [Content.named_empty] at hfirst
    split at hfirst
    · obtain rfl := Option.some.inj hfirst
      exact (hcontent rfl).elim
    · rename_i hname
      rw [if_neg hname]
      exact ih hfirst
  | element t content next _ ih =>
    rw [Content.events_element_append, readCountries]
    rw [Content.named_element] at hfirst
    split at hfirst
    · rename_i hname
      obtain rfl := Option.some.inj hfirst
      rw [if_pos hname, hf]
    · rename_i hname
      rw [if_neg hname, skip_content]
      exact ih hfirst

theorem parse_eq_error (hroot : HasRoot (events text).items root)
    (hname : root.tag.name = "timezones") (hes : countriesOf root = some [e])
    (hcontent : e.content ≠ .done)
    (hf : ∀ ended rest,
      readCountry ended .strict e.tag (e.content.events ++ .close :: rest) = .error f) :
    (CountryIndex.parse text .strict).value = .error f := by
  rcases readRoot_cases .strict hroot with ⟨-, hnot⟩ | ⟨-, es, entries, hes', hread, hentries⟩
  · exact (hnot ⟨hname, by rw [hes]; rfl⟩).elim
  · obtain rfl : [e] = es := Option.some.inj (hes.symm.trans hes')
    have hstopped : entries = ⟨[], .error f⟩ := by
      generalize hone : [e] = es at hentries
      cases hentries with
      | content c next rest => exact readCountries_eq_error (by rw [← hone]; rfl) hcontent (hf _) _
      | empty next rest => cases hone
    rw [CountryIndex.parse]
    dsimp only
    rw [hread, hstopped]
    rfl

/-- A document with one country that can be read is accepted, and the country is found. -/
theorem exists_parse_lone (hroot : HasRoot (events text).items root)
    (hname : root.tag.name = "timezones") (hes : countriesOf root = some [e])
    (he : IsCountry mode e) (hcode : codeOf e = code.toLower) :
    ∃ x, (CountryIndex.parse text mode).value = .ok x ∧ x.country? code = some (countryOf e) := by
  have hconf : IsConfiguration mode root := by
    refine ⟨hname, by rw [hes]; rfl, ?_, ?_⟩
    · rw [hes]
      rintro _ ⟨⟩
      exact List.forall_mem_singleton.mpr he
    · rw [hes]
      rintro _ _ ⟨⟩
      exact List.pairwise_singleton _ _
  have hfind : [e].find? (codeOf · = code.toLower) = some e :=
    List.find?_cons_of_pos (decide_eq_true hcode)
  refine ⟨indexOf root [e], (parse_eq_ok hroot).mpr ⟨hconf, [e], hes, rfl⟩, ?_⟩
  rw [country?_indexOf hes, hfind]
  rfl

/-- A name that is spelled in an attribute and in the text of an element is the same name in both,
and strict mode accepts that, if and only if no space that stands for itself in the text stands next
to a reference. Where it does, the zone is another than the default, which strict mode refuses and
lenient mode does not. -/
theorem parse_spelled (h : WritesLone version code everUsesUtc m ps text.toList)
    (hnamed : m.id ≠ "") (htrim : Text.trim m.id = m.id)
    (htimes : ∀ n ∈ m.notUsedAfter, Int64.minValue.toInt ≤ n ∧ n ≤ Int64.maxValue.toInt) :
    (ps.IsChain Piece.Apart → ∃ x, (CountryIndex.parse text .strict).value = .ok x ∧
        x.lookupDefault code = some m.id ∧ x.lookupCandidates code = some [m.id]) ∧
      (¬ ps.IsChain Piece.Apart → (CountryIndex.parse text .strict).value =
        .error (.defaultNotCandidate code.toLower m.id)) ∧
      ∃ x, (CountryIndex.parse text .lenient).value = .ok x ∧
        x.lookupDefault code = some m.id ∧
        x.lookupCandidates code = some [(heardMapping ps m).id] := by
  have hsame := heardMapping_eq_iff htrim h.chars_eq
  obtain ⟨root, e, hroot, hname, hes, hlenient, hzones⟩ := h.hasRoot hnamed htrim htimes
  have hcode : codeOf e = code.toLower := congrArg CountryZones.code hzones
  have hdefault : e.tag.attribute? "default" = some m.id :=
    congrArg CountryZones.defaultZoneId hzones
  have hmappings : (e.content.named "id").map mappingOf = [heardMapping ps m] :=
    congrArg CountryZones.mappings hzones
  have haccepts (mode : Mode) (he : IsCountry mode e) : ∃ x,
      (CountryIndex.parse text mode).value = .ok x ∧ x.lookupDefault code = some m.id ∧
        x.lookupCandidates code = some [(heardMapping ps m).id] := by
    obtain ⟨x, hx, hfound⟩ := exists_parse_lone hroot hname hes he hcode
    refine ⟨x, hx, ?_, ?_⟩
    · rw [CountryIndex.lookupDefault, hfound, hzones]
      rfl
    · rw [CountryIndex.lookupCandidates, hfound, hzones]
      rfl
  refine ⟨fun hapart => ?_, fun hapart => ?_, haccepts .lenient hlenient⟩
  · have hid := hsame.mpr hapart
    obtain ⟨i, hi, hmapping⟩ : ∃ i ∈ e.content.named "id", mappingOf i = heardMapping ps m :=
      List.mem_map.mp (by rw [hmappings]; exact List.mem_cons_self)
    have hzone : zoneIdOf i = m.id := (congrArg Mapping.id hmapping).trans hid
    have := haccepts .strict { hlenient with default := fun _ => ⟨i, hi, hzone ▸ hdefault⟩ }
    rwa [hid] at this
  · have hnone : ∀ i ∈ e.content.named "id", zoneIdOf i ≠ m.id := by
      intro i hi hzone
      have hmem : mappingOf i ∈ [heardMapping ps m] := hmappings ▸ List.mem_map_of_mem hi
      have hmapping : mappingOf i = heardMapping ps m := List.mem_singleton.mp hmem
      exact hapart (hsame.mp (hmapping ▸ hzone))
    have hcontent : e.content ≠ .done := by
      intro hdone
      rw [hdone] at hmappings
      cases hmappings
    rw [← hcode]
    exact parse_eq_error hroot hname hes hcontent fun _ _ =>
      readCountry_eq_error hlenient hdefault hnone

/-- A plain document with one country. Its default and its only zone are spelled alike. -/
def plainLone (us : List Char) : List Char :=
  elementText "timezones".toList [] (elementText "countryzones".toList []
    (elementText "country".toList (" code='gb' default='".toList ++ (us ++ ['\'']))
      (elementText "id".toList [] us []) []) []) []

theorem writesElement_plain (name : String) (body : List Char) :
    WritesElement name [] body (elementText name.toList [] body []) :=
  .mk (.refl _) writesAttributes_nil isBlank_nil

theorem append_nil_padded (u : List Char) : [] ++ (u ++ []) = u := List.append_nil u

theorem writesAround_plain (countries : List Char) : WritesAround none countries
    (elementText "timezones".toList [] (elementText "countryzones".toList [] countries []) []) := by
  rw [← append_nil_padded (elementText "timezones".toList _ _ _)]
  refine .mk (writesElement_plain "countryzones" countries) ?_ gap_nil gap_nil gap_nil gap_nil
  rw [append_nil_padded]
  exact writesElement_plain "timezones" _

theorem writesLone_plainLone (hps : ∀ p ∈ ps, p.IsProper (InQuotes '\''))
    (hid : ps.map Piece.char = id.toList) :
    WritesLone none "gb" false ⟨id, true, none⟩ ps (plainLone (ps.flatMap Piece.written)) := by
  have hproper : ∀ p ∈ ps, p.IsProper InText := by
    intro p hp
    have := hps p hp
    cases p with
    | literal c => exact ⟨this.1, this.2.1⟩
    | reference name c => exact this
  have hdefault : Spells (InQuotes '\'') (ps.flatMap Piece.written) id.toList :=
    spells_iff.mpr ⟨ps, hps, rfl, hid.symm⟩
  have hmapping : WritesSpelled ps ⟨id, true, none⟩
      (elementText "id".toList [] (ps.flatMap Piece.written) []) := by
    refine .mk .absent .never isBlank_nil hproper hid isBlank_nil ?_
    rw [append_nil_padded]
    exact writesElement_plain "id" _
  have hbody := WritesAll.cons gap_nil hmapping (.nil gap_nil)
  rw [append_nil_padded] at hbody
  have htag : WritesAttributes
      (" code='gb' default='".toList ++ (ps.flatMap Piece.written ++ ['\'']))
      [("code", "gb"), ("default", id)] :=
    .quoted "code" (by decide) (spells_self "gb".toList (by decide))
      (.quoted "default" (by decide) hdefault writesAttributes_nil)
  refine .mk .absent hbody (.mk (.refl _) htag isBlank_nil) gap_nil gap_nil ?_
  rw [append_nil_padded, plainLone]
  exact writesAround_plain _

/-- The name A & B with spaces that stand for themselves, and with references for them. -/
def sampleBare : List Piece :=
  [.literal 'A', .literal ' ', .reference ['a', 'm', 'p'] '&', .literal ' ', .literal 'B']

def sampleEscaped : List Piece :=
  [.literal 'A', .reference ['#', '3', '2'] ' ', .reference ['a', 'm', 'p'] '&',
    .reference ['#', 'x', '2', '0'] ' ', .literal 'B']

theorem isProper_sample : (∀ p ∈ sampleBare, p.IsProper (InQuotes '\'')) ∧
    ∀ p ∈ sampleEscaped, p.IsProper (InQuotes '\'') := by
  have hamp : Names ['a', 'm', 'p'] '&' := .entity rfl
  have hdecimal : Names ['#', '3', '2'] ' ' :=
    .decimal (@Numeral.more 10 ['3'] '2' 3 2 (.digit rfl) rfl) (by decide)
  have hhexadecimal : Names ['#', 'x', '2', '0'] ' ' :=
    .hexadecimal (@Numeral.more 16 ['2'] '0' 2 0 (.digit rfl) rfl) (by decide)
  have hletter : InQuotes '\'' 'A' ∧ InQuotes '\'' ' ' ∧ InQuotes '\'' 'B' := by decide
  simp [sampleBare, sampleEscaped, Piece.IsProper, hletter, hamp, hdecimal, hhexadecimal]

/-- With spaces that stand for themselves the zone is another than the default. -/
theorem parse_spelled_bare :
    let text := String.ofList (plainLone "A &amp; B".toList)
    text = "<timezones><countryzones><country code='gb' default='A &amp; B'>" ++
        "<id>A &amp; B</id></country></countryzones></timezones>" ∧
      WritesLone none "gb" false ⟨"A & B", true, none⟩ sampleBare text.toList ∧
      "A & B" ≠ "" ∧ Text.trim "A & B" = "A & B" ∧
      (CountryIndex.parse text .strict).value = .error (.defaultNotCandidate "gb" "A & B") := by
  intro text
  have hwritten : WritesLone none "gb" false ⟨"A & B", true, none⟩ sampleBare text.toList := by
    rw [String.toList_ofList]
    exact writesLone_plainLone isProper_sample.1 rfl
  exact ⟨by decide +kernel, hwritten, by decide, by decide, by decide +kernel⟩

theorem parse_spelled_escaped :
    let text := String.ofList (plainLone "A&#32;&amp;&#x20;B".toList)
    WritesLone none "gb" false ⟨"A & B", true, none⟩ sampleEscaped text.toList ∧
      "A & B" ≠ "" ∧ Text.trim "A & B" = "A & B" ∧ sampleEscaped.IsChain Piece.Apart ∧
      ∃ x, (CountryIndex.parse text .strict).value = .ok x ∧
        x.lookupDefault "gb" = some "A & B" ∧ x.lookupCandidates "gb" = some ["A & B"] := by
  intro text
  have hwritten : WritesLone none "gb" false ⟨"A & B", true, none⟩ sampleEscaped text.toList := by
    rw [String.toList_ofList]
    exact writesLone_plainLone isProper_sample.2 rfl
  have hnamed : "A & B" ≠ "" := by decide
  have htrim : Text.trim "A & B" = "A & B" := by decide
  have hapart : sampleEscaped.IsChain Piece.Apart := by decide
  obtain ⟨haccepts, -⟩ := parse_spelled hwritten hnamed htrim (by rintro _ ⟨⟩)
  exact ⟨hwritten, hnamed, htrim, hapart, haccepts hapart⟩

end TimeZones.Country
