import TimeZones.Proofs.CountryOrder
import TimeZones.Proofs.SkippedElements

/-! What a configuration document says, by its elements: which documents are accepted, and what is
read from them. -/
namespace TimeZones.Country
open Markup

/-- An attribute says yes or no, if it is there. -/
def SaysYesOrNo (t : Tag) (key : String) : Prop := ∀ v ∈ t.attribute? key, v = "y" ∨ v = "n"

/-- Whether an attribute says yes, with what holds if it is absent. -/
def isYes (t : Tag) (key : String) (absent : Bool) : Bool :=
  (t.attribute? key).elim absent fun v => v = "y"

/-- The zone that an element `id` names. -/
def zoneIdOf (e : Element) : String := Text.trim e.content.chars

/-- An element `id` that can be read. -/
structure IsId (e : Element) : Prop where
  picker : SaysYesOrNo e.tag "picker"
  notAfter : ∀ v ∈ e.tag.attribute? "notafter", (int64? v).isSome = true
  childless : e.content.elements = []
  named : zoneIdOf e ≠ ""

/-- What an element `id` says. Zones are shown in pickers unless it says no. -/
def mappingOf (e : Element) : Mapping where
  id := zoneIdOf e
  showInPicker := isYes e.tag "picker" true
  notUsedAfter := (e.tag.attribute? "notafter").bind int64?

/-- Codes are compared without regard to case. -/
def codeOf (e : Element) : String := ((e.tag.attribute? "code").getD "").toLower

/-- An element `country` that can be read. In strict mode its default is one of its zones. -/
structure IsCountry (mode : Mode) (e : Element) : Prop where
  code : (e.tag.attribute? "code").isSome = true
  everUtc : SaysYesOrNo e.tag "everutc"
  ids : ∀ i ∈ e.content.named "id", IsId i
  default : mode = .strict →
    ∃ i ∈ e.content.named "id", e.tag.attribute? "default" = some (zoneIdOf i)

/-- What an element `country` says. -/
def countryOf (e : Element) : CountryZones where
  code := codeOf e
  defaultZoneId := e.tag.attribute? "default"
  everUsesUtc := isYes e.tag "everutc" false
  mappings := (e.content.named "id").map mappingOf

/-- The countries are those of the first element `countryzones`. -/
def countriesOf (root : Element) : Option (List Element) :=
  (root.content.named "countryzones").head?.map (·.content.named "country")

/-- A root element that can be read. In strict mode no two countries have one code. -/
structure IsConfiguration (mode : Mode) (root : Element) : Prop where
  name : root.tag.name = "timezones"
  countryZones : (countriesOf root).isSome = true
  country : ∀ es ∈ countriesOf root, ∀ e ∈ es, IsCountry mode e
  distinct : mode = .strict → ∀ es ∈ countriesOf root, es.Pairwise (codeOf · ≠ codeOf ·)

/-- What is read from a root element: of all countries with one code the first, with all that it
says, in the order of the codes. -/
structure Describes (root : Element) (x : CountryIndex) : Prop where
  ianaVersion : x.ianaVersion = root.tag.attribute? "ianaversion"
  increasing : x.countries.toList.Pairwise (·.code < ·.code)
  country : ∀ es ∈ countriesOf root, ∀ c,
    c ∈ x.countries ↔ ∃ e, IsFirst codeOf es e ∧ c = countryOf e

variable {ended : Fault} {mode : Mode} {t : Tag} {key : String} {absent b : Bool} {c : Content}
  {rest : List Event}

theorem flag_eq_ok : flag t key absent = .ok b ↔ SaysYesOrNo t key ∧ b = isYes t key absent := by
  rw [flag, SaysYesOrNo, isYes]
  split
  · rename_i h
    rw [h]
    simp [eq_comm]
  · rename_i h
    rw [h]
    simp [eq_comm]
  · rename_i h
    rw [h]
    simp [eq_comm]
  · rename_i v hy hn hv
    have hneither : ¬ (v = "y" ∨ v = "n") := by
      rintro (rfl | rfl)
      · exact hy rfl
      · exact hn rfl
    rw [hv]
    simp [hneither]

theorem idTag_eq_ok {head : Bool × Option Int} : idTag t = .ok head ↔
    SaysYesOrNo t "picker" ∧ (∀ v ∈ t.attribute? "notafter", (int64? v).isSome = true) ∧
      head = (isYes t "picker" true, (t.attribute? "notafter").bind int64?) := by
  simp only [idTag, bind_eq_ok, flag_eq_ok]
  constructor
  · rintro ⟨b, ⟨hpicker, rfl⟩, h⟩
    refine ⟨hpicker, ?_⟩
    split at h
    · rename_i hnone
      rw [hnone]
      obtain rfl := Except.ok.inj h
      exact ⟨fun _ hv => (by cases hv), rfl⟩
    · rename_i v hv
      split at h
      · cases h
      · rename_i n hn
        rw [hv]
        obtain rfl := Except.ok.inj h
        refine ⟨?_, ?_⟩
        · rintro _ ⟨⟩
          rw [hn, Option.isSome_some]
        · rw [Option.bind_some, hn]
  · rintro ⟨hpicker, hafter, rfl⟩
    refine ⟨_, ⟨hpicker, rfl⟩, ?_⟩
    cases hv : t.attribute? "notafter" with
    | none => rfl
    | some v =>
      obtain ⟨n, hn⟩ := Option.isSome_iff_exists.mp (hafter v hv)
      dsimp only
      rw [hn, Option.bind_some, hn]
      rfl

/-- An element is passed over up to its own end. -/
theorem skip_content (c : Content) (rest : List Event) :
    skip ended 0 (c.events ++ .close :: rest) = .ok rest :=
  skip_of_closes c.matched_events rest

theorem idText_eq_ok {p : String × List Event} :
    idText ended (c.events ++ .close :: rest) = .ok p ↔ c.elements = [] ∧ p = (c.chars, rest) := by
  induction c generalizing p with
  | done => simp [Content.events, idText, Content.elements, Content.chars, eq_comm]
  | element t content next => simp [Content.events, idText, Content.elements]
  | empty t next => simp [Content.events, idText, Content.elements]
  | text s next ih =>
    simp only [Content.events, List.cons_append, idText, map_eq_ok, ih, Content.elements,
      Content.chars]
    constructor
    · rintro ⟨_, ⟨helements, rfl⟩, rfl⟩
      exact ⟨helements, rfl⟩
    · rintro ⟨helements, rfl⟩
      exact ⟨_, ⟨helements, rfl⟩, rfl⟩

theorem mapping_eq_ok {head : Bool × Option Int} {text : String} {m : Mapping} :
    mapping head text = .ok m ↔ Text.trim text ≠ "" ∧ m = ⟨Text.trim text, head.1, head.2⟩ := by
  rw [mapping]
  split
  · rename_i h
    exact ⟨fun hm => (by cases hm), fun hm => absurd h hm.1⟩
  · rename_i h
    rw [Except.ok.injEq, eq_comm]
    exact ⟨fun hm => ⟨h, hm⟩, fun hm => hm.2⟩

theorem readMapping_eq_ok {p : Mapping × List Event} :
    readMapping ended t (c.events ++ .close :: rest) = .ok p ↔
      IsId ⟨t, c⟩ ∧ p = (mappingOf ⟨t, c⟩, rest) := by
  simp only [readMapping, bind_eq_ok, idTag_eq_ok, idText_eq_ok, mapping_eq_ok, pure_eq_ok]
  constructor
  · rintro ⟨_, ⟨hpicker, hafter, rfl⟩, _, ⟨hchildless, rfl⟩, _, ⟨hnamed, rfl⟩, rfl⟩
    exact ⟨⟨hpicker, hafter, hchildless, hnamed⟩, rfl⟩
  · rintro ⟨h, rfl⟩
    exact ⟨_, ⟨h.picker, h.notAfter, rfl⟩, _, ⟨h.childless, rfl⟩, _, ⟨h.named, rfl⟩, rfl⟩

theorem not_isId_empty (t : Tag) : ¬ IsId ⟨t, .done⟩ := fun h => h.named rfl

theorem readMappings_eq_ok {p : List Mapping × List Event} :
    readMappings ended (c.events ++ .close :: rest) = .ok p ↔
      (∀ i ∈ c.named "id", IsId i) ∧ p = ((c.named "id").map mappingOf, rest) := by
  induction c generalizing p with
  | done =>
    rw [Content.events, List.nil_append, readMappings, Except.ok.injEq, eq_comm]
    exact ⟨fun h => ⟨List.forall_mem_nil _, h⟩, fun h => h.2⟩
  | text s next ih =>
    rw [Content.events, List.cons_append, readMappings, ih]
    rfl
  | empty t next ih =>
    rw [Content.events, List.cons_append, readMappings, Content.named_empty]
    split
    · rw [List.forall_mem_cons]
      constructor
      · intro h
        split at h
        · cases h
        · cases h
      · rintro ⟨⟨h, -⟩, -⟩
        exact (not_isId_empty t h).elim
    · exact ih
  | element t content next _ ih =>
    rw [Content.events_element_append, readMappings, Content.named_element]
    split
    · rw [List.forall_mem_cons, List.map_cons]
      split
      · rename_i f hf
        constructor
        · intro h
          cases h
        · rintro ⟨⟨hid, -⟩, -⟩
          rw [readMapping_eq_ok.mpr ⟨hid, rfl⟩] at hf
          cases hf
      · rename_i m es hm
        obtain ⟨hid, hpair⟩ := readMapping_eq_ok.mp hm
        obtain ⟨rfl, rfl⟩ := Prod.mk.inj hpair
        rw [map_eq_ok]
        constructor
        · rintro ⟨q, hq, rfl⟩
          obtain ⟨hids, rfl⟩ := ih.mp hq
          exact ⟨⟨hid, hids⟩, rfl⟩
        · rintro ⟨⟨-, hids⟩, rfl⟩
          exact ⟨_, ih.mpr ⟨hids, rfl⟩, rfl⟩
    · rw [skip_content]
      exact ih

theorem countryTag_eq_ok {head : String × Option String × Bool} : countryTag mode t = .ok head ↔
    (t.attribute? "code").isSome = true ∧ SaysYesOrNo t "everutc" ∧
      (mode = .strict → (t.attribute? "default").isSome = true) ∧
      head = (((t.attribute? "code").getD "").toLower, t.attribute? "default",
        isYes t "everutc" false) := by
  rw [countryTag]
  cases t.attribute? "code" with
  | none => simp
  | some code =>
    dsimp only
    split
    · rename_i h
      constructor
      · intro hhead
        cases hhead
      · rintro ⟨-, -, hdefault, -⟩
        have hsome := hdefault h.1
        rw [h.2] at hsome
        cases hsome
    · rename_i h
      have hdefault : mode = .strict → (t.attribute? "default").isSome = true := by
        intro hmode
        rw [Option.isSome_iff_ne_none]
        exact fun hnone => h ⟨hmode, hnone⟩
      simp only [map_eq_ok, flag_eq_ok]
      constructor
      · rintro ⟨_, ⟨hutc, rfl⟩, rfl⟩
        exact ⟨rfl, hutc, hdefault, rfl⟩
      · rintro ⟨-, hutc, -, rfl⟩
        exact ⟨_, ⟨hutc, rfl⟩, rfl⟩

theorem country_eq_ok {head : String × Option String × Bool} {ms : List Mapping}
    {x : CountryZones} : country mode head ms = .ok x ↔
      (mode = .strict → ∀ id ∈ head.2.1, ∃ m ∈ ms, m.id = id) ∧
        x = ⟨head.1, head.2.1, head.2.2, ms⟩ := by
  rw [← missingDefault?_eq_none]
  cases mode with
  | lenient =>
    change Except.ok _ = _ ↔ _
    rw [Except.ok.injEq, eq_comm]
    exact ⟨fun h => ⟨fun hmode => (by cases hmode), h⟩, fun h => h.2⟩
  | strict =>
    unfold country
    dsimp only
    cases missingDefault? head.2.1 ms with
    | some id => simp
    | none =>
      rw [Except.ok.injEq, eq_comm]
      exact ⟨fun h => ⟨fun _ => rfl, h⟩, fun h => h.2⟩

/-- In strict mode the default is one of the zones that are read. -/
theorem default_iff {ms : List Element} (t : Tag) :
    ((mode = .strict → (t.attribute? "default").isSome = true) ∧
      (mode = .strict → ∀ id ∈ t.attribute? "default", ∃ m ∈ ms.map mappingOf, m.id = id)) ↔
    (mode = .strict → ∃ i ∈ ms, t.attribute? "default" = some (zoneIdOf i)) := by
  rw [← imp_and]
  apply imp_congr_right
  intro _
  cases t.attribute? "default" with
  | none => simp
  | some id =>
    constructor
    · rintro ⟨-, h⟩
      obtain ⟨m, hm, hid⟩ := h id rfl
      obtain ⟨i, hi, rfl⟩ := List.mem_map.mp hm
      exact ⟨i, hi, congrArg some hid.symm⟩
    · rintro ⟨i, hi, hid⟩
      refine ⟨rfl, ?_⟩
      rintro _ ⟨⟩
      exact ⟨mappingOf i, List.mem_map_of_mem hi, (Option.some.inj hid).symm⟩

/-- A country comes of its tag and of the mappings in it. -/
theorem country_of_tag_eq_ok (hids : ∀ i ∈ c.named "id", IsId i) {x : CountryZones} :
    (∃ head, countryTag mode t = .ok head ∧
        country mode head ((c.named "id").map mappingOf) = .ok x) ↔
      IsCountry mode ⟨t, c⟩ ∧ x = countryOf ⟨t, c⟩ := by
  simp only [countryTag_eq_ok, country_eq_ok]
  constructor
  · rintro ⟨_, ⟨hcode, hutc, hdefault, rfl⟩, hmem, rfl⟩
    exact ⟨⟨hcode, hutc, hids, (default_iff t).mp ⟨hdefault, hmem⟩⟩, rfl⟩
  · rintro ⟨h, rfl⟩
    obtain ⟨hdefault, hmem⟩ := (default_iff t).mpr h.default
    exact ⟨_, ⟨h.code, h.everUtc, hdefault, rfl⟩, hmem, rfl⟩

theorem readCountry_eq_ok {p : CountryZones × List Event} :
    readCountry ended mode t (c.events ++ .close :: rest) = .ok p ↔
      IsCountry mode ⟨t, c⟩ ∧ p = (countryOf ⟨t, c⟩, rest) := by
  simp only [readCountry, bind_eq_ok, readMappings_eq_ok, pure_eq_ok]
  constructor
  · rintro ⟨head, hhead, _, ⟨hids, rfl⟩, x, hx, rfl⟩
    obtain ⟨hcountry, rfl⟩ := (country_of_tag_eq_ok hids).mp ⟨head, hhead, hx⟩
    exact ⟨hcountry, rfl⟩
  · rintro ⟨h, rfl⟩
    obtain ⟨head, hhead, hx⟩ := (country_of_tag_eq_ok h.ids).mpr ⟨h, rfl⟩
    exact ⟨head, hhead, _, ⟨h.ids, rfl⟩, _, hx, rfl⟩

/-- An element without content is read like one that has two tags. -/
theorem country_of_empty_eq_ok {x : CountryZones} :
    (countryTag mode t >>= fun head => country mode head []) = .ok x ↔
      IsCountry mode ⟨t, .done⟩ ∧ x = countryOf ⟨t, .done⟩ := by
  rw [bind_eq_ok]
  exact country_of_tag_eq_ok (c := .done) (List.forall_mem_nil _)

/-- If all countries can be read, they are what their elements say. -/
theorem readCountries_eq (h : ∀ e ∈ c.named "country", IsCountry mode e) :
    readCountries ended mode (c.events ++ .close :: rest) =
      ⟨(c.named "country").map countryOf, .ok rest⟩ := by
  induction c with
  | done => rw [Content.events, List.nil_append, readCountries]; rfl
  | text s next ih =>
    rw [Content.events, List.cons_append, readCountries]
    exact ih h
  | empty t next ih =>
    rw [Content.events, List.cons_append, readCountries]
    rw [Content.named_empty] at h ⊢
    split at h
    · rename_i hname
      obtain ⟨hcountry, hnext⟩ := List.forall_mem_cons.mp h
      rw [if_pos hname, if_pos hname, country_of_empty_eq_ok.mpr ⟨hcountry, rfl⟩, ih hnext]
      rfl
    · rename_i hname
      rw [if_neg hname, if_neg hname]
      exact ih h
  | element t content next _ ih =>
    rw [Content.events_element_append, readCountries]
    rw [Content.named_element] at h ⊢
    split at h
    · rename_i hname
      obtain ⟨hcountry, hnext⟩ := List.forall_mem_cons.mp h
      rw [if_pos hname, if_pos hname, readCountry_eq_ok.mpr ⟨hcountry, rfl⟩]
      dsimp only
      rw [ih hnext]
      rfl
    · rename_i hname
      rw [if_neg hname, if_neg hname, skip_content]
      exact ih h

/-- If reading goes on behind the countries, all of them could be read. -/
theorem isCountry_of_readCountries {out : List Event}
    (h : (readCountries ended mode (c.events ++ .close :: rest)).outcome = .ok out) :
    ∀ e ∈ c.named "country", IsCountry mode e := by
  induction c with
  | done => exact List.forall_mem_nil _
  | text s next ih =>
    rw [Content.events, List.cons_append, readCountries] at h
    exact ih h
  | empty t next ih =>
    rw [Content.events, List.cons_append, readCountries] at h
    rw [Content.named_empty]
    split at h
    · rename_i hname
      rw [if_pos hname, List.forall_mem_cons]
      split at h
      · cases h
      · rename_i x hx
        exact ⟨(country_of_empty_eq_ok.mp hx).1, ih h⟩
    · rename_i hname
      rw [if_neg hname]
      exact ih h
  | element t content next _ ih =>
    rw [Content.events_element_append, readCountries] at h
    rw [Content.named_element]
    split at h
    · rename_i hname
      rw [if_pos hname, List.forall_mem_cons]
      split at h
      · cases h
      · rename_i x es hx
        obtain ⟨hcountry, hpair⟩ := readCountry_eq_ok.mp hx
        obtain ⟨-, rfl⟩ := Prod.mk.inj hpair
        exact ⟨hcountry, ih h⟩
    · rename_i hname
      rw [if_neg hname]
      rw [skip_content] at h
      exact ih h

/-- The first element `countryzones` is found, with what comes behind it in the root. -/
theorem findCountryZones_cases (c : Content) (rest : List Event) :
    c.named "countryzones" = [] ∧
        findCountryZones ended (c.events ++ .close :: rest) = .error .missingCountryZones ∨
      ∃ (e : Element) (next : Content), (c.named "countryzones").head? = some e ∧
        (findCountryZones ended (c.events ++ .close :: rest) =
            .ok (true, e.content.events ++ .close :: (next.events ++ .close :: rest)) ∨
          e.content = .done ∧ findCountryZones ended (c.events ++ .close :: rest) =
            .ok (false, next.events ++ .close :: rest)) := by
  induction c with
  | done => exact Or.inl ⟨rfl, by rw [Content.events, List.nil_append, findCountryZones]⟩
  | text s next ih =>
    rw [Content.events, List.cons_append, findCountryZones]
    exact ih
  | empty t next ih =>
    rw [Content.events, List.cons_append, findCountryZones, Content.named_empty]
    split
    · exact Or.inr ⟨_, next, rfl, Or.inr ⟨rfl, rfl⟩⟩
    · exact ih
  | element t content next _ ih =>
    rw [Content.events_element_append, findCountryZones, Content.named_element]
    split
    · exact Or.inr ⟨_, next, rfl, Or.inl rfl⟩
    · rw [skip_content]
      exact ih

theorem root?_of_hasRoot {items : List Event} {root : Element} (h : HasRoot items root) :
    ∃ rest, root? items = some (root.tag, true, root.content.events ++ .close :: rest) ∨
      root.content = .done ∧ root? items = some (root.tag, false, rest) := by
  induction h with
  | text s _ ih => exact ih
  | element t content rest => exact ⟨rest, Or.inl rfl⟩
  | empty t rest => exact ⟨rest, Or.inr ⟨rfl, rfl⟩⟩

/-- No code comes twice, and none that has been seen before. -/
theorem repeatedCodes_eq_nil {seen : List String} {cs : List CountryZones} :
    repeatedCodes seen cs = [] ↔
      (∀ x ∈ cs, x.code ∉ seen) ∧ cs.Pairwise (·.code ≠ ·.code) := by
  induction cs generalizing seen with
  | nil => simp [repeatedCodes]
  | cons x cs ih =>
    rw [repeatedCodes, List.forall_mem_cons, List.pairwise_cons]
    split
    · rename_i h
      simp [h]
    · rename_i h
      rw [ih]
      constructor
      · rintro ⟨hseen, hne⟩
        refine ⟨⟨h, ?_⟩, ?_, hne⟩
        · exact fun y hy hmem => hseen y hy (List.mem_cons_of_mem _ hmem)
        · exact fun y hy heq => hseen y hy (heq ▸ List.mem_cons_self)
      · rintro ⟨⟨-, hseen⟩, hx, hne⟩
        refine ⟨fun y hy hmem => ?_, hne⟩
        rcases List.mem_cons.mp hmem with heq | hmem
        · exact hx y hy heq.symm
        · exact hseen y hy hmem

theorem isFirst_map_countryOf {es : List Element} {x : CountryZones} :
    IsFirst (·.code) (es.map countryOf) x ↔ ∃ e, IsFirst codeOf es e ∧ x = countryOf e := by
  constructor
  · rintro ⟨before, after, hes, hfirst⟩
    obtain ⟨before, tail, rfl, rfl, htail⟩ := List.map_eq_append_iff.mp hes
    obtain ⟨e, after, rfl, rfl, rfl⟩ := List.map_eq_cons_iff.mp htail
    refine ⟨e, ⟨before, after, rfl, ?_⟩, rfl⟩
    exact fun d hd => hfirst (countryOf d) (List.mem_map_of_mem hd)
  · rintro ⟨e, ⟨before, after, rfl, hfirst⟩, rfl⟩
    refine ⟨before.map countryOf, after.map countryOf, ?_, ?_⟩
    · rw [List.map_append, List.map_cons]
    · exact List.forall_mem_map.mpr hfirst

/-- The index of a root element with the given countries. -/
def indexOf (root : Element) (es : List Element) : CountryIndex where
  ianaVersion := root.tag.attribute? "ianaversion"
  countries := ((firstOfCode [] (es.map countryOf)).mergeSort fun a b => a.code ≤ b.code).toArray

theorem describes_indexOf {root : Element} {es : List Element} (h : countriesOf root = some es) :
    Describes root (indexOf root es) := by
  refine ⟨rfl, mergeSort_increasing (firstOfCode_pairwise [] _), ?_⟩
  rintro es' hes' x
  obtain rfl : es = es' := Option.some.inj (h.symm.trans hes')
  rw [indexOf, List.mem_toArray, List.mem_mergeSort, mem_firstOfCode, isFirst_map_countryOf]
  exact and_iff_right List.not_mem_nil

variable {root : Element} {es : List Element} {read : Reading Markup.Error Event} {e : Entries}
  {x : CountryIndex}

theorem index_eq_ok : index ended t e = .ok x ↔
    (∃ out, e.outcome >>= skip ended 0 = .ok out) ∧
      x = ⟨t.attribute? "ianaversion",
        ((firstOfCode [] e.countries).mergeSort fun a b => a.code ≤ b.code).toArray⟩ := by
  rw [index]
  cases e.outcome >>= skip ended 0 with
  | error f => simp
  | ok out => simp [eq_comm]

theorem index_eq_error {f : Fault} :
    index ended t e = .error f ↔ e.outcome >>= skip ended 0 = .error f := by
  rw [index]
  cases e.outcome >>= skip ended 0 with
  | error g => simp
  | ok out => simp

/-- What is read of countries: the reading gets behind them only if all of them can be read, and then
to the end of the root, and they are what their elements say. -/
structure ReadsCountries (ended : Fault) (mode : Mode) (es : List Element) (e : Entries) :
    Prop where
  isCountry : (∃ out, e.outcome = .ok out) → ∀ c ∈ es, IsCountry mode c
  outcome : (∀ c ∈ es, IsCountry mode c) → ∃ out, e.outcome >>= skip ended 0 = .ok out
  countries : (∀ c ∈ es, IsCountry mode c) → e.countries = es.map countryOf

/-- The entries that come of the content `c` of the first `countryzones`, or of one without content.
Behind it stands what else is in the root, `next`. -/
inductive EntriesOf (ended : Fault) (mode : Mode) : List Element → Entries → Prop where
  | content (c next : Content) (rest : List Event) : EntriesOf ended mode (c.named "country")
      (readCountries ended mode (c.events ++ .close :: (next.events ++ .close :: rest)))
  | empty (next : Content) (rest : List Event) :
      EntriesOf ended mode [] ⟨[], .ok (next.events ++ .close :: rest)⟩

theorem EntriesOf.readsCountries (h : EntriesOf ended mode es e) :
    ReadsCountries ended mode es e := by
  cases h with
  | content c next rest =>
    refine ⟨?_, ?_, ?_⟩
    · rintro ⟨out, hout⟩
      exact isCountry_of_readCountries hout
    · intro h
      rw [readCountries_eq h]
      exact ⟨rest, skip_content next rest⟩
    · intro h
      rw [readCountries_eq h]
  | empty next rest =>
    exact ⟨fun _ => List.forall_mem_nil _, fun _ => ⟨rest, skip_content next rest⟩, fun _ => rfl⟩

/-- The root is refused for its name or for want of countries, or else its countries are read. -/
theorem readRoot_cases (mode : Mode) (h : HasRoot read.items root) :
    (∃ f, readRoot read mode = .error f) ∧
        ¬ (root.tag.name = "timezones" ∧ (countriesOf root).isSome = true) ∨
      root.tag.name = "timezones" ∧ ∃ es e, countriesOf root = some es ∧
        readRoot read mode = .ok (root.tag, e) ∧
        EntriesOf (read.error.elim .truncated .markup) mode es e := by
  obtain ⟨rest, hroot | ⟨hdone, hroot⟩⟩ := root?_of_hasRoot h
  -- `countryzones` may again be an element without content, which has no countries
  · rw [readRoot, hroot]
    dsimp only
    split
    · rename_i hname
      exact Or.inl ⟨⟨_, rfl⟩, fun h => hname h.1⟩
    · rename_i hname
      rcases findCountryZones_cases root.content rest with
        ⟨hnone, hfind⟩ | ⟨zones, next, hzones, hfind⟩
      · rw [hfind, countriesOf, hnone]
        exact Or.inl ⟨⟨_, rfl⟩, fun h => by cases h.2⟩
      · refine Or.inr ⟨Decidable.not_not.mp hname, zones.content.named "country", ?_⟩
        have hes : countriesOf root = some (zones.content.named "country") := by
          rw [countriesOf, hzones, Option.map_some]
        rcases hfind with hfind | ⟨hdone, hfind⟩
        · rw [hfind]
          exact ⟨_, hes, rfl, .content zones.content next rest⟩
        · rw [hfind]
          refine ⟨_, hes, rfl, ?_⟩
          rw [hdone]
          exact .empty next rest
  · rw [readRoot, hroot, countriesOf, hdone]
    dsimp only
    split
    · exact Or.inl ⟨⟨_, rfl⟩, fun h => by cases h.2⟩
    · exact Or.inl ⟨⟨_, rfl⟩, fun h => by cases h.2⟩

/-- In strict mode all codes must differ, in lenient mode nothing is asked of them. -/
theorem parse_of_readRoot {text : String} (h : readRoot (events text) mode = .ok (t, e)) :
    (CountryIndex.parse text mode).value = .ok x ↔
      (mode = .strict → repeatedCodes [] e.countries = []) ∧
        index ((events text).error.elim .truncated .markup) t e = .ok x := by
  rw [CountryIndex.parse]
  dsimp only
  rw [h]
  dsimp only
  generalize index ((events text).error.elim .truncated .markup) t e = y
  cases mode with
  | lenient =>
    cases y with
    | error f => simp
    | ok y => simp
  | strict =>
    cases repeatedCodes [] e.countries with
    | cons code codes => simp
    | nil =>
      cases y with
      | error f => simp
      | ok y => simp

/-- A document is refused for a repeated code, which only strict mode minds, or for what stopped the
reading. -/
theorem parse_error_of_readRoot {text : String} {f : Fault}
    (h : readRoot (events text) mode = .ok (t, e))
    (hf : (CountryIndex.parse text mode).value = .error f) :
    (mode = .strict ∧ ∃ code ∈ repeatedCodes [] e.countries, f = .duplicateCountry code) ∨
      index ((events text).error.elim .truncated .markup) t e = .error f := by
  rw [CountryIndex.parse] at hf
  dsimp only at hf
  rw [h] at hf
  dsimp only at hf
  split at hf
  · rename_i code codes hcodes
    refine Or.inl ⟨rfl, code, ?_, (Except.error.inj hf).symm⟩
    rw [hcodes]
    exact List.mem_cons_self
  · split at hf
    · rename_i g hg
      obtain rfl := Except.error.inj hf
      exact Or.inr hg
    · cases hf

/-- A configuration is read exactly if the elements are those of one, and then by its elements. -/
theorem parse_eq_ok {text : String} (h : HasRoot (events text).items root) :
    (CountryIndex.parse text mode).value = .ok x ↔
      IsConfiguration mode root ∧ ∃ es, countriesOf root = some es ∧ x = indexOf root es := by
  rcases readRoot_cases mode h with ⟨⟨f, hf⟩, hnot⟩ | ⟨hname, es, e, hes, hread, hentries⟩
  · rw [CountryIndex.parse]
    dsimp only
    rw [hf]
    constructor
    · intro hx
      cases hx
    · rintro ⟨hroot, -⟩
      exact (hnot ⟨hroot.name, hroot.countryZones⟩).elim
  · have hcountries := hentries.readsCountries
    rw [parse_of_readRoot hread, index_eq_ok]
    -- repeated codes are looked for in what was read, which is all only if nothing was refused
    have hcodes (hall : ∀ c ∈ es, IsCountry mode c) : repeatedCodes [] e.countries = [] ↔
        es.Pairwise (codeOf · ≠ codeOf ·) := by
      rw [hcountries.countries hall, repeatedCodes_eq_nil, List.pairwise_map]
      exact and_iff_right fun _ _ => List.not_mem_nil
    constructor
    · rintro ⟨hstrict, ⟨out, hout⟩, rfl⟩
      obtain ⟨behind, hbehind, -⟩ := bind_eq_ok.mp hout
      have hall := hcountries.isCountry ⟨behind, hbehind⟩
      refine ⟨⟨hname, ?_, ?_, ?_⟩, es, hes, ?_⟩
      · rw [hes, Option.isSome_some]
      · rw [hes]
        rintro _ ⟨⟩
        exact hall
      · rw [hes]
        rintro hmode _ ⟨⟩
        exact (hcodes hall).mp (hstrict hmode)
      · rw [hcountries.countries hall]
        rfl
    · rintro ⟨hroot, es', hes', rfl⟩
      obtain rfl : es = es' := Option.some.inj (hes.symm.trans hes')
      have hall := hroot.country es hes
      refine ⟨fun hmode => (hcodes hall).mpr (hroot.distinct hmode es hes),
        hcountries.outcome hall, ?_⟩
      rw [hcountries.countries hall]
      rfl

/-- Where the reader gets to the end of the root element, a configuration is accepted exactly if the
root is one, and what is read is what the root says. -/
theorem parse_exact {text : String} (h : ReadsRoot (events text).items) (mode : Mode) :
    (∃ root, HasRoot (events text).items root) ∧
      ∀ root, HasRoot (events text).items root →
        ((∃ x, (CountryIndex.parse text mode).value = .ok x) ↔ IsConfiguration mode root) ∧
          ∀ x, (CountryIndex.parse text mode).value = .ok x → Describes root x := by
  refine ⟨exists_root h, ?_⟩
  intro root hroot
  refine ⟨⟨?_, ?_⟩, ?_⟩
  · rintro ⟨x, hx⟩
    exact ((parse_eq_ok hroot).mp hx).1
  · intro hconf
    obtain ⟨es, hes⟩ := Option.isSome_iff_exists.mp hconf.countryZones
    exact ⟨_, (parse_eq_ok hroot).mpr ⟨hconf, es, hes, rfl⟩⟩
  · intro x hx
    obtain ⟨-, es, hes, rfl⟩ := (parse_eq_ok hroot).mp hx
    exact describes_indexOf hes

/-- A country with one zone. The first element in it is passed over, with what it holds. -/
def sampleDocument : String :=
  "<timezones><countryzones><country code='GB' default='GMT'><note><id/></note>" ++
    "<id picker='n'>G<![CDATA[MT]]></id></country></countryzones></timezones>"

theorem parse_exact_sample :
    ReadsRoot (events sampleDocument).items ∧
      ∃ root x, HasRoot (events sampleDocument).items root ∧ IsConfiguration .strict root ∧
        (CountryIndex.parse sampleDocument .strict).value = .ok x ∧ Describes root x := by
  have heval : (events sampleDocument).items.any Event.isTag = true ∧
      opened (events sampleDocument).items = closed (events sampleDocument).items ∧
      (CountryIndex.parse sampleDocument .strict).value.toOption.isSome = true := by
    decide +kernel
  obtain ⟨htag, hclosed, hsome⟩ := heval
  have hreads : ReadsRoot (events sampleDocument).items :=
    ⟨_, [], (List.append_nil _).symm, htag, hclosed⟩
  obtain ⟨x, hx⟩ := Option.isSome_iff_exists.mp hsome
  have hparse := toOption_eq_some.mp hx
  obtain ⟨⟨root, hroot⟩, hmeaning⟩ := parse_exact hreads .strict
  obtain ⟨haccepts, hdescribes⟩ := hmeaning root hroot
  exact ⟨hreads, root, x, hroot, haccepts.mp ⟨x, hparse⟩, hparse, hdescribes x hparse⟩

end TimeZones.Country
