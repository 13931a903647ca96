import Mathlib.Data.List.Forall2
import TimeZones.Proofs.AcceptedRoot
import TimeZones.Proofs.ContentPlaces

/-! Documents that differ in what says nothing. Elements and attributes that are not looked for can
be added anywhere, and what is read stays the same. -/
namespace TimeZones.Country
open Markup

/-- The attributes that are looked for in an element. -/
def usedKeys : String → List String
  | "timezones" => ["ianaversion"]
  | "country" => ["code", "default", "everutc"]
  | "id" => ["picker", "notafter"]
  | _ => []

/-- The child elements that are looked for in an element. -/
def childName? : String → Option String
  | "timezones" => some "countryzones"
  | "countryzones" => some "country"
  | "country" => some "id"
  | _ => none

/-- Tags with the same name that say the same where it is looked for. -/
structure AlikeTags (t t' : Tag) : Prop where
  name : t.name = t'.name
  attributes : ∀ key ∈ usedKeys t.name, t.attribute? key = t'.attribute? key

/-- Parts of the content of an element that say the same. -/
structure AlikeIn (parent : String) (m m' : Content) : Prop where
  named : ∀ child ∈ childName? parent, m.named child = m'.named child
  id : parent = "id" → m.elements = m'.elements ∧ m.chars = m'.chars

/-- Content of an element, or of the whole document where there is no parent, that says the same at
every place. -/
inductive Edited : Option String → Content → Content → Prop where
  | done {parent : Option String} : Edited parent .done .done
  | element {parent : Option String} {t t' : Tag} {content content' next next' : Content} :
      AlikeTags t t' → Edited (some t.name) content content' → Edited parent next next' →
      Edited parent (.element t content next) (.element t' content' next')
  | empty {parent : Option String} {t t' : Tag} {next next' : Content} : AlikeTags t t' →
      Edited parent next next' → Edited parent (.empty t next) (.empty t' next')
  | text {parent : Option String} {next next' : Content} (s : String) :
      Edited parent next next' → Edited parent (.text s next) (.text s next')
  | part {parent : String} {m m' next next' : Content} : AlikeIn parent m m' →
      Edited (some parent) next next' →
      Edited (some parent) (m.append next) (m'.append next')

variable {parent : Option String} {name child : String} {t t' : Tag} {c c' d d' : Content}
  {e e' root : Element} {mode : Mode}

theorem AlikeTags.refl (t : Tag) : AlikeTags t t := ⟨rfl, fun _ _ => rfl⟩

namespace Edited

theorem refl (c : Content) : Edited parent c c := by
  induction c generalizing parent with
  | done => exact .done
  | element t content next ihc ihn => exact .element (.refl t) ihc ihn
  | empty t next ih => exact .empty (.refl t) ih
  | text s next ih => exact .text s ih

theorem append (h : Edited parent c c') (hd : Edited parent d d') :
    Edited parent (c.append d) (c'.append d') := by
  induction h with
  | done => exact hd
  | element ht hcontent _ _ ih => exact .element ht hcontent (ih hd)
  | empty ht _ ih => exact .empty ht (ih hd)
  | text s _ ih => exact .text s (ih hd)
  | part hm _ ih =>
    rw [Content.append_assoc, Content.append_assoc]
    exact .part hm (ih hd)

end Edited

/-- Elements of one name that say the same. -/
structure EditedIn (name : String) (e e' : Element) : Prop where
  named : e.tag.name = name
  tag : AlikeTags e.tag e'.tag
  content : Edited (some name) e.content e'.content

theorem EditedIn.attribute? (h : EditedIn name e e') (key : String) (hkey : key ∈ usedKeys name) :
    e.tag.attribute? key = e'.tag.attribute? key :=
  h.tag.attributes key (h.named ▸ hkey)

theorem forall₂_editedIn_named (c : Content) :
    List.Forall₂ (EditedIn name) (c.named name) (c.named name) := by
  refine List.forall₂_same.mpr fun e he => ⟨?_, .refl e.tag, .refl e.content⟩
  simpa using (List.mem_filter.mp he).2

/-- The child elements that are looked for are still there, and say the same. -/
theorem Edited.named (h : Edited (some name) c c') (hchild : childName? name = some child) :
    List.Forall₂ (EditedIn child) (c.named child) (c'.named child) := by
  generalize hparent : some name = parent at h
  induction h with
  | done => exact .nil
  | element ht hcontent _ _ ih =>
    rw [Content.named_element, Content.named_element, ← ht.name]
    split
    · rename_i hname
      rw [hname] at hcontent
      exact .cons ⟨hname, ht, hcontent⟩ (ih hparent)
    · exact ih hparent
  | empty ht _ ih =>
    rw [Content.named_empty, Content.named_empty, ← ht.name]
    split
    · rename_i hname
      exact .cons ⟨hname, ht, .done⟩ (ih hparent)
    · exact ih hparent
  | text s _ ih => exact ih hparent
  | part hm _ ih =>
    obtain rfl := Option.some.inj hparent
    rw [Content.named_append, Content.named_append, hm.named child hchild]
    exact List.rel_append (forall₂_editedIn_named _) (ih hparent)

theorem Edited.id (h : Edited (some "id") c c') :
    (c.elements = [] → c'.elements = []) ∧ c.chars = c'.chars := by
  generalize hparent : some "id" = parent at h
  induction h with
  | done => exact ⟨fun h => h, rfl⟩
  | element ht hcontent _ _ ih => exact ⟨fun h => (by cases h), (ih hparent).2⟩
  | empty ht _ ih => exact ⟨fun h => (by cases h), (ih hparent).2⟩
  | text s _ ih =>
    obtain ⟨helements, hchars⟩ := ih hparent
    exact ⟨helements, by rw [Content.chars, Content.chars, hchars]⟩
  | part hm _ ih =>
    obtain ⟨helements, hchars⟩ := ih hparent
    obtain ⟨hme, hmc⟩ := hm.id (Option.some.inj hparent).symm
    rw [Content.elements_append, Content.elements_append, Content.chars_append,
      Content.chars_append, hme, hmc, hchars]
    refine ⟨fun h => ?_, rfl⟩
    obtain ⟨hnil, hnext⟩ := List.append_eq_nil_iff.mp h
    exact List.append_eq_nil_iff.mpr ⟨hnil, helements hnext⟩

/-- What holds of all elements, and what they say, holds of elements that say the same. -/
theorem transfer {β : Type} {p : Element → Prop} {f : Element → β} {es es' : List Element}
    (h : List.Forall₂ (EditedIn name) es es') (hp : ∀ e ∈ es, p e)
    (hstep : ∀ e e', EditedIn name e e' → p e → p e' ∧ f e' = f e) :
    (∀ e ∈ es', p e) ∧ es'.map f = es.map f := by
  induction h with
  | nil => exact ⟨hp, rfl⟩
  | cons hhead _ ih =>
    obtain ⟨hpe, hp⟩ := List.forall_mem_cons.mp hp
    obtain ⟨hpe', hfe⟩ := hstep _ _ hhead hpe
    obtain ⟨hall, hmap⟩ := ih hp
    rw [List.map_cons, List.map_cons, hfe, hmap]
    exact ⟨List.forall_mem_cons.mpr ⟨hpe', hall⟩, rfl⟩

theorem EditedIn.isId (h : EditedIn "id" e e') (he : IsId e) :
    IsId e' ∧ mappingOf e' = mappingOf e := by
  have hpicker := h.attribute? "picker" (by decide)
  have hafter := h.attribute? "notafter" (by decide)
  obtain ⟨helements, hchars⟩ := h.content.id
  have hzone : zoneIdOf e' = zoneIdOf e := by rw [zoneIdOf, zoneIdOf, hchars]
  refine ⟨⟨?_, ?_, helements he.childless, ?_⟩, ?_⟩
  · rw [SaysYesOrNo, ← hpicker]
    exact he.picker
  · rw [← hafter]
    exact he.notAfter
  · rw [hzone]
    exact he.named
  · rw [mappingOf, mappingOf, hzone, isYes, isYes, hpicker, hafter]

theorem EditedIn.isCountry (h : EditedIn "country" e e') (he : IsCountry mode e) :
    IsCountry mode e' ∧ countryOf e' = countryOf e := by
  have hcode := h.attribute? "code" (by decide)
  have hdefault := h.attribute? "default" (by decide)
  have hutc := h.attribute? "everutc" (by decide)
  obtain ⟨hids, hmappings⟩ := transfer (h.content.named rfl) he.ids fun i i' hi => hi.isId
  refine ⟨⟨?_, ?_, hids, fun hmode => ?_⟩, ?_⟩
  · rw [← hcode]
    exact he.code
  · rw [SaysYesOrNo, ← hutc]
    exact he.everUtc
  · -- the zone that is the default is still among the others
    obtain ⟨i, hi, hzone⟩ := he.default hmode
    have hmem : mappingOf i ∈ (e'.content.named "id").map mappingOf := by
      rw [hmappings]
      exact List.mem_map_of_mem hi
    obtain ⟨i', hi', heq⟩ := List.mem_map.mp hmem
    have hid : zoneIdOf i' = zoneIdOf i := congrArg Mapping.id heq
    exact ⟨i', hi', by rw [← hdefault, hzone, hid]⟩
  · rw [countryOf, countryOf, codeOf, codeOf, isYes, isYes, hcode, hdefault, hutc, hmappings]

theorem EditedIn.countriesOf (h : EditedIn "timezones" root root') {es : List Element}
    (hes : countriesOf root = some es) :
    ∃ es', Country.countriesOf root' = some es' ∧ List.Forall₂ (EditedIn "country") es es' := by
  have hchild : childName? "timezones" = some "countryzones" := rfl
  have hzones := h.content.named hchild
  rw [Country.countriesOf] at hes ⊢
  generalize root.content.named "countryzones" = zs at hzones hes
  generalize root'.content.named "countryzones" = zs' at hzones ⊢
  cases hzones with
  | nil => cases hes
  | cons hhead _ =>
    obtain rfl := Option.some.inj hes
    exact ⟨_, rfl, hhead.content.named rfl⟩

/-- A root that says the same is read alike. -/
theorem EditedIn.isConfiguration (h : EditedIn "timezones" root root') {es : List Element}
    (hroot : IsConfiguration mode root) (hes : Country.countriesOf root = some es) :
    IsConfiguration mode root' ∧
      ∃ es', Country.countriesOf root' = some es' ∧ indexOf root' es' = indexOf root es := by
  obtain ⟨es', hes', hedited⟩ := h.countriesOf hes
  obtain ⟨hall, hmap⟩ := transfer hedited (hroot.country es hes) fun e e' he => he.isCountry
  refine ⟨⟨?_, ?_, ?_, ?_⟩, es', hes', ?_⟩
  · rw [← h.tag.name]
    exact hroot.name
  · rw [hes']
    rfl
  · rw [hes']
    rintro _ ⟨⟩
    exact hall
  · rw [hes']
    rintro hmode _ ⟨⟩
    have hcodes : (es.map countryOf).Pairwise (·.code ≠ ·.code) :=
      List.pairwise_map.mpr (hroot.distinct hmode es hes)
    rw [← hmap] at hcodes
    exact (List.pairwise_map (f := countryOf)).mp hcodes
  · rw [indexOf, indexOf, hmap, h.attribute? "ianaversion" (by decide)]

/-- The content around an edited place says the same. -/
theorem Edited.fill (p : Place) (o : List String) (h : Edited (openAfter o p.before).head? d d') :
    Edited o.head? (p.fill d) (p.fill d') := by
  induction p generalizing o with
  | here => exact h
  | text s p ih => exact .text s (ih o h)
  | empty t p ih => exact .empty (.refl t) (ih o h)
  | element t content p ih =>
    rw [Place.before, openAfter, openAfter_append, Content.openAfter_events] at h
    exact .element (.refl t) (.refl content) (ih o h)
  | inside t p next ih => exact .element (.refl t) (ih (t.name :: o) h) (.refl next)

/-- Beside the root nothing is put. -/
theorem Edited.firstElement (h : Edited none c c') (hroot : c.elements.head? = some root) :
    ∃ root', c'.elements.head? = some root' ∧ EditedIn root.tag.name root root' := by
  generalize hparent : none = parent at h
  induction h with
  | done => cases hroot
  | element ht hcontent _ _ _ =>
    obtain rfl := Option.some.inj hroot
    exact ⟨_, rfl, rfl, ht, hcontent⟩
  | empty ht _ _ =>
    obtain rfl := Option.some.inj hroot
    exact ⟨_, rfl, rfl, ht, .done⟩
  | text s _ ih => exact ih hroot hparent
  | part => cases hparent

variable {text text' : String} {before after after' : List Event} {x : CountryIndex}

/-- The root of a document that has been edited at a place says the same. -/
theorem exists_root_of_edited (h : HasRoot (before ++ after) root)
    (hedit : ∀ (d : Content) (tail : List Event), after = d.events ++ tail →
      (d = .done → tail.head? = some .close) →
        ∃ d', Edited (openAfter [] before).head? d d' ∧ after' = d'.events ++ tail) :
    ∃ root', HasRoot (before ++ after') root' ∧ EditedIn root.tag.name root root' := by
  obtain ⟨c, rest, hitems, hroot⟩ := hasRoot_iff.mp h
  rcases exists_place c hitems.symm with ⟨more, rfl, -⟩ | ⟨p, d, rfl, rfl, hafter, hdone⟩
  · refine ⟨root, hasRoot_iff.mpr ⟨c, more ++ after', ?_, hroot⟩, rfl, .refl _, .refl _⟩
    rw [List.append_assoc]
  · have hclose : d = .done → (p.behind ++ rest).head? = some .close := by
      intro hd
      obtain ⟨tail, htail⟩ := p.exists_behind_eq_close (hdone hd)
      rw [htail]
      rfl
    obtain ⟨d', hd, rfl⟩ := hedit d _ hafter hclose
    obtain ⟨root', hroot', hedited⟩ := (hd.fill p).firstElement hroot
    exact ⟨root', hasRoot_iff.mpr ⟨_, rest, (p.events_fill d' rest).symm, hroot'⟩, hedited⟩

/-- What is read of an accepted document stays the same where it is edited. -/
theorem parse_of_edited (h : (CountryIndex.parse text mode).value = .ok x)
    (hitems : (events text).items = before ++ after)
    (hitems' : (events text').items = before ++ after')
    (hedit : ∀ (d : Content) (tail : List Event), after = d.events ++ tail →
      (d = .done → tail.head? = some .close) →
        ∃ d', Edited (openAfter [] before).head? d d' ∧ after' = d'.events ++ tail) :
    (CountryIndex.parse text' mode).value = .ok x := by
  obtain ⟨root, hroot, hconf, es, hes, rfl⟩ := exists_root_of_parse h
  rw [hitems] at hroot
  obtain ⟨root', hroot', hedited⟩ := exists_root_of_edited hroot hedit
  rw [hconf.name] at hedited
  obtain ⟨hconf', es', hes', heq⟩ := hedited.isConfiguration hconf hes
  rw [← hitems'] at hroot'
  exact (parse_eq_ok hroot').mpr ⟨hconf', es', hes', heq.symm⟩

end TimeZones.Country
