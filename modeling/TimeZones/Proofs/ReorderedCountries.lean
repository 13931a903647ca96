import Mathlib.Logic.Relation
import TimeZones.Proofs.AcceptedRoot
import TimeZones.Proofs.AddedMarkup
import TimeZones.Proofs.ContentPlaces
import TimeZones.Proofs.CountrySearch

/-! Documents that differ in the order of their countries. Where no two countries have one code what
is read stays the same. -/
namespace TimeZones.Country
open Markup

variable {root root' : Element} {es es' : List Element} {cs ds : List CountryZones} {mode : Mode}
  {before rest : List Event} {k m n : Content} {x : CountryIndex}

/-- Sorting undoes a change of order. -/
theorem mergeSort_of_perm (hcodes : cs.Pairwise (·.code ≠ ·.code)) (h : cs.Perm ds) :
    (cs.mergeSort fun c d => c.code ≤ d.code) = ds.mergeSort fun c d => c.code ≤ d.code := by
  refine List.Perm.eq_of_pairwise ?_ (mergeSort_increasing hcodes)
    (mergeSort_increasing (pairwise_ne_of_perm h hcodes)) ?_
  · intro c d _ _ hlt hgt
    exact (String.lt_irrefl _ (String.lt_trans hlt hgt)).elim
  · exact ((List.mergeSort_perm cs _).trans h).trans (List.mergeSort_perm ds _).symm

section Perm
variable (htag : root'.tag = root.tag) (hperm : es.Perm es')
include htag hperm

theorem indexOf_of_perm (hcodes : es.Pairwise (codeOf · ≠ codeOf ·)) :
    indexOf root' es' = indexOf root es := by
  have hall (es : List Element) (hcodes : es.Pairwise (codeOf · ≠ codeOf ·)) :
      firstOfCode [] (es.map countryOf) = es.map countryOf :=
    firstOfCode_eq_self [] (fun _ _ => List.not_mem_nil) (List.pairwise_map.mpr hcodes)
  rw [indexOf, indexOf, htag, hall es hcodes,
    hall es' (pairwise_ne_of_perm hperm hcodes), mergeSort_of_perm
      (List.pairwise_map.mpr hcodes) (hperm.map countryOf)]

theorem isConfiguration_of_perm (hes : countriesOf root = some es)
    (hes' : countriesOf root' = some es') (hroot : IsConfiguration mode root) :
    IsConfiguration mode root' := by
  refine ⟨?_, ?_, ?_, ?_⟩
  · rw [htag]
    exact hroot.name
  · rw [hes', Option.isSome_some]
  · rw [hes']
    rintro _ ⟨⟩ e he
    exact hroot.country es hes e (hperm.mem_iff.mpr he)
  · rw [hes']
    rintro hmode _ ⟨⟩
    exact pairwise_ne_of_perm hperm (hroot.distinct hmode es hes)

end Perm

/-- The first element of a content is in front of a given element or it is that element. -/
theorem head?_elements_append {c next : Content} {t : Tag} {content : Content}
    (h : (c.append (.element t content next)).elements.head? = some root) :
    (∀ content', (c.append (.element t content' next)).elements.head? = some root) ∨
      root = ⟨t, content⟩ ∧ ∀ content',
        (c.append (.element t content' next)).elements.head? = some ⟨t, content'⟩ := by
  simp only [Content.elements_append, Content.elements] at h ⊢
  cases hc : c.elements with
  | nil =>
    rw [hc] at h
    exact Or.inr ⟨(Option.some.inj h).symm, fun _ => rfl⟩
  | cons e es =>
    rw [hc] at h
    exact Or.inl fun _ => h

/-- What a root says of its countries when those of an element `countryzones` change their order. -/
theorem countriesOf_of_perm {c next zones zones' : Content} {t z : Tag}
    (hz : z.name = "countryzones") (hperm : (zones.named "country").Perm (zones'.named "country"))
    (hes : countriesOf ⟨t, c.append (.element z zones next)⟩ = some es) :
    ∃ es', countriesOf ⟨t, c.append (.element z zones' next)⟩ = some es' ∧ es.Perm es' := by
  rw [countriesOf, Content.named_append, Content.named_element, if_pos hz] at hes ⊢
  cases hc : c.named "countryzones" with
  | nil =>
    rw [hc] at hes
    obtain rfl := Option.some.inj hes
    exact ⟨_, rfl, hperm⟩
  | cons e es =>
    rw [hc] at hes
    exact ⟨_, hes, .refl _⟩

/-- Where the countries stand they are put in another order. The root has the same ones. -/
theorem exists_root_of_perm (h : HasRoot (before ++ (m.events ++ rest)) root)
    (hopen : openAfter [] before = ["countryzones", "timezones"])
    (hperm : (m.named "country").Perm (n.named "country")) (hes : countriesOf root = some es) :
    ∃ root' es', HasRoot (before ++ (n.events ++ rest)) root' ∧ root'.tag = root.tag ∧
      countriesOf root' = some es' ∧ es.Perm es' := by
  have hopen : openAfter [] before = ["timezones", "countryzones"].reverse := hopen
  rcases h.exists_place hopen (List.cons_ne_nil _ _) with hsame | ⟨p, next, hnames, hroot, hput⟩
  · exact ⟨root, es, hsame n, rfl, hes, .refl es⟩
  -- the way leads through the root to one of its elements `countryzones`, and behind some content
  obtain ⟨c₀, t, q, next₀, -, hnames, hfill₀⟩ := Place.exists_inside hnames
  obtain ⟨c₁, z, r, next₁, hz, hnames, hfill₁⟩ := Place.exists_inside hnames
  obtain ⟨c₂, hfill₂⟩ := Place.exists_append hnames
  have hzones : ((r.fill (m.append next)).named "country").Perm
      ((r.fill (n.append next)).named "country") := by
    rw [hfill₂, hfill₂]
    simp only [Content.named_append]
    exact (hperm.append_right _).append_left _
  have hput {root' : Element} := hput n root'
  rw [hfill₀] at hroot hput
  rcases head?_elements_append hroot with hsame | ⟨rfl, hhead⟩
  · exact ⟨root, es, hput (hsame _), rfl, hes, .refl es⟩
  · rw [hfill₁] at hes
    obtain ⟨es', hes', hperm'⟩ := countriesOf_of_perm hz hzones hes
    refine ⟨_, es', hput (hhead _), rfl, ?_, hperm'⟩
    rw [hfill₁]
    exact hes'

/-- The text `g` is read as `k`, wherever it stands in front of markup. -/
def IsBetween (g : List Char) (k : Content) : Prop :=
  ∀ s, AtMarkup s → ∀ o, eventList o (tokenList (g ++ s)) = k.events ++ eventList o (tokenList s)

theorem isBetween_of_wellFormed {g : List Char} (h : WellFormed g) : ∃ k, IsBetween g k := by
  obtain ⟨k, hk⟩ := h.yields
  exact ⟨k, fun s hs o => (hk o).eventList_append hs⟩

/-- Two elements where the countries stand, such as two countries, change places. All that is
between them stays there. -/
inductive Swaps : List Char → List Char → Prop where
  | mk {a u g v b : List Char} {k m n : Content} : OpenAt a ["countryzones", "timezones"] →
      IsPiece u m → IsBetween g k → IsPiece v n →
      Swaps (a ++ (u ++ (g ++ (v ++ b)))) (a ++ (v ++ (g ++ (u ++ b))))

/-- A document with countries of different codes is read as `x`. -/
def ReadsApart (mode : Mode) (x : CountryIndex) (cs : List Char) : Prop :=
  ∃ root es, HasRoot (events (String.ofList cs)).items root ∧ IsConfiguration mode root ∧
    countriesOf root = some es ∧ es.Pairwise (codeOf · ≠ codeOf ·) ∧ x = indexOf root es

theorem ReadsApart.parse {cs : List Char} (h : ReadsApart mode x cs) :
    (CountryIndex.parse (String.ofList cs) mode).value = .ok x := by
  obtain ⟨root, es, hroot, hconf, hes, -, hx⟩ := h
  exact (parse_eq_ok hroot).mpr ⟨hconf, es, hes, hx⟩

theorem Swaps.readsApart {cs cs' : List Char} (hswaps : Swaps cs cs')
    (h : ReadsApart mode x cs) : ReadsApart mode x cs' := by
  obtain ⟨root, es, hroot, hconf, hes, hcodes, rfl⟩ := h
  cases hswaps with
  | @mk a u g v b k m n ha hu hg hv =>
    obtain ⟨before, w, hw, hopen, hitems⟩ := ha.exists_items
    have hread {u v : List Char} {m n : Content} (hu : IsPiece u m) (hv : IsPiece v n) :
        (events (String.ofList (a ++ (u ++ (g ++ (v ++ b)))))).items =
          (before ++ textEvents w) ++ ((m.append (k.append n)).events ++
            eventList ["countryzones", "timezones"] (tokenList b)) := by
      rw [hitems _ fun hnil => (ha.ne_nil hnil).elim, hw.eventList_append (hu _).1, (hu _).2,
        hg _ (hv b).1, (hv b).2]
      simp only [Content.events_append, List.append_assoc]
    have hopen : openAfter [] (before ++ textEvents w) = ["countryzones", "timezones"] := by
      rw [openAfter_append, hopen]
      exact (reads_plainTokens _ w).openAfter_eq
    have hperm : ((m.append (k.append n)).named "country").Perm
        ((n.append (k.append m)).named "country") := by
      simp only [Content.named_append]
      refine List.perm_append_comm.trans ?_
      rw [← List.append_assoc]
      exact List.perm_append_comm.append_right _
    rw [hread hu hv] at hroot
    obtain ⟨root', es', hroot', htag, hes', hperm'⟩ := exists_root_of_perm hroot hopen hperm hes
    rw [← hread hv hu] at hroot'
    exact ⟨root', es', hroot', isConfiguration_of_perm htag hperm' hes hes' hconf, hes',
      pairwise_ne_of_perm hperm' hcodes, (indexOf_of_perm htag hperm' hcodes).symm⟩

theorem ReadsApart.reordered {cs cs' : List Char} (h : ReadsApart mode x cs)
    (hswaps : Relation.ReflTransGen Swaps cs cs') : ReadsApart mode x cs' := by
  induction hswaps with
  | refl => exact h
  | tail _ hstep ih => exact hstep.readsApart ih

/-- In what is read of a document, and in what validating leaves of it, the search finds the one
country that a scan finds, in whichever case the code is given. It is the first with this code in
the document. If no two have one code their order does not matter. -/
theorem countrySearch_exact {text : String}
    (hparse : (CountryIndex.parse text mode).value = .ok x) :
    (∀ catalogs y, x.ValidatesTo catalogs y → y.IsSearchable) ∧
    ∃ root es, HasRoot (events text).items root ∧ countriesOf root = some es ∧
      (∀ catalogs y, x.ValidatesTo catalogs y → ∀ code,
        y.country? code =
          (es.find? (codeOf · = code.toLower)).map fun e => (countryOf e).keptInAll catalogs) ∧
      (es.Pairwise (codeOf · ≠ codeOf ·) →
        ∀ text', Relation.ReflTransGen Swaps text.toList text'.toList →
          (CountryIndex.parse text' mode).value = .ok x) := by
  have hordered := CountryIndex.ordered_of_parse hparse
  obtain ⟨root, hroot, hconf, es, hes, hx⟩ := exists_root_of_parse hparse
  refine ⟨fun catalogs y hy => (hy.ordered hordered).isSearchable, root, es, hroot, hes, ?_, ?_⟩
  · intro catalogs y hy code
    rw [hy.country?_eq hordered, hx, country?_indexOf hes, Option.map_map]
    rfl
  · intro hcodes text' hswaps
    have hread : ReadsApart mode x text.toList := by
      rw [← String.ofList_toList (s := text)] at hroot
      exact ⟨root, es, hroot, hconf, hes, hcodes, hx⟩
    have hread' := (hread.reordered hswaps).parse
    rwa [String.ofList_toList] at hread'

/-- The text of a country with one zone. -/
def nationSample (code : String) : List Char :=
  elementText "country".toList (" code='".toList ++ (code.toList ++ "' default='N'".toList))
    "<id>N</id>".toList []

/-- A configuration with two countries. -/
def nationsSample (first second : String) : List Char :=
  "<timezones><countryzones>".toList ++ (nationSample first ++ ([' '] ++
    (nationSample second ++ "</countryzones></timezones>".toList)))

theorem isElement_nationSample (code : String)
    (hcode : code.toList.all (InQuotes '\'' ·) = true) :
    IsElement "country" (nationSample code) := by
  have hid : WellFormed ([] ++ (elementText "id".toList [] ['N'] [] ++ [])) :=
    .element isPlain_nil (by decide) writesAttributes_nil List.nodup_nil (.text (by decide))
      isBlank_nil (.text isPlain_nil)
  have hdefault := WritesAttributes.quoted "default" (by decide)
    (spells_self "N".toList (by decide)) writesAttributes_nil
  have hboth := WritesAttributes.quoted "code" (by decide) (spells_self code.toList hcode) hdefault
  have hkeys : ["code".toList, "default".toList].Nodup := by decide
  exact .content (by decide) hboth hkeys hid isBlank_nil

theorem swaps_nationsSample : Swaps (nationsSample "US" "gb") (nationsSample "gb" "US") := by
  obtain ⟨m, hm, -⟩ := (isElement_nationSample "US" (by decide)).isPiece
  obtain ⟨n, hn, -⟩ := (isElement_nationSample "gb" (by decide)).isPiece
  obtain ⟨k, hk⟩ := isBetween_of_wellFormed (g := [' ']) (.text (by decide))
  exact .mk (by decide +kernel) hm hk hn

theorem countrySearch_exact_nationsSample :
    ∃ x y, (CountryIndex.parse (String.ofList (nationsSample "US" "gb")) .strict).value = .ok x ∧
      (CountryIndex.parse (String.ofList (nationsSample "gb" "US")) .strict).value = .ok x ∧
      x.ValidatesTo [.builtin] y ∧ y.IsSearchable := by
  have hsome : (CountryIndex.parse (String.ofList (nationsSample "US" "gb"))
      .strict).value.toOption.isSome = true := by
    decide +kernel
  obtain ⟨x, hx⟩ := Option.isSome_iff_exists.mp hsome
  have hparse := toOption_eq_some.mp hx
  obtain ⟨hsearch, root, es, hroot, hes, -, horder⟩ := countrySearch_exact hparse
  have hcodes := ((parse_eq_ok hroot).mp hparse).1.distinct rfl es hes
  have hswaps : Relation.ReflTransGen Swaps (String.ofList (nationsSample "US" "gb")).toList
      (String.ofList (nationsSample "gb" "US")).toList := by
    rw [String.toList_ofList, String.toList_ofList]
    exact .single swaps_nationsSample
  obtain ⟨y, hy⟩ := CountryIndex.validated_lenient x .builtin
  have hvalidates : x.ValidatesTo [.builtin] y := .step hy (.done y)
  exact ⟨x, y, hparse, horder hcodes _ hswaps, hvalidates, hsearch _ y hvalidates⟩

end TimeZones.Country
