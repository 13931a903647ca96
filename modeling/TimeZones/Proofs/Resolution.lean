import TimeZones.Proofs.ContainerLayout

/-! Resolving an offset in a country, in any state that callers can bring about: which zone is the
answer, by the configuration that the finder was built from. -/
namespace TimeZones
open Session

variable {w : World} {f : Finder} {x : CountryIndex} {code : String} {wanted : OffsetType}
  {millis : Int}

/-- The configuration of a finder: the one that it was built from, or what it has kept of it. -/
def Finder.IsFrom (f : Finder) (x : CountryIndex) : Prop :=
  x = f.index ∨ ∃ r, ((Finder.ofIndex f.catalog x).run r).1 = f

/-- The zones configured for a country that the catalog finds and in which the type wanted is in
effect, in the order of the configuration. -/
def World.candidates (w : World) (f : Finder) (x : CountryIndex) (code : String)
    (wanted : OffsetType) (millis : Int) : List String :=
  ((x.configured code).elim [] (·.zoneIds)).filter fun id =>
    (w.value (Catalog.lookup f.catalog id)).any fun t => t.value.offsetAtMillis millis = wanted

theorem ofIndex_value {catalog : Shared Catalog} {y : CountryIndex} (r : Registry)
    (h : (x.validated catalog.value .lenient).value = .ok y) :
    ((Finder.ofIndex catalog x).run r).1 = ⟨catalog, y⟩ := by
  rw [Finder.ofIndex_run r h]

theorem validated_of_ofIndex {r : Registry} (h : ((Finder.ofIndex f.catalog x).run r).1 = f) :
    (x.validated f.catalog.value .lenient).value = .ok f.index := by
  obtain ⟨y, hy⟩ := x.validated_lenient f.catalog.value
  rw [hy, ← h, ofIndex_value r hy]

theorem hasZone_of_fits {catalog : Catalog} {id : String}
    (h : CountryZones.fits catalog wanted millis id = true) : catalog.hasZone id = true := by
  rw [CountryZones.fits, Catalog.table?] at h
  rw [Catalog.hasZone]
  cases hf : catalog.find? id with
  | none => simp [hf] at h
  | some e => rfl

/-- Zones that validating drops would not have been chosen. -/
theorem fitting_of_validated {catalog : Catalog} {mode : Mode} {y : CountryIndex}
    (h : (x.validated catalog mode).value = .ok y) :
    Finder.fitting catalog y code wanted millis = Finder.fitting catalog x code wanted millis := by
  have hmap := CountryIndex.configured_of_validated h code
  rw [Finder.fitting, Finder.fitting]
  cases hx : x.configured code with
  | none =>
    rw [hx, Option.map_none, Option.map_eq_none_iff] at hmap
    rw [hmap]
  | some c =>
    rw [hx, Option.map_some, Option.map_eq_some_iff] at hmap
    obtain ⟨d, hy, hd⟩ := hmap
    rw [hy, Option.elim_some, Option.elim_some, CountryZones.zoneIds, CountryZones.zoneIds, hd,
      List.filter_map, List.filter_map, List.filter_filter]
    congr 1
    apply List.filter_congr
    intro m _
    cases hfits : CountryZones.fits catalog wanted millis m.id with
    | true => rw [Function.comp_apply, hfits, hasZone_of_fits hfits, Bool.and_self]
    | false => rw [Function.comp_apply, hfits, Bool.false_and]

theorem candidates_eq (hw : w.Reachable) (hf : f ∈ w.finders) (hx : f.IsFrom x) :
    w.candidates f x code wanted millis =
      Finder.fitting f.catalog.value f.index code wanted millis := by
  have hlookup := World.value_lookup hw (hw.sound.finders f hf).catalog_mem
  have hx' : Finder.fitting f.catalog.value f.index code wanted millis =
      Finder.fitting f.catalog.value x code wanted millis := by
    rcases hx with rfl | ⟨r, hr⟩
    · rfl
    · exact fitting_of_validated (validated_of_ofIndex hr)
  rw [hx', World.candidates, Finder.fitting]
  apply List.filter_congr
  intro id _
  rw [CountryZones.fits, ← hlookup, Option.any_map]

/-- In every state that can be reached a finder answers with the bias if that fits, or else with
the first zone that does. Where none fits there is no answer, and a bias makes no other
difference. -/
theorem resolve_exact (hw : w.Reachable) (hf : f ∈ w.finders) (hx : f.IsFrom x) (code : String)
    (wanted : OffsetType) (millis : Int) (bias : Option String) :
    let answer := fun bias => w.value (f.resolve code wanted millis bias)
    let candidates := w.candidates f x code wanted millis
    (answer bias = none ↔ x.configured code = none ∨ candidates = []) ∧
      (∀ b ∈ bias, b ∈ candidates → answer bias = some b) ∧
      ((∀ b ∈ bias, b ∉ candidates) → answer bias = candidates.head?) ∧
      (answer bias = none ↔ answer none = none) ∧
      ((∀ b ∈ bias, b ∉ candidates) → answer bias = answer none) ∧
      ∀ id ∈ answer bias, id ∈ f.catalog.value.availableIds := by
  intro answer candidates
  have hcandidates : candidates = Finder.fitting f.catalog.value f.index code wanted millis :=
    candidates_eq hw hf hx
  have hanswer (bias : Option String) : answer bias = CountryZones.preferred bias candidates := by
    rw [hcandidates]
    exact (Finder.resolve_gives (hw.sound.finders f hf) code wanted millis bias w.registry
      hw.sound.registry).2
  have hunknown (h : x.configured code = none) : candidates = [] := by
    change w.candidates f x code wanted millis = []
    rw [World.candidates, h, Option.elim_none, List.filter_nil]
  have hnone (bias : Option String) : answer bias = none ↔ candidates = [] := by
    rw [hanswer, CountryZones.preferred_eq_none_iff]
  have hother (h : ∀ b ∈ bias, b ∉ candidates) : answer bias = candidates.head? := by
    rw [hanswer, CountryZones.preferred_of_not_mem h]
  refine ⟨?_, ?_, hother, ?_, ?_, ?_⟩
  · rw [hnone]
    exact ⟨Or.inr, fun h => h.elim hunknown fun h => h⟩
  · intro b hb hmem
    rw [hanswer, Option.mem_def.mp hb, CountryZones.preferred_eq_bias hmem]
  · rw [hnone, hnone]
  · intro h
    rw [hother h, hanswer, CountryZones.preferred_of_not_mem (by simp)]
  · intro id hid
    rw [hanswer] at hid
    have hmem := CountryZones.mem_of_preferred_eq_some (Option.mem_def.mp hid)
    rw [hcandidates, Finder.fitting] at hmem
    exact Catalog.mem_availableIds_of_hasZone (hasZone_of_fits (List.mem_filter.mp hmem).2)

/-- The zones A and B have no offset, and C is one hour ahead. -/
def tiedZones : List (Bytes × Bytes) :=
  [([0x41], Container.utcZone.2), ([0x42], Container.utcZone.2),
    ([0x43], Record.magic ++ List.replicate 28 0 ++
      [0, 0, 0, 1, 0, 0, 0, 1, 0, 0, 0, 0, 128, 0, 0, 0, 0, 0, 0, 14, 16, 0, 0])]

def tiedCatalog : Shared Catalog :=
  ⟨0, Container.writtenCatalog Container.sampleVersion tiedZones ""⟩

theorem ofBytes_tiedZones :
    Catalog.ofBytes (Container.write Container.sampleVersion tiedZones "") =
      .ok tiedCatalog.value := by
  have hwritable : Container.Writable Container.sampleVersion tiedZones "" := by
    constructor <;> decide +kernel
  have horder : Container.disorder? none (tiedZones.map fun z => Bytes.text z.1) = none := by
    decide +kernel
  have hread := Container.ofBytes_write_eq hwritable
  rw [horder] at hread
  exact hread

/-- A configuration of one country, with several zones in this order. -/
def oneCountry (ids : List String) : CountryIndex :=
  ⟨none, #[⟨"gb", none, false, ids.map fun id => ⟨id, true, none⟩⟩]⟩

theorem oneCountry_obtained : (oneCountry ["C", "A", "D", "B"]).Obtained := by
  have h : (CountryIndex.parse ("<timezones><countryzones><country code='GB'>" ++
      "<id>C</id><id>A</id><id>D</id><id>B</id></country></countryzones></timezones>")
      .lenient).value.toOption = some (oneCountry ["C", "A", "D", "B"]) := by decide +kernel
  exact .parsed (toOption_eq_some.mp h)

/-- There is no zone D. -/
def tiedFinder : Finder := ⟨tiedCatalog, oneCountry ["C", "A", "B"]⟩

/-- Both A and B fit. The bias decides between them, but C does not fit even as the bias. -/
theorem resolve_exact_tied :
    let x := oneCountry ["C", "A", "D", "B"]
    let held := World.initial.gain (Session.share tiedCatalog.value) fun c => [c]
    let w := held.gainFinders (Finder.ofIndex tiedCatalog x) fun f => [f]
    let answer := fun bias => w.value (tiedFinder.resolve "GB" ⟨0, false⟩ 0 bias)
    w.Reachable ∧ tiedFinder ∈ w.finders ∧ tiedFinder.IsFrom x ∧
      w.candidates tiedFinder x "GB" ⟨0, false⟩ 0 = ["A", "B"] ∧
      answer (some "B") = some "B" ∧ answer (some "C") = some "A" ∧ answer none = some "A" := by
  intro x held w answer
  have hkept : (x.validated tiedCatalog.value .lenient).value.toOption = some tiedFinder.index := by
    decide +kernel
  have hfinder (r : Registry) : ((Finder.ofIndex tiedCatalog x).run r).1 = tiedFinder :=
    ofIndex_value r (toOption_eq_some.mp hkept)
  have hw : w.Reachable :=
    .step (.step .initial (.ofBytes ofBytes_tiedZones))
      (.finderOfIndex List.mem_cons_self oneCountry_obtained)
  have hf : tiedFinder ∈ w.finders := by
    rw [← hfinder held.registry]
    exact List.mem_cons_self
  have hx : tiedFinder.IsFrom x := Or.inr ⟨held.registry, hfinder held.registry⟩
  have hcandidates : w.candidates tiedFinder x "GB" ⟨0, false⟩ 0 = ["A", "B"] := by
    have hcountry : tiedFinder.index.configured "GB" =
        some ⟨"gb", none, false, ["C", "A", "B"].map fun id => ⟨id, true, none⟩⟩ := by
      simp [CountryIndex.configured, CountryZones.isForCountry, tiedFinder, oneCountry,
        toLower_eq_map, String.map_eq_internal]
    rw [candidates_eq hw hf hx, Finder.fitting, hcountry]
    decide +kernel
  have hresolve := resolve_exact hw hf hx "GB" ⟨0, false⟩ 0
  rw [hcandidates] at hresolve
  obtain ⟨-, hbias, -⟩ := hresolve (some "B")
  obtain ⟨-, -, hunfit, -⟩ := hresolve (some "C")
  obtain ⟨-, -, hfirst, -⟩ := hresolve none
  exact ⟨hw, hf, hx, hcandidates, hbias "B" rfl (by decide), hunfit (by decide),
    hfirst (by simp)⟩

end TimeZones
