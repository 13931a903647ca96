import TimeZones.Proofs.CountryOrder

/-! What validating leaves of a configuration, and what it writes. Everything that the catalog does
not have is left out, and nothing else, with one note for each; and validating again changes
nothing. -/
namespace TimeZones

namespace CountryZones

variable {c d : CountryZones} {cs ds : List CountryZones} {catalog : Catalog} {mode : Mode}
  {id : String} {f : Country.Fault}

/-- One note for each mapping that is dropped, and one for a default that is. -/
def leftOut (catalog : Catalog) (c : CountryZones) : List Note :=
  ((c.mappings.filter fun m => !catalog.hasZone m.id).map fun m =>
      Note.zoneDropped m.id c.code catalog.version) ++
    ((c.defaultZoneId.filter fun id => !catalog.hasZone id).map fun id =>
      Note.defaultIgnored id c.code catalog.version).toList

/-- The default of a country is `id`, which is none of its zones that stay. -/
structure Strays (catalog : Catalog) (c : CountryZones) (id : String) : Prop where
  default : c.defaultZoneId = some id
  absent : id ∉ (c.keptIn catalog).zoneIds

theorem missingDefault?_eq_some_iff :
    Country.missingDefault? c.defaultZoneId (c.keptIn catalog).mappings = some id ↔
      c.Strays catalog id := by
  rw [Country.missingDefault?_eq_some]
  constructor
  · rintro ⟨hdefault, habsent⟩
    refine ⟨hdefault, ?_⟩
    intro hmem
    obtain ⟨m, hm, hid⟩ := List.mem_map.mp hmem
    exact habsent m hm hid
  · rintro ⟨hdefault, habsent⟩
    refine ⟨hdefault, ?_⟩
    intro m hm hid
    exact habsent (hid ▸ List.mem_map_of_mem hm)

/-- Strict mode wants a default that is one of the zones that stay. -/
def Fits (catalog : Catalog) (mode : Mode) (c : CountryZones) : Prop :=
  mode = .strict → ∀ id, ¬ c.Strays catalog id

/-- A default that the catalog does not have is ignored, and noted. -/
theorem validated_of_fits (hc : c.Lowered) (h : c.Fits catalog mode) :
    c.validated catalog mode = ⟨.ok (c.keptIn catalog), c.leftOut catalog⟩ := by
  unfold validated
  rw [hc]
  dsimp only
  split
  · rename_i id hid
    exact (h rfl id (missingDefault?_eq_some_iff.mp hid)).elim
  · unfold keptIn leftOut
    cases hd : c.defaultZoneId with
    | none => simp
    | some id =>
      rw [Option.filter_some, Option.filter_some]
      cases catalog.hasZone id
      · simp
      · simp

theorem validated_of_strays (hc : c.Lowered) (h : c.Strays catalog id) :
    (c.validated catalog .strict).value = .error (.defaultNotCandidate c.code id) := by
  have hid : Country.missingDefault? c.defaultZoneId
      (c.mappings.filter fun m => catalog.hasZone m.id) = some id :=
    missingDefault?_eq_some_iff.mpr h
  unfold validated
  rw [hc]
  dsimp only
  rw [hid]

theorem validateAll_of_fit (hcs : ∀ c ∈ cs, c.Lowered) (h : ∀ c ∈ cs, c.Fits catalog mode) :
    validateAll catalog mode cs =
      ⟨.ok (cs.map (keptIn catalog)), cs.flatMap (leftOut catalog)⟩ := by
  induction cs with
  | nil => rfl
  | cons c cs ih =>
    obtain ⟨hc, hcs⟩ := List.forall_mem_cons.mp hcs
    obtain ⟨hfit, hfits⟩ := List.forall_mem_cons.mp h
    rw [validateAll, validated_of_fits hc hfit, ih hcs hfits]
    simp [Logged.andThen]

/-- Of the countries in a list, `c` is the first that strict mode refuses. -/
structure Blocks (catalog : Catalog) (cs : List CountryZones) (c : CountryZones) (id : String) :
    Prop where
  strays : c.Strays catalog id
  first : ∃ before after, cs = before ++ c :: after ∧ ∀ d ∈ before, d.Fits catalog .strict

theorem validateAll_of_blocks (hcs : ∀ c ∈ cs, c.Lowered) (h : Blocks catalog cs c id) :
    (validateAll catalog .strict cs).value = .error (.defaultNotCandidate c.code id) := by
  obtain ⟨hstrays, before, after, rfl, hfits⟩ := h
  induction before with
  | nil =>
    have hc := (List.forall_mem_cons.mp hcs).1
    rw [List.nil_append, validateAll, Logged.andThen, validated_of_strays hc hstrays]
  | cons d before ih =>
    obtain ⟨hd, hcs⟩ := List.forall_mem_cons.mp hcs
    obtain ⟨hfit, hfits⟩ := List.forall_mem_cons.mp hfits
    have hrest := ih hfits hcs
    rw [List.cons_append, validateAll, validated_of_fits hd hfit]
    simp only [Logged.andThen, hrest]

/-- Either all countries fit or one is the first that does not, and the mode is strict. -/
theorem fit_or_blocks (catalog : Catalog) (mode : Mode) (cs : List CountryZones) :
    (∀ c ∈ cs, c.Fits catalog mode) ∨ mode = .strict ∧ ∃ c id, Blocks catalog cs c id := by
  induction cs with
  | nil => exact Or.inl (List.forall_mem_nil _)
  | cons c cs ih =>
    by_cases hc : c.Fits catalog mode
    · rcases ih with hfits | ⟨rfl, d, id, hstrays, before, after, rfl, hfits⟩
      · exact Or.inl (List.forall_mem_cons.mpr ⟨hc, hfits⟩)
      · refine Or.inr ⟨rfl, d, id, hstrays, c :: before, after, rfl, ?_⟩
        exact List.forall_mem_cons.mpr ⟨hc, hfits⟩
    · simp only [Fits, Classical.not_forall, Classical.not_not] at hc
      obtain ⟨rfl, id, hstrays⟩ := hc
      exact Or.inr ⟨rfl, c, id, hstrays, [], cs, rfl, List.forall_mem_nil _⟩

theorem keptIn_keptIn (catalog : Catalog) (c : CountryZones) :
    (c.keptIn catalog).keptIn catalog = c.keptIn catalog := by
  unfold keptIn
  congr 1
  · rw [Option.filter_filter]
    simp
  · rw [List.filter_filter]
    simp

theorem leftOut_keptIn (catalog : Catalog) (c : CountryZones) :
    (c.keptIn catalog).leftOut catalog = [] := by
  unfold leftOut keptIn
  dsimp only
  rw [List.filter_filter, Option.filter_filter]
  simp

theorem Fits.keptIn (h : c.Fits catalog mode) : (c.keptIn catalog).Fits catalog mode := by
  rintro hmode id ⟨hdefault, habsent⟩
  rw [keptIn_keptIn] at habsent
  exact h hmode id ⟨(Option.filter_eq_some_iff.mp hdefault).1, habsent⟩

end CountryZones

namespace CountryIndex
open CountryZones

variable {x y : CountryIndex} {catalog : Catalog} {mode : Mode} {c : CountryZones} {id : String}
  {f : Country.Fault}

/-- The notes on all that a catalog does not have, country by country. -/
def leftOut (catalog : Catalog) (x : CountryIndex) : List Note :=
  x.countries.toList.flatMap (CountryZones.leftOut catalog)

theorem keptIn_keptIn (catalog : Catalog) (x : CountryIndex) :
    (x.keptIn catalog).keptIn catalog = x.keptIn catalog := by
  unfold keptIn
  rw [Array.map_map]
  congr 2
  funext c
  exact CountryZones.keptIn_keptIn catalog c

theorem leftOut_keptIn (catalog : Catalog) (x : CountryIndex) :
    (x.keptIn catalog).leftOut catalog = [] := by
  rw [leftOut, List.flatMap_eq_nil_iff]
  intro d hd
  obtain ⟨c, -, rfl⟩ := Array.mem_map.mp (Array.mem_toList_iff.mp hd)
  exact CountryZones.leftOut_keptIn catalog c

theorem validated_of_fit (hx : x.Ordered) (h : ∀ c ∈ x.countries, c.Fits catalog mode) :
    x.validated catalog mode = ⟨.ok (x.keptIn catalog), x.leftOut catalog⟩ := by
  rw [validated, validateAll_of_fit]
  · simp only [Logged.andThen, List.append_nil, ← Array.toList_map]
    rfl
  · exact fun c hc => hx.lowered c (Array.mem_toList_iff.mp hc)
  · exact fun c hc => h c (Array.mem_toList_iff.mp hc)

theorem validated_of_blocks (hx : x.Ordered) (h : Blocks catalog x.countries.toList c id) :
    (x.validated catalog .strict).value = .error (.defaultNotCandidate c.code id) := by
  have hvalue := validateAll_of_blocks
    (fun c hc => hx.lowered c (Array.mem_toList_iff.mp hc)) h
  simp only [validated, Logged.andThen, hvalue]

theorem fit_or_blocks (x : CountryIndex) (catalog : Catalog) (mode : Mode) :
    (∀ c ∈ x.countries, c.Fits catalog mode) ∨
      mode = .strict ∧ ∃ c id, Blocks catalog x.countries.toList c id := by
  rcases CountryZones.fit_or_blocks catalog mode x.countries.toList with hfits | hblocks
  · exact Or.inl fun c hc => hfits c (Array.mem_toList_iff.mpr hc)
  · exact Or.inr hblocks

theorem validated_eq_ok_iff (hx : x.Ordered) :
    (x.validated catalog mode).value = .ok y ↔
      (∀ c ∈ x.countries, c.Fits catalog mode) ∧ y = x.keptIn catalog := by
  constructor
  · intro h
    refine ⟨?_, hx.validated_eq_ok h⟩
    rcases x.fit_or_blocks catalog mode with hfit | ⟨rfl, c, id, hblocks⟩
    · exact hfit
    · rw [validated_of_blocks hx hblocks] at h
      cases h
  · rintro ⟨hfit, rfl⟩
    rw [validated_of_fit hx hfit]

theorem validated_eq_error_iff (hx : x.Ordered) :
    (x.validated catalog mode).value = .error f ↔
      mode = .strict ∧ ∃ c id, Blocks catalog x.countries.toList c id ∧
        f = .defaultNotCandidate c.code id := by
  constructor
  · intro h
    rcases x.fit_or_blocks catalog mode with hfit | ⟨rfl, c, id, hblocks⟩
    · rw [validated_of_fit hx hfit] at h
      cases h
    · rw [validated_of_blocks hx hblocks] at h
      exact ⟨rfl, c, id, hblocks, (Except.error.inj h).symm⟩
  · rintro ⟨rfl, c, id, hblocks, rfl⟩
    exact validated_of_blocks hx hblocks

/-- In the order of codes, the country that blocks is the first. -/
theorem Ordered.blocks_iff (hx : x.Ordered) :
    Blocks catalog x.countries.toList c id ↔
      c ∈ x.countries ∧ c.Strays catalog id ∧
        ∀ d ∈ x.countries, d.code < c.code → d.Fits catalog .strict := by
  have hinc := hx.increasing
  constructor
  · rintro ⟨hstrays, before, after, heq, hfits⟩
    rw [heq, List.pairwise_append, List.pairwise_cons] at hinc
    obtain ⟨-, ⟨hafter, -⟩, -⟩ := hinc
    have hmem {d : CountryZones} : d ∈ x.countries ↔ d ∈ before ++ c :: after := by
      rw [← heq, Array.mem_toList_iff]
    refine ⟨hmem.mpr (List.mem_append_right _ List.mem_cons_self), hstrays, ?_⟩
    intro d hd hlt
    rcases List.mem_append.mp (hmem.mp hd) with hd | hd
    · exact hfits d hd
    · rcases List.mem_cons.mp hd with rfl | hd
      · exact (String.lt_irrefl _ hlt).elim
      · exact (String.lt_irrefl _ (String.lt_trans hlt (hafter d hd))).elim
  · rintro ⟨hc, hstrays, hfits⟩
    obtain ⟨before, after, heq⟩ := List.append_of_mem (Array.mem_toList_iff.mpr hc)
    refine ⟨hstrays, before, after, heq, ?_⟩
    intro d hd
    rw [heq, List.pairwise_append] at hinc
    apply hfits d
    · rw [← Array.mem_toList_iff, heq]
      exact List.mem_append_left _ hd
    · exact hinc.2.2 d hd c List.mem_cons_self

theorem level_of_mem_leftOut {n : Note} (h : n ∈ x.leftOut catalog) : n.level = .warn := by
  obtain ⟨c, -, h⟩ := List.mem_flatMap.mp h
  rcases List.mem_append.mp h with h | h
  · obtain ⟨m, -, rfl⟩ := List.mem_map.mp h
    rfl
  · obtain ⟨id, -, rfl⟩ := Option.map_eq_some_iff.mp (Option.mem_toList.mp h)
    rfl

/-- Validating leaves what the catalog has, warns about each zone and each default that it does not
have and about nothing else, and has nothing left to do the second time. Only strict mode refuses,
and it refuses the first country, in the order of codes, whose default is none of its zones that
stay. -/
theorem validated_exact (hx : x.Obtained) (catalog : Catalog) (mode : Mode) :
    (∀ y, (x.validated catalog mode).value = .ok y →
      y = x.keptIn catalog ∧ y.countryCodes = x.countryCodes ∧
      (x.validated catalog mode).notes = x.leftOut catalog ∧
      (∀ n ∈ (x.validated catalog mode).notes, n.level = .warn) ∧
      y.validated catalog mode = ⟨.ok y, []⟩) ∧
    (∃ y, (x.validated catalog .lenient).value = .ok y) ∧
    ∀ f, (x.validated catalog mode).value = .error f ↔
      mode = .strict ∧ ∃ c id, c ∈ x.countries ∧ c.Strays catalog id ∧
        (∀ d ∈ x.countries, d.code < c.code → d.Fits catalog .strict) ∧
        f = .defaultNotCandidate c.code id := by
  have hx := hx.ordered
  refine ⟨?_, validated_lenient x catalog, ?_⟩
  · intro y h
    obtain ⟨hfit, rfl⟩ := (validated_eq_ok_iff hx).mp h
    have hkept : ∀ c ∈ (x.keptIn catalog).countries, c.Fits catalog mode := by
      intro d hd
      obtain ⟨c, hc, rfl⟩ := Array.mem_map.mp hd
      exact (hfit c hc).keptIn
    rw [validated_of_fit hx hfit, validated_of_fit (hx.keptIn catalog) hkept, keptIn_keptIn,
      leftOut_keptIn]
    exact ⟨rfl, countryCodes_keptIn catalog x, rfl, fun n hn => level_of_mem_leftOut hn, rfl⟩
  · intro f
    rw [validated_eq_error_iff hx]
    simp only [hx.blocks_iff, and_assoc]

/-- The catalog to fall back on does not have the default of this country, but another zone. -/
def londoners : CountryIndex :=
  ⟨none, #[⟨"gb", some "Europe/London", false,
    [⟨"Europe/London", true, none⟩, ⟨"GMT", true, none⟩]⟩]⟩

theorem londoners_obtained : londoners.Obtained := by
  have h : (parse ("<timezones><countryzones><country code='GB' default='Europe/London'>" ++
      "<id>Europe/London</id><id>GMT</id></country></countryzones></timezones>")
      .strict).value.toOption = some londoners := by decide +kernel
  exact .parsed (toOption_eq_some.mp h)

theorem validated_exact_londoners :
    londoners.Obtained ∧
      (∃ y, (londoners.validated .builtin .lenient).value = .ok y ∧
        y.countries.toList = [⟨"gb", none, false, [⟨"GMT", true, none⟩]⟩] ∧
        y.validated .builtin .lenient = ⟨.ok y, []⟩) ∧
      (londoners.validated .builtin .lenient).notes =
        [.zoneDropped "Europe/London" "gb" "missing",
          .defaultIgnored "Europe/London" "gb" "missing"] ∧
      (londoners.validated .builtin .strict).value =
        .error (.defaultNotCandidate "gb" "Europe/London") := by
  obtain ⟨hleaves, ⟨y, hy⟩, -⟩ := validated_exact londoners_obtained .builtin .lenient
  obtain ⟨rfl, -, hnotes, -, hagain⟩ := hleaves y hy
  obtain ⟨-, -, hrefuses⟩ := validated_exact londoners_obtained .builtin .strict
  refine ⟨londoners_obtained, ⟨_, hy, by decide +kernel, hagain⟩, ?_, ?_⟩
  · have hlondon : Catalog.builtin.hasZone "Europe/London" = false := by decide +kernel
    have hgmt : Catalog.builtin.hasZone "GMT" = true := by decide +kernel
    have hversion : Catalog.builtin.version = "missing" := rfl
    rw [hnotes]
    simp [leftOut, CountryZones.leftOut, londoners, hlondon, hgmt, hversion]
  · refine (hrefuses _).mpr ⟨rfl, _, "Europe/London", Array.mem_singleton.mpr rfl, ?_, ?_, rfl⟩
    · exact ⟨rfl, by decide +kernel⟩
    · intro d hd hlt
      obtain rfl := Array.mem_singleton.mp hd
      exact (String.lt_irrefl _ hlt).elim

end CountryIndex

end TimeZones
