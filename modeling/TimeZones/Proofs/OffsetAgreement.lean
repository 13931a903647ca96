import TimeZones.Proofs.OffsetLookup
import TimeZones.Proofs.OffsetParts

/-! Different questions about the zones of a country, and where their answers go together. The type
in effect and the parts of the offset find the same zone where no mapping has ended and daylight
saving time always adds something. Whether there is a zone at UTC, and whether the default will do
for all zones, is also told by looking for offsets. -/
namespace TimeZones
open Session

namespace CountryZones

variable {catalog : Catalog} {c : CountryZones} {m : Mapping} {t : Table} {millis : Int}
  {offset : Int32} {isDst : Bool}

theorem accepts_iff_offsetAtMillis
    (h : (t.offsetsAtMillis millis).dst ≠ 0 ↔ (t.offsetAtMillis millis).isDst = true) :
    (OffsetQuery.mk offset (some isDst) none).accepts (t.offsetsAtMillis millis) = true ↔
      t.offsetAtMillis millis = ⟨offset, isDst⟩ := by
  rw [World.accepts_iff, t.total_offsetsAtMillis]
  generalize t.offsetAtMillis millis = type at h
  generalize (t.offsetsAtMillis millis).dst = dst at h
  obtain ⟨utcOffset, d⟩ := type
  cases isDst with
  | true => simp [h]
  | false => cases d <;> simp_all

theorem accepted_eq_fits
    (h : ∀ t ∈ catalog.table? m.id,
      (t.offsetsAtMillis millis).dst ≠ 0 ↔ (t.offsetAtMillis millis).isDst = true) :
    accepted catalog ⟨offset, some isDst, none⟩ millis m =
      fits catalog ⟨offset, isDst⟩ millis m.id := by
  rw [accepted, fits]
  cases ht : catalog.table? m.id with
  | none => rfl
  | some t =>
    rw [Option.any_some, Option.any_some, Bool.eq_iff_iff, decide_eq_true_iff]
    exact accepts_iff_offsetAtMillis (h t ht)

theorem effectiveMappings_eq_self (h : ∀ m ∈ c.mappings, ∀ last ∈ m.notUsedAfter, millis ≤ last) :
    c.effectiveMappings millis = c.mappings := by
  apply List.filter_eq_self.mpr
  intro m hm
  rw [Mapping.isEffectiveAt, Option.all_eq_true]
  intro last hlast
  exact decide_eq_true (h m hm last hlast)

/-- The zones found by parts of the offset are those found by the type in effect. -/
theorem map_filter_accepted
    (heffective : ∀ m ∈ c.mappings, ∀ last ∈ m.notUsedAfter, millis ≤ last)
    (hdst : ∀ m ∈ c.mappings, ∀ t ∈ catalog.table? m.id,
      (t.offsetsAtMillis millis).dst ≠ 0 ↔ (t.offsetAtMillis millis).isDst = true) :
    ((c.effectiveMappings millis).filter
        (accepted catalog ⟨offset, some isDst, none⟩ millis)).map (·.id) =
      c.zoneIds.filter (fits catalog ⟨offset, isDst⟩ millis) := by
  rw [effectiveMappings_eq_self heffective, zoneIds, List.filter_map]
  congr 1
  apply List.filter_congr
  intro m hm
  exact accepted_eq_fits (hdst m hm)

/-- Where nothing is asked of daylight saving time, only the total counts, which both questions to
the table give alike. -/
theorem accepted_eq_hasOffset (dstOffset : Option Int32) (m : Mapping) :
    accepted catalog ⟨offset, none, dstOffset⟩ millis m = hasOffset catalog millis offset m := by
  rw [accepted, hasOffset]
  congr 1
  funext t
  rw [OffsetQuery.accepts, t.total_offsetsAtMillis, Bool.and_true]

end CountryZones

namespace World

variable {w v : World} {catalog : Shared Catalog} {c : CountryZones} {millis : Int}

theorem value_resolve (hw : w.Reachable) (hc : catalog ∈ w.catalogs) (c : CountryZones)
    (wanted : OffsetType) (millis : Int) (bias : Option String) :
    w.value (c.resolve catalog wanted millis bias) =
      CountryZones.preferred bias
        (c.zoneIds.filter (CountryZones.fits catalog.value wanted millis)) :=
  value_of_gives hw (CountryZones.resolve_gives hc c wanted millis bias)

/-- Where no mapping of a country has ended, and daylight saving time adds something to the offset
of its zones just if it is in effect, both ways to look for a zone find the same one, at every point
of every run. -/
theorem resolve_eq_some_iff (hw : w.Reachable) (hv : v.Reachable) (hcw : catalog ∈ w.catalogs)
    (hcv : catalog ∈ v.catalogs)
    (heffective : ∀ m ∈ c.mappings, ∀ last ∈ m.notUsedAfter, millis ≤ last)
    (hdst : ∀ m ∈ c.mappings, ∀ t ∈ w.value (Catalog.lookup catalog m.id),
      (t.value.offsetsAtMillis millis).dst ≠ 0 ↔ (t.value.offsetAtMillis millis).isDst = true)
    (offset : Int32) (isDst : Bool) (bias : Option String) (id : String) :
    w.value (c.resolve catalog ⟨offset, isDst⟩ millis bias) = some id ↔
      ∃ r, v.value (c.lookupByOffset catalog ⟨offset, some isDst, none⟩ millis bias) = some r ∧
        r.zoneId = id := by
  have htable : ∀ m ∈ c.mappings, ∀ t ∈ catalog.value.table? m.id,
      (t.offsetsAtMillis millis).dst ≠ 0 ↔ (t.offsetAtMillis millis).isDst = true := by
    intro m hm t ht
    rw [← value_lookup hw hcw] at ht
    obtain ⟨s, hs, rfl⟩ := Option.map_eq_some_iff.mp ht
    exact hdst m hm s hs
  rw [value_resolve hw hcw, value_lookupByOffset hv hcv, matching_eq hv hcv,
    CountryZones.map_filter_accepted heffective htable, CountryZones.choose_eq]
  constructor
  · intro h
    exact ⟨_, Option.map_eq_some_iff.mpr ⟨id, h, rfl⟩, rfl⟩
  · rintro ⟨r, hr, rfl⟩
    obtain ⟨id, hid, rfl⟩ := Option.map_eq_some_iff.mp hr
    exact hid

/-- One millisecond before the first mapping to B ends. -/
theorem resolve_eq_some_iff_oneHourAhead :
    let w := initial.gain (Session.share oneHourAheadCatalog.value) fun c => [c]
    let resolved := fun isDst bias =>
      w.value (oneHourAheadCountry.resolve oneHourAheadCatalog ⟨3600, isDst⟩ 5999 bias)
    let found := fun isDst bias =>
      w.value (oneHourAheadCountry.lookupByOffset oneHourAheadCatalog
        ⟨3600, some isDst, none⟩ 5999 bias)
    w.Reachable ∧ oneHourAheadCatalog ∈ w.catalogs ∧
      (∀ m ∈ oneHourAheadCountry.mappings, ∀ last ∈ m.notUsedAfter, 5999 ≤ last) ∧
      (∀ m ∈ oneHourAheadCountry.mappings,
        ∀ t ∈ w.value (Catalog.lookup oneHourAheadCatalog m.id),
          (t.value.offsetsAtMillis 5999).dst ≠ 0 ↔ (t.value.offsetAtMillis 5999).isDst = true) ∧
      resolved true (some "B") = some "A" ∧ (∃ r, found true (some "B") = some r ∧ r.zoneId = "A") ∧
      resolved false (some "C") = some "B" ∧
      ∃ r, found false (some "C") = some r ∧ r.zoneId = "B" := by
  intro w resolved found
  have hw : w.Reachable := .step .initial (.ofBytes ofBytes_oneHourAhead)
  have hc : oneHourAheadCatalog ∈ w.catalogs := List.mem_cons_self
  have heffective : ∀ m ∈ oneHourAheadCountry.mappings, ∀ last ∈ m.notUsedAfter,
      (5999 : Int) ≤ last := by decide
  have hdst : ∀ m ∈ oneHourAheadCountry.mappings,
      ∀ t ∈ w.value (Catalog.lookup oneHourAheadCatalog m.id),
        (t.value.offsetsAtMillis 5999).dst ≠ 0 ↔ (t.value.offsetAtMillis 5999).isDst = true := by
    decide +kernel
  have htrue : resolved true (some "B") = some "A" := by decide +kernel
  have hfalse : resolved false (some "C") = some "B" := by decide +kernel
  have hagree := resolve_eq_some_iff hw hw hc hc heffective hdst
  exact ⟨hw, hc, heffective, hdst, htrue, (hagree 3600 true (some "B") "A").mp htrue, hfalse,
    (hagree 3600 false (some "C") "B").mp hfalse⟩

/-- The zone is found, and its total offset at an instant is the given one. -/
def HasTotal (w : World) (catalog : Shared Catalog) (millis : Int) (offset : Int32)
    (id : String) : Prop :=
  ∃ t ∈ w.value (Catalog.lookup catalog id), (t.value.offsetsAtMillis millis).total = offset

/-- The default of a country is found, and so are all its zones in effect, and their total offset is
the given one. -/
structure HasCommonTotal (w : World) (catalog : Shared Catalog) (c : CountryZones) (millis : Int)
    (offset : Int32) : Prop where
  default : ∃ id ∈ c.defaultZoneId, w.HasTotal catalog millis offset id
  zones : ∀ m ∈ c.effectiveMappings millis, w.HasTotal catalog millis offset m.id

theorem hasTotal_iff (hw : w.Reachable) (hc : catalog ∈ w.catalogs) {offset : Int32}
    {id : String} : w.HasTotal catalog millis offset id ↔
      ∃ t ∈ catalog.value.table? id, (t.offsetAtMillis millis).utcOffset = offset := by
  rw [HasTotal, ← value_lookup hw hc]
  constructor
  · rintro ⟨t, ht, htotal⟩
    refine ⟨t.value, Option.map_eq_some_iff.mpr ⟨t, ht, rfl⟩, ?_⟩
    rw [← htotal, Table.total_offsetsAtMillis]
  · rintro ⟨_, ht, hoffset⟩
    obtain ⟨t, hlookup, rfl⟩ := Option.map_eq_some_iff.mp ht
    exact ⟨t, hlookup, (t.value.total_offsetsAtMillis millis).trans hoffset⟩

theorem hasOffset_iff (hw : w.Reachable) (hc : catalog ∈ w.catalogs) {offset : Int32}
    {m : Mapping} : CountryZones.hasOffset catalog.value millis offset m = true ↔
      w.HasTotal catalog millis offset m.id := by
  rw [CountryZones.hasOffset, Option.any_eq_true, hasTotal_iff hw hc]
  simp only [decide_eq_true_eq, Option.mem_def]

/-- A zone has one total offset at an instant. -/
theorem HasTotal.unique {offset offset' : Int32} {id : String}
    (h : w.HasTotal catalog millis offset id) (h' : w.HasTotal catalog millis offset' id) :
    offset = offset' := by
  obtain ⟨t, ht, rfl⟩ := h
  obtain ⟨t', ht', rfl⟩ := h'
  obtain rfl := Option.mem_unique ht ht'
  rfl

theorem hasUtcZone_iff (hw : w.Reachable) (hc : catalog ∈ w.catalogs) (c : CountryZones)
    (millis : Int) :
    w.value (c.hasUtcZone catalog millis) = true ↔
      c.everUsesUtc = true ∧
        ∃ m ∈ c.effectiveMappings millis, w.HasTotal catalog millis 0 m.id := by
  rw [value_of_gives hw (CountryZones.hasUtcZone_gives hc c millis), Bool.and_eq_true, List.any_eq_true]
  simp only [hasOffset_iff hw hc]

/-- With a single zone in effect the default does not matter. -/
theorem isDefaultOkayAt_iff (hw : w.Reachable) (hc : catalog ∈ w.catalogs) (c : CountryZones)
    (millis : Int) : w.value (c.isDefaultOkayAt catalog millis) = true ↔
      (c.effectiveMappings millis).length = 1 ∨ 2 ≤ (c.effectiveMappings millis).length ∧
        ∃ offset, w.HasCommonTotal catalog c millis offset := by
  rw [value_of_gives hw (CountryZones.isDefaultOkayAt_gives hc c millis)]
  rcases hms : c.effectiveMappings millis with _ | ⟨m, _ | ⟨m', ms⟩⟩
  · simp
  · simp
  · dsimp only
    rw [← hms, Option.any_eq_true]
    have hlength : 2 ≤ (c.effectiveMappings millis).length := by simp [hms]
    constructor
    · rintro ⟨t, ht, hall⟩
      obtain ⟨id, hid, ht⟩ := Option.bind_eq_some_iff.mp ht
      refine Or.inr ⟨hlength, _, ⟨id, hid, (hasTotal_iff hw hc).mpr ⟨t, ht, rfl⟩⟩, ?_⟩
      intro m hm
      exact (hasOffset_iff hw hc).mp (List.all_eq_true.mp hall m hm)
    · rintro (hone | ⟨-, offset, ⟨id, hid, hdefault⟩, hzones⟩)
      · omega
      · obtain ⟨t, ht, rfl⟩ := (hasTotal_iff hw hc).mp hdefault
        refine ⟨t, Option.bind_eq_some_iff.mpr ⟨id, hid, ht⟩, List.all_eq_true.mpr ?_⟩
        intro m hm
        exact (hasOffset_iff hw hc).mpr (hzones m hm)

/-- The state does not matter for what offset a zone has. -/
theorem hasTotal_congr (hw : w.Reachable) (hv : v.Reachable) (hcw : catalog ∈ w.catalogs)
    (hcv : catalog ∈ v.catalogs) {offset : Int32} {id : String} :
    v.HasTotal catalog millis offset id ↔ w.HasTotal catalog millis offset id :=
  (hasTotal_iff hv hcv).trans (hasTotal_iff hw hcw).symm

theorem value_lookupByTotal (hw : w.Reachable) (hc : catalog ∈ w.catalogs) (c : CountryZones)
    (millis : Int) (offset : Int32) (dstOffset : Option Int32) (bias : Option String) :
    w.value (c.lookupByOffset catalog ⟨offset, none, dstOffset⟩ millis bias) =
      OffsetResult.choose bias (((c.effectiveMappings millis).filter
        (CountryZones.hasOffset catalog.value millis offset)).map (·.id)) := by
  rw [value_lookupByOffset hw hc, matching_eq hw hc]
  congr 3
  funext m
  exact CountryZones.accepted_eq_hasOffset dstOffset m

/-- Without regard to daylight saving time a zone is found just if one in effect has the total
offset that is asked for. -/
theorem isSome_lookupByTotal_iff (hw : w.Reachable) (hc : catalog ∈ w.catalogs) (c : CountryZones)
    (millis : Int) (offset : Int32) (dstOffset : Option Int32) (bias : Option String) :
    (w.value (c.lookupByOffset catalog ⟨offset, none, dstOffset⟩ millis bias)).isSome = true ↔
      ∃ m ∈ c.effectiveMappings millis, w.HasTotal catalog millis offset m.id := by
  rw [value_lookupByTotal hw hc, Option.isSome_iff_ne_none, ne_eq,
    CountryZones.choose_eq_none_iff, List.map_eq_nil_iff, List.filter_eq_nil_iff]
  simp only [hasOffset_iff hw hc, Classical.not_forall, Classical.not_not, exists_prop]

/-- Where all zones in effect have the offset asked for, all of them count. -/
theorem value_lookupByTotal_of_common (hw : w.Reachable) (hc : catalog ∈ w.catalogs)
    {offset : Int32} (h : ∀ m ∈ c.effectiveMappings millis, w.HasTotal catalog millis offset m.id)
    (dstOffset : Option Int32) (bias : Option String) :
    w.value (c.lookupByOffset catalog ⟨offset, none, dstOffset⟩ millis bias) =
      OffsetResult.choose bias ((c.effectiveMappings millis).map (·.id)) := by
  rw [value_lookupByTotal hw hc, List.filter_eq_self.mpr]
  intro m hm
  exact (hasOffset_iff hw hc).mpr (h m hm)

section Reordered

variable {d : CountryZones} {offset : Int32}

theorem HasCommonTotal.of_perm (hw : w.Reachable) (hv : v.Reachable) (hcw : catalog ∈ w.catalogs)
    (hcv : catalog ∈ v.catalogs)
    (heffective : (d.effectiveMappings millis).Perm (c.effectiveMappings millis))
    (hdefault : d.defaultZoneId = c.defaultZoneId) (h : w.HasCommonTotal catalog c millis offset) :
    v.HasCommonTotal catalog d millis offset := by
  obtain ⟨⟨id, hid, htotal⟩, hzones⟩ := h
  refine ⟨⟨id, hdefault ▸ hid, (hasTotal_congr hw hv hcw hcv).mpr htotal⟩, ?_⟩
  intro m hm
  exact (hasTotal_congr hw hv hcw hcv).mpr (hzones m (heffective.mem_iff.mp hm))

theorem hasUtcZone_of_perm (hw : w.Reachable) (hv : v.Reachable) (hcw : catalog ∈ w.catalogs)
    (hcv : catalog ∈ v.catalogs) (hms : d.mappings.Perm c.mappings)
    (hutc : d.everUsesUtc = c.everUsesUtc) :
    v.value (d.hasUtcZone catalog millis) = w.value (c.hasUtcZone catalog millis) := by
  have heffective : (d.effectiveMappings millis).Perm (c.effectiveMappings millis) := hms.filter _
  rw [Bool.eq_iff_iff, hasUtcZone_iff hv hcv, hasUtcZone_iff hw hcw, hutc]
  simp only [hasTotal_congr hw hv hcw hcv, heffective.mem_iff]

theorem isDefaultOkayAt_of_perm (hw : w.Reachable) (hv : v.Reachable) (hcw : catalog ∈ w.catalogs)
    (hcv : catalog ∈ v.catalogs) (hms : d.mappings.Perm c.mappings)
    (hdefault : d.defaultZoneId = c.defaultZoneId) :
    v.value (d.isDefaultOkayAt catalog millis) = w.value (c.isDefaultOkayAt catalog millis) := by
  have heffective : (d.effectiveMappings millis).Perm (c.effectiveMappings millis) := hms.filter _
  have hcommon (offset : Int32) : v.HasCommonTotal catalog d millis offset ↔
      w.HasCommonTotal catalog c millis offset :=
    ⟨.of_perm hv hw hcv hcw heffective.symm hdefault.symm,
      .of_perm hw hv hcw hcv heffective hdefault⟩
  rw [Bool.eq_iff_iff, isDefaultOkayAt_iff hv hcv, isDefaultOkayAt_iff hw hcw, heffective.length_eq]
  simp only [hcommon]

end Reordered

/-- A country has a zone at UTC just if it uses UTC at some time and a zone is found by the total
offset of zero. Where several mappings are in effect, the default will do just if it and they all
have one total offset. A look-up by the total then finds a zone at this offset only, it is never the
only match, and the bias if that is the zone of a mapping in effect. Neither depends on the order of
the mappings. -/
theorem offsetPredicates_exact (hw : w.Reachable) (hv : v.Reachable) (hcw : catalog ∈ w.catalogs)
    (hcv : catalog ∈ v.catalogs) (c : CountryZones) (millis : Int) :
    let found := fun offset dstOffset bias =>
      v.value (c.lookupByOffset catalog ⟨offset, none, dstOffset⟩ millis bias)
    let effective := c.effectiveMappings millis
    (∀ dstOffset bias, w.value (c.hasUtcZone catalog millis) = true ↔
        c.everUsesUtc = true ∧ (found 0 dstOffset bias).isSome = true) ∧
      (2 ≤ effective.length →
        (w.value (c.isDefaultOkayAt catalog millis) = true ↔
          ∃ common, w.HasCommonTotal catalog c millis common) ∧
        ∀ common, w.HasCommonTotal catalog c millis common → ∀ offset dstOffset bias,
          ((found offset dstOffset bias).isSome = true ↔ offset = common) ∧
          ∀ r, found offset dstOffset bias = some r →
            r.oneMatch = false ∧ ∀ b ∈ bias, b ∈ effective.map (·.id) → r.zoneId = b) ∧
      ∀ ms : List Mapping, ms.Perm c.mappings →
        v.value ({ c with mappings := ms }.hasUtcZone catalog millis) =
          w.value (c.hasUtcZone catalog millis) ∧
        v.value ({ c with mappings := ms }.isDefaultOkayAt catalog millis) =
          w.value (c.isDefaultOkayAt catalog millis) := by
  intro found effective
  refine ⟨?_, ?_, ?_⟩
  · intro dstOffset bias
    rw [hasUtcZone_iff hw hcw, isSome_lookupByTotal_iff hv hcv]
    simp only [hasTotal_congr hw hv hcw hcv]
  · intro hlength
    refine ⟨?_, ?_⟩
    · rw [isDefaultOkayAt_iff hw hcw]
      constructor
      · rintro (hone | ⟨-, h⟩)
        · have hone : effective.length = 1 := hone
          omega
        · exact h
      · exact fun h => Or.inr ⟨hlength, h⟩
    · intro common hcommon offset dstOffset bias
      have hzones : ∀ m ∈ effective, v.HasTotal catalog millis common m.id := fun m hm =>
        (hasTotal_congr hw hv hcw hcv).mpr (hcommon.zones m hm)
      have hsome : (found offset dstOffset bias).isSome = true ↔ offset = common := by
        rw [isSome_lookupByTotal_iff hv hcv]
        constructor
        · rintro ⟨m, hm, hoffset⟩
          exact hoffset.unique (hzones m hm)
        · rintro rfl
          obtain ⟨m, hm⟩ := List.exists_mem_of_length_pos (l := effective) (by omega)
          exact ⟨m, hm, hzones m hm⟩
      refine ⟨hsome, ?_⟩
      intro r hr
      obtain rfl : offset = common := hsome.mp (by rw [hr, Option.isSome_some])
      have hfound : found offset dstOffset bias = _ :=
        value_lookupByTotal_of_common hv hcv hzones dstOffset bias
      rw [hfound] at hr
      obtain ⟨hbias, -, hone⟩ := CountryZones.choose_found hr
      refine ⟨?_, hbias⟩
      rw [Bool.eq_false_iff]
      intro h
      have hone : effective.length = 1 := hone.mp h
      omega
  · intro ms hms
    exact ⟨hasUtcZone_of_perm hw hv hcw hcv hms rfl, isDefaultOkayAt_of_perm hw hv hcw hcv hms rfl⟩

/-- The zones A and B of `oneHourAhead`, with B twice and as the default. -/
def oneHourAheadAlways : CountryZones where
  code := "xx"
  defaultZoneId := some "B"
  everUsesUtc := true
  mappings := [⟨"B", true, none⟩, ⟨"A", true, none⟩, ⟨"B", true, some 6000⟩]

theorem offsetPredicates_exact_oneHourAhead :
    let w := initial.gain (Session.share oneHourAheadCatalog.value) fun c => [c]
    let c := oneHourAheadAlways
    let found := fun offset => w.value (c.lookupByOffset oneHourAheadCatalog ⟨offset, none, none⟩
      6000 (some "A"))
    w.Reachable ∧ oneHourAheadCatalog ∈ w.catalogs ∧ 2 ≤ (c.effectiveMappings 6000).length ∧
      w.value (c.isDefaultOkayAt oneHourAheadCatalog 6000) = true ∧
      w.HasCommonTotal oneHourAheadCatalog c 6000 3600 ∧ found 3600 = some ⟨"A", false⟩ ∧
      (found 0).isSome = false ∧ w.value (c.hasUtcZone oneHourAheadCatalog 6000) = false ∧
      w.value ({ c with mappings := c.mappings.reverse }.isDefaultOkayAt oneHourAheadCatalog 6000) =
        true := by
  intro w c found
  have hw : w.Reachable := .step .initial (.ofBytes ofBytes_oneHourAhead)
  have hc : oneHourAheadCatalog ∈ w.catalogs := List.mem_cons_self
  have hlength : 2 ≤ (c.effectiveMappings 6000).length := by decide
  have hokay : w.value (c.isDefaultOkayAt oneHourAheadCatalog 6000) = true := by decide +kernel
  have hsome : (found 3600).isSome = true := by decide +kernel
  obtain ⟨hutc, hseveral, hperm⟩ := offsetPredicates_exact hw hw hc hc c 6000
  obtain ⟨hcommon, hlookup⟩ := hseveral hlength
  obtain ⟨common, h⟩ := hcommon.mp hokay
  obtain ⟨hoffset, hfound⟩ := hlookup common h 3600 none (some "A")
  obtain rfl : 3600 = common := hoffset.mp hsome
  obtain ⟨r, hr⟩ := Option.isSome_iff_exists.mp hsome
  obtain ⟨hone, hbias⟩ := hfound r hr
  have hzone : r.zoneId = "A" := hbias "A" rfl (by decide)
  have heq : r = ⟨"A", false⟩ := by rw [← hzone, ← hone]
  have hnone : (found 0).isSome = false := by
    rw [Bool.eq_false_iff]
    intro hzero
    have := (hlookup 3600 h 0 none (some "A")).1.mp hzero
    cases this
  have hnever : w.value (c.hasUtcZone oneHourAheadCatalog 6000) = false := by
    rw [Bool.eq_false_iff]
    intro hzero
    have := ((hutc none (some "A")).mp hzero).2
    rw [hnone] at this
    cases this
  have hreverse := (hperm c.mappings.reverse (List.reverse_perm _)).2
  exact ⟨hw, hc, hlength, hokay, h, heq ▸ hr, hnone, hnever, hreverse.trans hokay⟩

end World

end TimeZones
