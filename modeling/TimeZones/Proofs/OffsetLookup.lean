import TimeZones.Proofs.ContainerLayout

/-! Looking up a zone of a country by the offset at an instant. All mappings that are as asked count,
each as often as it is configured, and asking for either part of daylight saving time divides
them. -/
namespace TimeZones
open Session

section Divided

variable {α : Type} {p : α → Bool} {xs : List α}

theorem filter_not_eq_self (h : xs.filter p = []) : xs.filter (!p ·) = xs := by
  rw [List.filter_eq_nil_iff] at h
  exact List.filter_eq_self.mpr fun x hx => by simpa using h x hx

theorem filter_eq_self_of_not (h : xs.filter (!p ·) = []) : xs.filter p = xs := by
  rw [List.filter_eq_nil_iff] at h
  exact List.filter_eq_self.mpr fun x hx => by simpa using h x hx

/-- What holds and what fails are two different elements. -/
theorem length_ne_one_of_divided (hp : xs.filter p ≠ []) (hn : xs.filter (!p ·) ≠ []) :
    xs.length ≠ 1 := by
  intro hlength
  obtain ⟨x, rfl⟩ := List.length_eq_one_iff.mp hlength
  cases hx : p x with
  | true => exact hn (by simp [hx])
  | false => exact hp (by simp [hx])

end Divided

namespace CountryZones

variable {bias : Option String} {ids : List String} {catalog : Catalog} {q : OffsetQuery}
  {millis : Int} {r : OffsetResult}

/-- The zone is chosen as in other look-ups, and it is the only match in a list of one. -/
theorem choose_eq (bias : Option String) (ids : List String) :
    OffsetResult.choose bias ids = (preferred bias ids).map fun id => ⟨id, ids.length = 1⟩ := by
  cases ids with
  | nil => cases bias <;> rfl
  | cons id ids =>
    have hone : decide ((id :: ids).length = 1) = decide (ids = []) := by simp
    rw [hone]
    cases bias with
    | none => rfl
    | some b =>
      have hchoose : OffsetResult.choose (some b) (id :: ids) =
          some ⟨if b ∈ id :: ids then b else id, ids = []⟩ := rfl
      by_cases hb : b ∈ id :: ids
      · rw [hchoose, if_pos hb, preferred_eq_bias hb, Option.map_some]
      · rw [hchoose, if_neg hb, preferred_of_not_mem (by simpa using hb), List.head?_cons,
          Option.map_some]

theorem choose_eq_none_iff : OffsetResult.choose bias ids = none ↔ ids = [] := by
  rw [choose_eq, Option.map_eq_none_iff, preferred_eq_none_iff]

theorem choose_eq_some_iff : OffsetResult.choose bias ids = some r ↔
    preferred bias ids = some r.zoneId ∧ (r.oneMatch = true ↔ ids.length = 1) := by
  rw [choose_eq, Option.map_eq_some_iff]
  constructor
  · rintro ⟨id, hid, rfl⟩
    exact ⟨hid, decide_eq_true_iff⟩
  · rintro ⟨hid, hone⟩
    have hdecide : decide (ids.length = 1) = r.oneMatch :=
      Bool.eq_iff_iff.mpr (decide_eq_true_iff.trans hone.symm)
    exact ⟨r.zoneId, hid, by rw [hdecide]⟩

/-- What is chosen among the zones of mappings. -/
theorem choose_found {ms : List Mapping} (h : OffsetResult.choose bias (ms.map (·.id)) = some r) :
    (∀ b ∈ bias, b ∈ ms.map (·.id) → r.zoneId = b) ∧
      ((∀ b ∈ bias, b ∉ ms.map (·.id)) → ms.head?.map (·.id) = some r.zoneId) ∧
      (r.oneMatch = true ↔ ms.length = 1) := by
  rw [choose_eq_some_iff, List.length_map] at h
  obtain ⟨hid, hone⟩ := h
  refine ⟨?_, ?_, hone⟩
  · intro b hb hmem
    rw [Option.mem_def.mp hb, preferred_eq_bias hmem] at hid
    exact (Option.some.inj hid).symm
  · intro hother
    rw [← List.head?_map, ← preferred_of_not_mem hother]
    exact hid

/-- If one part of the mappings has nothing to choose from, the choice is that of the other part. If
both have, then it is not the only match. -/
theorem choose_divided (bias : Option String) (ms : List Mapping) (p : Mapping → Bool) :
    let chosen := fun (ms : List Mapping) => OffsetResult.choose bias (ms.map (·.id))
    (chosen (ms.filter p) = none → chosen ms = chosen (ms.filter (!p ·))) ∧
      (chosen (ms.filter (!p ·)) = none → chosen ms = chosen (ms.filter p)) ∧
      ∀ r s, chosen (ms.filter p) = some r → chosen (ms.filter (!p ·)) = some s →
        ∃ t, chosen ms = some t ∧ t.oneMatch = false := by
  intro chosen
  have hnone (ms : List Mapping) : chosen ms = none ↔ ms = [] := by
    rw [choose_eq_none_iff, List.map_eq_nil_iff]
  refine ⟨?_, ?_, ?_⟩
  · intro h
    rw [filter_not_eq_self ((hnone _).mp h)]
  · intro h
    rw [filter_eq_self_of_not ((hnone _).mp h)]
  · intro r s hr hs
    have hp : ms.filter p ≠ [] := fun hnil => by simp [(hnone _).mpr hnil] at hr
    have hn : ms.filter (!p ·) ≠ [] := fun hnil => by simp [(hnone _).mpr hnil] at hs
    have hsome : chosen ms ≠ none := by
      rw [ne_eq, hnone]
      rintro rfl
      exact hp List.filter_nil
    obtain ⟨t, ht⟩ := Option.ne_none_iff_exists'.mp hsome
    obtain ⟨-, -, hone⟩ := choose_found ht
    exact ⟨t, ht, Bool.eq_false_iff.mpr (mt hone.mp (length_ne_one_of_divided hp hn))⟩

/-- The zone of a mapping is in daylight saving time, which adds something to its offset. -/
def addsDst (catalog : Catalog) (millis : Int) (m : Mapping) : Bool :=
  (catalog.table? m.id).any fun t => (t.offsetsAtMillis millis).dst ≠ 0

theorem accepted_dst (h : q.dstOffset = none) (m : Mapping) :
    accepted catalog { q with isDst := some true } millis m =
      (accepted catalog { q with isDst := none } millis m && addsDst catalog millis m) := by
  rw [accepted, accepted, addsDst]
  cases catalog.table? m.id with
  | none => rfl
  | some t => simp [OffsetQuery.accepts, h]

theorem accepted_standard (m : Mapping) :
    accepted catalog { q with isDst := some false } millis m =
      (accepted catalog { q with isDst := none } millis m && !addsDst catalog millis m) := by
  rw [accepted, accepted, addsDst]
  cases catalog.table? m.id with
  | none => rfl
  | some t => simp [OffsetQuery.accepts]

end CountryZones

/-- The mappings of a country that are in use at an instant, whose zone the catalog finds, and whose
offsets are as asked. How much daylight saving time adds counts only where it is asked for. -/
def World.matching (w : World) (catalog : Shared Catalog) (c : CountryZones) (q : OffsetQuery)
    (millis : Int) : List Mapping :=
  c.mappings.filter fun m =>
    (∀ last ∈ m.notUsedAfter, millis ≤ last) ∧
      ∃ t ∈ w.value (Catalog.lookup catalog m.id),
        (t.value.offsetsAtMillis millis).total = q.offset ∧
          (q.isDst = some true → (t.value.offsetsAtMillis millis).dst ≠ 0 ∧
            (q.dstOffset = none ∨ q.dstOffset = some (t.value.offsetsAtMillis millis).dst)) ∧
          (q.isDst = some false → (t.value.offsetsAtMillis millis).dst = 0)

namespace World

variable {w : World} {catalog : Shared Catalog}

theorem accepts_iff {q : OffsetQuery} {o : Offsets} : q.accepts o = true ↔
    o.total = q.offset ∧
      (q.isDst = some true → o.dst ≠ 0 ∧ (q.dstOffset = none ∨ q.dstOffset = some o.dst)) ∧
      (q.isDst = some false → o.dst = 0) := by
  have hdst : q.dstOffset.all (o.dst = ·) = true ↔
      q.dstOffset = none ∨ q.dstOffset = some o.dst := by
    cases q.dstOffset with
    | none => simp
    | some d => simp [eq_comm]
  rw [OffsetQuery.accepts, Bool.and_eq_true, decide_eq_true_iff]
  cases q.isDst with
  | none => simp
  | some d =>
    cases d with
    | true => simp [hdst]
    | false => simp

theorem matching_eq (hw : w.Reachable) (hc : catalog ∈ w.catalogs) (c : CountryZones)
    (q : OffsetQuery) (millis : Int) : w.matching catalog c q millis =
      (c.effectiveMappings millis).filter (CountryZones.accepted catalog.value q millis) := by
  rw [matching, CountryZones.effectiveMappings, List.filter_filter]
  apply List.filter_congr
  intro m _
  have hlookup := value_lookup hw hc m.id
  have heffective : m.isEffectiveAt millis = true ↔ ∀ last ∈ m.notUsedAfter, millis ≤ last := by
    simp [Mapping.isEffectiveAt, Option.all_eq_true]
  rw [Bool.eq_iff_iff, decide_eq_true_iff, Bool.and_eq_true, heffective, and_comm,
    CountryZones.accepted, ← hlookup, Option.any_map, Option.any_eq_true]
  simp only [accepts_iff, Option.mem_def]

theorem value_lookupByOffset (hw : w.Reachable) (hc : catalog ∈ w.catalogs) (c : CountryZones)
    (q : OffsetQuery) (millis : Int) (bias : Option String) :
    w.value (c.lookupByOffset catalog q millis bias) =
      OffsetResult.choose bias ((w.matching catalog c q millis).map (·.id)) := by
  rw [matching_eq hw hc]
  exact value_of_gives hw (CountryZones.lookupByOffset_gives hc c q millis bias)

/-- Where it is not asked how much daylight saving time adds, asking for it and against it divides
the mappings that are found without asking. -/
theorem matching_divided (hw : w.Reachable) (hc : catalog ∈ w.catalogs) (c : CountryZones)
    {q : OffsetQuery} (millis : Int) (hq : q.dstOffset = none) :
    let all := w.matching catalog c { q with isDst := none } millis
    let dst := CountryZones.addsDst catalog.value millis
    w.matching catalog c { q with isDst := some true } millis = all.filter dst ∧
      w.matching catalog c { q with isDst := some false } millis = all.filter (!dst ·) := by
  intro all dst
  have hall : all = _ := matching_eq hw hc c _ millis
  rw [matching_eq hw hc, matching_eq hw hc, hall, List.filter_filter, List.filter_filter]
  constructor
  · apply List.filter_congr
    intro m _
    rw [CountryZones.accepted_dst hq, Bool.and_comm]
  · apply List.filter_congr
    intro m _
    rw [CountryZones.accepted_standard, Bool.and_comm]

/-- Nothing is found where no mapping is as asked. Otherwise it is the bias, if that is the zone of
such a mapping, or else the zone of the first one, and the only match if there is just one. At every
point of every run it is the same. Asking without regard to daylight saving time finds what asking
for it finds, or asking against it, if the other finds nothing. If both find something there is more
than one match. -/
theorem lookupByOffset_exact (hw : w.Reachable) (hc : catalog ∈ w.catalogs) (c : CountryZones)
    (q : OffsetQuery) (millis : Int) (bias : Option String) :
    let answer := fun q => w.value (c.lookupByOffset catalog q millis bias)
    let matching := w.matching catalog c q millis
    let asked := fun isDst => answer { q with isDst }
    (answer q = none ↔ matching = []) ∧
      (∀ r, answer q = some r →
        (∀ b ∈ bias, b ∈ matching.map (·.id) → r.zoneId = b) ∧
        ((∀ b ∈ bias, b ∉ matching.map (·.id)) → matching.head?.map (·.id) = some r.zoneId) ∧
        (r.oneMatch = true ↔ matching.length = 1)) ∧
      (∀ v : World, v.Reachable → catalog ∈ v.catalogs →
        v.value (c.lookupByOffset catalog q millis bias) = answer q) ∧
      (q.dstOffset = none →
        (asked (some true) = none → asked none = asked (some false)) ∧
        (asked (some false) = none → asked none = asked (some true)) ∧
        ∀ r s, asked (some true) = some r → asked (some false) = some s →
          ∃ t, asked none = some t ∧ t.oneMatch = false) := by
  intro answer matching asked
  have hanswer (q : OffsetQuery) : answer q =
      OffsetResult.choose bias ((w.matching catalog c q millis).map (·.id)) :=
    value_lookupByOffset hw hc c q millis bias
  refine ⟨?_, ?_, ?_, ?_⟩
  · rw [hanswer, CountryZones.choose_eq_none_iff, List.map_eq_nil_iff]
  · intro r hr
    rw [hanswer] at hr
    exact CountryZones.choose_found hr
  · intro v hv hcv
    rw [hanswer, value_lookupByOffset hv hcv, matching_eq hv hcv, matching_eq hw hc]
  · intro hq
    obtain ⟨hdst, hstandard⟩ := matching_divided hw hc c millis hq
    have hasked (isDst : Option Bool) : asked isDst = OffsetResult.choose bias
        ((w.matching catalog c { q with isDst } millis).map (·.id)) := hanswer { q with isDst }
    rw [hasked, hasked, hasked, hdst, hstandard]
    exact CountryZones.choose_divided bias _ _

/-- The zone A has been one hour ahead in daylight saving time since five seconds after 1970 began.
The zone B is one hour ahead in standard time. -/
def oneHourAhead : List (Bytes × Bytes) :=
  [([0x41], Record.magic ++ List.replicate 28 0 ++
      [0, 0, 0, 2, 0, 0, 0, 2, 0, 0, 0, 0, 255, 255, 255, 246, 0, 0, 0, 5, 0, 1,
       0, 0, 0, 0, 0, 0, 0, 0, 14, 16, 1, 0]),
    ([0x42], Record.magic ++ List.replicate 28 0 ++
      [0, 0, 0, 1, 0, 0, 0, 1, 0, 0, 0, 0, 0, 0, 0, 0, 0, 0, 0, 14, 16, 0, 0])]

def oneHourAheadCatalog : Shared Catalog :=
  ⟨0, Container.writtenCatalog Container.sampleVersion oneHourAhead ""⟩

theorem ofBytes_oneHourAhead :
    Catalog.ofBytes (Container.write Container.sampleVersion oneHourAhead "") =
      .ok oneHourAheadCatalog.value := by
  have hwritable : Container.Writable Container.sampleVersion oneHourAhead "" := by
    constructor <;> decide +kernel
  have horder : Container.disorder? none (oneHourAhead.map fun z => Bytes.text z.1) = none := by
    decide +kernel
  have hread := Container.ofBytes_write_eq hwritable
  rw [horder] at hread
  exact hread

/-- Both zones, after one that does not exist. The first mapping to B ends before the sixth
second. -/
def oneHourAheadCountry : CountryZones where
  code := "xx"
  defaultZoneId := none
  everUsesUtc := false
  mappings := [⟨"C", true, none⟩, ⟨"B", true, some 5999⟩, ⟨"A", true, none⟩, ⟨"B", true, some 6000⟩]

theorem lookupByOffset_exact_oneHourAhead :
    let w := initial.gain (Session.share oneHourAheadCatalog.value) fun c => [c]
    let answer := fun isDst => w.value (oneHourAheadCountry.lookupByOffset oneHourAheadCatalog
      ⟨3600, isDst, none⟩ 6000 (some "B"))
    w.Reachable ∧ oneHourAheadCatalog ∈ w.catalogs ∧
      answer (some true) = some ⟨"A", true⟩ ∧ answer (some false) = some ⟨"B", true⟩ ∧
      answer none = some ⟨"B", false⟩ := by
  intro w answer
  have hw : w.Reachable := .step .initial (.ofBytes ofBytes_oneHourAhead)
  have hc : oneHourAheadCatalog ∈ w.catalogs := List.mem_cons_self
  have htrue : answer (some true) = some ⟨"A", true⟩ := by decide +kernel
  have hfalse : answer (some false) = some ⟨"B", true⟩ := by decide +kernel
  obtain ⟨-, hfound, -, hdivided⟩ := lookupByOffset_exact hw hc oneHourAheadCountry
    ⟨3600, none, none⟩ 6000 (some "B")
  obtain ⟨-, -, hboth⟩ := hdivided rfl
  obtain ⟨t, ht, hone⟩ := hboth _ _ htrue hfalse
  have hzone : t.zoneId = "B" := (hfound t ht).1 "B" rfl (by decide +kernel)
  have heq : t = ⟨"B", false⟩ := by rw [← hzone, ← hone]
  exact ⟨hw, hc, htrue, hfalse, heq ▸ ht⟩

end World

end TimeZones
