import TimeZones.Finder.Basic
import TimeZones.Proofs.Lookups

/-! Choosing among the zones of a country: what the loops over candidates come to, by the tables
that their records hold. -/
namespace TimeZones

/-- Chooses among zones that all fit: the one that is in use already, or else the first. -/
def OffsetResult.choose (bias : Option String) : List String → Option OffsetResult
  | [] => none
  | id :: ids =>
    let chosen := match bias with
      | some b => if b ∈ id :: ids then b else id
      | none => id
    some ⟨chosen, ids = []⟩

namespace OffsetMatches

variable {bias : Option String}

/-- What has been found after several mappings that fit. -/
theorem foldl_add (found : OffsetMatches) (ids : List String) :
    ids.foldl (add bias) found =
      ⟨found.first.or ids.head?, found.biasFits || bias.any (· ∈ ids),
        found.count + ids.length⟩ := by
  induction ids generalizing found with
  | nil => cases bias <;> simp
  | cons id ids ih =>
    have hfirst : (found.first.or (some id)).or ids.head? = found.first.or (some id) := by
      cases found.first <;> rfl
    have hbias : (decide (bias = some id) || bias.any (· ∈ ids)) = bias.any (· ∈ id :: ids) := by
      cases bias <;> simp
    have hcount : found.count + 1 + ids.length = found.count + (id :: ids).length := by
      simp only [List.length_cons]
      omega
    rw [List.foldl_cons, ih, add, hfirst, Bool.or_assoc, hbias, hcount, List.head?_cons]

/-- The loop with its three accumulators comes to the choice among all zones that fit. -/
theorem result_foldl (bias : Option String) (ids : List String) :
    (ids.foldl (add bias) empty).result bias = OffsetResult.choose bias ids := by
  rw [foldl_add]
  cases ids with
  | nil => cases bias <;> rfl
  | cons id ids =>
    cases bias with
    | none => simp [result, empty, OffsetResult.choose]
    | some b =>
      by_cases hb : b ∈ id :: ids
      · simp only [Option.any_some, hb, decide_true, Bool.or_true]
        simp [result, empty, OffsetResult.choose, hb]
      · simp only [Option.any_some, hb, decide_false]
        simp [result, empty, OffsetResult.choose, hb]

end OffsetMatches

namespace CountryZones
open Session

variable {catalogs : List (Shared Catalog)} {catalog : Shared Catalog} {wanted : OffsetType}
  {millis : Int} {bias first : Option String} {ids : List String}

/-- The zone is in the catalog, its record can be read, and the type wanted is in effect in it. -/
def fits (catalog : Catalog) (wanted : OffsetType) (millis : Int) (id : String) : Bool :=
  (catalog.table? id).any fun t => t.offsetAtMillis millis = wanted

/-- The bias if it is one of several zones, or else the first of them. -/
def preferred (bias : Option String) (ids : List String) : Option String :=
  (bias.filter (· ∈ ids)).or ids.head?

theorem preferred_eq_bias {b : String} (h : b ∈ ids) : preferred (some b) ids = some b := by
  rw [preferred, Option.filter_some, if_pos (by simpa using h), Option.some_or]

theorem preferred_of_not_mem (h : ∀ b ∈ bias, b ∉ ids) : preferred bias ids = ids.head? := by
  have hf : bias.filter (· ∈ ids) = none := by
    rw [Option.filter_eq_none_iff]
    intro b hb
    simpa using h b hb
  rw [preferred, hf, Option.none_or]

theorem preferred_eq_none_iff : preferred bias ids = none ↔ ids = [] := by
  cases ids with
  | nil => cases bias <;> simp [preferred]
  | cons id ids => simp [preferred]

theorem mem_of_preferred_eq_some {id : String} (h : preferred bias ids = some id) : id ∈ ids := by
  rw [preferred, Option.or_eq_some_iff, Option.filter_eq_some_iff] at h
  rcases h with ⟨-, h⟩ | ⟨-, h⟩
  · simpa using h
  · exact List.mem_of_head? h

theorem filter_mem_cons_of_ne {id : String} (h : bias ≠ some id) :
    bias.filter (· ∈ id :: ids) = bias.filter (· ∈ ids) := by
  cases bias with
  | none => rfl
  | some b =>
    have hb : b ≠ id := fun hb => h (congrArg some hb)
    simp only [Option.filter_some, List.mem_cons, hb, false_or]

/-- The loop over candidates with `first` found before. Candidates that do not fit are passed over,
and one that fits stops the loop only if it is the bias. -/
theorem resolveAmong_gives (hc : catalog ∈ catalogs) (first : Option String) (ids : List String) :
    Gives (Registry.Sound catalogs) (resolveAmong catalog wanted millis bias first ids)
      ((bias.filter (· ∈ ids.filter (fits catalog.value wanted millis))).or
        (first.or (ids.filter (fits catalog.value wanted millis)).head?)) := by
  induction ids generalizing first with
  | nil =>
    have hnone : bias.filter (· ∈ ([] : List String)) = none := by cases bias <;> rfl
    rw [List.filter_nil, hnone, Option.none_or, List.head?_nil, Option.or_none]
    exact Gives.pure first
  | cons id ids ih =>
    refine Triple.bind (Catalog.lookup_spec hc id) fun t => Triple.assume fun ht => ?_
    have hfits : fits catalog.value wanted millis id =
        t.any fun t => t.value.offsetAtMillis millis = wanted := by
      rw [fits, ← ht, Option.any_map]
    cases t with
    | none =>
      rw [List.filter_cons_of_neg (by simp [hfits])]
      exact ih first
    | some t =>
      by_cases hw : t.value.offsetAtMillis millis = wanted
      · rw [List.filter_cons_of_pos (by simpa [hfits] using hw)]
        simp only [hw, ne_eq, not_true_eq_false, if_false]
        by_cases hb : bias = some id
        · rw [if_pos hb, hb, Option.filter_some, if_pos (by simp), Option.some_or]
          exact Gives.pure (some id)
        · have hfirst (x : Option String) : (first.or (some id)).or x = first.or (some id) := by
            cases first <;> rfl
          have ih := ih (first.or (some id))
          rw [hfirst] at ih
          rw [if_neg hb, filter_mem_cons_of_ne hb]
          exact ih
      · rw [List.filter_cons_of_neg (by simpa [hfits] using hw)]
        simp only [hw, ne_eq, not_false_eq_true, if_true]
        exact ih first

theorem resolve_gives (hc : catalog ∈ catalogs) (c : CountryZones) (wanted : OffsetType)
    (millis : Int) (bias : Option String) :
    Gives (Registry.Sound catalogs) (c.resolve catalog wanted millis bias)
      (preferred bias (c.zoneIds.filter (fits catalog.value wanted millis))) := by
  rw [preferred, ← Option.none_or (o := List.head? _)]
  exact resolveAmong_gives hc none c.zoneIds

/-- The zone is in the catalog, its record can be read, and its offsets are as asked. -/
def accepted (catalog : Catalog) (q : OffsetQuery) (millis : Int) (m : Mapping) : Bool :=
  (catalog.table? m.id).any fun t => q.accepts (t.offsetsAtMillis millis)

/-- The loop over mappings with `found` found before. Those that are not as asked are passed over,
and the others are added in turn. -/
theorem matchesAmong_gives (hc : catalog ∈ catalogs) (q : OffsetQuery) (millis : Int)
    (bias : Option String) (found : OffsetMatches) (ms : List Mapping) :
    Gives (Registry.Sound catalogs) (matchesAmong catalog q millis bias found ms)
      (((ms.filter (accepted catalog.value q millis)).map (·.id)).foldl (.add bias) found) := by
  induction ms generalizing found with
  | nil => exact Gives.pure found
  | cons m ms ih =>
    refine Triple.bind (Catalog.lookup_spec hc m.id) fun t => Triple.assume fun ht => ?_
    have haccepted : accepted catalog.value q millis m =
        t.any fun t => q.accepts (t.value.offsetsAtMillis millis) := by
      rw [accepted, ← ht, Option.any_map]
    cases t with
    | none =>
      rw [List.filter_cons_of_neg (by simp [haccepted])]
      exact ih found
    | some t =>
      dsimp only
      by_cases ha : q.accepts (t.value.offsetsAtMillis millis) = true
      · rw [if_pos ha, List.filter_cons_of_pos (by simpa [haccepted] using ha)]
        exact ih (found.add bias m.id)
      · rw [if_neg ha, List.filter_cons_of_neg (by simpa [haccepted] using ha)]
        exact ih found

/-- Whether a zone of a catalog has an offset at an instant. -/
def hasOffset (catalog : Catalog) (millis : Int) (offset : Int32) (m : Mapping) : Bool :=
  (catalog.table? m.id).any fun t => (t.offsetAtMillis millis).utcOffset = offset

theorem zoneHasOffset_gives (hc : catalog ∈ catalogs) (millis : Int) (offset : Int32)
    (m : Mapping) : Gives (Registry.Sound catalogs) (zoneHasOffset catalog millis offset m)
      (hasOffset catalog.value millis offset m) := by
  refine Triple.bind (Catalog.lookup_spec hc m.id) fun t => Triple.assume fun ht => ?_
  rw [hasOffset, ← ht, Option.any_map]
  exact Gives.pure _

theorem lookupByOffset_gives (hc : catalog ∈ catalogs) (c : CountryZones) (q : OffsetQuery)
    (millis : Int) (bias : Option String) :
    Gives (Registry.Sound catalogs) (c.lookupByOffset catalog q millis bias)
      (OffsetResult.choose bias
        (((c.effectiveMappings millis).filter (accepted catalog.value q millis)).map (·.id))) := by
  rw [← OffsetMatches.result_foldl]
  exact Gives.bind (matchesAmong_gives hc q millis bias .empty _) (Gives.pure _)

theorem hasUtcZone_gives (hc : catalog ∈ catalogs) (c : CountryZones) (millis : Int) :
    Gives (Registry.Sound catalogs) (c.hasUtcZone catalog millis)
      (c.everUsesUtc && (c.effectiveMappings millis).any (hasOffset catalog.value millis 0)) := by
  unfold hasUtcZone
  cases c.everUsesUtc with
  | true => exact Gives.anyM fun m _ => zoneHasOffset_gives hc millis 0 m
  | false => exact Gives.pure false

theorem isDefaultOkayAt_gives (hc : catalog ∈ catalogs) (c : CountryZones) (millis : Int) :
    Gives (Registry.Sound catalogs) (c.isDefaultOkayAt catalog millis)
      (match c.effectiveMappings millis with
        | [] => false
        | [_] => true
        | ms => (c.defaultZoneId.bind catalog.value.table?).any fun t =>
            ms.all (hasOffset catalog.value millis (t.offsetAtMillis millis).utcOffset)) := by
  unfold isDefaultOkayAt
  rcases c.effectiveMappings millis with _ | ⟨m, _ | ⟨m', ms⟩⟩
  · exact Gives.pure false
  · exact Gives.pure true
  · cases c.defaultZoneId with
    | none => exact Gives.pure false
    | some id =>
      refine Triple.bind (Catalog.lookup_spec hc id) fun t => Triple.assume fun ht => ?_
      rw [Option.bind_some, ← ht]
      cases t with
      | none => exact Gives.pure false
      | some t => exact Gives.allM fun m _ => zoneHasOffset_gives hc millis _ m

end CountryZones

namespace Finder
open Session

variable {catalogs : List (Shared Catalog)} {f : Finder}

/-- The zones of a country that fit, in the order of the configuration. -/
def fitting (catalog : Catalog) (x : CountryIndex) (code : String) (wanted : OffsetType)
    (millis : Int) : List String :=
  ((x.configured code).elim [] (·.zoneIds)).filter (CountryZones.fits catalog wanted millis)

theorem resolve_gives (hf : f.IsOver catalogs) (code : String) (wanted : OffsetType) (millis : Int)
    (bias : Option String) :
    Gives (Registry.Sound catalogs) (f.resolve code wanted millis bias)
      (CountryZones.preferred bias (fitting f.catalog.value f.index code wanted millis)) := by
  unfold resolve lookupCountry fitting
  rw [hf.index.ordered.country?_eq]
  cases f.index.configured code with
  | none =>
    have hnone : CountryZones.preferred bias [] = none := CountryZones.preferred_eq_none_iff.mpr rfl
    rw [Option.elim_none, List.filter_nil, hnone]
    exact Gives.pure none
  | some c => exact CountryZones.resolve_gives hf.catalog_mem c wanted millis bias

theorem lookupByOffset_keeps (hf : f.IsOver catalogs) (code : String) (q : OffsetQuery)
    (millis : Int) (bias : Option String) :
    Keeps (Registry.Sound catalogs) (f.lookupByOffset code q millis bias) := by
  unfold lookupByOffset
  cases f.lookupCountry code with
  | none => exact Keeps.pure none
  | some c => exact (CountryZones.lookupByOffset_gives hf.catalog_mem c q millis bias).keeps

theorem hasUtcZone_keeps (hf : f.IsOver catalogs) (code : String) (millis : Int) :
    Keeps (Registry.Sound catalogs) (f.hasUtcZone code millis) := by
  unfold hasUtcZone
  cases f.lookupCountry code with
  | none => exact Keeps.pure false
  | some c => exact (CountryZones.hasUtcZone_gives hf.catalog_mem c millis).keeps

theorem isDefaultOkayAt_keeps (hf : f.IsOver catalogs) (code : String) (millis : Int) :
    Keeps (Registry.Sound catalogs) (f.isDefaultOkayAt code millis) := by
  unfold isDefaultOkayAt
  cases f.lookupCountry code with
  | none => exact Keeps.pure false
  | some c => exact (CountryZones.isDefaultOkayAt_gives hf.catalog_mem c millis).keeps

end Finder

end TimeZones
