import TimeZones.Proofs.DocumentMeaning

/-! Which country the search finds: the one that a scan finds, and that is the first of its code in
the document, less what the catalogs have not. -/
namespace TimeZones

theorem not_isUpper_of_toLower {c : Char} (h : c.toLower = c) : c.isUpper = false := by
  rw [Bool.eq_false_iff]
  intro hupper
  have hrange : c.val ≥ 'A'.val ∧ c.val ≤ 'Z'.val := of_decide_eq_true hupper
  have hval : c.toLower.val = c.val + 32 := congrArg Char.val (dif_pos hrange)
  have hZ : c.val.toNat ≤ 90 := hrange.2
  have hsum := congrArg UInt32.toNat hval
  rw [h, UInt32.toNat_add] at hsum
  have h32 : (32 : UInt32).toNat = 32 := rfl
  omega

/-- A code in lower case has no capital letters. -/
theorem CountryZones.Lowered.not_isUpper {c : CountryZones} (h : c.Lowered) :
    ∀ ch ∈ c.code.toList, ch.isUpper = false := by
  have hchars : c.code.toList.map Char.toLower = c.code.toList := by
    rw [← String.toList_map, ← toLower_eq_map, h]
  rw [← List.map_id c.code.toList, List.map_map, List.map_inj_left] at hchars
  intro ch hch
  exact not_isUpper_of_toLower (hchars ch hch)

namespace Country
open Markup

variable {k : String} {e root : Element} {es : List Element}

theorem find?_eq_some_iff_isFirst : es.find? (codeOf · = k) = some e ↔
    IsFirst codeOf es e ∧ codeOf e = k := by
  rw [List.find?_eq_some_iff_append]
  simp only [decide_eq_true_eq, Bool.not_eq_true', decide_eq_false_iff_not]
  constructor
  · rintro ⟨rfl, before, after, hes, hne⟩
    exact ⟨⟨before, after, hes, hne⟩, rfl⟩
  · rintro ⟨⟨before, after, hes, hne⟩, rfl⟩
    exact ⟨rfl, before, after, hes, hne⟩

/-- Of elements with one code the first is found. -/
theorem country?_indexOf (hes : countriesOf root = some es) (code : String) :
    CountryIndex.country? (indexOf root es) code =
      (es.find? (codeOf · = code.toLower)).map countryOf := by
  have hdescribes := describes_indexOf hes
  apply Option.ext
  intro c
  unfold CountryIndex.country?
  rw [Search.byKey_eq_some_iff hdescribes.increasing, hdescribes.country es hes,
    Option.map_eq_some_iff]
  constructor
  · rintro ⟨⟨e, hfirst, rfl⟩, hcode⟩
    exact ⟨e, find?_eq_some_iff_isFirst.mpr ⟨hfirst, hcode⟩, rfl⟩
  · rintro ⟨e, he, rfl⟩
    obtain ⟨hfirst, hcode⟩ := find?_eq_some_iff_isFirst.mp he
    exact ⟨⟨e, hfirst, rfl⟩, hcode⟩

end Country

/-- What is left of a country when it is validated against catalogs one after the other. -/
def CountryZones.keptInAll (catalogs : List Catalog) (c : CountryZones) : CountryZones :=
  catalogs.foldl (fun c catalog => c.keptIn catalog) c

namespace CountryIndex

variable {x y : CountryIndex} {catalogs : List Catalog}

/-- Codes increase and have no capital letters. The country that is found for a code is the only one
for it, and the case of the code does not matter. -/
structure IsSearchable (x : CountryIndex) : Prop where
  increasing : x.countryCodes.Pairwise (· < ·)
  noCapitals : ∀ code ∈ x.countryCodes, ∀ c ∈ code.toList, c.isUpper = false
  found : ∀ code, x.countries.toList.filter (·.isForCountry code) = (x.country? code).toList
  ignoresCase : ∀ code code', code.toLower = code'.toLower → x.country? code = x.country? code'

theorem Ordered.filter_isForCountry (hx : x.Ordered) (code : String) :
    x.countries.toList.filter (·.isForCountry code) = (x.country? code).toList := by
  have hone : x.countries.toList.Pairwise fun c d =>
      c.isForCountry code = true → d.isForCountry code = false := by
    refine hx.increasing.imp_of_mem ?_
    intro c d hc hd hlt hfor
    rw [Bool.eq_false_iff]
    intro hfor'
    have hc := (hx.lowered c (Array.mem_toList_iff.mp hc)).isForCountry_iff code
    have hd := (hx.lowered d (Array.mem_toList_iff.mp hd)).isForCountry_iff code
    rw [hc.mp hfor, hd.mp hfor'] at hlt
    exact String.lt_irrefl _ hlt
  rw [hx.country?_eq, configured]
  exact Search.filter_eq_toList_find? hone

theorem Ordered.isSearchable (hx : x.Ordered) : x.IsSearchable := by
  refine ⟨List.pairwise_map.mpr hx.increasing, ?_, hx.filter_isForCountry, ?_⟩
  · intro code hcode
    obtain ⟨c, hc, rfl⟩ := List.mem_map.mp hcode
    exact (hx.lowered c (Array.mem_toList_iff.mp hc)).not_isUpper
  · intro code code' hcase
    unfold country?
    rw [hcase]

theorem Ordered.country?_keptIn (hx : x.Ordered) (catalog : Catalog) (code : String) :
    country? (x.keptIn catalog) code = (x.country? code).map (CountryZones.keptIn catalog) := by
  rw [(hx.keptIn catalog).country?_eq, hx.country?_eq, configured, configured,
    CountryIndex.keptIn, Array.toList_map, List.find?_map]
  rfl

/-- One configuration comes of another by validating it against catalogs one after the other. -/
inductive ValidatesTo : CountryIndex → List Catalog → CountryIndex → Prop where
  | done (x : CountryIndex) : ValidatesTo x [] x
  | step {x y z : CountryIndex} {catalog : Catalog} {mode : Mode} {catalogs : List Catalog} :
      (x.validated catalog mode).value = .ok y → ValidatesTo y catalogs z →
      ValidatesTo x (catalog :: catalogs) z

namespace ValidatesTo

theorem ordered (h : ValidatesTo x catalogs y) (hx : x.Ordered) : y.Ordered := by
  induction h with
  | done => exact hx
  | step hstep _ ih => exact ih (hx.validated hstep)

theorem country?_eq (h : ValidatesTo x catalogs y) (hx : x.Ordered) (code : String) :
    y.country? code = (x.country? code).map (CountryZones.keptInAll catalogs) := by
  induction h with
  | done => exact Option.map_id'.symm
  | step hstep _ ih =>
    rw [ih (hx.validated hstep), hx.validated_eq_ok hstep, hx.country?_keptIn,
      Option.map_map]
    rfl

end ValidatesTo

end CountryIndex

end TimeZones
