import Mathlib.Data.List.Find
import TimeZones.Country.Validated
import TimeZones.Proofs.Results
import TimeZones.Proofs.Search

/-! Configurations that come of reading documents and of validating. Their countries stand in the
order of their codes, which are in lower case, so that the search for a country finds it. -/
namespace TimeZones

theorem toLower_toLower_char (c : Char) : c.toLower.toLower = c.toLower := by
  by_cases h : c.val ≥ 'A'.val ∧ c.val ≤ 'Z'.val
  · have hval : c.toLower.val = c.val + 32 := congrArg Char.val (dif_pos h)
    have hhigh : ¬ (c.toLower.val ≥ 'A'.val ∧ c.toLower.val ≤ 'Z'.val) := by
      have hA : 65 ≤ c.val.toNat := h.1
      have hZ : c.val.toNat ≤ 90 := h.2
      have h32 : (32 : UInt32).toNat = 32 := rfl
      rintro ⟨-, hle⟩
      have hle : (c.val + 32).toNat ≤ 90 := by rw [← hval]; exact hle
      rw [UInt32.toNat_add] at hle
      omega
    exact dif_neg hhigh
  · have hc : c.toLower = c := dif_neg h
    rw [hc, hc]

theorem toLower_eq_map (s : String) : s.toLower = s.map Char.toLower := rfl

theorem toLower_toLower (s : String) : s.toLower.toLower = s.toLower := by
  rw [toLower_eq_map s, toLower_eq_map, String.map_map]
  congr 1
  funext c
  exact toLower_toLower_char c

/-- The code of a country is in lower case. -/
def CountryZones.Lowered (c : CountryZones) : Prop := c.code.toLower = c.code

theorem CountryZones.Lowered.isForCountry_iff {c : CountryZones} (h : c.Lowered) (code : String) :
    c.isForCountry code = true ↔ c.code = code.toLower := by
  rw [isForCountry, decide_eq_true_iff, h]

namespace Country
open Markup

variable {ended : Fault} {mode : Mode} {t : Tag} {es rest : List Event} {c : CountryZones}
  {head : String × Option String × Bool} {mappings : List Mapping} {seen : List String}

theorem toLower_of_countryTag (h : countryTag mode t = .ok head) : head.1.toLower = head.1 := by
  unfold countryTag at h
  split at h
  · simp at h
  dsimp only at h
  split at h
  · simp at h
  obtain ⟨everUsesUtc, -, rfl⟩ := map_eq_ok.mp h
  exact toLower_toLower _

theorem lowered_of_country (hh : head.1.toLower = head.1)
    (h : country mode head mappings = .ok c) : c.Lowered := by
  unfold country at h
  dsimp only at h
  split at h
  · simp at h
  · obtain rfl := Except.ok.inj h
    exact hh

theorem lowered_of_readCountry (h : readCountry ended mode t es = .ok (c, rest)) : c.Lowered := by
  simp only [readCountry, bind_eq_ok, pure_eq_ok, Prod.mk.injEq] at h
  obtain ⟨head, hh, p, -, d, hd, rfl, -⟩ := h
  exact lowered_of_country (toLower_of_countryTag hh) hd

theorem lowered_of_mem_readCountries (ended : Fault) (mode : Mode) (es : List Event) :
    ∀ c ∈ (readCountries ended mode es).countries, c.Lowered := by
  fun_induction readCountries ended mode es with
  | case1 => simp
  | case2 => simp
  | case3 _ es ih => exact ih
  | case4 => simp
  | case5 t es hname c hc next ih =>
    refine List.forall_mem_cons.mpr ⟨?_, ih⟩
    obtain ⟨head, hh, hc⟩ := bind_eq_ok.mp hc
    exact lowered_of_country (toLower_of_countryTag hh) hc
  | case6 t es hname ih => exact ih
  | case7 => simp
  | case8 t es hname c rest hc next ih =>
    exact List.forall_mem_cons.mpr ⟨lowered_of_readCountry hc, ih⟩
  | case9 => simp
  | case10 t es hname rest hs ih => exact ih

theorem lowered_of_readRoot {read : Reading Markup.Error Event} {e : Entries}
    (h : readRoot read mode = .ok (t, e)) : ∀ c ∈ e.countries, c.Lowered := by
  unfold readRoot at h
  split at h
  · simp at h
  split at h
  · simp at h
  split at h
  · simp at h
  obtain ⟨p, -, hp⟩ := map_eq_ok.mp h
  obtain ⟨-, rfl⟩ := Prod.mk.injEq .. ▸ hp
  cases p.1 with
  | true => exact lowered_of_mem_readCountries _ mode p.2
  | false => simp

/-- Of the elements of a list with its key, `x` comes first. -/
def IsFirst {α : Type} (key : α → String) (xs : List α) (x : α) : Prop :=
  ∃ before after, xs = before ++ x :: after ∧ ∀ y ∈ before, key y ≠ key x

theorem isFirst_cons {α : Type} {key : α → String} {x y : α} {ys : List α} :
    IsFirst key (y :: ys) x ↔ x = y ∨ key y ≠ key x ∧ IsFirst key ys x := by
  constructor
  · rintro ⟨before, after, heq, hne⟩
    cases before with
    | nil => exact Or.inl (List.cons.inj heq).1.symm
    | cons z before =>
      obtain ⟨rfl, hys⟩ := List.cons.inj heq
      obtain ⟨hz, hne⟩ := List.forall_mem_cons.mp hne
      exact Or.inr ⟨hz, before, after, hys, hne⟩
  · rintro (rfl | ⟨hy, before, after, rfl, hne⟩)
    · exact ⟨[], ys, rfl, List.forall_mem_nil _⟩
    · exact ⟨y :: before, after, rfl, List.forall_mem_cons.mpr ⟨hy, hne⟩⟩

theorem IsFirst.mem {α : Type} {key : α → String} {x : α} {xs : List α} (h : IsFirst key xs x) :
    x ∈ xs := by
  obtain ⟨before, after, rfl, -⟩ := h
  exact List.mem_append_right before List.mem_cons_self

/-- A country is kept if none before it has its code. -/
theorem mem_firstOfCode {cs : List CountryZones} :
    c ∈ firstOfCode seen cs ↔ c.code ∉ seen ∧ IsFirst (·.code) cs c := by
  induction cs generalizing seen with
  | nil => simp [firstOfCode, IsFirst]
  | cons d cs ih =>
    rw [firstOfCode, isFirst_cons]
    split
    · rename_i h
      rw [ih]
      constructor
      · rintro ⟨hc, hfirst⟩
        exact ⟨hc, Or.inr ⟨fun heq => hc (heq ▸ h), hfirst⟩⟩
      · rintro ⟨hc, rfl | ⟨-, hfirst⟩⟩
        · exact (hc h).elim
        · exact ⟨hc, hfirst⟩
    · rename_i h
      rw [List.mem_cons, ih, List.mem_cons, not_or]
      constructor
      · rintro (rfl | ⟨⟨hne, hc⟩, hfirst⟩)
        · exact ⟨h, Or.inl rfl⟩
        · exact ⟨hc, Or.inr ⟨fun heq => hne heq.symm, hfirst⟩⟩
      · rintro ⟨hc, rfl | ⟨hne, hfirst⟩⟩
        · exact Or.inl rfl
        · exact Or.inr ⟨⟨fun heq => hne heq.symm, hc⟩, hfirst⟩

/-- No code is left twice. -/
theorem firstOfCode_pairwise (seen : List String) (cs : List CountryZones) :
    (firstOfCode seen cs).Pairwise (·.code ≠ ·.code) := by
  induction cs generalizing seen with
  | nil => exact List.Pairwise.nil
  | cons c cs ih =>
    rw [firstOfCode]
    split
    · exact ih seen
    · refine List.pairwise_cons.mpr ⟨?_, ih _⟩
      intro d hd heq
      exact (mem_firstOfCode.mp hd).1 (heq ▸ List.mem_cons_self)

/-- Of countries with different codes none is left out. -/
theorem firstOfCode_eq_self {cs : List CountryZones} (seen : List String)
    (hseen : ∀ c ∈ cs, c.code ∉ seen) (hdistinct : cs.Pairwise (·.code ≠ ·.code)) :
    firstOfCode seen cs = cs := by
  induction cs generalizing seen with
  | nil => rfl
  | cons c cs ih =>
    obtain ⟨hc, hdistinct⟩ := List.pairwise_cons.mp hdistinct
    obtain ⟨hnew, hseen⟩ := List.forall_mem_cons.mp hseen
    rw [firstOfCode, if_neg hnew, ih]
    · intro d hd hmem
      rcases List.mem_cons.mp hmem with heq | hmem
      · exact hc d hd heq.symm
      · exact hseen d hd hmem
    · exact hdistinct

theorem pairwise_ne_of_perm {α : Type} {key : α → String} {xs ys : List α} (h : xs.Perm ys)
    (hne : xs.Pairwise (key · ≠ key ·)) : ys.Pairwise (key · ≠ key ·) :=
  (h.pairwise_iff Ne.symm).mp hne

/-- Sorting countries of different codes puts them in strict order. -/
theorem mergeSort_increasing {cs : List CountryZones} (h : cs.Pairwise (·.code ≠ ·.code)) :
    (cs.mergeSort fun a b => a.code ≤ b.code).Pairwise (·.code < ·.code) := by
  have hperm := List.mergeSort_perm cs fun a b => a.code ≤ b.code
  have hne := pairwise_ne_of_perm hperm.symm h
  have hle : (cs.mergeSort fun a b => a.code ≤ b.code).Pairwise fun a b =>
      decide (a.code ≤ b.code) = true := by
    apply List.pairwise_mergeSort
    · intro a b c hab hbc
      simpa using String.le_trans (by simpa using hab) (by simpa using hbc)
    · intro a b
      simpa using String.le_total a.code b.code
  refine hle.imp₂ ?_ hne
  intro a b hab hne
  apply String.not_le.mp
  intro hba
  exact hne (String.le_antisymm (by simpa using hab) hba)

theorem missingDefault?_eq_none {defaultId : Option String} {ms : List Mapping} :
    missingDefault? defaultId ms = none ↔ ∀ id ∈ defaultId, ∃ m ∈ ms, m.id = id := by
  rw [missingDefault?, Option.filter_eq_none_iff]
  simp

theorem missingDefault?_eq_some {defaultId : Option String} {ms : List Mapping} {id : String} :
    missingDefault? defaultId ms = some id ↔ defaultId = some id ∧ ∀ m ∈ ms, m.id ≠ id := by
  rw [missingDefault?, Option.filter_eq_some_iff]
  simp

end Country

namespace CountryZones

variable {c d : CountryZones} {cs ds : List CountryZones} {catalog : Catalog} {mode : Mode}

/-- What a catalog has of a country. -/
def keptIn (catalog : Catalog) (c : CountryZones) : CountryZones :=
  { c with
    defaultZoneId := c.defaultZoneId.filter fun id => catalog.hasZone id
    mappings := c.mappings.filter fun m => catalog.hasZone m.id }

/-- What is left of a country that is accepted, with its code in lower case. -/
theorem validated_eq_ok (h : (c.validated catalog mode).value = .ok d) :
    d = { c.keptIn catalog with code := c.code.toLower } := by
  unfold validated at h
  dsimp only at h
  split at h
  · cases h
  unfold keptIn
  split at h
  · rename_i id hid
    obtain ⟨hdefault, hzone⟩ := Option.filter_eq_some_iff.mp hid
    obtain rfl := Except.ok.inj h
    rw [hdefault, Option.filter_some, if_neg]
    simpa using hzone
  · rename_i hnone
    obtain rfl := Except.ok.inj h
    cases hdefault : c.defaultZoneId with
    | none => rfl
    | some id =>
      have hzone := Option.filter_eq_none_iff.mp hnone id hdefault
      rw [Option.filter_some, if_pos]
      simpa using hzone

theorem validated_lenient (c : CountryZones) (catalog : Catalog) :
    ∃ d, (c.validated catalog .lenient).value = .ok d := by
  unfold validated
  dsimp only
  split
  · exact ⟨_, rfl⟩
  · exact ⟨_, rfl⟩

theorem validateAll_eq_ok (h : (validateAll catalog mode cs).value = .ok ds) :
    ds = cs.map fun c => { c.keptIn catalog with code := c.code.toLower } := by
  induction cs generalizing ds with
  | nil => exact (Except.ok.inj h).symm
  | cons c cs ih =>
    simp only [validateAll, Logged.value_andThen_eq_ok] at h
    obtain ⟨d, hd, ds', hds, h⟩ := h
    obtain rfl := Except.ok.inj h
    rw [List.map_cons, ih hds, validated_eq_ok hd]

theorem validateAll_lenient (cs : List CountryZones) (catalog : Catalog) :
    ∃ ds, (validateAll catalog .lenient cs).value = .ok ds := by
  induction cs with
  | nil => exact ⟨[], rfl⟩
  | cons c cs ih =>
    obtain ⟨d, hd⟩ := validated_lenient c catalog
    obtain ⟨ds, hds⟩ := ih
    simp only [validateAll, Logged.value_andThen_eq_ok]
    exact ⟨d :: ds, d, hd, ds, hds, rfl⟩

end CountryZones

namespace CountryIndex

/-- Configurations as callers get them. -/
inductive Obtained : CountryIndex → Prop where
  | empty : Obtained .empty
  | parsed {text : String} {mode : Mode} {x : CountryIndex} :
      (parse text mode).value = .ok x → Obtained x
  | validated {x y : CountryIndex} {catalog : Catalog} {mode : Mode} :
      Obtained x → (x.validated catalog mode).value = .ok y → Obtained y

variable {x y : CountryIndex} {catalog : Catalog} {mode : Mode}

/-- Countries stand in the strict order of their codes, which are in lower case. -/
structure Ordered (x : CountryIndex) : Prop where
  increasing : x.countries.toList.Pairwise (·.code < ·.code)
  lowered : ∀ c ∈ x.countries, c.Lowered

theorem ordered_index {ended : Country.Fault} {t : Markup.Tag} {e : Country.Entries}
    (he : ∀ c ∈ e.countries, c.Lowered) (h : Country.index ended t e = .ok x) : x.Ordered := by
  unfold Country.index at h
  split at h
  · simp at h
  obtain rfl := Except.ok.inj h
  refine ⟨Country.mergeSort_increasing (Country.firstOfCode_pairwise [] e.countries), ?_⟩
  intro c hc
  apply he
  exact (Country.mem_firstOfCode.mp (List.mem_mergeSort.mp (List.mem_toArray.mp hc))).2.mem

theorem ordered_of_parse {text : String} (h : (parse text mode).value = .ok x) : x.Ordered := by
  unfold parse at h
  cases hr : Country.readRoot (Markup.events text) mode with
  | error f => simp [hr] at h
  | ok p =>
    simp only [hr] at h
    split at h
    · simp at h
    split at h
    · simp at h
    rename_i hx
    obtain rfl := Except.ok.inj h
    exact ordered_index (Country.lowered_of_readRoot hr) hx

theorem validateAll_of_validated (h : (x.validated catalog mode).value = .ok y) :
    (CountryZones.validateAll catalog mode x.countries.toList).value = .ok y.countries.toList := by
  rw [validated, Logged.value_andThen_eq_ok] at h
  obtain ⟨ds, hds, h⟩ := h
  obtain rfl := Except.ok.inj h
  exact hds

theorem validated_lenient (x : CountryIndex) (catalog : Catalog) :
    ∃ y, (x.validated catalog .lenient).value = .ok y := by
  obtain ⟨ds, hds⟩ := CountryZones.validateAll_lenient x.countries.toList catalog
  rw [validated]
  simp only [Logged.value_andThen_eq_ok]
  exact ⟨_, ds, hds, rfl⟩

/-- What a catalog has of a configuration. -/
def keptIn (catalog : Catalog) (x : CountryIndex) : CountryIndex :=
  { x with countries := x.countries.map (CountryZones.keptIn catalog) }

theorem countryCodes_keptIn (catalog : Catalog) (x : CountryIndex) :
    (x.keptIn catalog).countryCodes = x.countryCodes := by
  rw [countryCodes, keptIn, Array.toList_map, List.map_map]
  rfl

/-- Where codes are in lower case validating does not change them. -/
theorem Ordered.validated_eq_ok (hx : x.Ordered) (h : (x.validated catalog mode).value = .ok y) :
    y = x.keptIn catalog := by
  rw [CountryIndex.validated, Logged.value_andThen_eq_ok] at h
  obtain ⟨ds, hds, h⟩ := h
  obtain rfl := Except.ok.inj h
  have hlowered : ds = x.countries.toList.map (CountryZones.keptIn catalog) := by
    rw [CountryZones.validateAll_eq_ok hds]
    apply List.map_congr_left
    intro c hc
    rw [hx.lowered c (Array.mem_toList_iff.mp hc)]
    rfl
  rw [hlowered, CountryIndex.keptIn, ← Array.toList_map]

theorem Ordered.keptIn (hx : x.Ordered) (catalog : Catalog) : (x.keptIn catalog).Ordered := by
  refine ⟨?_, ?_⟩
  · rw [← List.pairwise_map]
    change (x.keptIn catalog).countryCodes.Pairwise (· < ·)
    rw [countryCodes_keptIn]
    exact List.pairwise_map.mpr hx.increasing
  · intro d hd
    obtain ⟨c, hc, rfl⟩ := Array.mem_map.mp hd
    exact hx.lowered c hc

theorem Ordered.validated (hx : x.Ordered) (h : (x.validated catalog mode).value = .ok y) :
    y.Ordered := by
  rw [hx.validated_eq_ok h]
  exact hx.keptIn catalog

theorem Obtained.ordered (h : x.Obtained) : x.Ordered := by
  induction h with
  | empty => exact ⟨List.Pairwise.nil, by simp [CountryIndex.empty]⟩
  | parsed h => exact ordered_of_parse h
  | validated _ h ih => exact ih.validated h

/-- The first country with a code, in whichever case. -/
def configured (x : CountryIndex) (code : String) : Option CountryZones :=
  x.countries.toList.find? (·.isForCountry code)

/-- The search finds the country that a scan finds. -/
theorem Ordered.country?_eq (h : x.Ordered) (code : String) :
    x.country? code = x.configured code := by
  unfold country?
  rw [Search.byKey_eq_find? h.increasing, configured]
  refine List.find?_congr fun c hc => ?_
  have hfor := (h.lowered c (Array.mem_toList_iff.mp hc)).isForCountry_iff code
  rw [Bool.eq_iff_iff, decide_eq_true_eq, hfor]

/-- Validating changes only the mappings of the country with a code. -/
theorem configured_of_validated (h : (x.validated catalog mode).value = .ok y) (code : String) :
    (y.configured code).map (·.mappings) =
      (x.configured code).map fun c => c.mappings.filter fun m => catalog.hasZone m.id := by
  rw [configured, CountryZones.validateAll_eq_ok (validateAll_of_validated h), List.find?_map,
    Option.map_map, configured]
  simp only [Function.comp_def, CountryZones.isForCountry, toLower_toLower]
  rfl

end CountryIndex

end TimeZones
