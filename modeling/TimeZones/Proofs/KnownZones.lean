import TimeZones.Proofs.CountryOrder

/-! Configurations of which a catalog has all zones. Validating leaves such configurations, and all
that it writes is about zones that the catalog does not have. -/
namespace TimeZones

variable {catalog : Catalog} {mode : Mode}

/-- The catalog has the zones of a country and its default. -/
structure CountryZones.KnownTo (catalog : Catalog) (c : CountryZones) : Prop where
  zones : ∀ id ∈ c.zoneIds, catalog.hasZone id = true
  default : ∀ id ∈ c.defaultZoneId, catalog.hasZone id = true

def CountryIndex.KnownTo (catalog : Catalog) (x : CountryIndex) : Prop :=
  ∀ c ∈ x.countries, c.KnownTo catalog

/-- A zone of a country is left out since the catalog does not have it. -/
def Note.LeavesOut (catalog : Catalog) (n : Note) : Prop :=
  ∃ id code, catalog.hasZone id = false ∧
    (n = .zoneDropped id code catalog.version ∨ n = .defaultIgnored id code catalog.version)

namespace CountryZones

variable {c d : CountryZones} {cs ds : List CountryZones} {n : Note}

theorem knownTo_keptIn (catalog : Catalog) (c : CountryZones) :
    (c.keptIn catalog).KnownTo catalog := by
  refine ⟨?_, ?_⟩
  · intro id hid
    obtain ⟨m, hm, rfl⟩ := List.mem_map.mp hid
    exact (List.mem_filter.mp hm).2
  · intro id hid
    exact (Option.filter_eq_some_iff.mp hid).2

theorem leavesOut_of_validated (h : n ∈ (c.validated catalog mode).notes) :
    n.LeavesOut catalog := by
  have hdrops (hn : n ∈ (c.mappings.filter fun m => !catalog.hasZone m.id).map fun m =>
      Note.zoneDropped m.id c.code.toLower catalog.version) : n.LeavesOut catalog := by
    obtain ⟨m, hm, rfl⟩ := List.mem_map.mp hn
    exact ⟨m.id, _, by simpa using (List.mem_filter.mp hm).2, Or.inl rfl⟩
  unfold validated at h
  dsimp only at h
  split at h
  · exact hdrops h
  split at h
  · rename_i id hid
    rcases List.mem_append.mp h with h | h
    · exact hdrops h
    · obtain rfl := List.mem_singleton.mp h
      exact ⟨id, _, by simpa using (Option.filter_eq_some_iff.mp hid).2, Or.inr rfl⟩
  · exact hdrops h

theorem leavesOut_of_validateAll (h : n ∈ (validateAll catalog mode cs).notes) :
    n.LeavesOut catalog := by
  induction cs with
  | nil => cases h
  | cons c cs ih =>
    rw [validateAll] at h
    rcases Logged.mem_notes_andThen.mp h with h | ⟨d, -, h⟩
    · exact leavesOut_of_validated h
    · rcases Logged.mem_notes_andThen.mp h with h | ⟨ds, -, h⟩
      · exact ih h
      · cases h

end CountryZones

namespace CountryIndex

variable {x y : CountryIndex} {n : Note}

theorem knownTo_of_validated (h : (x.validated catalog mode).value = .ok y) :
    y.KnownTo catalog := by
  intro d hd
  rw [← Array.mem_toList_iff, CountryZones.validateAll_eq_ok (validateAll_of_validated h)] at hd
  obtain ⟨c, -, rfl⟩ := List.mem_map.mp hd
  obtain ⟨hzones, hdefault⟩ := CountryZones.knownTo_keptIn catalog c
  exact ⟨hzones, hdefault⟩

theorem leavesOut_of_validated (h : n ∈ (x.validated catalog mode).notes) :
    n.LeavesOut catalog := by
  rcases Logged.mem_notes_andThen.mp h with h | ⟨ds, -, h⟩
  · exact CountryZones.leavesOut_of_validateAll h
  · cases h

end CountryIndex

end TimeZones
