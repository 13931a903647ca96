import TimeZones.Proofs.ContainerFormat
import TimeZones.Proofs.Search

/-! What holds of every catalog that callers can have. -/
namespace TimeZones.Catalog

variable {c : Catalog} {b : Bytes} {id : String} {e : Entry}

/-- Catalogs are read from containers, apart from the built-in one. -/
def Obtained (c : Catalog) : Prop := (∃ b, ofBytes b = .ok c) ∨ c = builtin

/-- All entries of a container are records still to be read. -/
theorem payload_of_ofBytes (h : ofBytes b = .ok c) (he : e ∈ c.entries) :
    ∃ record, e.payload = .record record := by
  obtain ⟨k, hk⟩ := Array.mem_iff_getElem?.mp he
  obtain ⟨i, d, f, n, -, hc⟩ := Container.ofBytes_eq_ok_iff.mp h
  have hkn : k < n := by
    rw [← hc.size_entries]
    exact (Array.getElem?_eq_some_iff.mp hk).1
  obtain ⟨start, len, -, -, -, hr⟩ := hc.record k hkn
  obtain rfl := Option.some.inj (hk.symm.trans hr)
  exact ⟨_, rfl⟩

theorem mem_of_find? (h : c.find? id = some e) :
    e ∈ c.entries ∧ e.id = id := by
  rw [find?, Search.byKey, Option.filter_eq_some_iff] at h
  exact ⟨Array.mem_of_getElem? h.1, by simpa using h.2⟩

/-- Identifiers increase. -/
theorem Obtained.increasing (h : c.Obtained) : c.entries.toList.Pairwise (·.id < ·.id) := by
  rcases h with ⟨b, hb⟩ | rfl
  · obtain ⟨i, d, f, n, hf, hc⟩ := Container.ofBytes_eq_ok_iff.mp hb
    have hids : c.availableIds.Pairwise (· < ·) := by
      rw [hc.availableIds, pairwise_map_range]
      intro k l hkl hln
      exact (Bytes.text_lt_text_iff).mpr (hf.index.increasing k l hkl hln)
    exact List.pairwise_map.mp hids
  · exact List.pairwise_singleton _ _

theorem Obtained.size_pos (h : c.Obtained) : 0 < c.size := by
  rcases h with ⟨b, hb⟩ | rfl
  · obtain ⟨i, d, f, n, hformat, hc⟩ := Container.ofBytes_eq_ok_iff.mp hb
    have hsize : c.size = n := hc.size_entries
    rw [hsize]
    exact hformat.index.count_pos
  · exact Nat.zero_lt_one

/-- The entry with an identifier is found. -/
theorem Obtained.find?_eq_some_iff (h : c.Obtained) :
    c.find? id = some e ↔ e ∈ c.entries ∧ e.id = id :=
  Search.byKey_eq_some_iff h.increasing

theorem Obtained.find?_of_mem (h : c.Obtained) (he : e ∈ c.entries) : c.find? e.id = some e :=
  h.find?_eq_some_iff.mpr ⟨he, rfl⟩

theorem Obtained.table?_of_mem (h : c.Obtained) (he : e ∈ c.entries) :
    c.table? e.id = e.read.toOption := by
  rw [table?, h.find?_of_mem he]
  rfl

theorem Obtained.hasZone_iff (h : c.Obtained) : c.hasZone id = true ↔ id ∈ c.availableIds := by
  rw [hasZone, Option.isSome_iff_exists, availableIds, List.mem_map]
  constructor
  · rintro ⟨e, he⟩
    obtain ⟨hmem, hid⟩ := h.find?_eq_some_iff.mp he
    exact ⟨e, Array.mem_toList_iff.mpr hmem, hid⟩
  · rintro ⟨e, hmem, hid⟩
    exact ⟨e, h.find?_eq_some_iff.mpr ⟨Array.mem_toList_iff.mp hmem, hid⟩⟩

/-- The catalog has an entry for `id` that can be read, as `t`. -/
def Holds (c : Catalog) (id : String) (t : Table) : Prop :=
  ∃ e ∈ c.entries, e.id = id ∧ e.read = .ok t

theorem Obtained.table?_eq_some_iff (h : c.Obtained) {t : Table} :
    c.table? id = some t ↔ c.Holds id t := by
  constructor
  · intro ht
    obtain ⟨e, he, hread⟩ := Option.bind_eq_some_iff.mp ht
    obtain ⟨hmem, hid⟩ := h.find?_eq_some_iff.mp he
    exact ⟨e, hmem, hid, toOption_eq_some.mp hread⟩
  · rintro ⟨e, hmem, rfl, hread⟩
    rw [h.table?_of_mem hmem, hread]
    rfl

/-- Of a container, the zones are the records in it that can be read. -/
theorem holds_iff_of_ofBytes (h : ofBytes b = .ok c) {t : Table} :
    c.Holds id t ↔
      ∃ record, ⟨id, .record record⟩ ∈ c.entries ∧ Table.ofRecord id record = .ok t := by
  constructor
  · rintro ⟨⟨id, payload⟩, hmem, rfl, hread⟩
    obtain ⟨record, rfl⟩ := payload_of_ofBytes h hmem
    exact ⟨record, hmem, hread⟩
  · rintro ⟨record, hmem, hread⟩
    exact ⟨_, hmem, rfl, hread⟩

end TimeZones.Catalog
