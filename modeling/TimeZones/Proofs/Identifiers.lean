import TimeZones.Proofs.RecordFormat
import TimeZones.Proofs.SeparateZones

/-! The identifiers that a catalog finds zones under: those that it lists, letter by letter, and
each of them once. A zone that is found carries the identifier that it was asked for by. -/
namespace TimeZones

namespace Catalog

variable {c : Catalog} {id : String} {t : Table}

/-- The entry that is found is the only one with its identifier. -/
theorem Obtained.filter_id (h : c.Obtained) :
    c.entries.toList.filter (·.id = id) = (c.find? id).toList :=
  Search.filter_eq_toList_byKey h.increasing

theorem Obtained.find?_eq_some_iff_filter (h : c.Obtained) {e : Entry} :
    c.find? id = some e ↔ c.entries.toList.filter (·.id = id) = [e] := by
  rw [h.filter_id]
  cases c.find? id with
  | none => simp
  | some d => simp

/-- Tables have the identifiers of their entries, and so has the built-in one. -/
theorem Obtained.id_of_holds (h : c.Obtained) (ht : c.Holds id t) : t.id = id := by
  rcases h with ⟨b, hb⟩ | rfl
  · obtain ⟨record, -, hread⟩ := (holds_iff_of_ofBytes hb).mp ht
    obtain ⟨n, k, -, hd⟩ := Record.ofRecord_eq_ok_iff.mp hread
    exact hd.id_eq
  · obtain ⟨e, he, rfl, hread⟩ := ht
    obtain rfl := Array.mem_singleton.mp he
    obtain rfl := Except.ok.inj hread
    rfl

theorem Obtained.table?_eq_none (h : c.Obtained) (hid : id ∉ c.availableIds) :
    c.table? id = none := by
  have hzone : ¬ c.hasZone id = true := mt h.hasZone_iff.mp hid
  rw [hasZone, Bool.not_eq_true, Option.isSome_eq_false_iff, Option.isNone_iff_eq_none] at hzone
  rw [table?, hzone]
  rfl

end Catalog

namespace World
open Catalog

variable {w : World} {s : Shared Catalog} {id : String}

theorem id_of_lookup (hw : w.Reachable) (hs : s ∈ w.catalogs) :
    ∀ t ∈ w.value (lookup s id), t.value.id = id := by
  intro t ht
  have hobtained := hw.sound.registry.obtained s hs
  have htable := value_lookup hw hs id
  rw [Option.mem_def.mp ht, Option.map_some] at htable
  exact hobtained.id_of_holds (hobtained.table?_eq_some_iff.mp htable.symm)

theorem lookup_eq_none (hw : w.Reachable) (hs : s ∈ w.catalogs) (hid : id ∉ s.value.availableIds) :
    w.value (lookup s id) = none := by
  have htable := value_lookup hw hs id
  rw [(hw.sound.registry.obtained s hs).table?_eq_none hid] at htable
  exact Option.map_eq_none_iff.mp htable

/-- A catalog that callers hold has a zone if and only if it lists the identifier, and the entry
that is found for it is the only one. Of other identifiers nothing is found. Tables, zones and
summaries that are found carry the identifier that was asked for. -/
theorem identifiers_exact (hw : w.Reachable) (hs : s ∈ w.catalogs) (id : String) (now : Int) :
    (s.value.hasZone id = true ↔ id ∈ s.value.availableIds) ∧
      (∀ e, s.value.find? id = some e ↔ s.value.entries.toList.filter (·.id = id) = [e]) ∧
      (id ∉ s.value.availableIds → w.value (lookup s id) = none ∧
        w.value (makeZone s id now) = none ∧ w.value (snapshot s id now) = none) ∧
      (∀ t ∈ w.value (lookup s id), t.value.id = id) ∧
      (∀ z ∈ w.value (makeZone s id now), z.id = id ∧ z.table.value.id = id) ∧
      ∀ x ∈ w.value (snapshot s id now), x.id = id := by
  have hobtained := hw.sound.registry.obtained s hs
  have hzone : w.value (makeZone s id now) = (w.value (lookup s id)).map (Zone.ofTable · now) := rfl
  have hsnapshot : w.value (snapshot s id now) =
      (w.value (lookup s id)).map fun t => Snapshot.ofTable t.value now := by
    rw [value_snapshot hw hs, ← value_lookup hw hs, Option.map_map]
    rfl
  have hid : ∀ t ∈ w.value (lookup s id), t.value.id = id := id_of_lookup hw hs
  refine ⟨hobtained.hasZone_iff, fun e => hobtained.find?_eq_some_iff_filter, ?_, hid, ?_, ?_⟩
  · intro habsent
    rw [hzone, hsnapshot, lookup_eq_none hw hs habsent]
    exact ⟨rfl, rfl, rfl⟩
  · intro z hz
    rw [hzone] at hz
    obtain ⟨t, ht, rfl⟩ := Option.map_eq_some_iff.mp hz
    exact ⟨hid t ht, hid t ht⟩
  · intro x hx
    rw [hsnapshot] at hx
    obtain ⟨t, ht, rfl⟩ := Option.map_eq_some_iff.mp hx
    exact hid t ht

/-- Names that fill all of their forty bytes are found as well, but none in other letters. -/
theorem identifiers_exact_sample :
    let s := sampleCatalog
    let w := initial.gain (Session.share s.value) fun c => [c]
    let longest := Bytes.text (List.replicate 40 0x5A)
    w.Reachable ∧ s ∈ w.catalogs ∧ s.value.hasZone longest = true ∧
      s.value.hasZone "etc/utc" = false ∧ w.value (lookup s "etc/utc") = none ∧
      ∃ z, w.value (makeZone s "Etc/UTC" 0) = some z ∧ z.id = "Etc/UTC" := by
  intro s w longest
  have hs : s ∈ w.catalogs := List.mem_cons_self
  have hw : w.Reachable := .step .initial (.ofBytes ofBytes_sampleContainer)
  obtain ⟨hlongest, -⟩ := identifiers_exact hw hs longest 0
  obtain ⟨hsmall, -, habsent, -⟩ := identifiers_exact hw hs "etc/utc" 0
  obtain ⟨-, -, -, -, hid, -⟩ := identifiers_exact hw hs "Etc/UTC" 0
  have hunlisted : "etc/utc" ∉ s.value.availableIds := by decide +kernel
  have hread : (s.value.table? "Etc/UTC").isSome = true := by decide +kernel
  rw [← value_lookup hw hs, Option.isSome_map] at hread
  obtain ⟨t, ht⟩ := Option.isSome_iff_exists.mp hread
  have hz : w.value (makeZone s "Etc/UTC" 0) = some (Zone.ofTable t 0) :=
    congrArg (Option.map (Zone.ofTable · 0)) ht
  exact ⟨hw, hs, hlongest.mpr (by decide +kernel), Bool.eq_false_iff.mpr (mt hsmall.mp hunlisted),
    (habsent hunlisted).1, _, hz, (hid _ hz).1⟩

end World

end TimeZones
