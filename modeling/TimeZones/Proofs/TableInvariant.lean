import TimeZones.Proofs.RecordFormat

/-! What holds of every transition table that callers can have. -/
namespace TimeZones.Table

variable {t : Table} {i : Nat} {tr : Transition}

/-- Tables are read from records, apart from the one of the built-in catalog. -/
def Obtained (t : Table) : Prop := (∃ id b, ofRecord id b = .ok t) ∨ t = gmt

/-- Instants increase, all types that are led to exist, one of them is standard, and the first
standard type is known. -/
structure Sound (t : Table) : Prop where
  increasing : t.transitions.toList.Pairwise (·.instant < ·.instant)
  typeIndex_lt : ∀ tr ∈ t.transitions, tr.typeIndex < t.types.size
  standard : ∃ tr ∈ t.transitions, (t.typeAtIndex tr.typeIndex).isDst = false
  firstStandard : t.types.find? (fun ty => !ty.isDst) = some t.firstStandardType

theorem getElem?_types (h : i < t.types.size) : t.types[i]? = some (t.typeAtIndex i) := by
  rw [typeAtIndex, Array.getD_eq_getD_getElem?, Array.getElem?_eq_getElem h]
  rfl

theorem typeOf_eq (h : t.transitions[i]? = some tr) : t.typeOf i = t.typeAtIndex tr.typeIndex := by
  rw [typeOf, h]

theorem mem_transitions_iff_of_describes {b : Bytes} {n k : Nat} {id : String}
    (h : Record.Describes b n k id t) : tr ∈ t.transitions ↔
      ∃ i < n, tr = ⟨Record.instantAt b i, Record.typeIndexAt b n i⟩ := by
  rw [Array.mem_iff_getElem?]
  constructor
  · rintro ⟨i, hi⟩
    have hin : i < n := by
      rw [← h.size_transitions]
      exact (Array.getElem?_eq_some_iff.mp hi).1
    exact ⟨i, hin, (Option.some.inj ((h.transition i hin).symm.trans hi)).symm⟩
  · rintro ⟨i, hin, rfl⟩
    exact ⟨i, h.transition i hin⟩

theorem isDst_typeAtIndex_of_describes {b : Bytes} {n k : Nat} {id : String}
    (h : Record.Describes b n k id t) {j : Nat} (hj : j < k) :
    (t.typeAtIndex j).isDst = decide (Record.flagAt b n j = 1) := by
  obtain ⟨o, ho, -⟩ := h.type j hj
  have hjs : j < t.types.size := by rw [h.size_types]; exact hj
  rw [Option.some.inj ((getElem?_types hjs).symm.trans ho)]

/-- A described table is sound if the record has the format. -/
theorem sound_of_describes {b : Bytes} {n k : Nat} {id : String} (hb : Record.Body b n k)
    (h : Record.Describes b n k id t) : t.Sound := by
  have hdst {j : Nat} (hj : j < k) := isDst_typeAtIndex_of_describes h hj
  refine ⟨?_, ?_, ?_, ?_⟩
  · rw [List.pairwise_iff_getElem]
    intro i j hi hj hij
    rw [Array.length_toList, h.size_transitions] at hi hj
    have hgi := (Array.getElem?_eq_some_iff.mp (h.transition i hi)).2
    have hgj := (Array.getElem?_eq_some_iff.mp (h.transition j hj)).2
    rw [Array.getElem_toList, Array.getElem_toList, hgi, hgj]
    exact hb.increasing i j hij hj
  · intro tr htr
    obtain ⟨i, hi, rfl⟩ := (mem_transitions_iff_of_describes h).mp htr
    rw [h.size_types]
    exact hb.typeIndex_lt i hi
  · obtain ⟨i, hi, hs⟩ := hb.standard
    refine ⟨_, (mem_transitions_iff_of_describes h).mpr ⟨i, hi, rfl⟩, ?_⟩
    rw [hdst (hb.typeIndex_lt i hi), hs]
    rfl
  · have hs : t.firstStandard < t.types.size := by rw [h.size_types]; exact h.firstStandard_lt
    rw [Array.find?_eq_some_iff_getElem]
    refine ⟨?_, t.firstStandard, hs, ?_, ?_⟩
    · rw [firstStandardType, hdst h.firstStandard_lt, h.flag_firstStandard]
      rfl
    · exact (Array.getElem?_eq_some_iff.mp h.firstStandardType).2
    · intro j hj
      have hjk : j < k := Nat.lt_trans hj h.firstStandard_lt
      have hjs : j < t.types.size := Nat.lt_trans hj hs
      have hg := (Array.getElem?_eq_some_iff.mp (getElem?_types hjs)).2
      have h1 := (hb.flag j hjk).resolve_left (h.flag_before j hj)
      rw [hg, hdst hjk, h1]
      rfl

theorem sound_gmt : gmt.Sound := by
  refine ⟨?_, ?_, ?_, ?_⟩
  · simp [gmt]
  · simp [gmt]
  · exact ⟨⟨Int32.minValue.toInt, 0⟩, by simp [gmt], rfl⟩
  · rfl

theorem Obtained.sound (h : t.Obtained) : t.Sound := by
  rcases h with ⟨id, b, hr⟩ | rfl
  · obtain ⟨n, k, hf, hd⟩ := Record.ofRecord_eq_ok_iff.mp hr
    exact sound_of_describes hf.body hd
  · exact sound_gmt

end TimeZones.Table
