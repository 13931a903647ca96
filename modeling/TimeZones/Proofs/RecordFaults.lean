import TimeZones.Proofs.RecordFormat

/-! Which fault of a zone record is reported. All sections have to be there in full before any of
them is looked into, and then the first transition that is out of place counts. -/
namespace TimeZones.Record

variable {b : Bytes} {c : Counts} {n k i : Nat} {id : String} {f : Fault}

/-- Transition `i` does not come after the one before it, or leads to none of the `k` types. -/
def Misplaced (b : Bytes) (n k i : Nat) : Prop :=
  0 < i ∧ instantAt b i ≤ instantAt b (i - 1) ∨ k ≤ typeIndexAt b n i

instance : Decidable (Misplaced b n k i) := inferInstanceAs (Decidable (_ ∨ _))

/-- The fault of a transition that is out of place. If both things are wrong with it, the order
counts. -/
def misplacement (b : Bytes) (n k i : Nat) : Fault :=
  if 0 < i ∧ instantAt b i ≤ instantAt b (i - 1) then
    .notSorted i (instantAt b (i - 1)) (instantAt b i)
  else .invalidTypeIndex i (typeIndexAt b n i) k

/-- Of the transitions in the order of the record, `i` is the first that is out of place. -/
structure FirstMisplaced (b : Bytes) (n k i : Nat) : Prop where
  lt : i < n
  misplaced : Misplaced b n k i
  before : ∀ j < i, ¬ Misplaced b n k j

instance : Decidable (FirstMisplaced b n k i) :=
  decidable_of_iff (i < n ∧ Misplaced b n k i ∧ ∀ j < i, ¬ Misplaced b n k j)
    ⟨fun h => ⟨h.1, h.2.1, h.2.2⟩, fun h => ⟨h.lt, h.misplaced, h.before⟩⟩

theorem find?_misplaced_eq_some :
    (List.range n).find? (Misplaced b n k ·) = some i ↔ FirstMisplaced b n k i := by
  rw [List.find?_range_eq_some, decide_eq_true_eq, List.mem_range]
  constructor
  · rintro ⟨hm, hlt, hbefore⟩
    exact ⟨hlt, hm, fun j hj => by simpa using hbefore j hj⟩
  · intro h
    exact ⟨h.misplaced, h.lt, fun j hj => by simpa using h.before j hj⟩

theorem exists_firstMisplaced (h : ∃ i < n, Misplaced b n k i) : ∃ i, FirstMisplaced b n k i := by
  obtain ⟨i, hi, hm⟩ := h
  cases hfind : (List.range n).find? (Misplaced b n k ·) with
  | none => exact absurd hm (by simpa using List.find?_eq_none.mp hfind i (List.mem_range.mpr hi))
  | some j => exact ⟨j, find?_misplaced_eq_some.mp hfind⟩

/-- The instant of the transition before transition `i`, if there is one. -/
def previousInstant? (b : Bytes) : Nat → Option Int
  | 0 => none
  | i + 1 => some (instantAt b i)

theorem filter_previousInstant? (b : Bytes) (i : Nat) :
    (previousInstant? b i).filter (instantAt b i ≤ ·) =
      if 0 < i ∧ instantAt b i ≤ instantAt b (i - 1) then some (instantAt b (i - 1)) else none := by
  cases i with
  | zero => rfl
  | succ i => simp [previousInstant?, Option.filter_some]

/-- Going on from transition `i`, the scan stops at the first one that is out of place. -/
theorem transitionFault?_range' (b : Bytes) (n k i len : Nat) :
    transitionFault? k i (previousInstant? b i)
        ((List.range' i len).map fun i => ⟨instantAt b i, typeIndexAt b n i⟩) =
      ((List.range' i len).find? (Misplaced b n k ·)).map (misplacement b n k) := by
  induction len generalizing i with
  | zero => rfl
  | succ len ih =>
    have ih := ih (i + 1)
    rw [previousInstant?] at ih
    have hfound (hm : Misplaced b n k i) :
        ((i :: List.range' (i + 1) len).find? (Misplaced b n k ·)).map (misplacement b n k) =
          some (misplacement b n k i) := by
      rw [List.find?_cons, decide_eq_true hm, Option.map_some]
    have hpass (hm : ¬ Misplaced b n k i) :
        (i :: List.range' (i + 1) len).find? (Misplaced b n k ·) =
          (List.range' (i + 1) len).find? (Misplaced b n k ·) := by
      rw [List.find?_cons, decide_eq_false hm]
    rw [List.range'_succ, List.map_cons, transitionFault?, filter_previousInstant?]
    by_cases hsorted : 0 < i ∧ instantAt b i ≤ instantAt b (i - 1)
    · have hm : Misplaced b n k i := Or.inl hsorted
      rw [if_pos hsorted, hfound hm, misplacement, if_pos hsorted]
    · rw [if_neg hsorted]
      by_cases htype : k ≤ typeIndexAt b n i
      · have hm : Misplaced b n k i := Or.inr htype
        rw [hfound hm, misplacement, if_neg hsorted]
        exact if_pos htype
      · have hm : ¬ Misplaced b n k i := not_or.mpr ⟨hsorted, htype⟩
        rw [hpass hm, ← ih]
        exact if_neg htype

theorem transitionFault?_rawTransitions (h : c.typesStart ≤ b.length) :
    transitionFault? c.types 0 none (rawTransitions b c) =
      ((List.range c.transitions).find? (Misplaced b c.transitions c.types ·)).map
        (misplacement b c.transitions c.types) := by
  rw [rawTransitions_eq h, List.range_eq_range']
  exact transitionFault?_range' b c.transitions c.types 0 c.transitions

theorem ofRecord_eq_error (hh : Header b n k) :
    Table.ofRecord id b = .error f ↔ fault? b ⟨n, k⟩ = some f := by
  have hc : readCounts b = .ok ⟨n, k⟩ := readCounts_eq_ok.mpr hh
  rw [Table.ofRecord, hc]
  cases hf : fault? b ⟨n, k⟩ with
  | none => simp [hf]
  | some g => simp [hf]

/-- A section that is cut short comes before all other faults. -/
theorem fault?_of_missing {part : Section} (h : missingSection? b c = some part) :
    fault? b c = some (.truncated part) := by
  rw [fault?, h]
  rfl

theorem missingSection?_transitionTimes (hcut : b.length < c.indicesStart) :
    missingSection? b c = some .transitionTimes := if_pos hcut

theorem missingSection?_transitionTypes (hl : c.indicesStart ≤ b.length)
    (hcut : b.length < c.typesStart) : missingSection? b c = some .transitionTypes := by
  rw [missingSection?, if_neg (Nat.not_lt_of_le hl), if_pos hcut]

theorem missingSection?_localTimeTypes (hl : c.typesStart ≤ b.length) (hcut : b.length < c.stop) :
    missingSection? b c = some .localTimeTypes := by
  have hle : c.indicesStart ≤ c.typesStart := by
    simp only [Counts.indicesStart, Counts.typesStart]
    omega
  rw [missingSection?, if_neg (by omega), if_neg (by omega), if_pos hcut]

theorem fault?_of_firstMisplaced (hi : FirstMisplaced b c.transitions c.types i)
    (hstop : c.stop ≤ b.length) :
    fault? b c = some (misplacement b c.transitions c.types i) := by
  have hle : c.typesStart ≤ c.stop := by
    simp only [Counts.typesStart, Counts.stop]
    omega
  have hmissing : missingSection? b c = none := missingSection?_eq_none.mpr hstop
  rw [fault?, hmissing, transitionFault?_rawTransitions (Nat.le_trans hle hstop),
    find?_misplaced_eq_some.mpr hi]
  rfl

theorem misplacement_ne_truncated (part : Section) : misplacement b n k i ≠ .truncated part := by
  rw [misplacement]
  split <;> simp

/-- Where the header, the instants and the type indices are there and a transition is out of place,
the first such transition is reported if all types are there as well, and only then. Otherwise the
record is taken to be cut short, whatever its transitions are. -/
theorem ofRecord_of_misplaced (hh : Header b n k) (hl : 44 + 5 * n ≤ b.length)
    (hm : ∃ i < n, Misplaced b n k i) (id : String) :
    let stop := 44 + 5 * n + 6 * k
    ∃ i, FirstMisplaced b n k i ∧
      (Table.ofRecord id b = .error (misplacement b n k i) ↔ stop ≤ b.length) ∧
      (b.length < stop → Table.ofRecord id b = .error (.truncated .localTimeTypes)) := by
  intro stop
  obtain ⟨i, hi⟩ := exists_firstMisplaced hm
  have hcut (h : b.length < stop) :
      Table.ofRecord id b = .error (.truncated .localTimeTypes) :=
    (ofRecord_eq_error hh).mpr (fault?_of_missing (missingSection?_localTimeTypes hl h))
  refine ⟨i, hi, ⟨?_, ?_⟩, hcut⟩
  · intro hfault
    apply Nat.le_of_not_lt
    intro hshort
    have htruncated := hfault.symm.trans (hcut hshort)
    exact misplacement_ne_truncated _ (Except.error.inj htruncated)
  · intro hstop
    exact (ofRecord_eq_error hh).mpr (fault?_of_firstMisplaced (c := ⟨n, k⟩) hi hstop)

/-- The second of three transitions comes before the first one, and the third leads to a type that
does not exist. There should be one type, but the record ends before it. -/
def misplacedSample : Bytes :=
  magic ++ List.replicate 28 0 ++
    [0, 0, 0, 3, 0, 0, 0, 1, 0, 0, 0, 4, 0, 0, 0, 10, 0, 0, 0, 5, 0, 0, 0, 20, 0, 0, 7]

theorem header_misplacedSample (rest : Bytes) : Header (misplacedSample ++ rest) 3 1 := by
  refine ⟨?_, rfl, rfl, rfl, by decide, by decide, by decide, by decide⟩
  rw [List.length_append]
  exact Nat.le_add_right_of_le (by decide)

/-- With its type, which has a flag that is neither 0 nor 1, the record is refused for its second
transition. -/
theorem ofRecord_of_misplaced_sample :
    let b := misplacedSample ++ [0, 0, 0, 0, 2, 0]
    Header b 3 1 ∧ 44 + 5 * 3 ≤ b.length ∧ Misplaced b 3 1 1 ∧
      Table.ofRecord "Test/Zone" b = .error (.notSorted 1 10 5) := by
  intro b
  have hh : Header b 3 1 := header_misplacedSample _
  have hl : 44 + 5 * 3 ≤ b.length := by decide
  have hm : Misplaced b 3 1 1 := by decide +kernel
  obtain ⟨i, hi, hfault, -⟩ := ofRecord_of_misplaced hh hl ⟨1, by decide, hm⟩ "Test/Zone"
  have hone : i = 1 := by
    have hle : i ≤ 1 := Nat.le_of_not_lt fun h => hi.before 1 h hm
    have hne : i ≠ 0 := by
      rintro rfl
      exact absurd hi.misplaced (by decide +kernel)
    omega
  have hfirst : misplacement b 3 1 i = .notSorted 1 10 5 := by
    rw [hone]
    decide +kernel
  exact ⟨hh, hl, hm, hfirst ▸ hfault.mpr (by decide)⟩

/-- Without the type nothing is said of the transitions. -/
theorem ofRecord_misplacedSample :
    Header misplacedSample 3 1 ∧ 44 + 5 * 3 ≤ misplacedSample.length ∧
      FirstMisplaced misplacedSample 3 1 1 ∧
      misplacement misplacedSample 3 1 1 = .notSorted 1 10 5 ∧
      Table.ofRecord "Test/Zone" misplacedSample = .error (.truncated .localTimeTypes) := by
  refine ⟨?_, by decide, by decide +kernel, by decide +kernel, rfl⟩
  have hh := header_misplacedSample []
  rwa [List.append_nil] at hh

end TimeZones.Record
