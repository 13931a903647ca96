import TimeZones.Proofs.Bytes
import TimeZones.Table.Record

/-! The format of zone records, byte by byte. Records that have it are read, and others are not. -/
namespace TimeZones.Record

variable {b : Bytes} {c : Counts} {n k i : Nat}

/-- The instant of transition `i`. -/
def instantAt (b : Bytes) (i : Nat) : Int := b.signedAt (44 + 4 * i)

/-- The number of the type that transition `i` leads to. The record has `n` transitions. -/
def typeIndexAt (b : Bytes) (n i : Nat) : Nat := b.byteAt (44 + 4 * n + i)

/-- The offset of type `j` behind `n` transitions. -/
def utcOffsetAt (b : Bytes) (n j : Nat) : Int := b.signedAt (44 + 5 * n + 6 * j)

/-- The flag of type `j` behind `n` transitions. -/
def flagAt (b : Bytes) (n j : Nat) : Nat := b.byteAt (44 + 5 * n + 6 * j + 4)

/-- The header declares `n` transitions and `k` types, and neither too few nor too many of them. -/
structure Header (b : Bytes) (n k : Nat) : Prop where
  length : 44 ≤ b.length
  letters : b.take 4 = magic
  transitions : b.signedAt 32 = n
  types : b.signedAt 36 = k
  transitions_pos : 1 ≤ n
  transitions_le : n ≤ 2000
  types_pos : 1 ≤ k
  types_le : k ≤ 256

/-- What follows the header holds `n` transitions and `k` types that go together. -/
structure Body (b : Bytes) (n k : Nat) : Prop where
  length : 44 + 5 * n + 6 * k ≤ b.length
  increasing : ∀ i j, i < j → j < n → instantAt b i < instantAt b j
  typeIndex_lt : ∀ i < n, typeIndexAt b n i < k
  flag : ∀ j < k, flagAt b n j = 0 ∨ flagAt b n j = 1
  standard : ∃ i < n, flagAt b n (typeIndexAt b n i) = 0

/-- A zone record of `n` transitions and `k` types. -/
structure Format (b : Bytes) (n k : Nat) : Prop where
  header : Header b n k
  body : Body b n k

/-- A table holds what such a record says, in the same order. -/
structure Describes (b : Bytes) (n k : Nat) (id : String) (t : Table) : Prop where
  id_eq : t.id = id
  size_transitions : t.transitions.size = n
  transition : ∀ i < n, t.transitions[i]? = some ⟨instantAt b i, typeIndexAt b n i⟩
  size_types : t.types.size = k
  type : ∀ j < k, ∃ o : Int32,
    t.types[j]? = some ⟨o, flagAt b n j = 1⟩ ∧ o.toInt = utcOffsetAt b n j
  firstStandard_lt : t.firstStandard < k
  flag_firstStandard : flagAt b n t.firstStandard = 0
  flag_before : ∀ j < t.firstStandard, flagAt b n j ≠ 0
  firstStandardType : t.types[t.firstStandard]? = some t.firstStandardType

theorem readCounts_eq_ok : readCounts b = .ok c ↔ Header b c.transitions c.types := by
  by_cases hm : b.take 4 = magic
  · by_cases hl : b.length < 44
    · simp only [readCounts, hm, ne_eq, not_true_eq_false, if_false, hl, if_true, reduceCtorEq,
        false_iff]
      intro h
      have := h.length
      omega
    · have ht : (b.int32At 32).toInt = b.signedAt 32 := Bytes.toInt_int32At (by omega)
      have hk : (b.int32At 36).toInt = b.signedAt 36 := Bytes.toInt_int32At (by omega)
      obtain ⟨n, k⟩ := c
      simp only [readCounts, hm, ne_eq, not_true_eq_false, if_false, hl, ht, hk, maxTypes,
        maxTransitions]
      constructor
      · intro h
        split at h
        · simp at h
        split at h
        · simp at h
        split at h
        · simp at h
        obtain ⟨rfl, rfl⟩ : (b.signedAt 32).toNat = n ∧ (b.signedAt 36).toNat = k := by
          simpa using h
        exact ⟨by omega, hm, by omega, by omega, by omega, by omega, by omega, by omega⟩
      · rintro ⟨-, -, hn, hk, _, _, _, _⟩
        rw [if_neg (by omega), if_neg (by omega), if_neg (by omega), hn, hk]
        rfl
  · simp only [readCounts, ne_eq, hm, not_false_eq_true, if_true, reduceCtorEq, false_iff]
    intro h
    exact hm h.letters

theorem missingSection?_eq_none : missingSection? b c = none ↔ c.stop ≤ b.length := by
  have h1 : c.indicesStart ≤ c.typesStart := by
    simp only [Counts.indicesStart, Counts.typesStart]
    omega
  have h2 : c.typesStart ≤ c.stop := by
    simp only [Counts.typesStart, Counts.stop]
    omega
  simp only [missingSection?]
  split
  · simp; omega
  split
  · simp; omega
  split
  · simp; omega
  · simp; omega

/-- The transitions are read from where they stand. -/
theorem rawTransitions_eq (h : c.typesStart ≤ b.length) :
    rawTransitions b c = (List.range c.transitions).map fun i =>
      ⟨instantAt b i, typeIndexAt b c.transitions i⟩ := by
  simp only [Counts.typesStart] at h
  have hs : c.indicesStart + c.transitions ≤ b.length := by simp only [Counts.indicesStart]; omega
  rw [rawTransitions, Bytes.pieces_eq, Bytes.slice_eq hs, List.zipWith_map, List.zipWith_self]
  apply List.map_congr_left
  intro i hi
  have hi : i < c.transitions := List.mem_range.mp hi
  rw [Transition.mk.injEq, Bytes.slice_drop]
  constructor
  · rw [Bytes.int32At_slice _ _ (by omega), Bytes.toInt_int32At (by omega)]
    rfl
  · rfl

/-- The types are read from where they stand. -/
theorem rawTypes_eq (b : Bytes) (c : Counts) :
    rawTypes b c = (List.range c.types).map fun j =>
      (b.int32At (c.typesStart + 6 * j), b.getD (c.typesStart + 6 * j + 4) 0) := by
  rw [rawTypes, Bytes.pieces_eq, List.map_map]
  apply List.map_congr_left
  intro j _
  rw [Function.comp_apply, Bytes.slice_drop, Prod.mk.injEq]
  constructor
  · exact Bytes.int32At_slice _ _ (by omega)
  · rw [List.getD_eq_getElem?_getD, Bytes.getElem?_slice _ _ (by omega), List.getD_eq_getElem?_getD]

/-- Transitions pass if their instants rise, also from one before them, and their types exist. -/
theorem transitionFault?_eq_none {types index : Nat} {previous : Option Int}
    {trs : List Transition} :
    transitionFault? types index previous trs = none ↔
      (previous.toList ++ trs.map (·.instant)).Pairwise (· < ·) ∧
        ∀ tr ∈ trs, tr.typeIndex < types := by
  induction trs generalizing index previous with
  | nil => cases previous <;> simp [transitionFault?]
  | cons tr trs ih =>
    have ih := @ih (index + 1) (some tr.instant)
    simp only [Option.toList_some, List.singleton_append] at ih
    rw [transitionFault?, List.forall_mem_cons]
    rw [List.map_cons, pairwise_previous_cons (r := (· < ·)) Int.lt_trans]
    by_cases hp : ∃ p ∈ previous, tr.instant ≤ p
    · obtain ⟨p, hp, hle⟩ := hp
      obtain rfl := Option.mem_def.mp hp
      simp only [Option.filter_some, hle, decide_true, if_true, reduceCtorEq, false_iff]
      rintro ⟨⟨h, -⟩, -⟩
      have := h p hp
      omega
    · have hlt : ∀ p ∈ previous, p < tr.instant :=
        fun p hpm => Int.not_le.mp fun hle => hp ⟨p, hpm, hle⟩
      have hf : previous.filter (tr.instant ≤ ·) = none := by
        rw [Option.filter_eq_none_iff]
        intro p hpm
        have := hlt p hpm
        simpa using this
      simp only [hf]
      split
      · simp; omega
      · rw [ih]
        exact ⟨fun h => ⟨⟨hlt, h.1⟩, by omega, h.2⟩, fun h => ⟨h.1.2, h.2.2⟩⟩

theorem flagFault?_eq_none {index : Nat} {ts : List (Int32 × UInt8)} :
    flagFault? index ts = none ↔ ∀ p ∈ ts, p.2 = 0 ∨ p.2 = 1 := by
  induction ts generalizing index with
  | nil => simp [flagFault?]
  | cons p ts ih =>
    rw [flagFault?, List.forall_mem_cons]
    by_cases hf : p.2 = 0 ∨ p.2 = 1
    · rw [if_pos hf, ih]
      exact ⟨fun h => ⟨hf, h⟩, fun h => h.2⟩
    · simp [hf]

theorem offsetTypes_eq (b : Bytes) (c : Counts) :
    offsetTypes b c = (List.range c.types).map fun j =>
      ⟨b.int32At (c.typesStart + 6 * j), flagAt b c.transitions j = 1⟩ := by
  rw [offsetTypes, rawTypes_eq, List.map_map]
  apply List.map_congr_left
  intro j _
  have hb : b.getD (c.typesStart + 6 * j + 4) 0 = 1 ↔ flagAt b c.transitions j = 1 :=
    Bytes.byteAt_eq_iff.symm
  simp only [Function.comp_apply, hb]

theorem getD_offsetTypes {j : Nat} (hj : j < c.types) :
    ((offsetTypes b c).getD j default).isDst = decide (flagAt b c.transitions j = 1) := by
  rw [offsetTypes_eq, List.getD_eq_getElem?_getD, List.getElem?_map, List.getElem?_range hj]
  rfl

/-- Where all types that are reached exist and have a flag, standard time is reached through a
flag of 0. -/
theorem reachesStandard_iff (h : c.typesStart ≤ b.length)
    (hi : ∀ i < c.transitions, typeIndexAt b c.transitions i < c.types)
    (hf : ∀ j < c.types, flagAt b c.transitions j = 0 ∨ flagAt b c.transitions j = 1) :
    reachesStandard b c = true ↔
      ∃ i < c.transitions, flagAt b c.transitions (typeIndexAt b c.transitions i) = 0 := by
  rw [reachesStandard, rawTransitions_eq h, List.any_map, List.any_eq_true]
  simp only [List.mem_range, Function.comp_apply]
  constructor
  · rintro ⟨i, hin, hs⟩
    rw [getD_offsetTypes (hi i hin)] at hs
    refine ⟨i, hin, (hf _ (hi i hin)).resolve_right ?_⟩
    simpa using hs
  · rintro ⟨i, hin, hs⟩
    refine ⟨i, hin, ?_⟩
    rw [getD_offsetTypes (hi i hin), hs]
    rfl

/-- The flags pass if each is 0 or 1. -/
theorem flagFault?_rawTypes_eq_none :
    flagFault? 0 (rawTypes b c) = none ↔
      ∀ j < c.types, flagAt b c.transitions j = 0 ∨ flagAt b c.transitions j = 1 := by
  rw [flagFault?_eq_none, rawTypes_eq, List.forall_mem_map]
  have hb (j : Nat) (x : UInt8) : b.getD (c.typesStart + 6 * j + 4) 0 = x ↔
      flagAt b c.transitions j = x.toNat := Bytes.byteAt_eq_iff.symm
  simp only [hb, List.mem_range]
  rfl

theorem transitionFault?_rawTransitions_eq_none (h : c.typesStart ≤ b.length) :
    transitionFault? c.types 0 none (rawTransitions b c) = none ↔
      (∀ i j, i < j → j < c.transitions → instantAt b i < instantAt b j) ∧
        ∀ i < c.transitions, typeIndexAt b c.transitions i < c.types := by
  rw [transitionFault?_eq_none, rawTransitions_eq h, Option.toList_none, List.nil_append,
    List.map_map, pairwise_map_range, List.forall_mem_map]
  simp only [List.mem_range, Function.comp_apply]

theorem fault?_eq_none : fault? b c = none ↔ Body b c.transitions c.types := by
  have hstop : c.typesStart ≤ c.stop := by simp only [Counts.typesStart, Counts.stop]; omega
  simp only [fault?, Option.or_eq_none_iff, Option.map_eq_none_iff, missingSection?_eq_none,
    flagFault?_rawTypes_eq_none]
  constructor
  · rintro ⟨hl, ht, hf, hs⟩
    have ht := (transitionFault?_rawTransitions_eq_none (Nat.le_trans hstop hl)).mp ht
    have hr : reachesStandard b c = true := by
      cases hr : reachesStandard b c with
      | true => rfl
      | false => simp [hr] at hs
    exact ⟨hl, ht.1, ht.2, hf, (reachesStandard_iff (Nat.le_trans hstop hl) ht.2 hf).mp hr⟩
  · intro h
    have hl : c.stop ≤ b.length := h.length
    have ht := transitionFault?_rawTransitions_eq_none (Nat.le_trans hstop hl)
    have hr := (reachesStandard_iff (Nat.le_trans hstop hl) h.typeIndex_lt h.flag).mpr h.standard
    exact ⟨hl, ht.mpr ⟨h.increasing, h.typeIndex_lt⟩, h.flag, by rw [if_pos hr]⟩

/-- Two tables that a record describes are the same. -/
theorem Describes.unique {id : String} {t u : Table} (ht : Describes b n k id t)
    (hu : Describes b n k id u) : t = u := by
  have htr : t.transitions = u.transitions := by
    apply Array.ext_getElem?
    intro i
    by_cases hi : i < n
    · rw [ht.transition i hi, hu.transition i hi]
    · rw [Array.getElem?_eq_none (by rw [ht.size_transitions]; omega),
        Array.getElem?_eq_none (by rw [hu.size_transitions]; omega)]
  have hty : t.types = u.types := by
    apply Array.ext_getElem?
    intro j
    by_cases hj : j < k
    · obtain ⟨o, ho, hoi⟩ := ht.type j hj
      obtain ⟨p, hp, hpi⟩ := hu.type j hj
      have hop : o = p := Int32.toInt_inj.mp (hoi.trans hpi.symm)
      rw [ho, hp, hop]
    · rw [Array.getElem?_eq_none (by rw [ht.size_types]; omega),
        Array.getElem?_eq_none (by rw [hu.size_types]; omega)]
  have hf : t.firstStandard = u.firstStandard := by
    rcases Nat.lt_trichotomy t.firstStandard u.firstStandard with h | h | h
    · exact (hu.flag_before _ h ht.flag_firstStandard).elim
    · exact h
    · exact (ht.flag_before _ h hu.flag_firstStandard).elim
  have hid : t.id = u.id := ht.id_eq.trans hu.id_eq.symm
  cases t
  cases u
  simp_all

/-- The table that is read from a sound record once its counts are known. -/
def tableOf (id : String) (b : Bytes) (c : Counts) : Table where
  id := id
  transitions := (rawTransitions b c).toArray
  types := (offsetTypes b c).toArray
  firstStandard := (offsetTypes b c).findIdx fun t => !t.isDst

theorem ofRecord_eq_ok {id : String} {t : Table} :
    Table.ofRecord id b = .ok t ↔
      ∃ c, readCounts b = .ok c ∧ fault? b c = none ∧ t = tableOf id b c := by
  rw [Table.ofRecord]
  cases hc : readCounts b with
  | error f => simp
  | ok c =>
    cases hf : fault? b c with
    | some f => simp [hf]
    | none => simp [hf, tableOf, eq_comm]

theorem getElem?_offsetTypes {j : Nat} (hj : j < c.types) : (offsetTypes b c)[j]? =
    some ⟨b.int32At (c.typesStart + 6 * j), flagAt b c.transitions j = 1⟩ := by
  rw [offsetTypes_eq, List.getElem?_map, List.getElem?_range hj, Option.map_some]

/-- A sound body has a type with a flag of 0, and the first of them is found. -/
theorem firstStandard_tableOf (id : String) (h : Body b c.transitions c.types) :
    (tableOf id b c).firstStandard < c.types ∧
      flagAt b c.transitions (tableOf id b c).firstStandard = 0 ∧
      ∀ j < (tableOf id b c).firstStandard, flagAt b c.transitions j ≠ 0 := by
  have hsz : (offsetTypes b c).length = c.types := by simp [offsetTypes_eq]
  have hflag (j : Nat) (hj : j < (offsetTypes b c).length) :
      ((offsetTypes b c)[j]).isDst = decide (flagAt b c.transitions j = 1) := by
    have hg := (List.getElem?_eq_getElem hj).symm.trans (getElem?_offsetTypes (by omega))
    rw [Option.some.inj hg]
  have hstd : ∃ x ∈ offsetTypes b c, (!x.isDst) = true := by
    obtain ⟨i, hi, hs⟩ := h.standard
    exact ⟨_, List.mem_of_getElem? (getElem?_offsetTypes (h.typeIndex_lt i hi)), by simp [hs]⟩
  have hlt := List.findIdx_lt_length_of_exists hstd
  refine ⟨by rw [← hsz]; exact hlt, ?_, ?_⟩
  · have hs := List.findIdx_getElem (w := hlt)
    rw [hflag] at hs
    have hne : ¬ flagAt b c.transitions (tableOf id b c).firstStandard = 1 := by
      simpa [tableOf] using hs
    exact (h.flag _ (by rw [← hsz]; exact hlt)).resolve_right hne
  · intro j hj h0
    have hs := List.not_of_lt_findIdx hj
    rw [hflag j (Nat.lt_trans hj hlt), h0] at hs
    simp at hs

/-- What is read from a sound body is what stands there. -/
theorem describes_tableOf {id : String} (h : Body b c.transitions c.types) :
    Describes b c.transitions c.types id (tableOf id b c) := by
  have hl := h.length
  have hts : c.typesStart = 44 + 5 * c.transitions := rfl
  have htr := rawTransitions_eq (b := b) (c := c) (by omega)
  obtain ⟨hlt, hzero, hbefore⟩ := firstStandard_tableOf id h
  have htypes (j : Nat) (hj : j < c.types) : (tableOf id b c).types[j]? =
      some ⟨b.int32At (c.typesStart + 6 * j), flagAt b c.transitions j = 1⟩ := by
    rw [tableOf, List.getElem?_toArray, getElem?_offsetTypes hj]
  refine ⟨rfl, by simp [tableOf, htr], ?_, by simp [tableOf, offsetTypes_eq], ?_, hlt, hzero,
    hbefore, ?_⟩
  · intro i hi
    rw [tableOf, List.getElem?_toArray, htr, List.getElem?_map, List.getElem?_range hi,
      Option.map_some]
  · intro j hj
    exact ⟨_, htypes j hj, Bytes.toInt_int32At (i := c.typesStart + 6 * j) (by omega)⟩
  · rw [Table.firstStandardType, Table.typeAtIndex, Array.getD_eq_getD_getElem?, htypes _ hlt]
    rfl

/-- A record is read if and only if it has the format, and the table is the one it describes. -/
theorem ofRecord_eq_ok_iff {id : String} {t : Table} :
    Table.ofRecord id b = .ok t ↔ ∃ n k, Format b n k ∧ Describes b n k id t := by
  rw [ofRecord_eq_ok]
  constructor
  · rintro ⟨c, hc, hf, rfl⟩
    have hb := fault?_eq_none.mp hf
    exact ⟨_, _, ⟨readCounts_eq_ok.mp hc, hb⟩, describes_tableOf hb⟩
  · rintro ⟨n, k, ⟨hh, hb⟩, hd⟩
    have ht : Describes b n k id (tableOf id b ⟨n, k⟩) := describes_tableOf (c := ⟨n, k⟩) hb
    exact ⟨⟨n, k⟩, readCounts_eq_ok.mpr hh, fault?_eq_none.mpr hb, hd.unique ht⟩

/-- Exactly the byte strings that have the format of a record are read, and exactly as written. -/
theorem ofRecord_exact (id : String) (b : Bytes) :
    ((∃ t, Table.ofRecord id b = .ok t) ↔ ∃ n k, Format b n k) ∧
      ∀ t, Table.ofRecord id b = .ok t ↔ ∃ n k, Format b n k ∧ Describes b n k id t := by
  refine ⟨⟨?_, ?_⟩, fun t => ofRecord_eq_ok_iff⟩
  · rintro ⟨t, ht⟩
    obtain ⟨n, k, hf, -⟩ := ofRecord_eq_ok_iff.mp ht
    exact ⟨n, k, hf⟩
  · rintro ⟨n, k, hf⟩
    have ht : Describes b n k id (tableOf id b ⟨n, k⟩) := describes_tableOf (c := ⟨n, k⟩) hf.body
    exact ⟨_, ofRecord_eq_ok_iff.mpr ⟨n, k, hf, ht⟩⟩

end TimeZones.Record
