import TimeZones.Proofs.RecordFaults

/-! Which bytes of a zone record count. All others can be anything, and none of those that count can
be missing. -/
namespace TimeZones.Record
open Bytes

variable {a b : Bytes} {n k i j : Nat} {id : String} {t : Table} {f : Fault}

/-- Both have the same bytes where a record of `n` transitions and `k` types is read: in the letters
and the two counts, in the instants and the numbers of their types, and in each type apart from its
last byte. -/
structure SameWhereRead (a b : Bytes) (n k : Nat) : Prop where
  letters : AgreeOn a b 0 4
  counts : AgreeOn a b 32 40
  transitions : AgreeOn a b 44 (44 + 5 * n)
  types : ∀ j < k, AgreeOn a b (44 + 5 * n + 6 * j) (44 + 5 * n + 6 * j + 5)

theorem Header.congr (h : Header b n k) (hletters : AgreeOn a b 0 4) (hcounts : AgreeOn a b 32 40)
    (hl : 44 ≤ a.length) : Header a n k where
  length := hl
  letters := (hletters.take (Nat.le_refl 4)).trans h.letters
  transitions := (hcounts.signedAt (by decide) (by decide)).trans h.transitions
  types := (hcounts.signedAt (by decide) (by decide)).trans h.types
  transitions_pos := h.transitions_pos
  transitions_le := h.transitions_le
  types_pos := h.types_pos
  types_le := h.types_le

namespace SameWhereRead

theorem instantAt (h : SameWhereRead a b n k) (hi : i < n) : instantAt a i = instantAt b i :=
  h.transitions.signedAt (by omega) (by omega)

theorem typeIndexAt (h : SameWhereRead a b n k) (hi : i < n) :
    typeIndexAt a n i = typeIndexAt b n i :=
  h.transitions.byteAt (by omega) (by omega)

theorem utcOffsetAt (h : SameWhereRead a b n k) (hj : j < k) :
    utcOffsetAt a n j = utcOffsetAt b n j :=
  (h.types j hj).signedAt (Nat.le_refl _) (by omega)

theorem flagAt (h : SameWhereRead a b n k) (hj : j < k) : flagAt a n j = flagAt b n j :=
  (h.types j hj).byteAt (by omega) (by omega)

theorem body (h : SameWhereRead a b n k) (hb : Body b n k) (hl : 44 + 5 * n + 6 * k ≤ a.length) :
    Body a n k where
  length := hl
  increasing i j hij hj := by
    rw [h.instantAt (Nat.lt_trans hij hj), h.instantAt hj]
    exact hb.increasing i j hij hj
  typeIndex_lt i hi := by
    rw [h.typeIndexAt hi]
    exact hb.typeIndex_lt i hi
  flag j hj := by
    rw [h.flagAt hj]
    exact hb.flag j hj
  standard := by
    obtain ⟨i, hi, hstandard⟩ := hb.standard
    refine ⟨i, hi, ?_⟩
    rw [h.typeIndexAt hi, h.flagAt (hb.typeIndex_lt i hi), hstandard]

theorem describes (h : SameWhereRead a b n k) (hb : Describes b n k id t) :
    Describes a n k id t where
  id_eq := hb.id_eq
  size_transitions := hb.size_transitions
  transition i hi := by
    rw [h.instantAt hi, h.typeIndexAt hi]
    exact hb.transition i hi
  size_types := hb.size_types
  type j hj := by
    rw [h.flagAt hj, h.utcOffsetAt hj]
    exact hb.type j hj
  firstStandard_lt := hb.firstStandard_lt
  flag_firstStandard := (h.flagAt hb.firstStandard_lt).trans hb.flag_firstStandard
  flag_before j hj := by
    rw [h.flagAt (Nat.lt_trans hj hb.firstStandard_lt)]
    exact hb.flag_before j hj
  firstStandardType := hb.firstStandardType

/-- The counts are among the bytes that are the same. -/
theorem unique_counts (h : SameWhereRead a b n k) (hb : Header b n k) {m l : Nat}
    (ha : Header a m l) : m = n ∧ l = k := by
  have hn := h.counts.signedAt (i := 32) (by decide) (by decide)
  have hk := h.counts.signedAt (i := 36) (by decide) (by decide)
  rw [ha.transitions, hb.transitions, Int.ofNat_inj] at hn
  rw [ha.types, hb.types, Int.ofNat_inj] at hk
  exact ⟨hn, hk⟩

theorem ofRecord_eq_ok (h : SameWhereRead a b n k) (hf : Format b n k) (hd : Describes b n k id t) :
    Table.ofRecord id a = .ok t ↔ 44 + 5 * n + 6 * k ≤ a.length := by
  rw [ofRecord_eq_ok_iff]
  constructor
  · rintro ⟨m, l, ⟨hh, hb⟩, -⟩
    obtain ⟨rfl, rfl⟩ := h.unique_counts hf.header hh
    exact hb.length
  · intro hl
    have hh : Header a n k := hf.header.congr h.letters h.counts (by omega)
    exact ⟨n, k, ⟨hh, h.body hf.body hl⟩, h.describes hd⟩

end SameWhereRead

theorem ofRecord_of_readCounts (h : readCounts b = .error f) : Table.ofRecord id b = .error f := by
  rw [Table.ofRecord, h]

/-- Without all of its letters a record is none. -/
theorem ofRecord_of_length_lt_four (hl : b.length < 4) : Table.ofRecord id b = .error .badMagic := by
  have hm : b.take 4 ≠ magic := by
    intro hm
    have hlength := congrArg List.length hm
    rw [List.length_take] at hlength
    have hfour : magic.length = 4 := rfl
    omega
  exact ofRecord_of_readCounts (if_pos hm)

theorem ofRecord_of_cut_header (hm : b.take 4 = magic) (hl : b.length < 44) :
    Table.ofRecord id b = .error (.truncated .header) := by
  refine ofRecord_of_readCounts ?_
  rw [readCounts, if_neg (not_not_intro hm), if_pos hl]

theorem ofRecord_of_missing {part : Section} (hh : Header b n k)
    (h : missingSection? b ⟨n, k⟩ = some part) : Table.ofRecord id b = .error (.truncated part) :=
  (ofRecord_eq_error hh).mpr (fault?_of_missing h)

/-- Of a record of `n` transitions and `k` types, `44 + 5 * n + 6 * k` bytes are needed. Whatever has
the same bytes in the places that are read is the same table, if it has that many bytes, and no
record otherwise. If fewer bytes are left of the record, then the section in which it is cut is
reported. -/
theorem ofRecord_local (h : Table.ofRecord id b = .ok t) (hn : b.signedAt 32 = n)
    (hk : b.signedAt 36 = k) :
    let stop := 44 + 5 * n + 6 * k
    (∀ a, SameWhereRead a b n k → (Table.ofRecord id a = .ok t ↔ stop ≤ a.length)) ∧
      ∀ l < stop,
        (l < 4 → Table.ofRecord id (b.take l) = .error .badMagic) ∧
        (4 ≤ l → l < 44 → Table.ofRecord id (b.take l) = .error (.truncated .header)) ∧
        (44 ≤ l → l < 44 + 4 * n →
          Table.ofRecord id (b.take l) = .error (.truncated .transitionTimes)) ∧
        (44 + 4 * n ≤ l → l < 44 + 5 * n →
          Table.ofRecord id (b.take l) = .error (.truncated .transitionTypes)) ∧
        (44 + 5 * n ≤ l → Table.ofRecord id (b.take l) = .error (.truncated .localTimeTypes)) := by
  intro stop
  obtain ⟨n', k', hformat, hd⟩ := ofRecord_eq_ok_iff.mp h
  have hh := hformat.header
  obtain rfl : n' = n := Int.ofNat_inj.mp (hh.transitions.symm.trans hn)
  obtain rfl : k' = k := Int.ofNat_inj.mp (hh.types.symm.trans hk)
  refine ⟨fun a ha => ha.ofRecord_eq_ok hformat hd, fun l hl => ?_⟩
  have htake := agreeOn_take b l
  have hlength : (b.take l).length = l :=
    List.length_take_of_le (Nat.le_trans (Nat.le_of_lt hl) hformat.body.length)
  have hhead (h44 : 44 ≤ l) : Header (b.take l) n' k' :=
    hh.congr (htake.mono (Nat.le_refl 0) (by omega)) (htake.mono (by decide) (by omega)) (by omega)
  refine ⟨?_, ?_, ?_, ?_, ?_⟩
  · intro hlt
    exact ofRecord_of_length_lt_four (by rwa [hlength])
  · intro hle hlt
    exact ofRecord_of_cut_header ((htake.take hle).trans hh.letters) (by rwa [hlength])
  · intro hle hlt
    exact ofRecord_of_missing (hhead hle) (missingSection?_transitionTimes (by rwa [hlength]))
  · intro hle hlt
    exact ofRecord_of_missing (hhead (by omega))
      (missingSection?_transitionTypes (by rwa [hlength]) (by rwa [hlength]))
  · intro hle
    exact ofRecord_of_missing (hhead (by omega))
      (missingSection?_localTimeTypes (by rwa [hlength]) (by rwa [hlength]))

/-- A record of one transition and one type with `x` in all places that are not read. -/
def filledSample (x : UInt8) : Bytes :=
  magic ++ List.replicate 28 x ++ [0, 0, 0, 1, 0, 0, 0, 1] ++ List.replicate 4 x ++
    [128, 0, 0, 0, 0, 0, 0, 0, 0, 0, x]

/-- Neither the places that are not read nor a byte behind the end change the table. -/
theorem ofRecord_local_sample :
    ∃ t, Table.ofRecord "Test/Zone" (filledSample 0) = .ok t ∧
      SameWhereRead (filledSample 9 ++ [9]) (filledSample 0) 1 1 ∧
      Table.ofRecord "Test/Zone" (filledSample 9 ++ [9]) = .ok t ∧
      Table.ofRecord "Test/Zone" ((filledSample 0).take 3) = .error .badMagic ∧
      Table.ofRecord "Test/Zone" ((filledSample 0).take 43) = .error (.truncated .header) ∧
      Table.ofRecord "Test/Zone" ((filledSample 0).take 47) =
        .error (.truncated .transitionTimes) ∧
      Table.ofRecord "Test/Zone" ((filledSample 0).take 48) =
        .error (.truncated .transitionTypes) ∧
      Table.ofRecord "Test/Zone" ((filledSample 0).take 54) =
        .error (.truncated .localTimeTypes) := by
  have hok : (Table.ofRecord "Test/Zone" (filledSample 0)).toOption.isSome := by decide +kernel
  cases ht : Table.ofRecord "Test/Zone" (filledSample 0) with
  | error f =>
    rw [ht] at hok
    cases hok
  | ok t =>
    have hsame : SameWhereRead (filledSample 9 ++ [9]) (filledSample 0) 1 1 :=
      ⟨by decide +kernel, by decide +kernel, by decide +kernel, by decide +kernel⟩
    obtain ⟨hother, hcut⟩ := ofRecord_local ht (n := 1) (k := 1) (by decide +kernel)
      (by decide +kernel)
    exact ⟨t, rfl, hsame, (hother _ hsame).mpr (by decide),
      (hcut 3 (by decide)).1 (by decide),
      (hcut 43 (by decide)).2.1 (by decide) (by decide),
      (hcut 47 (by decide)).2.2.1 (by decide) (by decide),
      (hcut 48 (by decide)).2.2.2.1 (by decide) (by decide),
      (hcut 54 (by decide)).2.2.2.2 (by decide)⟩

end TimeZones.Record
