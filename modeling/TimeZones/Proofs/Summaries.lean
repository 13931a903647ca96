import TimeZones.Proofs.OffsetParts

/-! What the summary of a table at one instant means for that instant and for all later ones. -/
namespace TimeZones

theorem Bytes.inRange_signedAt (b : Bytes) (i : Nat) : InRange (b.signedAt i) := by
  have h0 := b.byteAt_lt i
  have h1 := b.byteAt_lt (i + 1)
  have h2 := b.byteAt_lt (i + 2)
  have h3 := b.byteAt_lt (i + 3)
  have hmin : Int32.minValue.toInt = -2147483648 := rfl
  have hmax : Int32.maxValue.toInt = 2147483647 := rfl
  rw [InRange, signedAt, hmin, hmax]
  split
  · omega
  · omega

namespace Table

variable {t : Table} {s u m : Int} {i n : Nat} {tr : Transition}

theorem Obtained.inRange_instant (h : t.Obtained) (htr : tr ∈ t.transitions) :
    InRange tr.instant := by
  rcases h with ⟨id, b, hr⟩ | rfl
  · obtain ⟨n, k, -, hd⟩ := Record.ofRecord_eq_ok_iff.mp hr
    obtain ⟨i, -, rfl⟩ := (mem_transitions_iff_of_describes hd).mp htr
    exact b.inRange_signedAt _
  · obtain rfl : tr = ⟨Int32.minValue.toInt, 0⟩ := by simpa [gmt] using htr
    decide

/-- The transitions to daylight saving time, in order. -/
def dstStarts (t : Table) : List Transition := t.transitions.toList.filter t.startsDst

theorem mem_dstStarts : tr ∈ t.dstStarts ↔ tr ∈ t.transitions ∧ t.startsDst tr = true := by
  rw [dstStarts, List.mem_filter, Array.mem_toList_iff]

/-- Of the transitions to daylight saving time the last one has the latest instant. -/
theorem Sound.instant_le_of_getLast? (h : t.Sound) {last : Transition}
    (hlast : t.dstStarts.getLast? = some last) (htr : tr ∈ t.dstStarts) :
    tr.instant ≤ last.instant := by
  have hinc : t.dstStarts.Pairwise (·.instant < ·.instant) := h.increasing.filter _
  obtain ⟨before, hbefore⟩ := List.getLast?_eq_some_iff.mp hlast
  rw [hbefore, List.pairwise_append] at hinc
  rw [hbefore, List.mem_append, List.mem_singleton] at htr
  rcases htr with htr | rfl
  · exact Int.le_of_lt (hinc.2.2 tr htr last (List.mem_singleton_self last))
  · exact Int.le_refl _

theorem Sound.reached_mono (h : t.Sound) (hs : s ≤ u) : t.reached s ≤ t.reached u := by
  apply Nat.le_of_not_lt
  intro hlt
  have hget := Array.getElem?_eq_getElem (Nat.lt_of_lt_of_le hlt (h.reached_le s))
  have hle := (h.lt_reached_iff hget).mp hlt
  exact Nat.lt_irrefl _ ((h.lt_reached_iff hget).mpr (Int.le_trans hle hs))

/-- At its instant a transition is the last one reached. -/
theorem Sound.reached_instant (h : t.Sound) (hi : t.transitions[i]? = some tr) :
    t.reached (secondOf (1000 * tr.instant)) = i + 1 := by
  have hsecond : secondOf (1000 * tr.instant) = tr.instant := by
    rw [secondOf]
    omega
  rw [hsecond]
  apply h.reached_of_between hi (Int.le_refl _)
  intro next hn
  obtain ⟨hil, rfl⟩ := Array.getElem?_eq_some_iff.mp hi
  obtain ⟨hnl, rfl⟩ := Array.getElem?_eq_some_iff.mp hn
  exact List.pairwise_iff_getElem.mp h.increasing i (i + 1) hil hnl (Nat.lt_succ_self i)

/-- Daylight saving time is in effect if the last transition reached has led to it. -/
theorem Sound.inDaylightTime_iff (h : t.Sound) : t.inDaylightTime m = true ↔
    ∃ i tr, t.transitions[i]? = some tr ∧ t.reached (secondOf m) = i + 1 ∧
      t.startsDst tr = true := by
  rw [inDaylightTime, offsetAtMillis]
  constructor
  · intro hdst
    cases hr : t.reached (secondOf m) with
    | zero =>
      rw [offsetAt_of_reached_zero hr, isDst_of_find? h.firstStandard] at hdst
      cases hdst
    | succ i =>
      obtain ⟨tr, hget, hoffset⟩ := h.exists_of_reached_succ hr
      rw [hoffset] at hdst
      exact ⟨i, tr, hget, rfl, hdst⟩
  · rintro ⟨i, tr, hi, hr, hdst⟩
    rw [offsetAt_of_reached_succ hr, typeOf_eq hi]
    exact hdst

/-- Daylight saving time that is not in effect at first has to start before it is. -/
theorem Sound.exists_start (h : t.Sound) (hs : t.inDaylightTime s = false) (hsm : s ≤ m)
    (hm : t.inDaylightTime m = true) : ∃ tr ∈ t.dstStarts, s ≤ 1000 * tr.instant := by
  obtain ⟨i, tr, hi, hr, hdst⟩ := h.inDaylightTime_iff.mp hm
  refine ⟨tr, mem_dstStarts.mpr ⟨Array.mem_of_getElem? hi, hdst⟩, ?_⟩
  apply Int.not_lt.mp
  intro hlt
  -- otherwise the same transition is the last one reached at both instants
  have hsecond : tr.instant ≤ secondOf s := by
    rw [secondOf]
    omega
  have hle : t.reached (secondOf s) ≤ i + 1 := by
    rw [← hr]
    apply h.reached_mono
    exact Int.ediv_le_ediv (by decide) hsm
  have hreached := Nat.le_antisymm hle ((h.lt_reached_iff hi).mpr hsecond)
  rw [h.inDaylightTime_iff.mpr ⟨i, tr, hi, hreached, hdst⟩] at hs
  cases hs

theorem lastDstBefore_eq_some (h : t.lastDstBefore n = some i) :
    i < n ∧ (t.typeOf i).isDst = true := by
  induction n with
  | zero => cases h
  | succ j ih =>
    rw [lastDstBefore] at h
    split at h
    · rename_i hdst
      obtain rfl := Option.some.inj h
      exact ⟨Nat.lt_succ_self _, hdst⟩
    · obtain ⟨hlt, hdst⟩ := ih h
      exact ⟨Nat.lt_succ_of_lt hlt, hdst⟩

/-- Going back leads to the last transition to daylight saving time. -/
theorem lastDstBefore_eq (hn : n ≤ t.transitions.size) :
    ((t.lastDstBefore n).bind fun i => t.transitions[i]?) =
      ((t.transitions.toList.take n).filter t.startsDst).getLast? := by
  induction n with
  | zero => rfl
  | succ i ih =>
    have hget := Array.getElem?_eq_getElem (Nat.lt_of_succ_le hn)
    rw [lastDstBefore, typeOf_eq hget, getLast?_filter_take_succ (Array.getElem?_toList.trans hget),
      ← ih (Nat.le_of_succ_le hn), startsDst]
    split
    · exact hget
    · rfl

end Table

namespace Snapshot
open Table

variable {t : Table} {now later : Int}

/-- The last transition to daylight saving time decides, and what it adds at its instant counts. -/
theorem savings?_eq (h : t.Sound) (now : Int) : savings? t now =
    t.dstStarts.getLast?.bind fun tr =>
      if now ≤ 1000 * tr.instant then some (t.offsetsAtMillis (1000 * tr.instant)).dst
      else none := by
  have hlast := lastDstBefore_eq (Nat.le_refl t.transitions.size)
  rw [← Array.length_toList, List.take_length, ← dstStarts, Array.length_toList] at hlast
  rw [← hlast, savings?]
  cases hi : t.lastDstBefore t.transitions.size with
  | none => rfl
  | some i =>
    obtain ⟨hlt, hdst⟩ := lastDstBefore_eq_some hi
    have hget := Array.getElem?_eq_getElem hlt
    have hreached := h.reached_instant hget
    have hadds : (t.offsetsAtMillis (1000 * t.transitions[i].instant)).dst =
        satSub (t.typeOf i).utcOffset (t.standardOffsetBefore i) := by
      rw [dst_offsetsAtMillis, total_offsetsAtMillis, raw_offsetsAtMillis, offsetAtMillis, hreached,
        offsetAt_of_reached_succ hreached, standardOffsetBefore, if_pos hdst]
    rw [Option.bind_some, hget, Option.bind_some, hadds, Int.mul_comm]
    change (some i).bind _ = _
    rw [Option.bind_some, hget]
    rfl

/-- Daylight saving time is used if it still has to start. -/
theorem usesDst_iff (h : t.Sound) : (ofTable t now).usesDst = true ↔
    ∃ tr ∈ t.dstStarts, now ≤ 1000 * tr.instant := by
  change (savings? t now).isSome = true ↔ _
  rw [savings?_eq h]
  constructor
  · intro hsome
    obtain ⟨d, hd⟩ := Option.isSome_iff_exists.mp hsome
    obtain ⟨last, hlast, hd⟩ := Option.bind_eq_some_iff.mp hd
    refine ⟨last, List.mem_of_getLast? hlast, ?_⟩
    split at hd
    · assumption
    · cases hd
  · rintro ⟨tr, htr, hnow⟩
    cases hlast : t.dstStarts.getLast? with
    | none =>
      rw [List.getLast?_eq_none_iff.mp hlast] at htr
      cases htr
    | some last =>
      have hle := h.instant_le_of_getLast? hlast htr
      rw [Option.bind_some, if_pos (by omega)]
      rfl

theorem usesDst_eq_false_of_le (h : t.Sound) (hle : now ≤ later)
    (hnow : (ofTable t now).usesDst = false) : (ofTable t later).usesDst = false := by
  rw [Bool.eq_false_iff, ne_eq, usesDst_iff h] at hnow ⊢
  rintro ⟨tr, htr, hlater⟩
  exact hnow ⟨tr, htr, Int.le_trans hle hlater⟩

theorem usesDst_iff_inDaylightTime (h : t.Obtained) (hnow : t.inDaylightTime now = false) :
    (ofTable t now).usesDst = true ↔
      ∃ m : Int64, now ≤ m.toInt ∧ t.inDaylightTime m.toInt = true := by
  rw [usesDst_iff h.sound]
  constructor
  · rintro ⟨tr, htr, hle⟩
    obtain ⟨hmem, hdst⟩ := mem_dstStarts.mp htr
    obtain ⟨i, hi⟩ := Array.mem_iff_getElem?.mp hmem
    obtain ⟨hleast, hgreatest⟩ := h.inRange_instant hmem
    have hm : (Int64.ofInt (1000 * tr.instant)).toInt = 1000 * tr.instant := by
      rw [Int32.toInt_minValue] at hleast
      rw [Int32.toInt_maxValue] at hgreatest
      apply Int64.toInt_ofInt_of_le
      · omega
      · omega
    refine ⟨.ofInt (1000 * tr.instant), ?_, ?_⟩
    · rw [hm]
      exact hle
    · rw [hm]
      exact h.sound.inDaylightTime_iff.mpr ⟨i, tr, hi, h.sound.reached_instant hi, hdst⟩
  · rintro ⟨m, hle, hm⟩
    exact h.sound.exists_start hnow hle hm

/-- What the last transition to daylight saving time adds at its instant is what the summary says
that daylight saving time adds, as long as it is used. -/
theorem dstSavings_of_usesDst (h : t.Sound) (hnow : (ofTable t now).usesDst = true) :
    ∃ tr, t.dstStarts.getLast? = some tr ∧
      (ofTable t now).dstSavings = (t.offsetsAtMillis (1000 * tr.instant)).dst := by
  change (savings? t now).isSome = true at hnow
  change ∃ tr, t.dstStarts.getLast? = some tr ∧ (savings? t now).getD 0 = _
  obtain ⟨d, hd⟩ := Option.isSome_iff_exists.mp hnow
  rw [hd, Option.getD_some]
  rw [savings?_eq h] at hd
  obtain ⟨last, hlast, hd⟩ := Option.bind_eq_some_iff.mp hd
  refine ⟨last, hlast, ?_⟩
  split at hd
  · exact (Option.some.inj hd).symm
  · cases hd

theorem dstSavings_of_not_usesDst (hnow : (ofTable t now).usesDst = false) :
    (ofTable t now).dstSavings = 0 := by
  change (savings? t now).isSome = false at hnow
  change (savings? t now).getD 0 = 0
  cases hsavings : savings? t now with
  | none => rfl
  | some d =>
    rw [hsavings] at hnow
    cases hnow

/-- A zone uses daylight saving time at an instant if a transition to it comes then or later, so
that it is not used again once it is no longer used. In standard time that is to say that daylight
saving time is in effect at some later instant. What it adds is what the last transition to it adds
at its instant, and nothing where it is not used. The raw offset is the raw part at the instant. -/
theorem ofTable_exact (h : t.Obtained) (now : Int) :
    let s := ofTable t now
    (s.usesDst = true ↔
        ∃ tr ∈ t.transitions, t.startsDst tr = true ∧ now ≤ 1000 * tr.instant) ∧
      (∀ later, now ≤ later → s.usesDst = false → (ofTable t later).usesDst = false) ∧
      (t.inDaylightTime now = false →
        (s.usesDst = true ↔
          ∃ m : Int64, now ≤ m.toInt ∧ t.inDaylightTime m.toInt = true)) ∧
      (s.usesDst = true → ∃ tr, t.dstStarts.getLast? = some tr ∧
        s.dstSavings = (t.offsetsAtMillis (1000 * tr.instant)).dst) ∧
      (s.usesDst = false → s.dstSavings = 0) ∧
      s.rawOffset = (t.offsetsAtMillis now).raw := by
  intro s
  refine ⟨?_, ?_, ?_, ?_, dstSavings_of_not_usesDst, rfl⟩
  · rw [usesDst_iff h.sound]
    simp only [mem_dstStarts, and_assoc]
  · intro later hle
    exact usesDst_eq_false_of_le h.sound hle
  · exact usesDst_iff_inDaylightTime h
  · exact dstSavings_of_usesDst h.sound

/-- Standard time is put forward by an hour 100 seconds before daylight saving time starts. -/
def lateSummer : Table where
  id := "Test/Zone"
  transitions := #[⟨0, 0⟩, ⟨100, 1⟩, ⟨200, 2⟩]
  types := #[⟨0, false⟩, ⟨3600, false⟩, ⟨5400, true⟩]
  firstStandard := 0

theorem lateSummer_obtained : lateSummer.Obtained := by
  refine Or.inl ⟨"Test/Zone", Record.magic ++ List.replicate 28 0 ++
    [0, 0, 0, 3, 0, 0, 0, 3, 0, 0, 0, 4, 0, 0, 0, 0, 0, 0, 0, 100, 0, 0, 0, 200, 0, 1, 2,
     0, 0, 0, 0, 0, 0, 0, 0, 14, 16, 0, 0, 0, 0, 21, 24, 1, 0], ?_⟩
  rfl

theorem ofTable_exact_lateSummer :
    lateSummer.Obtained ∧ (ofTable lateSummer 200000).usesDst = true ∧
      (ofTable lateSummer 200000).dstSavings = 1800 ∧
      (∃ m : Int64, 150000 ≤ m.toInt ∧ lateSummer.inDaylightTime m.toInt = true) ∧
      (ofTable lateSummer 200001).usesDst = false ∧
      ∀ later, 200001 ≤ later → (ofTable lateSummer later).usesDst = false := by
  obtain ⟨huses, -, -, hsavings, -⟩ := ofTable_exact lateSummer_obtained 200000
  obtain ⟨hstarts, -, hlater, -⟩ := ofTable_exact lateSummer_obtained 150000
  obtain ⟨-, hnever, -⟩ := ofTable_exact lateSummer_obtained 200001
  have hstart : (⟨200, 2⟩ : Transition) ∈ lateSummer.transitions := by simp [lateSummer]
  have huses := huses.mpr ⟨_, hstart, rfl, by decide⟩
  have hlater := hlater (by decide +kernel)
  have hpast : (ofTable lateSummer 200001).usesDst = false := by decide +kernel
  refine ⟨lateSummer_obtained, huses, ?_, ?_, hpast, fun later hle => hnever later hle hpast⟩
  · obtain ⟨tr, htr, hadds⟩ := hsavings huses
    obtain rfl : ⟨200, 2⟩ = tr := Option.some.inj htr
    rw [hadds]
    decide +kernel
  · exact hlater.mp (hstarts.mpr ⟨_, hstart, rfl, by decide⟩)

end Snapshot

end TimeZones
