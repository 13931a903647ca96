import TimeZones.Proofs.SameRules

/-! The parts of an offset. The raw part is the offset in the table that never changes to daylight
saving time, and the rest is what daylight saving time adds. -/
namespace TimeZones

/-- A number beyond the range is cut off at the nearest end. -/
theorem toInt_ofIntClamp (n : Int) : (Int32.ofIntClamp n).toInt =
    max Int32.minValue.toInt (min Int32.maxValue.toInt n) := by
  have hmin : Int32.minValue.toInt = -2147483648 := rfl
  have hmax : Int32.maxValue.toInt = 2147483647 := rfl
  rw [Int32.ofIntClamp]
  split
  · split
    · rw [Int32.toInt_ofIntLE]
      omega
    · omega
  · omega

theorem inRange_iff_max_min {n : Int} :
    InRange n ↔ max Int32.minValue.toInt (min Int32.maxValue.toInt n) = n := by
  have hmin : Int32.minValue.toInt = -2147483648 := rfl
  have hmax : Int32.maxValue.toInt = 2147483647 := rfl
  rw [InRange]
  omega

theorem satSub_self (a : Int32) : satSub a a = 0 := by
  rw [satSub, Int.sub_self]
  rfl

theorem getLast?_filter_take_succ {α : Type} {p : α → Bool} {xs : List α} {i : Nat} {x : α}
    (hx : xs[i]? = some x) : ((xs.take (i + 1)).filter p).getLast? =
      if p x then some x else ((xs.take i).filter p).getLast? := by
  rw [List.take_add_one, hx, Option.toList_some, List.filter_append]
  by_cases h : p x
  · rw [if_pos h, List.filter_cons_of_pos h, List.filter_nil, List.getLast?_concat]
  · rw [if_neg h, List.filter_cons_of_neg h, List.filter_nil, List.append_nil]

namespace Table

variable {t : Table} {n : Nat}

/-- Whether a transition leads to daylight saving time. -/
def startsDst (t : Table) (tr : Transition) : Bool := (t.typeAtIndex tr.typeIndex).isDst

/-- The same types, but no transitions to daylight saving time. -/
def withoutDst (t : Table) : Table :=
  { t with transitions := t.transitions.filter fun tr => !t.startsDst tr }

theorem toList_withoutDst (t : Table) :
    t.withoutDst.transitions.toList = t.transitions.toList.filter fun tr => !t.startsDst tr :=
  Array.toList_filter

theorem Sound.withoutDst (h : t.Sound) : t.withoutDst.Sound := by
  refine ⟨?_, ?_, ?_, h.firstStandard⟩
  · rw [toList_withoutDst]
    exact h.increasing.filter _
  · intro tr htr
    exact h.typeIndex_lt tr (Array.mem_filter.mp htr).1
  · obtain ⟨tr, htr, hs⟩ := h.standard
    refine ⟨tr, Array.mem_filter.mpr ⟨htr, ?_⟩, hs⟩
    rw [startsDst, hs]
    rfl

/-- The type that the last of some transitions leads to. Without any it is the first standard
type. -/
def lastType (t : Table) (trs : List Transition) : OffsetType :=
  trs.getLast?.elim t.firstStandardType fun tr => t.typeAtIndex tr.typeIndex

theorem Sound.offsetAt_eq_lastType (h : t.Sound) (s : Int) :
    t.offsetAt s = t.lastType (t.transitions.toList.filter (·.instant ≤ s)) := by
  have hlast : (t.transitions.toList.filter (·.instant ≤ s)).getLast? = t.lastReached s := by
    rw [lastReached, foldl_reached, Option.or_none]
  rw [lastType, hlast, h.lastReached_eq]
  cases hr : t.reached s with
  | zero => exact offsetAt_of_reached_zero hr
  | succ i =>
    obtain ⟨tr, hget, hoffset⟩ := h.exists_of_reached_succ hr
    rw [hoffset, if_neg (Nat.succ_ne_zero i), Nat.add_sub_cancel, hget, Option.elim_some]

/-- Going back to the latest standard time leads to the last transition to one. -/
theorem standardOffsetBefore_eq (hn : n ≤ t.transitions.size) :
    t.standardOffsetBefore n = (t.lastType
      ((t.transitions.toList.take n).filter fun tr => !t.startsDst tr)).utcOffset := by
  induction n with
  | zero => rfl
  | succ i ih =>
    have hget := Array.getElem?_eq_getElem (Nat.lt_of_succ_le hn)
    rw [standardOffsetBefore, typeOf_eq hget, ih (Nat.le_of_succ_le hn), lastType, lastType,
      getLast?_filter_take_succ (Array.getElem?_toList.trans hget), startsDst]
    cases (t.typeAtIndex t.transitions[i].typeIndex).isDst <;> rfl

/-- In all cases the raw part is the latest standard time, counted from the next transition. -/
theorem raw_offsetsAtMillis (t : Table) (m : Int) :
    (t.offsetsAtMillis m).raw = t.standardOffsetBefore (t.reached (secondOf m)) := by
  rw [offsetsAtMillis]
  cases t.reached (secondOf m) with
  | zero => rfl
  | succ i =>
    rw [standardOffsetBefore]
    dsimp only
    split <;> rfl

theorem raw_of_standard {m : Int} (h : (t.offsetAtMillis m).isDst = false) :
    (t.offsetsAtMillis m).raw = (t.offsetAtMillis m).utcOffset := by
  rw [raw_offsetsAtMillis]
  rw [offsetAtMillis] at h ⊢
  cases hr : t.reached (secondOf m) with
  | zero => rw [offsetAt_of_reached_zero hr, standardOffsetBefore]
  | succ i =>
    rw [offsetAt_of_reached_succ hr] at h ⊢
    rw [standardOffsetBefore, h]
    rfl

theorem total_offsetsAtMillis (t : Table) (m : Int) :
    (t.offsetsAtMillis m).total = (t.offsetAtMillis m).utcOffset := by
  rw [offsetsAtMillis, offsetAtMillis, offsetAt]
  cases t.reached (secondOf m) with
  | zero => rfl
  | succ i =>
    dsimp only
    split <;> rfl

theorem dst_offsetsAtMillis (t : Table) (m : Int) : (t.offsetsAtMillis m).dst =
    satSub (t.offsetsAtMillis m).total (t.offsetsAtMillis m).raw := by
  rw [offsetsAtMillis]
  cases t.reached (secondOf m) with
  | zero => exact (satSub_self _).symm
  | succ i =>
    dsimp only
    split
    · rfl
    · exact (satSub_self _).symm

/-- Of the transitions reached, those to standard time are all that the other table has reached. -/
theorem Sound.offsetAt_withoutDst (h : t.Sound) (s : Int) : t.withoutDst.offsetAt s =
    t.lastType ((t.transitions.toList.take (t.reached s)).filter fun tr => !t.startsDst tr) := by
  have hreached : t.transitions.toList.filter (·.instant ≤ s) =
      t.transitions.toList.take (t.reached s) := Search.filter_eq_take (h.divides_reached s)
  rw [h.withoutDst.offsetAt_eq_lastType, toList_withoutDst, ← hreached, List.filter_filter,
    List.filter_filter]
  simp only [Bool.and_comm]
  rfl

/-- The total is the offset in effect, and the raw part is the one in effect in the table without
daylight saving time. The rest is their difference, cut off where it does not fit. It is nothing
just when both are equal, and so in standard time. -/
theorem offsetsAtMillis_exact (h : t.Obtained) (m : Int) :
    let o := t.offsetsAtMillis m
    o.total = (t.offsetAtMillis m).utcOffset ∧
      t.withoutDst.transitions ≠ #[] ∧
      o.raw = (t.withoutDst.offsetAtMillis m).utcOffset ∧
      o.dst.toInt = max Int32.minValue.toInt
        (min Int32.maxValue.toInt (o.total.toInt - o.raw.toInt)) ∧
      (o.total.toInt = o.raw.toInt + o.dst.toInt ↔ InRange (o.total.toInt - o.raw.toInt)) ∧
      (o.dst = 0 ↔ o.total = o.raw) ∧
      ((t.offsetAtMillis m).isDst = false → o.dst = 0) := by
  intro o
  have hs := h.sound
  have hdst : o.dst.toInt = max Int32.minValue.toInt
      (min Int32.maxValue.toInt (o.total.toInt - o.raw.toInt)) := by
    rw [t.dst_offsetsAtMillis m]
    exact toInt_ofIntClamp _
  have hzero : o.dst = 0 ↔ o.total = o.raw := by
    rw [← Int32.toInt_inj, ← Int32.toInt_inj, hdst]
    change max (-2147483648) (min 2147483647 (o.total.toInt - o.raw.toInt)) = 0 ↔ _
    omega
  refine ⟨t.total_offsetsAtMillis m, ?_, ?_, hdst, ?_, hzero, ?_⟩
  · obtain ⟨tr, htr, -⟩ := hs.withoutDst.standard
    exact Array.ne_empty_of_mem htr
  · rw [offsetAtMillis, hs.offsetAt_withoutDst, ← standardOffsetBefore_eq (hs.reached_le _)]
    exact t.raw_offsetsAtMillis m
  · rw [inRange_iff_max_min, ← hdst]
    omega
  · intro hstandard
    exact hzero.mpr ((t.total_offsetsAtMillis m).trans (raw_of_standard hstandard).symm)

/-- Daylight saving time starts with the greatest offset, five seconds after 1970 began. Standard
time has the least one. -/
def farApart : Table where
  id := "Test/Zone"
  transitions := #[⟨-10, 0⟩, ⟨5, 1⟩]
  types := #[⟨Int32.minValue, false⟩, ⟨Int32.maxValue, true⟩]
  firstStandard := 0

theorem farApart_obtained : farApart.Obtained := by
  refine Or.inl ⟨"Test/Zone", Record.magic ++ List.replicate 28 0 ++
    [0, 0, 0, 2, 0, 0, 0, 2, 0, 0, 0, 4, 255, 255, 255, 246, 0, 0, 0, 5, 0, 1,
     128, 0, 0, 0, 0, 0, 127, 255, 255, 255, 1, 0], ?_⟩
  rfl

theorem offsetsAtMillis_exact_farApart :
    farApart.Obtained ∧
      (farApart.offsetsAtMillis 5000).raw = (farApart.withoutDst.offsetAtMillis 5000).utcOffset ∧
      (farApart.offsetsAtMillis 5000).dst.toInt = 2147483647 ∧
      (farApart.offsetsAtMillis 5000).total.toInt ≠
        (farApart.offsetsAtMillis 5000).raw.toInt + (farApart.offsetsAtMillis 5000).dst.toInt ∧
      (farApart.offsetsAtMillis 4999).dst = 0 := by
  obtain ⟨-, -, hraw, hdst, hsum, -⟩ := offsetsAtMillis_exact farApart_obtained 5000
  obtain ⟨-, -, -, -, -, -, hzero⟩ := offsetsAtMillis_exact farApart_obtained 4999
  have hfar : ¬ InRange ((farApart.offsetsAtMillis 5000).total.toInt -
      (farApart.offsetsAtMillis 5000).raw.toInt) := by decide +kernel
  refine ⟨farApart_obtained, hraw, ?_, mt hsum.mp hfar, hzero (by decide +kernel)⟩
  rw [hdst]
  decide +kernel

end Table

end TimeZones
