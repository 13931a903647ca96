import TimeZones.Proofs.Search
import TimeZones.Proofs.TableInvariant
import TimeZones.Table.Query

/-! The type in effect at an instant, found by going through all transitions one after another. The
binary search in the table answers alike. -/
namespace TimeZones.Table

variable {t : Table} {s : Int} {i : Nat} {tr next : Transition}

/-- The last transition reached at `seconds`. Each is looked at, in order. -/
def lastReached (t : Table) (seconds : Int) : Option Transition :=
  t.transitions.toList.foldl (fun found tr => if tr.instant ≤ seconds then some tr else found) none

/-- The type that the last transition reached leads to. Before all transitions it is the first type
in the table that is not daylight saving time. -/
def scannedType? (t : Table) (seconds : Int) : Option OffsetType :=
  match t.lastReached seconds with
  | some tr => t.types[tr.typeIndex]?
  | none => t.types.find? fun ty => !ty.isDst

theorem foldl_reached (s : Int) (trs : List Transition) (found : Option Transition) :
    trs.foldl (fun found tr => if tr.instant ≤ s then some tr else found) found =
      (trs.filter (·.instant ≤ s)).getLast?.or found := by
  induction trs generalizing found with
  | nil => rfl
  | cons tr trs ih =>
    rw [List.foldl_cons, ih]
    by_cases h : tr.instant ≤ s
    · rw [if_pos h, List.filter_cons_of_pos (by simpa using h), List.getLast?_cons]
      cases (trs.filter (·.instant ≤ s)).getLast? <;> rfl
    · rw [if_neg h, List.filter_cons_of_neg (by simpa using h)]

/-- Transitions that have been reached come before those that have not. -/
theorem Sound.divides_reached (h : t.Sound) (s : Int) :
    Search.Divides (fun tr => decide (tr.instant ≤ s)) t.transitions := by
  apply h.increasing.imp
  intro x y hxy hy
  simp only [decide_eq_true_eq] at hy ⊢
  omega

theorem Sound.reached_le (h : t.Sound) (s : Int) : t.reached s ≤ t.transitions.size :=
  (Search.partitionPoint_spec (h.divides_reached s)).1

theorem Sound.lt_reached_iff (h : t.Sound) (hi : t.transitions[i]? = some tr) :
    i < t.reached s ↔ tr.instant ≤ s := by
  obtain ⟨hlt, rfl⟩ := Array.getElem?_eq_some_iff.mp hi
  have hp := (Search.partitionPoint_spec (h.divides_reached s)).2 i hlt
  rw [decide_eq_true_eq] at hp
  exact hp.symm

theorem Sound.lastReached_eq (h : t.Sound) (s : Int) : t.lastReached s =
    if t.reached s = 0 then none else t.transitions[t.reached s - 1]? := by
  have hle := h.reached_le s
  rw [lastReached, foldl_reached, Option.or_none, Search.filter_eq_take (h.divides_reached s),
    List.getLast?_take]
  change (if t.reached s = 0 then none else t.transitions.toList[t.reached s - 1]?.or _) = _
  split
  · rfl
  · have hlt : t.reached s - 1 < t.transitions.size := by omega
    rw [Array.getElem?_toList, Array.getElem?_eq_getElem hlt, Option.some_or]

theorem offsetAt_of_reached_zero (h : t.reached s = 0) : t.offsetAt s = t.firstStandardType := by
  rw [offsetAt, h]

theorem offsetAt_of_reached_succ (h : t.reached s = i + 1) : t.offsetAt s = t.typeOf i := by
  rw [offsetAt, h]

/-- The last transition reached leads to the type in effect. -/
theorem Sound.exists_of_reached_succ (h : t.Sound) (hr : t.reached s = i + 1) :
    ∃ tr, t.transitions[i]? = some tr ∧ t.offsetAt s = t.typeAtIndex tr.typeIndex := by
  have hlt : i < t.transitions.size := by
    have := h.reached_le s
    omega
  have hget := Array.getElem?_eq_getElem hlt
  exact ⟨_, hget, (offsetAt_of_reached_succ hr).trans (typeOf_eq hget)⟩

/-- Once a transition is reached and the next one is not, it is the last one reached. -/
theorem Sound.reached_of_between (h : t.Sound) (hi : t.transitions[i]? = some tr)
    (hs : tr.instant ≤ s) (hnext : ∀ next, t.transitions[i + 1]? = some next → s < next.instant) :
    t.reached s = i + 1 := by
  have hlt : i < t.reached s := (h.lt_reached_iff hi).mpr hs
  have hge : t.reached s ≤ i + 1 := by
    apply Nat.le_of_not_lt
    intro hgt
    have hsize := h.reached_le s
    have hget : t.transitions[i + 1]? = some t.transitions[i + 1] :=
      Array.getElem?_eq_getElem (by omega)
    have := (h.lt_reached_iff hget).mp hgt
    have := hnext _ hget
    omega
  exact Nat.le_antisymm hge hlt

/-- Once a transition is reached and the next one is not, the type that it leads to is in effect. -/
theorem Sound.offsetAt_of_between (h : t.Sound) (hi : t.transitions[i]? = some tr)
    (hs : tr.instant ≤ s) (hnext : ∀ next, t.transitions[i + 1]? = some next → s < next.instant) :
    t.types[tr.typeIndex]? = some (t.offsetAt s) := by
  rw [offsetAt_of_reached_succ (h.reached_of_between hi hs hnext), typeOf_eq hi]
  exact getElem?_types (h.typeIndex_lt tr (Array.mem_of_getElem? hi))

/-- Until the first transition is reached, the first standard type is in effect. -/
theorem Sound.offsetAt_of_before (h : t.Sound) (h0 : t.transitions[0]? = some tr)
    (hs : s < tr.instant) : t.types.find? (fun ty => !ty.isDst) = some (t.offsetAt s) := by
  have hz : t.reached s = 0 := by
    apply Nat.eq_zero_of_not_pos
    intro hpos
    have := (h.lt_reached_iff h0).mp hpos
    omega
  rw [offsetAt_of_reached_zero hz]
  exact h.firstStandard

theorem Sound.scannedType?_eq (h : t.Sound) (s : Int) : t.scannedType? s = some (t.offsetAt s) := by
  rw [scannedType?, h.lastReached_eq]
  cases hr : t.reached s with
  | zero =>
    rw [offsetAt_of_reached_zero hr]
    exact h.firstStandard
  | succ i =>
    obtain ⟨tr, hget, hoffset⟩ := h.exists_of_reached_succ hr
    simp only [Nat.add_one_ne_zero, if_false, Nat.add_sub_cancel, hget]
    rw [hoffset]
    exact getElem?_types (h.typeIndex_lt tr (Array.mem_of_getElem? hget))

theorem isDst_of_find? {ty : OffsetType} (h : t.types.find? (fun ty => !ty.isDst) = some ty) :
    ty.isDst = false := by
  simpa using Array.find?_some h

/-- Queries at a second and at a millisecond are answered as by looking at every transition, on both
sides of each transition and before all of them. -/
theorem offsetAt_exact (h : t.Obtained) :
    (∀ s, t.scannedType? s = some (t.offsetAt s)) ∧
    (∀ m, t.offsetAtMillis m = t.offsetAt (m.fdiv 1000)) ∧
    (∀ (i : Nat) (tr : Transition), t.transitions[i]? = some tr →
      t.types[tr.typeIndex]? = some (t.offsetAtMillis (1000 * tr.instant))) ∧
    (∀ tr : Transition, t.transitions[0]? = some tr →
      t.types.find? (fun ty => !ty.isDst) = some (t.offsetAtMillis (1000 * tr.instant - 1))) ∧
    (∀ (i : Nat) (tr next : Transition), t.transitions[i]? = some tr →
      t.transitions[i + 1]? = some next →
      t.types[tr.typeIndex]? = some (t.offsetAtMillis (1000 * next.instant - 1))) ∧
    (∀ tr : Transition, t.transitions[0]? = some tr →
      (∀ s < tr.instant, (t.offsetAt s).isDst = false) ∧
      ∀ m < 1000 * tr.instant, (t.offsetAtMillis m).isDst = false) := by
  have h := h.sound
  have hlt {i : Nat} {tr next : Transition} (hi : t.transitions[i]? = some tr)
      (hn : t.transitions[i + 1]? = some next) : tr.instant < next.instant := by
    obtain ⟨hil, rfl⟩ := Array.getElem?_eq_some_iff.mp hi
    obtain ⟨hnl, rfl⟩ := Array.getElem?_eq_some_iff.mp hn
    exact List.pairwise_iff_getElem.mp h.increasing i (i + 1) hil hnl (by omega)
  refine ⟨h.scannedType?_eq, ?_, ?_, ?_, ?_, ?_⟩
  · intro m
    rw [offsetAtMillis, secondOf, Int.fdiv_eq_ediv_of_nonneg m (by omega)]
  · intro i tr hi
    apply h.offsetAt_of_between hi
    · simp only [secondOf]; omega
    · intro next hn
      have := hlt hi hn
      simp only [secondOf]; omega
  · intro tr h0
    apply h.offsetAt_of_before h0
    simp only [secondOf]; omega
  · intro i tr next hi hn
    have := hlt hi hn
    apply h.offsetAt_of_between hi
    · simp only [secondOf]; omega
    · intro next' hn'
      rw [Option.some.inj (hn.symm.trans hn')]
      simp only [secondOf]; omega
  · intro tr h0
    refine ⟨fun s hs => isDst_of_find? (h.offsetAt_of_before h0 hs), fun m hm => ?_⟩
    apply isDst_of_find? (h.offsetAt_of_before h0 _)
    simp only [secondOf]; omega

/-- Daylight saving time holds from ten seconds before 1970 until five seconds after its start. -/
def aroundEpoch : Table where
  id := "Test/Zone"
  transitions := #[⟨-10, 0⟩, ⟨5, 1⟩]
  types := #[⟨3600, true⟩, ⟨0, false⟩]
  firstStandard := 1

theorem offsetAt_exact_aroundEpoch :
    aroundEpoch.Obtained ∧ some (aroundEpoch.offsetAtMillis (-10001)) = some ⟨0, false⟩ ∧
      some ⟨3600, true⟩ = some (aroundEpoch.offsetAtMillis 4999) := by
  have h : aroundEpoch.Obtained := by
    refine Or.inl ⟨"Test/Zone", Record.magic ++ List.replicate 28 0 ++
      [0, 0, 0, 2, 0, 0, 0, 2, 0, 0, 0, 4, 255, 255, 255, 246, 0, 0, 0, 5, 0, 1,
       0, 0, 14, 16, 1, 0, 0, 0, 0, 0, 0, 0], ?_⟩
    rfl
  obtain ⟨-, -, -, hfirst, hbefore, -⟩ := offsetAt_exact h
  exact ⟨h, (hfirst ⟨-10, 0⟩ rfl).symm, hbefore 0 ⟨-10, 0⟩ ⟨5, 1⟩ rfl rfl⟩

end TimeZones.Table
