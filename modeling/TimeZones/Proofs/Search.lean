import TimeZones.Search

/-! Binary search finds the border between what holds and what fails, and what has a key. -/
namespace TimeZones.Search

variable {α : Type} {p : α → Bool} {xs : Array α} {n lo hi : Nat} {key : α → String} {k : String}

/-- The search closes in on the border at `n` from both sides. -/
theorem boundary_eq {h : hi ≤ xs.size} (hp : ∀ i (_ : i < xs.size), p xs[i] = true ↔ i < n)
    (hlo : lo ≤ n) (hhi : n ≤ hi) : boundary p xs lo hi h = n := by
  fun_induction boundary p xs lo hi h with
  | case1 lo hi h hlt hm hpm ih =>
    have := (hp _ hm).mp hpm
    exact ih (by omega) hhi
  | case2 lo hi h hlt hm hpm ih =>
    have := mt (hp _ hm).mpr hpm
    exact ih hlo (by omega)
  | case3 lo hi h hlt => omega

/-- What holds comes before what fails. -/
def Divides (p : α → Bool) (xs : Array α) : Prop :=
  xs.toList.Pairwise fun x y => p y = true → p x = true

theorem Divides.holds_before (h : Divides p xs) {i j : Nat} (hij : i ≤ j) (hj : j < xs.size)
    (hp : p xs[j] = true) : p xs[i] = true := by
  rcases Nat.lt_or_eq_of_le hij with hlt | rfl
  · exact List.pairwise_iff_getElem.mp h i j (by simp; omega) (by simpa using hj) hlt hp
  · exact hp

/-- The elements that hold are those before the partition point. -/
theorem partitionPoint_spec (h : Divides p xs) :
    partitionPoint p xs ≤ xs.size ∧
      ∀ i (_ : i < xs.size), p xs[i] = true ↔ i < partitionPoint p xs := by
  let n := xs.toList.findIdx fun x => !p x
  have hn : n ≤ xs.size := by
    rw [← Array.length_toList]
    exact List.findIdx_le_length
  have hp : ∀ i (_ : i < xs.size), p xs[i] = true ↔ i < n := by
    intro i hi
    constructor
    · intro hpi
      apply Nat.lt_of_not_le
      intro hni
      have hnx : n < xs.size := by omega
      have hw : n < xs.toList.length := by simpa using hnx
      have hfail : (!p xs[n]) = true := List.findIdx_getElem (w := hw)
      rw [h.holds_before hni hi hpi] at hfail
      simp at hfail
    · intro hin
      simpa using List.not_of_lt_findIdx hin
  have he : partitionPoint p xs = n := boundary_eq hp (Nat.zero_le n) hn
  rw [he]
  exact ⟨hn, hp⟩

theorem filter_eq_take (h : Divides p xs) :
    xs.toList.filter p = xs.toList.take (partitionPoint p xs) := by
  obtain ⟨hle, hp⟩ := partitionPoint_spec h
  have hpre : ∀ x ∈ xs.toList.take (partitionPoint p xs), p x = true := by
    intro x hx
    obtain ⟨i, hi, rfl⟩ := List.mem_iff_getElem.mp hx
    simp only [List.length_take, Array.length_toList] at hi
    rw [List.getElem_take]
    exact (hp i (by omega)).mpr (by omega)
  have hpost : ∀ x ∈ xs.toList.drop (partitionPoint p xs), ¬ p x = true := by
    intro x hx
    obtain ⟨i, hi, rfl⟩ := List.mem_iff_getElem.mp hx
    simp only [List.length_drop, Array.length_toList] at hi
    rw [List.getElem_drop]
    exact mt (hp _ (by omega)).mp (by omega)
  conv => lhs; rw [← List.take_append_drop (partitionPoint p xs) xs.toList]
  rw [List.filter_append, List.filter_eq_self.mpr hpre, List.filter_eq_nil_iff.mpr hpost,
    List.append_nil]

/-- Where keys increase, those below `k` come first. -/
theorem divides_of_increasing (h : xs.toList.Pairwise (key · < key ·)) (k : String) :
    Divides (fun x => key x < k) xs := by
  apply h.imp
  intro x y hxy hy
  simp only [decide_eq_true_eq] at hy ⊢
  exact String.lt_trans hxy hy

/-- Where keys increase, the element with a key is found. -/
theorem byKey_eq_some_iff (h : xs.toList.Pairwise (key · < key ·)) {x : α} :
    byKey key k xs = some x ↔ x ∈ xs ∧ key x = k := by
  obtain ⟨-, hp⟩ := partitionPoint_spec (divides_of_increasing h k)
  rw [byKey, Option.filter_eq_some_iff, decide_eq_true_eq]
  constructor
  · rintro ⟨hx, hk⟩
    exact ⟨Array.mem_of_getElem? hx, hk⟩
  · rintro ⟨hx, hk⟩
    refine ⟨?_, hk⟩
    obtain ⟨i, hi, rfl⟩ := Array.mem_iff_getElem.mp hx
    subst hk
    have hge : ¬ i < partitionPoint (fun x => key x < key xs[i]) xs := by
      intro hlt
      exact String.lt_irrefl _ (of_decide_eq_true ((hp i hi).mpr hlt))
    have hle : i ≤ partitionPoint (fun x => key x < key xs[i]) xs := by
      apply Nat.le_of_not_lt
      intro hlt
      have hlen : xs.toList.length = xs.size := Array.length_toList
      have hbefore := List.pairwise_iff_getElem.mp h _ i (by omega) (by omega) hlt
      exact Nat.lt_irrefl _ ((hp _ (by omega)).mp (decide_eq_true hbefore))
    rw [Nat.le_antisymm (Nat.le_of_not_lt hge) hle, Array.getElem?_eq_getElem hi]

/-- Where keys increase, the search finds what a scan finds. -/
theorem byKey_eq_find? (h : xs.toList.Pairwise (key · < key ·)) :
    byKey key k xs = xs.toList.find? (key · = k) := by
  cases hx : xs.toList.find? (key · = k) with
  | none =>
    rw [List.find?_eq_none] at hx
    refine Option.eq_none_iff_forall_ne_some.mpr fun x hfound => ?_
    obtain ⟨hmem, hk⟩ := (byKey_eq_some_iff h).mp hfound
    exact hx x (Array.mem_toList_iff.mpr hmem) (decide_eq_true hk)
  | some x =>
    have hk : key x = k := by simpa using List.find?_some hx
    exact (byKey_eq_some_iff h).mpr ⟨Array.mem_toList_iff.mp (List.mem_of_find?_eq_some hx), hk⟩

/-- Where at most one element holds, a scan for it finds all. -/
theorem filter_eq_toList_find? {p : α → Bool} {xs : List α}
    (h : xs.Pairwise fun x y => p x = true → p y = false) : xs.filter p = (xs.find? p).toList := by
  induction xs with
  | nil => rfl
  | cons x xs ih =>
    obtain ⟨hx, htail⟩ := List.pairwise_cons.mp h
    by_cases hp : p x = true
    · have hnone : xs.filter p = [] := by
        rw [List.filter_eq_nil_iff]
        intro y hy
        rw [hx y hy hp]
        exact Bool.false_ne_true
      rw [List.filter_cons_of_pos hp, List.find?_cons_of_pos hp, hnone]
      rfl
    · rw [List.filter_cons_of_neg hp, List.find?_cons_of_neg hp, ih htail]

/-- Where keys increase, the element that is found is the only one with its key. -/
theorem filter_eq_toList_byKey (h : xs.toList.Pairwise (key · < key ·)) :
    xs.toList.filter (key · = k) = (byKey key k xs).toList := by
  rw [byKey_eq_find? h]
  refine filter_eq_toList_find? (h.imp ?_)
  intro x y hxy hx
  simp only [decide_eq_true_eq, decide_eq_false_iff_not] at hx ⊢
  rintro rfl
  exact String.lt_irrefl _ (hx ▸ hxy)

end TimeZones.Search
