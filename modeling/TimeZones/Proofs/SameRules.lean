import TimeZones.Proofs.PointQueries
import TimeZones.Zone.Basic

/-! Zones with the same rules. The comparison is about the transitions and types of the tables,
which decide what a table says of an instant, and about the raw offsets of the zones. How far
overrides have moved the offsets of a zone is not part of it. -/
namespace TimeZones

/-- Numbers that an offset can take. -/
def InRange (n : Int) : Prop := Int32.minValue.toInt ≤ n ∧ n ≤ Int32.maxValue.toInt

instance (n : Int) : Decidable (InRange n) := inferInstanceAs (Decidable (_ ∧ _))

theorem toInt_satAdd {a b : Int32} (h : InRange (a.toInt + b.toInt)) :
    (satAdd a b).toInt = a.toInt + b.toInt :=
  Int32.toInt_ofIntClamp h.1 h.2

theorem toInt_satSub {a b : Int32} (h : InRange (a.toInt - b.toInt)) :
    (satSub a b).toInt = a.toInt - b.toInt :=
  Int32.toInt_ofIntClamp h.1 h.2

namespace Table

variable {t u : Table} {s m : Int}

theorem hasSameRules_iff :
    t.hasSameRules u = true ↔ t.transitions = u.transitions ∧ t.types = u.types := by
  rw [hasSameRules, Bool.and_eq_true, decide_eq_true_iff, decide_eq_true_iff]

/-- The first standard type is not compared, but it is the first of the types that are. -/
theorem Sound.firstStandardType_eq (ht : t.Sound) (hu : u.Sound) (h : t.types = u.types) :
    t.firstStandardType = u.firstStandardType := by
  have hfirst := ht.firstStandard
  rw [h, hu.firstStandard] at hfirst
  exact (Option.some.inj hfirst).symm

theorem Sound.typeOf_congr (ht : t.Sound) (hu : u.Sound) (h : t.hasSameRules u = true) (i : Nat) :
    t.typeOf i = u.typeOf i := by
  obtain ⟨htr, hty⟩ := hasSameRules_iff.mp h
  rw [typeOf, typeOf, ht.firstStandardType_eq hu hty, htr]
  cases u.transitions[i]? with
  | none => rfl
  | some tr => simp only [typeAtIndex, hty]

theorem Sound.standardOffsetBefore_congr (ht : t.Sound) (hu : u.Sound)
    (h : t.hasSameRules u = true) (i : Nat) :
    t.standardOffsetBefore i = u.standardOffsetBefore i := by
  induction i with
  | zero =>
    rw [standardOffsetBefore, standardOffsetBefore,
      ht.firstStandardType_eq hu (hasSameRules_iff.mp h).2]
  | succ i ih => rw [standardOffsetBefore, standardOffsetBefore, ht.typeOf_congr hu h, ih]

theorem reached_congr (h : t.hasSameRules u = true) (s : Int) : t.reached s = u.reached s := by
  rw [reached, reached, (hasSameRules_iff.mp h).1]

theorem Sound.offsetAt_congr (ht : t.Sound) (hu : u.Sound) (h : t.hasSameRules u = true)
    (s : Int) : t.offsetAt s = u.offsetAt s := by
  rw [offsetAt, offsetAt, reached_congr h]
  cases u.reached s with
  | zero => exact ht.firstStandardType_eq hu (hasSameRules_iff.mp h).2
  | succ i => exact ht.typeOf_congr hu h i

theorem Sound.offsetAtMillis_congr (ht : t.Sound) (hu : u.Sound) (h : t.hasSameRules u = true)
    (m : Int) : t.offsetAtMillis m = u.offsetAtMillis m :=
  ht.offsetAt_congr hu h (secondOf m)

theorem Sound.inDaylightTime_congr (ht : t.Sound) (hu : u.Sound) (h : t.hasSameRules u = true)
    (m : Int) : t.inDaylightTime m = u.inDaylightTime m := by
  rw [inDaylightTime, inDaylightTime, ht.offsetAtMillis_congr hu h]

theorem Sound.offsetsAtMillis_congr (ht : t.Sound) (hu : u.Sound) (h : t.hasSameRules u = true)
    (m : Int) : t.offsetsAtMillis m = u.offsetsAtMillis m := by
  rw [offsetsAtMillis, offsetsAtMillis, reached_congr h]
  cases u.reached (secondOf m) with
  | zero =>
    simp only [ht.firstStandardType_eq hu (hasSameRules_iff.mp h).2]
  | succ i =>
    simp only [ht.typeOf_congr hu h, ht.standardOffsetBefore_congr hu h]

end Table

namespace Zone

/-- A call that makes another zone of a zone. -/
inductive Override where
  | rawOffset (seconds : Int32)
  | id (id : String)

def override (z : Zone) : Override → Zone
  | .rawOffset seconds => z.withRawOffset seconds
  | .id id => z.withId id

/-- The zone that overrides lead to, one after another. -/
def overrideAll (z : Zone) (os : List Override) : Zone := os.foldl override z

/-- No override of the raw offset is so far from the offset before it, or from that of `origin`,
that the difference is cut off at the end of the range. -/
def Exact (origin : Zone) : Zone → List Override → Prop
  | _, [] => True
  | z, .rawOffset seconds :: os =>
    InRange (seconds.toInt - z.rawOffset.toInt) ∧
      InRange (seconds.toInt - origin.rawOffset.toInt) ∧ Exact origin (z.withRawOffset seconds) os
  | z, .id id :: os => Exact origin (z.withId id) os

instance decidableExact (origin : Zone) : (z : Zone) → (os : List Override) →
    Decidable (Exact origin z os)
  | _, [] => isTrue trivial
  | z, .rawOffset seconds :: os =>
    have := decidableExact origin (z.withRawOffset seconds) os
    inferInstanceAs (Decidable (_ ∧ _ ∧ _))
  | z, .id id :: os => decidableExact origin (z.withId id) os

variable {z origin : Zone} {os : List Override}

theorem table_overrideAll (z : Zone) (os : List Override) : (z.overrideAll os).table = z.table := by
  induction os generalizing z with
  | nil => rfl
  | cons o os ih =>
    refine (ih (z.override o)).trans ?_
    cases o with
    | rawOffset seconds => rfl
    | id id => rfl

/-- Without cuts the offsets have moved as far as the raw offset has. -/
theorem rawShift_overrideAll
    (hz : z.rawShift.toInt = z.rawOffset.toInt - origin.rawOffset.toInt) (h : Exact origin z os) :
    (z.overrideAll os).rawShift.toInt =
      (z.overrideAll os).rawOffset.toInt - origin.rawOffset.toInt := by
  induction os generalizing z with
  | nil => exact hz
  | cons o os ih =>
    cases o with
    | rawOffset seconds =>
      obtain ⟨hstep, htotal, hrest⟩ := h
      refine ih (z := z.withRawOffset seconds) ?_ hrest
      have hsub := toInt_satSub hstep
      have hsum : z.rawShift.toInt + (satSub seconds z.rawOffset).toInt =
          seconds.toInt - origin.rawOffset.toInt := by
        rw [hsub, hz]
        omega
      have hadd : (satAdd z.rawShift (satSub seconds z.rawOffset)).toInt =
          z.rawShift.toInt + (satSub seconds z.rawOffset).toInt :=
        toInt_satAdd (by rw [hsum]; exact htotal)
      exact hadd.trans hsum
    | id id => exact ih (z := z.withId id) hz h

theorem rawShift_of_exact {t : Shared Table} {now : Int}
    (h : Exact (ofTable t now) (ofTable t now) os) :
    ((ofTable t now).overrideAll os).rawShift.toInt =
      ((ofTable t now).overrideAll os).rawOffset.toInt - (ofTable t now).rawOffset.toInt :=
  rawShift_overrideAll (by simp [ofTable]) h

variable {t u : Shared Table} {now now' : Int} {ps : List Override}

/-- The same raw offset at first and in the end means the same shift in between. -/
theorem rawShift_eq_of_exact (ho : Exact (ofTable t now) (ofTable t now) os)
    (hp : Exact (ofTable u now') (ofTable u now') ps)
    (hfirst : (ofTable t now).rawOffset = (ofTable u now').rawOffset)
    (hlast : ((ofTable t now).overrideAll os).rawOffset =
      ((ofTable u now').overrideAll ps).rawOffset) :
    ((ofTable t now).overrideAll os).rawShift = ((ofTable u now').overrideAll ps).rawShift := by
  have hos := rawShift_of_exact ho
  have hps := rawShift_of_exact hp
  rw [hfirst, hlast] at hos
  exact Int32.toInt_inj.mp (hos.trans hps.symm)

/-- Zones with the same rules are in daylight saving time at the same instants, which then adds the
same to their offsets. Their offsets agree as well if both have been moved alike. So they have if
the raw offsets agree before all overrides and no override has been cut off. -/
theorem agree_of_hasSameRules (ht : t.value.Obtained) (hu : u.value.Obtained) (now now' : Int)
    (os ps : List Override) :
    let a := (ofTable t now).overrideAll os
    let b := (ofTable u now').overrideAll ps
    a.hasSameRules b = true → ∀ m,
      a.inDaylightTime m = b.inDaylightTime m ∧
      (a.offsetsAtMillis m).dst = (b.offsetsAtMillis m).dst ∧
      ((a.rawShift = b.rawShift ∨
          (ofTable t now).rawOffset = (ofTable u now').rawOffset ∧
            Exact (ofTable t now) (ofTable t now) os ∧
            Exact (ofTable u now') (ofTable u now') ps) →
        a.offsetAtMillis m = b.offsetAtMillis m ∧ a.offsetsAtMillis m = b.offsetsAtMillis m) := by
  intro a b h m
  have ha : a.table = t := table_overrideAll (ofTable t now) os
  have hb : b.table = u := table_overrideAll (ofTable u now') ps
  obtain ⟨⟨hraw, -⟩, hrules⟩ : (a.rawOffset = b.rawOffset ∧ a.usesDst = b.usesDst) ∧
      t.value.hasSameRules u.value = true := by
    simpa [hasSameRules, ha, hb] using h
  have htype := ht.sound.offsetAtMillis_congr hu.sound hrules m
  have hsplit := ht.sound.offsetsAtMillis_congr hu.sound hrules m
  refine ⟨?_, ?_, ?_⟩
  · rw [inDaylightTime, inDaylightTime, Table.inDaylightTime, Table.inDaylightTime, ha, hb, htype]
  · rw [offsetsAtMillis, offsetsAtMillis, Offsets.shift, Offsets.shift, ha, hb, hsplit]
  · intro hshift
    have hshift : a.rawShift = b.rawShift := by
      rcases hshift with hshift | ⟨hfirst, ho, hp⟩
      · exact hshift
      · exact rawShift_eq_of_exact ho hp hfirst hraw
    constructor
    · rw [offsetAtMillis, offsetAtMillis, ha, hb, htype, hshift]
    · rw [offsetsAtMillis, offsetsAtMillis, ha, hb, hsplit, hshift]

/-- Standard time is put forward by one hour 1000 seconds after 1970 began. -/
def putForward : Table where
  id := "Test/Zone"
  transitions := #[⟨-1000, 0⟩, ⟨1000, 1⟩]
  types := #[⟨0, false⟩, ⟨3600, false⟩]
  firstStandard := 0

theorem putForward_obtained : putForward.Obtained := by
  refine Or.inl ⟨"Test/Zone", Record.magic ++ List.replicate 28 0 ++
    [0, 0, 0, 2, 0, 0, 0, 2, 0, 0, 0, 4, 255, 255, 252, 24, 0, 0, 3, 232, 0, 1,
     0, 0, 0, 0, 0, 0, 0, 0, 14, 16, 0, 0], ?_⟩
  rfl

theorem agree_of_hasSameRules_putForward :
    let t : Shared Table := ⟨0, putForward⟩
    let a := (ofTable t 0).overrideAll [.rawOffset 60, .id "Test/Other"]
    let b := (ofTable t 0).overrideAll [.rawOffset 7200, .rawOffset 60]
    t.value.Obtained ∧ a.hasSameRules b = true ∧
      a.offsetAtMillis 1000000 = 3660 ∧ b.offsetAtMillis 1000000 = 3660 := by
  intro t a b
  have hsame : a.hasSameRules b = true := by decide +kernel
  have hexact : Exact (ofTable t 0) (ofTable t 0) [.rawOffset 60, .id "Test/Other"] ∧
      Exact (ofTable t 0) (ofTable t 0) [.rawOffset 7200, .rawOffset 60] := by decide +kernel
  have ha : a.offsetAtMillis 1000000 = 3660 := by decide +kernel
  obtain ⟨-, -, hagree⟩ := agree_of_hasSameRules putForward_obtained putForward_obtained 0 0
    [.rawOffset 60, .id "Test/Other"] [.rawOffset 7200, .rawOffset 60] hsame 1000000
  exact ⟨putForward_obtained, hsame, ha, (hagree (Or.inr ⟨rfl, hexact⟩)).1 ▸ ha⟩

/-- The comparison alone does not make offsets agree: a zone that is summarised after the change and
put back to the raw offset before it is an hour behind. -/
theorem not_agree_of_hasSameRules :
    ¬ ∀ (t u : Shared Table) (now now' : Int) (os ps : List Override),
      t.value.Obtained → u.value.Obtained →
      ((ofTable t now).overrideAll os).hasSameRules ((ofTable u now').overrideAll ps) = true →
      ∀ m,
        ((ofTable t now).overrideAll os).offsetAtMillis m =
          ((ofTable u now').overrideAll ps).offsetAtMillis m ∧
        ((ofTable t now).overrideAll os).offsetsAtMillis m =
          ((ofTable u now').overrideAll ps).offsetsAtMillis m ∧
        ((ofTable t now).overrideAll os).inDaylightTime m =
          ((ofTable u now').overrideAll ps).inDaylightTime m := by
  intro h
  have hsame : ((ofTable ⟨0, putForward⟩ 0).overrideAll []).hasSameRules
      ((ofTable ⟨0, putForward⟩ 2000000).overrideAll [.rawOffset 0]) = true := by decide +kernel
  have hoffset := (h ⟨0, putForward⟩ ⟨0, putForward⟩ 0 2000000 [] [.rawOffset 0]
    putForward_obtained putForward_obtained hsame 0).1
  have hfirst : ((ofTable ⟨0, putForward⟩ 0).overrideAll []).offsetAtMillis 0 = 0 := by
    decide +kernel
  have hsecond : ((ofTable ⟨0, putForward⟩ 2000000).overrideAll [.rawOffset 0]).offsetAtMillis 0 =
      -3600 := by decide +kernel
  rw [hfirst, hsecond] at hoffset
  exact absurd hoffset (by decide)

end Zone

end TimeZones
