import TimeZones.Proofs.Calendar
import TimeZones.Proofs.SameRules

/-! Offsets at civil times. A civil time is answered if all its parts are in range, and then for the
instant that the calendar gives. Otherwise the first part out of range is reported. -/
namespace TimeZones

namespace Date

/-- So many days after a date comes the other one, or before it if there are less than none. -/
def DaysApart (d : Date) (n : Int) (e : Date) : Prop :=
  match n with
  | .ofNat k => next^[k] d = e
  | .negSucc k => next^[k + 1] e = d

theorem number_iterate_next (d : Date) (n : Nat) : (next^[n] d).number = d.number + n := by
  induction n with
  | zero => simp
  | succ n ih =>
    rw [Function.iterate_succ_apply', number_next, ih, Nat.cast_succ, Int.add_assoc]

theorem iterate_next_eq_iff {d e : Date} {n : Nat} : next^[n] d = e ↔ e.number = d.number + n := by
  rw [← number_iterate_next, eq_comm]
  exact number_injective.eq_iff.symm

/-- Days apart are counted by numbers. -/
theorem daysApart_iff {d e : Date} {n : Int} : d.DaysApart n e ↔ e.number = d.number + n := by
  cases n with
  | ofNat k => exact iterate_next_eq_iff
  | negSucc k =>
    refine iterate_next_eq_iff.trans ?_
    rw [Int.negSucc_eq, Nat.cast_succ]
    omega

theorem daysApart_epoch (d : Date) : epoch.DaysApart d.number d := by
  rw [daysApart_iff]
  exact (Int.zero_add _).symm

end Date

namespace CivilTime

/-- A part of a civil time, and the range that it has to be in. -/
structure Part where
  name : String
  given : Int
  least : Int
  greatest : Int

namespace Part

def InRange (p : Part) : Prop := p.least ≤ p.given ∧ p.given ≤ p.greatest

instance (p : Part) : Decidable p.InRange := inferInstanceAs (Decidable (_ ∧ _))

def message (p : Part) : String :=
  s!"parameter '{p.name}' with value {p.given} is not in the required range of {p.least}..={p.greatest}"

end Part

/-- The parts in order. No day is in range if there is no such month. -/
def parts (t : CivilTime) : List Part :=
  [⟨"year", t.year, -9999, 9999⟩,
    ⟨"month", t.month, 1, 12⟩,
    ⟨"day", t.day, 1, (monthLengths t.year).getD (t.month - 1) 0⟩,
    ⟨"millis_of_day", t.millisOfDay, 0, 86399999⟩]

variable {t : CivilTime}

theorem monthLengths_getD (y : Int) {m : Nat} (hm : 1 ≤ m) (hlast : m ≤ 12) :
    (monthLengths y).getD (m - 1) 0 = daysInMonth y m := by
  have hget : (List.range 12)[m - 1]? = some (m - 1) := List.getElem?_range (by omega)
  rw [monthLengths_eq, List.getD_eq_getElem?_getD, List.getElem?_map, hget, Option.map_some,
    Option.getD_some, Nat.sub_add_cancel hm]

theorem forall_parts_iff : (∀ p ∈ t.parts, p.InRange) ↔
    (-9999 ≤ t.year ∧ t.year ≤ 9999) ∧ (1 ≤ t.month ∧ t.month ≤ 12) ∧
      (1 ≤ t.day ∧ t.day ≤ daysInMonth t.year t.month) ∧
      0 ≤ t.millisOfDay ∧ t.millisOfDay ≤ 86399999 := by
  have hday (hm : 1 ≤ t.month ∧ t.month ≤ 12) := monthLengths_getD t.year hm.1 hm.2
  simp only [parts, List.forall_mem_cons, Part.InRange]
  constructor
  · rintro ⟨hyear, hmonth, hdays, hmillis, -⟩
    rw [hday (by omega)] at hdays
    omega
  · rintro ⟨hyear, hmonth, hdays, hmillis⟩
    rw [hday hmonth]
    refine ⟨hyear, by omega, by omega, hmillis, ?_⟩
    rintro p ⟨⟩

/-- The first part out of range. -/
def firstOut? (ps : List Part) : Option Part := ps.find? fun p => ¬ p.InRange

theorem firstOut?_cons (p : Part) (ps : List Part) :
    firstOut? (p :: ps) = if p.InRange then firstOut? ps else some p := by
  rw [firstOut?, List.find?_cons]
  by_cases h : p.InRange
  · rw [if_pos h]
    simp only [h, not_true_eq_false, decide_false]
    rfl
  · rw [if_neg h]
    simp only [h, not_false_eq_true, decide_true]

theorem firstOut?_eq_none {ps : List Part} : firstOut? ps = none ↔ ∀ p ∈ ps, p.InRange := by
  rw [firstOut?, List.find?_eq_none]
  simp only [decide_eq_true_eq, not_not]

/-- The fault of a civil time is that its first part out of range is so. -/
theorem message_fault? (t : CivilTime) :
    t.fault?.map Fault.message = (firstOut? t.parts).map Part.message := by
  have hyear : ¬ Part.InRange ⟨"year", t.year, -9999, 9999⟩ ↔
      t.year < minYear ∨ maxYear < t.year := by
    simp only [Part.InRange, minYear, maxYear]
    omega
  have hmonth : ¬ Part.InRange ⟨"month", t.month, 1, 12⟩ ↔ t.month < 1 ∨ 12 < t.month := by
    simp only [Part.InRange]
    omega
  have hmillis : ¬ Part.InRange ⟨"millis_of_day", t.millisOfDay, 0, 86399999⟩ ↔
      t.millisOfDay < 0 ∨ millisPerDay ≤ t.millisOfDay := by
    simp only [Part.InRange, millisPerDay]
    omega
  simp only [parts, firstOut?_cons, fault?, ← hyear, ← hmonth, ← hmillis, ite_not]
  by_cases hin : Part.InRange ⟨"month", t.month, 1, 12⟩
  · -- only now the month has a length
    have hlength : (monthLengths t.year).getD (t.month - 1) 0 = daysInMonth t.year t.month := by
      simp only [Part.InRange] at hin
      exact monthLengths_getD t.year (by omega) (by omega)
    have hday : ¬ Part.InRange ⟨"day", t.day, 1, daysInMonth t.year t.month⟩ ↔
        t.day < 1 ∨ daysInMonth t.year t.month < t.day := by
      simp only [Part.InRange]
      omega
    simp only [hlength, ← hday, ite_not]
    split_ifs <;> rfl
  · simp only [if_neg hin]
    split_ifs <;> rfl

/-- The instant of a civil time in milliseconds as it is computed in 64 bits. -/
def millisAt64? (t : CivilTime) (offset : Int32) : Option Int := do
  let days ← daysFromEpoch64? t.year t.month t.day
  let midnight ← fit64? (days * millisPerDay)
  let millis ← fit64? (midnight + t.millisOfDay)
  let seconds ← fit64? (offset.toInt * 1000)
  fit64? (millis - seconds)

/-- A civil time with all parts in range has a date. -/
theorem exists_date (h : ∀ p ∈ t.parts, p.InRange) :
    ∃ d : Date, d.year = t.year ∧ d.month = t.month ∧ d.day = t.day := by
  obtain ⟨-, hmonth, hday, -⟩ := forall_parts_iff.mp h
  exact ⟨⟨t.year, t.month, t.day, hmonth.1, hmonth.2, hday.1, hday.2⟩, rfl, rfl, rfl⟩

/-- If all parts are in range, then all numbers on the way to the instant fit into 64 bits. -/
theorem millisAt64?_eq (h : ∀ p ∈ t.parts, p.InRange) (offset : Int32) :
    t.millisAt64? offset = some (t.millisAt offset) := by
  obtain ⟨hyear, hmonth, hday, hmillis⟩ := forall_parts_iff.mp h
  have hlast := Nat.le_trans hday.2 (daysInMonth_le _ _)
  have hdays : daysFromEpoch64? t.year t.month t.day =
      some (daysFromEpoch t.year t.month t.day) :=
    daysFromEpoch64?_eq (by omega) (by omega) hmonth.2 hlast
  have hbounds : -10000000 ≤ daysFromEpoch t.year t.month t.day ∧
      daysFromEpoch t.year t.month t.day ≤ 10000000 := by
    rw [daysFromEpoch_eq, daysToMarch]
    split
    · omega
    · omega
  have hleast := offset.le_toInt
  have hgreatest := offset.toInt_lt
  rw [millisAt64?, millisAt, hdays]
  generalize daysFromEpoch t.year t.month t.day = days at hbounds
  simp (disch := omega) only [millisPerDay, Option.bind_eq_bind, Option.bind_some, fit64?_bind]
  exact fit64?_eq (by omega) (by omega)

theorem fault?_eq_none : t.fault? = none ↔ ∀ p ∈ t.parts, p.InRange := by
  rw [← firstOut?_eq_none, ← Option.map_eq_none_iff, message_fault?, Option.map_eq_none_iff]

theorem exists_int64_of_millisAt64? {offset : Int32} {m : Int}
    (h : t.millisAt64? offset = some m) : ∃ k : Int64, k.toInt = m := by
  simp only [millisAt64?, Option.bind_eq_bind, Option.bind_eq_some_iff] at h
  obtain ⟨_, -, _, -, _, -, _, -, h⟩ := h
  exact exists_int64_of_fit64? h

end CivilTime

namespace Zone

open CivilTime

variable {z : Zone} {t : CivilTime}

theorem offsetAtCivil_eq_ok {o : Int32} : z.offsetAtCivil t = .ok o ↔
    (∀ p ∈ t.parts, p.InRange) ∧ z.offsetAtMillis (t.millisAt z.rawOffset) = o := by
  rw [offsetAtCivil, ← fault?_eq_none]
  cases t.fault? with
  | none => simp
  | some f => simp

theorem offsetAtCivil_eq_error {f : Fault} :
    z.offsetAtCivil t = .error f ↔ t.fault? = some f := by
  rw [offsetAtCivil]
  cases t.fault? with
  | none => simp
  | some f => simp

/-- However a zone has come about, it answers exactly the civil times that have all parts in range.
Of others the first part out of range is reported, with its range. The answer is that for the
instant that comes as many days after 1970 began as there are to the date, and as many milliseconds
after that as the time of day says, in standard time. All numbers on the way fit into 64 bits. -/
theorem offsetAtCivil_exact (z : Zone) (t : CivilTime) :
    ((∃ o, z.offsetAtCivil t = .ok o) ↔ ∀ p ∈ t.parts, p.InRange) ∧
    (∀ f, z.offsetAtCivil t = .error f →
      ∃ p, firstOut? t.parts = some p ∧ f.message = p.message) ∧
    ∀ o, z.offsetAtCivil t = .ok o →
      ∃ (d : Date) (n m : Int), d.year = t.year ∧ d.month = t.month ∧ d.day = t.day ∧
        Date.epoch.DaysApart n d ∧
        m = 86400000 * n + t.millisOfDay - 1000 * z.rawOffset.toInt ∧
        t.millisAt64? z.rawOffset = some m ∧ o = z.offsetAtMillis m := by
  refine ⟨?_, ?_, ?_⟩
  · constructor
    · rintro ⟨o, ho⟩
      exact (offsetAtCivil_eq_ok.mp ho).1
    · intro hin
      exact ⟨_, offsetAtCivil_eq_ok.mpr ⟨hin, rfl⟩⟩
  · intro f hf
    have hmessage := message_fault? t
    rw [offsetAtCivil_eq_error.mp hf, Option.map_some, eq_comm, Option.map_eq_some_iff] at hmessage
    obtain ⟨p, hp, htext⟩ := hmessage
    exact ⟨p, hp, htext.symm⟩
  · intro o ho
    obtain ⟨hin, rfl⟩ := offsetAtCivil_eq_ok.mp ho
    obtain ⟨d, hyear, hmonth, hday⟩ := exists_date hin
    refine ⟨d, d.number, _, hyear, hmonth, hday, d.daysApart_epoch, ?_, millisAt64?_eq hin _, rfl⟩
    rw [millisAt, millisPerDay, Date.number, hyear, hmonth, hday]
    omega

/-- Forty minutes into 1970, half an hour ahead of UTC, the change at 1000 seconds is still to come.
The year 2023 has no 29 February, whatever the time of day. -/
theorem offsetAtCivil_exact_putForward :
    let z := (ofTable ⟨0, putForward⟩ 0).overrideAll [.rawOffset 1800]
    (∃ o, z.offsetAtCivil ⟨1970, 1, 1, 2400000⟩ = .ok o ∧
      z.offsetAtCivil ⟨1970, 1, 1, 2400000⟩ = .ok (z.offsetAtMillis 600000) ∧ o = 1800) ∧
    ∃ f, z.offsetAtCivil ⟨2023, 2, 29, -1⟩ = .error f ∧ f.message =
      "parameter 'day' with value 29 is not in the required range of 1..=28" := by
  intro z
  constructor
  · obtain ⟨hok, -, hanswer⟩ := offsetAtCivil_exact z ⟨1970, 1, 1, 2400000⟩
    obtain ⟨o, ho⟩ := hok.mpr (by decide +kernel)
    obtain ⟨d, n, m, hyear, hmonth, hday, hdays, hm, -, hom⟩ := hanswer o ho
    obtain rfl : d = Date.epoch := Date.ext hyear hmonth hday
    have hnumber : Date.epoch.number = 0 := by decide
    have hraw : z.rawOffset.toInt = 1800 := by decide
    have hn := Date.daysApart_iff.mp hdays
    have hm' : m = 600000 := by
      rw [hraw] at hm
      rw [hnumber] at hn
      simp only at hm
      omega
    have ho' : o = 1800 := by
      rw [hom, hm']
      decide +kernel
    exact ⟨o, ho, by rw [ho, hom, hm'], ho'⟩
  · obtain ⟨-, herror, -⟩ := offsetAtCivil_exact z ⟨2023, 2, 29, -1⟩
    have hf : z.offsetAtCivil ⟨2023, 2, 29, -1⟩ = .error (.day 29 28) := by decide +kernel
    obtain ⟨p, hp, htext⟩ := herror _ hf
    obtain rfl : ⟨"day", 29, 1, 28⟩ = p := Option.some.inj hp
    exact ⟨_, hf, htext⟩

end Zone

end TimeZones
