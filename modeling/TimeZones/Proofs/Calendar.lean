import Mathlib.Data.Int.SuccPred
import Mathlib.Data.Prod.Lex
import Mathlib.Tactic.IntervalCases
import TimeZones.Civil

/-! The number of a date counts the days of the Gregorian calendar, which has leap years by rule and
months of uneven length. It is computed in 64 bits, and all numbers on the way fit into them. -/
namespace TimeZones

/-- A number, if it fits into 64 bits. -/
def fit64? (n : Int) : Option Int :=
  if Int64.minValue.toInt ≤ n ∧ n ≤ Int64.maxValue.toInt then some n else none

theorem fit64?_eq {n : Int} (hmin : -9223372036854775808 ≤ n) (hmax : n ≤ 9223372036854775807) :
    fit64? n = some n := if_pos ⟨hmin, hmax⟩

theorem exists_int64_of_fit64? {n m : Int} (h : fit64? n = some m) : ∃ k : Int64, k.toInt = m := by
  rw [fit64?] at h
  split at h
  · rename_i hn
    exact ⟨.ofInt n, (Int64.toInt_ofInt_of_le hn.1 (Int.lt_add_one_of_le hn.2)).trans
      (Option.some.inj h)⟩
  · cases h

theorem fit64?_bind {α : Type} {n : Int} (hmin : -9223372036854775808 ≤ n)
    (hmax : n ≤ 9223372036854775807) (f : Int → Option α) : (fit64? n).bind f = f n := by
  rw [fit64?_eq hmin hmax, Option.bind_some]

namespace CivilTime

variable {y : Int} {m d : Nat}

/-- Every fourth year, but of the centuries only every fourth. -/
def Leap (y : Int) : Prop := 4 ∣ y ∧ (100 ∣ y → 400 ∣ y)

instance (y : Int) : Decidable (Leap y) := inferInstanceAs (Decidable (_ ∧ _))

theorem isLeapYear_iff : isLeapYear y = true ↔ Leap y := by
  simp only [isLeapYear, Leap, Bool.and_eq_true, Bool.or_eq_true, decide_eq_true_eq]
  omega

/-- The lengths of the months of a year. -/
def monthLengths (y : Int) : List Nat :=
  [31, if Leap y then 29 else 28, 31, 30, 31, 30, 31, 31, 30, 31, 30, 31]

theorem monthLengths_eq (y : Int) :
    monthLengths y = (List.range 12).map fun i => daysInMonth y (i + 1) := by
  have hfeb : (if Leap y then 29 else 28) = daysInMonth y 2 := by
    simp only [daysInMonth, isLeapYear_iff]
  rw [monthLengths, hfeb]
  rfl

theorem daysInMonth_pos (y : Int) (m : Nat) : 1 ≤ daysInMonth y m := by
  unfold daysInMonth
  split
  · split <;> decide
  all_goals decide

theorem daysInMonth_le (y : Int) (m : Nat) : daysInMonth y m ≤ 31 := by
  unfold daysInMonth
  split
  · split <;> decide
  all_goals decide

/-- Days from 1 March of the year 0 to 1 March of another year. -/
def daysToMarch (y : Int) : Int := 365 * y + y / 4 - y / 100 + y / 400

/-- A leap day comes before 1 March. -/
theorem daysToMarch_eq (y : Int) :
    daysToMarch y = daysToMarch (y - 1) + 365 + if isLeapYear y then 1 else 0 := by
  simp only [daysToMarch, isLeapYear_iff, Leap]
  split
  · omega
  · omega

/-- Years need not be put into cycles. -/
theorem daysFromEpoch_eq (y : Int) (m d : Nat) : daysFromEpoch y m d =
    daysToMarch (if m ≤ 2 then y - 1 else y) + (153 * ((m + 9 : Int) % 12) + 2) / 5 + d -
      719469 := by
  simp only [daysFromEpoch, daysToMarch]
  omega

theorem daysFromEpoch_of_le (y : Int) (d : Nat) (hm : m ≤ 2) : daysFromEpoch y m d =
    daysToMarch (y - 1) + (153 * ((m + 9 : Int) % 12) + 2) / 5 + d - 719469 := by
  rw [daysFromEpoch_eq, if_pos hm]

theorem daysFromEpoch_of_lt (y : Int) (d : Nat) (hm : 2 < m) : daysFromEpoch y m d =
    daysToMarch y + (153 * ((m + 9 : Int) % 12) + 2) / 5 + d - 719469 := by
  rw [daysFromEpoch_eq, if_neg (Nat.not_le_of_lt hm)]

theorem daysFromEpoch_add (y : Int) (m d n : Nat) :
    daysFromEpoch y m (d + n) = daysFromEpoch y m d + n := by
  rw [daysFromEpoch_eq, daysFromEpoch_eq]
  omega

/-- After February, the polynomial in the month adds up the lengths of the months before it. -/
theorem daysFromEpoch_month_of_lt (y : Int) (hm : 2 < m) (hlast : m < 12) :
    daysFromEpoch y (m + 1) 1 = daysFromEpoch y m 1 + daysInMonth y m := by
  rw [daysFromEpoch_of_lt y 1 hm, daysFromEpoch_of_lt y 1 (Nat.lt_succ_of_lt hm)]
  interval_cases m <;> simp only [daysInMonth] <;> omega

theorem daysFromEpoch_month (y : Int) (hm : 1 ≤ m) (hlast : m < 12) :
    daysFromEpoch y (m + 1) 1 = daysFromEpoch y m 1 + daysInMonth y m := by
  obtain rfl | rfl | hlate : m = 1 ∨ m = 2 ∨ 2 < m := by omega
  · have hlength : daysInMonth y 1 = 31 := rfl
    rw [daysFromEpoch_of_le y 1 (by decide), daysFromEpoch_of_le y 1 (by decide), hlength]
    omega
  · -- March belongs to the next year
    rw [daysFromEpoch_of_lt y 1 (by decide), daysFromEpoch_of_le y 1 (by decide), daysToMarch_eq,
      daysInMonth]
    split
    · omega
    · omega
  · exact daysFromEpoch_month_of_lt y hlate hlast

theorem daysFromEpoch_year (y : Int) :
    daysFromEpoch (y + 1) 1 1 = daysFromEpoch y 12 1 + daysInMonth y 12 := by
  have hlength : daysInMonth y 12 = 31 := rfl
  rw [daysFromEpoch_of_le (y + 1) 1 (by decide), daysFromEpoch_of_lt y 1 (by decide), hlength,
    Int.add_sub_cancel]
  omega

/-- Months from January of the year 0 to a month. -/
def monthIndex (y : Int) (m : Nat) : Int := 12 * y + m - 1

theorem monthIndex_ediv (y : Int) (hm : 1 ≤ m) (hlast : m ≤ 12) : monthIndex y m / 12 = y := by
  rw [monthIndex]
  omega

theorem monthIndex_emod (y : Int) (hm : 1 ≤ m) (hlast : m ≤ 12) :
    (monthIndex y m % 12).toNat + 1 = m := by
  rw [monthIndex]
  omega

/-- The number of the first day of a month. -/
def monthStart (k : Int) : Int := daysFromEpoch (k / 12) ((k % 12).toNat + 1) 1

theorem monthStart_monthIndex (y : Int) (hm : 1 ≤ m) (hlast : m ≤ 12) :
    monthStart (monthIndex y m) = daysFromEpoch y m 1 := by
  rw [monthStart, monthIndex_ediv y hm hlast, monthIndex_emod y hm hlast]

theorem monthStart_succ (k : Int) :
    monthStart (k + 1) = monthStart k + daysInMonth (k / 12) ((k % 12).toNat + 1) := by
  rw [monthStart, monthStart]
  by_cases hlast : k % 12 = 11
  · have hyear : (k + 1) / 12 = k / 12 + 1 := by omega
    have hmonth : (k + 1) % 12 = 0 := by omega
    rw [hyear, hmonth, hlast]
    exact daysFromEpoch_year _
  · have hyear : (k + 1) / 12 = k / 12 := by omega
    have hmonth : ((k + 1) % 12).toNat = (k % 12).toNat + 1 := by omega
    rw [hyear, hmonth]
    exact daysFromEpoch_month _ (by omega) (by omega)

theorem monthStart_mono {j k : Int} (h : j ≤ k) : monthStart j ≤ monthStart k := by
  have hmono : StrictMono monthStart := by
    apply strictMono_int_of_lt_succ
    intro k
    have hpos := daysInMonth_pos (k / 12) ((k % 12).toNat + 1)
    rw [monthStart_succ]
    omega
  exact hmono.monotone h

/-- The year counted from March that a month belongs to. -/
def yearFromMarch64? (year : Int) (month : Nat) : Option Int :=
  if month ≤ 2 then fit64? (year - 1) else some year

/-- Days from 1 March to a date in 64 bits, with division towards zero. -/
def dayOfYear64? (month day : Nat) : Option Int := do
  let months ← fit64? (month + 9)
  let monthDays ← fit64? (153 * months.tmod 12)
  let rounded ← fit64? (monthDays + 2)
  let days ← fit64? (rounded.tdiv 5 + day)
  fit64? (days - 1)

/-- Days from the first 1 March of a cycle in 64 bits, with division towards zero. -/
def dayOfCycle64? (yearOfCycle dayOfYear : Int) : Option Int := do
  let yearDays ← fit64? (yearOfCycle * 365)
  let withLeapDays ← fit64? (yearDays + yearOfCycle.tdiv 4)
  let yearStart ← fit64? (withLeapDays - yearOfCycle.tdiv 100)
  fit64? (yearStart + dayOfYear)

/-- The number of a date as it is computed in 64 bits. There is none if a number on the way does not
fit. -/
def daysFromEpoch64? (year : Int) (month day : Nat) : Option Int := do
  let y ← yearFromMarch64? year month
  let cycle := y / 400
  let cycleStart ← fit64? (cycle * 400)
  let yearOfCycle ← fit64? (y - cycleStart)
  let dayOfYear ← dayOfYear64? month day
  let dayOfCycle ← dayOfCycle64? yearOfCycle dayOfYear
  let cycleDays ← fit64? (cycle * 146097)
  let days ← fit64? (cycleDays + dayOfCycle)
  fit64? (days - 719468)

theorem exists_dayOfYear64? (hm : m ≤ 12) (hd : d ≤ 31) :
    ∃ n : Int, dayOfYear64? m d = some n ∧ n = (153 * ((m + 9) % 12) + 2) / 5 + d - 1 ∧
      -1 ≤ n ∧ n ≤ 400 := by
  have hmod : (m + 9 : Int).tmod 12 = (m + 9) % 12 := Int.tmod_eq_emod_of_nonneg (by omega)
  have hdiv : (153 * ((m + 9 : Int) % 12) + 2).tdiv 5 = (153 * ((m + 9) % 12) + 2) / 5 :=
    Int.tdiv_eq_ediv_of_nonneg (by omega)
  refine ⟨_, ?_, rfl, by omega, by omega⟩
  simp (disch := omega) only [dayOfYear64?, Option.bind_eq_bind, fit64?_bind, hmod, hdiv]
  exact fit64?_eq (by omega) (by omega)

theorem exists_dayOfCycle64? {n : Int} (hy : 0 ≤ y) (hlast : y < 400) (hmin : -1 ≤ n)
    (hmax : n ≤ 400) :
    ∃ k : Int, dayOfCycle64? y n = some k ∧ k = y * 365 + y / 4 - y / 100 + n ∧
      -1 ≤ k ∧ k ≤ 146500 := by
  have hleap : y.tdiv 4 = y / 4 := Int.tdiv_eq_ediv_of_nonneg hy
  have hcentury : y.tdiv 100 = y / 100 := Int.tdiv_eq_ediv_of_nonneg hy
  refine ⟨_, ?_, rfl, by omega, by omega⟩
  simp (disch := omega) only [dayOfCycle64?, Option.bind_eq_bind, fit64?_bind, hleap, hcentury]
  exact fit64?_eq (by omega) (by omega)

theorem exists_yearFromMarch64? (hmin : -2147483648 ≤ y) (hmax : y ≤ 2147483647) (m : Nat) :
    ∃ z : Int, yearFromMarch64? y m = some z ∧ z = (if m ≤ 2 then y - 1 else y) ∧
      -2147483649 ≤ z ∧ z ≤ 2147483647 := by
  rw [yearFromMarch64?]
  split
  · exact ⟨y - 1, fit64?_eq (by omega) (by omega), rfl, by omega, by omega⟩
  · exact ⟨y, rfl, rfl, by omega, by omega⟩

/-- In years of 32 bits all numbers on the way fit. -/
theorem daysFromEpoch64?_eq (hmin : -2147483648 ≤ y) (hmax : y ≤ 2147483647) (hm : m ≤ 12)
    (hd : d ≤ 31) : daysFromEpoch64? y m d = some (daysFromEpoch y m d) := by
  obtain ⟨z, hyear, hz, hzmin, hzmax⟩ := exists_yearFromMarch64? hmin hmax m
  obtain ⟨n, hday, hn, hnmin, hnmax⟩ := exists_dayOfYear64? hm hd
  obtain ⟨k, hcycle, hk, hkmin, hkmax⟩ :=
    exists_dayOfCycle64? (y := z - z / 400 * 400) (n := n) (by omega) (by omega) hnmin hnmax
  have hnumber : daysFromEpoch y m d = z / 400 * 146097 + k - 719468 := by
    rw [hk, hn, hz]
    rfl
  simp (disch := omega) only [daysFromEpoch64?, Option.bind_eq_bind, fit64?_bind, hyear, hday,
    hcycle, Option.bind_some]
  rw [hnumber]
  exact fit64?_eq (by omega) (by omega)

end CivilTime

open CivilTime

/-- A date of the Gregorian calendar. -/
@[ext]
structure Date where
  year : Int
  month : Nat
  day : Nat
  month_pos : 1 ≤ month
  month_le : month ≤ 12
  day_pos : 1 ≤ day
  day_le : day ≤ daysInMonth year month

namespace Date

variable {d e : Date}

/-- The date that follows: the next day, the first of the next month, or the first of the year. -/
def next (d : Date) : Date :=
  if hday : d.day < daysInMonth d.year d.month then
    { d with
      day := d.day + 1
      day_pos := Nat.le_add_left 1 d.day
      day_le := hday }
  else if hmonth : d.month < 12 then
    { year := d.year
      month := d.month + 1
      day := 1
      month_pos := Nat.le_add_left 1 d.month
      month_le := hmonth
      day_pos := Nat.le_refl 1
      day_le := daysInMonth_pos _ _ }
  else
    { year := d.year + 1
      month := 1
      day := 1
      month_pos := Nat.le_refl 1
      month_le := by decide
      day_pos := Nat.le_refl 1
      day_le := daysInMonth_pos _ _ }

def number (d : Date) : Int := daysFromEpoch d.year d.month d.day

/-- Days are counted from here. -/
def epoch : Date := ⟨1970, 1, 1, by decide, by decide, by decide, by decide⟩

/-- Dates are in order of their years, months and days. -/
def key (d : Date) : Int ×ₗ Nat ×ₗ Nat := toLex (d.year, toLex (d.month, d.day))

theorem key_injective : Function.Injective key := by
  intro d e h
  simp only [key, EmbeddingLike.apply_eq_iff_eq, Prod.mk.injEq] at h
  exact Date.ext h.1 h.2.1 h.2.2

instance : LinearOrder Date := .lift' key key_injective

theorem lt_iff : d < e ↔ d.year < e.year ∨
    d.year = e.year ∧ (d.month < e.month ∨ d.month = e.month ∧ d.day < e.day) := by
  change d.key < e.key ↔ _
  simp only [key, Prod.Lex.lt_iff, ofLex_toLex]

/-- The date that follows has the next number. -/
theorem number_next (d : Date) : d.next.number = d.number + 1 := by
  rw [next]
  split
  · exact daysFromEpoch_add d.year d.month d.day 1
  · rename_i hday
    have hlast : d.day = daysInMonth d.year d.month := Nat.le_antisymm d.day_le (Nat.not_lt.mp hday)
    have hnumber : d.number + 1 =
        daysFromEpoch d.year d.month 1 + daysInMonth d.year d.month := by
      have hadd := daysFromEpoch_add d.year d.month 1 d.day
      rw [Nat.add_comm, daysFromEpoch_add] at hadd
      rw [← hlast]
      exact hadd
    split
    · rename_i hmonth
      exact (daysFromEpoch_month d.year d.month_pos hmonth).trans hnumber.symm
    · rename_i hmonth
      have hdecember : d.month = 12 := Nat.le_antisymm d.month_le (Nat.not_lt.mp hmonth)
      rw [hdecember] at hnumber
      exact (daysFromEpoch_year d.year).trans hnumber.symm

theorem number_eq (d : Date) :
    d.number = monthStart (monthIndex d.year d.month) + (d.day - 1 : Int) := by
  have hadd := daysFromEpoch_add d.year d.month 1 (d.day - 1)
  rw [Nat.add_sub_cancel' d.day_pos] at hadd
  rw [monthStart_monthIndex d.year d.month_pos d.month_le, number, hadd, Nat.cast_sub d.day_pos,
    Nat.cast_one]

theorem number_lt_monthStart (d : Date) :
    d.number < monthStart (monthIndex d.year d.month + 1) := by
  rw [monthStart_succ, monthIndex_ediv d.year d.month_pos d.month_le,
    monthIndex_emod d.year d.month_pos d.month_le, number_eq]
  have := d.day_le
  omega

/-- Earlier dates are in an earlier month, or earlier in the same month. -/
theorem monthIndex_of_lt (h : d < e) :
    monthIndex d.year d.month + 1 ≤ monthIndex e.year e.month ∨
      monthIndex d.year d.month = monthIndex e.year e.month ∧ d.day < e.day := by
  have hd := d.month_le
  have he := e.month_pos
  rw [lt_iff] at h
  simp only [monthIndex]
  omega

/-- Later dates have greater numbers. -/
theorem number_lt (h : d < e) : d.number < e.number := by
  rcases monthIndex_of_lt h with hbefore | ⟨hsame, hdays⟩
  · calc d.number
      _ < monthStart (monthIndex d.year d.month + 1) := d.number_lt_monthStart
      _ ≤ monthStart (monthIndex e.year e.month) := monthStart_mono hbefore
      _ ≤ e.number := by
        have := e.day_pos
        rw [number_eq e]
        omega
  · rw [number_eq, number_eq, hsame]
    omega

theorem number_lt_iff : d.number < e.number ↔ d < e := by
  have hmono : StrictMono number := fun _ _ => number_lt
  exact hmono.lt_iff_lt

theorem number_injective : Function.Injective number := by
  have hmono : StrictMono number := fun _ _ => number_lt
  exact hmono.injective

/-- No date lies between a date and the one that follows. -/
theorem next_le_iff : d.next ≤ e ↔ d < e := by
  rw [← not_lt, ← number_lt_iff, ← number_lt_iff, number_next]
  omega

/-- Months have the lengths that the calendar gives them. The number of 1 January 1970 is 0, and each
date has the number after that of the date before it. So the numbers are in the order of the dates,
and no two dates have the same one. In years of 32 bits they are computed without leaving 64 bits. -/
theorem number_exact :
    (∀ y, monthLengths y = (List.range 12).map fun i => daysInMonth y (i + 1)) ∧
    daysFromEpoch 1970 1 1 = 0 ∧
    (∀ d : Date, d.next.number = d.number + 1 ∧ ∀ e, d.next ≤ e ↔ d < e) ∧
    (∀ d e : Date, d < e ↔ d.number < e.number) ∧
    Function.Injective number ∧
    ∀ (year : Int32) (d : Date), d.year = year.toInt →
      daysFromEpoch64? d.year d.month d.day = some d.number := by
  refine ⟨monthLengths_eq, by decide, fun d => ⟨number_next d, fun e => next_le_iff⟩,
    fun d e => number_lt_iff.symm, number_injective, ?_⟩
  intro year d hyear
  rw [hyear, number, hyear]
  exact daysFromEpoch64?_eq year.le_toInt (Int.le_of_lt_add_one year.toInt_lt) d.month_le
    (Nat.le_trans d.day_le (daysInMonth_le _ _))

/-- The last day of the last year of 32 bits. -/
def last32 : Date := ⟨2147483647, 12, 31, by decide, by decide, by decide, by decide⟩

theorem number_exact_last32 :
    last32.next.year = 2147483648 ∧ last32 < last32.next ∧
      daysFromEpoch64? 2147483647 12 31 = some 784351576776 ∧
      last32.next.number = 784351576777 := by
  obtain ⟨-, -, hnext, hlt, -, hfits⟩ := number_exact
  have hnumber : last32.number = 784351576776 := by decide
  have hsucc : last32.next.number = 784351576777 := by rw [(hnext last32).1, hnumber]; rfl
  refine ⟨by decide, ?_, ?_, hsucc⟩
  · rw [hlt, hnumber, hsucc]
    decide
  · rw [← hnumber]
    exact hfits Int32.maxValue last32 rfl

end Date
end TimeZones
