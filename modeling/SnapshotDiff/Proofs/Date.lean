import Mathlib.Data.Nat.Init
import SnapshotDiff.Date

/-!
# The numbers of days

The days are numbered without gaps: the day after a day has the next number, over the ends of
months and of years, and two days have one number only if they are one day.

## Main definitions

* `Date.yearStart`, `Date.yearLength` — the number of the first day of a year and how many it has.

## Main results

* `Date.dayNumber_next`, `Date.dayNumber_previous` — neighbouring days have neighbouring numbers.
* `Date.dayNumber_inj` — **different days have different numbers.**
-/

namespace SnapshotDiff

namespace Date

variable {d e : Date} {year : Int} {month : Nat}

theorem isLeap_iff : isLeap year ↔ year % 4 = 0 ∧ (year % 100 ≠ 0 ∨ year % 400 = 0) := by
  simp [isLeap]

theorem isValid_iff : d.isValid ↔ 1 ≤ d.month ∧ d.month ≤ 12 ∧ 1 ≤ d.day
    ∧ d.day ≤ monthLength d.year d.month := by
  simp [isValid, and_assoc]

theorem isValid_mk {day : Nat} : (Date.mk year month day).isValid
    ↔ 1 ≤ month ∧ month ≤ 12 ∧ 1 ≤ day ∧ day ≤ monthLength year month := isValid_iff

theorem le_monthLength (year : Int) (month : Nat) : 28 ≤ monthLength year month := by
  unfold monthLength
  repeat' split
  all_goals decide

theorem monthLength_le (year : Int) (month : Nat) : monthLength year month ≤ 31 := by
  unfold monthLength
  repeat' split
  all_goals decide

/-! ### Years -/

/-- The number of the first day of a year. -/
def yearStart (year : Int) : Int :=
  365 * (year - 1) + (year - 1) / 4 - (year - 1) / 100 + (year - 1) / 400

/-- The number of days of a year. -/
def yearLength (year : Int) : Nat := if isLeap year then 366 else 365

theorem yearStart_succ (year : Int) : yearStart (year + 1) = yearStart year + yearLength year := by
  unfold yearStart yearLength
  by_cases hleap : isLeap year
  · rw [if_pos hleap]
    rw [isLeap_iff] at hleap
    omega
  · rw [if_neg hleap]
    rw [isLeap_iff] at hleap
    omega

/-- Years begin one after the other. -/
theorem yearStart_le {y z : Int} (h : y ≤ z) : yearStart y ≤ yearStart z := by
  unfold yearStart
  omega

/-! ### Days of a year -/

theorem daysBeforeMonth_succ (year : Int) (h : 1 ≤ month) :
    daysBeforeMonth year (month + 1) = daysBeforeMonth year month + monthLength year month := by
  obtain ⟨month, rfl⟩ := Nat.exists_eq_add_of_le' h
  rw [daysBeforeMonth]
  exact Nat.succ_ne_zero month

/-- The months fill the year. -/
theorem daysBeforeMonth_last (year : Int) : daysBeforeMonth year 12 + 31 = yearLength year := by
  unfold yearLength
  by_cases hleap : isLeap year <;> simp [daysBeforeMonth, monthLength, hleap]

/-- A later month begins after all the days of an earlier one. -/
theorem daysBeforeMonth_add_le (year : Int) {m n : Nat} (hm : 1 ≤ m) (h : m < n) :
    daysBeforeMonth year m + monthLength year m ≤ daysBeforeMonth year n := by
  induction n, h using Nat.le_induction with
  | base => exact Nat.le_of_eq (daysBeforeMonth_succ year hm).symm
  | succ n hn ih =>
    rw [daysBeforeMonth_succ year (Nat.le_trans hm (Nat.le_of_lt hn))]
    omega

/-- The number of a day, from that of the first day of its year. -/
theorem dayNumber_eq (d : Date) :
    d.dayNumber + 1 = yearStart d.year + (daysBeforeMonth d.year d.month + d.day : Nat) := by
  simp only [dayNumber, yearStart]
  omega

/-- A day is one of the days of its year. -/
theorem ordinal_le (hd : d.isValid) :
    daysBeforeMonth d.year d.month + d.day ≤ yearLength d.year := by
  obtain ⟨hmonth, hlast, -, hday⟩ := isValid_iff.mp hd
  rw [← daysBeforeMonth_last]
  rcases Nat.lt_or_eq_of_le hlast with hlt | heq
  · have hle := daysBeforeMonth_add_le d.year hmonth hlt
    omega
  · rw [heq] at hday ⊢
    have hlength : monthLength d.year 12 = 31 := by simp [monthLength]
    omega

/-! ### Neighbouring days -/

theorem isValid_next (hd : d.isValid) : d.next.isValid := by
  obtain ⟨hmonth, hlast, hday, -⟩ := isValid_iff.mp hd
  unfold next
  split
  · exact isValid_mk.mpr (by omega)
  · split
    · have hle := le_monthLength d.year (d.month + 1)
      exact isValid_mk.mpr (by omega)
    · have hle := le_monthLength (d.year + 1) 1
      exact isValid_mk.mpr (by omega)

theorem isValid_previous (hd : d.isValid) : d.previous.isValid := by
  obtain ⟨hmonth, hlast, hday, hlength⟩ := isValid_iff.mp hd
  unfold previous
  split
  · exact isValid_mk.mpr (by omega)
  · split
    · have hle := le_monthLength d.year (d.month - 1)
      exact isValid_mk.mpr (by omega)
    · exact isValid_mk.mpr (by simp [monthLength])

/-- The day after has the next number, also where a month or a year ends. -/
theorem dayNumber_next (hd : d.isValid) : d.next.dayNumber = d.dayNumber + 1 := by
  obtain ⟨hmonth, hlast, hday, hlength⟩ := isValid_iff.mp hd
  have hnumber := dayNumber_eq d
  have hnext := dayNumber_eq d.next
  unfold next at hnext ⊢
  split at hnext
  · next hlt =>
    rw [if_pos hlt]
    dsimp only at hnext
    omega
  · next hge =>
    rw [if_neg hge]
    split at hnext
    · next hlt =>
      rw [if_pos hlt]
      dsimp only at hnext
      rw [daysBeforeMonth_succ d.year hmonth] at hnext
      omega
    · next hge' =>
      rw [if_neg hge']
      have hyear := yearStart_succ d.year
      have hfilled := daysBeforeMonth_last d.year
      have htwelve : d.month = 12 := by omega
      rw [htwelve] at hnumber hge hlength
      have hlength' : monthLength d.year 12 = 31 := by simp [monthLength]
      have hfirst : daysBeforeMonth (d.year + 1) 1 = 0 := rfl
      dsimp only at hnext
      omega

/-- No day is left out where February has no 29th. -/
example : (Date.mk 1900 2 28).next = ⟨1900, 3, 1⟩
    ∧ (Date.mk 1900 3 1).dayNumber = (Date.mk 1900 2 28).dayNumber + 1 := by decide

/-- The day before is the one that this day comes after. -/
theorem next_previous (hd : d.isValid) : d.previous.next = d := by
  obtain ⟨year, month, day⟩ := d
  obtain ⟨hmonth, hlast, hday, hlength⟩ := isValid_mk.mp hd
  unfold previous
  dsimp only
  split
  · rw [next, if_pos (by dsimp only; omega)]
    exact congrArg (Date.mk year month) (Nat.sub_add_cancel hday)
  · next hfirst =>
    obtain rfl : day = 1 := by omega
    split
    · rw [next, if_neg (Nat.lt_irrefl _), if_pos (by dsimp only; omega)]
      exact congrArg (Date.mk year · 1) (Nat.sub_add_cancel hmonth)
    · obtain rfl : month = 1 := by omega
      rw [next, if_neg (by simp [monthLength]), if_neg (Nat.lt_irrefl _)]
      exact congrArg (Date.mk · 1 1) (Int.sub_add_cancel year 1)

theorem dayNumber_previous (hd : d.isValid) : d.previous.dayNumber = d.dayNumber - 1 := by
  have hnext := dayNumber_next (isValid_previous hd)
  rw [next_previous hd] at hnext
  omega

/-! ### One number, one day -/

theorem dayNumber_lt_of_year_lt (hd : d.isValid) (he : e.isValid) (h : d.year < e.year) :
    d.dayNumber < e.dayNumber := by
  have hyear := yearStart_le (Int.add_one_le_iff.mpr h)
  rw [yearStart_succ] at hyear
  have hordinal := ordinal_le hd
  have hday := (isValid_iff.mp he).2.2.1
  have hdnumber := dayNumber_eq d
  have henumber := dayNumber_eq e
  omega

theorem dayNumber_lt_of_month_lt (hd : d.isValid) (he : e.isValid) (hyear : d.year = e.year)
    (h : d.month < e.month) : d.dayNumber < e.dayNumber := by
  obtain ⟨hmonth, -, -, hlength⟩ := isValid_iff.mp hd
  have hle := daysBeforeMonth_add_le d.year hmonth h
  have hday := (isValid_iff.mp he).2.2.1
  have hdnumber := dayNumber_eq d
  have henumber := dayNumber_eq e
  rw [← hyear] at henumber
  omega

/-- **Different days have different numbers.** -/
theorem dayNumber_inj (hd : d.isValid) (he : e.isValid) (h : d.dayNumber = e.dayNumber) :
    d = e := by
  have hyear : d.year = e.year := by
    rcases Int.lt_trichotomy d.year e.year with hlt | heq | hgt
    · exact absurd h (Int.ne_of_lt (dayNumber_lt_of_year_lt hd he hlt))
    · exact heq
    · exact absurd h (Int.ne_of_gt (dayNumber_lt_of_year_lt he hd hgt))
  have hmonth : d.month = e.month := by
    rcases Nat.lt_trichotomy d.month e.month with hlt | heq | hgt
    · exact absurd h (Int.ne_of_lt (dayNumber_lt_of_month_lt hd he hyear hlt))
    · exact heq
    · exact absurd h (Int.ne_of_gt (dayNumber_lt_of_month_lt he hd hyear.symm hgt))
  have hdnumber := dayNumber_eq d
  have henumber := dayNumber_eq e
  rw [hyear, hmonth] at hdnumber
  obtain ⟨year, month, day⟩ := d
  obtain ⟨year', month', day'⟩ := e
  have hday : day = day' := by
    dsimp only at *
    omega
  exact Date.mk.injEq .. ▸ ⟨hyear, hmonth, hday⟩

end Date

end SnapshotDiff
