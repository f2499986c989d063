import Mathlib.Algebra.BigOperators.Group.List.Basic
import Mathlib.Algebra.GroupWithZero.Nat
import Mathlib.Tactic.Common

/-! Dates of the Gregorian calendar, and the seconds between them. -/
namespace Calendar

def IsLeap (year : ℕ) : Prop := 4 ∣ year ∧ (100 ∣ year → 400 ∣ year)

instance (year : ℕ) : Decidable (IsLeap year) := inferInstanceAs (Decidable (_ ∧ _))

/-- The months are counted from 1. -/
def daysInMonth (year : ℕ) : ℕ → ℕ
  | 2 => if IsLeap year then 29 else 28
  | 4 | 6 | 9 | 11 => 30
  | _ => 31

/-- The days of a year before its month `month`. -/
def daysBeforeMonth (year month : ℕ) : ℕ :=
  ((List.range (month - 1)).map fun i => daysInMonth year (i + 1)).sum

/-- The days before a year, from the year 0 on. -/
def daysBeforeYear (year : ℕ) : ℕ := ((List.range year).map fun y => daysBeforeMonth y 13).sum

structure DateTime where
  year : ℕ
  month : ℕ
  day : ℕ
  hour : ℕ
  minute : ℕ
  second : ℕ

namespace DateTime

structure Valid (d : DateTime) : Prop where
  month : 1 ≤ d.month ∧ d.month ≤ 12
  day : 1 ≤ d.day ∧ d.day ≤ daysInMonth d.year d.month
  hour : d.hour < 24
  minute : d.minute < 60
  second : d.second < 60

/-- The seconds from the start of the day. -/
def seconds (d : DateTime) : ℕ := 3600 * d.hour + 60 * d.minute + d.second

/-- The days from the start of the year 0. -/
def days (d : DateTime) : ℕ := daysBeforeYear d.year + daysBeforeMonth d.year d.month + (d.day - 1)

/-- The seconds from the start of the year 1970. -/
def unix (d : DateTime) : ℤ := 86400 * ((d.days : ℤ) - daysBeforeYear 1970) + d.seconds

end DateTime

section Lengths
variable (year month : ℕ)

theorem daysInMonth_le : daysInMonth year month ≤ 31 := by
  unfold daysInMonth
  split
  · split_ifs
    · decide
    · decide
  · decide
  · decide
  · decide
  · decide
  · decide

theorem daysInMonth_pos : 0 < daysInMonth year month := by
  unfold daysInMonth
  split
  · split_ifs
    · decide
    · decide
  · decide
  · decide
  · decide
  · decide
  · decide

theorem daysBeforeMonth_one : daysBeforeMonth year 1 = 0 := rfl

theorem daysBeforeMonth_succ (h : 1 ≤ month) :
    daysBeforeMonth year (month + 1) = daysBeforeMonth year month + daysInMonth year month := by
  obtain ⟨m, rfl⟩ := Nat.exists_eq_add_of_le' h
  unfold daysBeforeMonth
  rw [Nat.add_sub_cancel, Nat.add_sub_cancel, List.sum_range_succ]

theorem daysBeforeYear_succ : daysBeforeYear (year + 1) = daysBeforeYear year + daysBeforeMonth year 13 :=
  List.sum_range_succ _ _

theorem daysBeforeMonth_le : daysBeforeMonth year month ≤ 31 * month := by
  induction month with
  | zero => exact Nat.le_refl _
  | succ month ih =>
    rcases Nat.eq_zero_or_pos month with rfl | hpos
    · exact Nat.zero_le _
    · have hle := daysInMonth_le year month
      rw [daysBeforeMonth_succ year month hpos]
      omega

theorem daysBeforeYear_le : daysBeforeYear year ≤ 403 * year := by
  induction year with
  | zero => exact Nat.le_refl _
  | succ year ih =>
    have hle := daysBeforeMonth_le year 13
    rw [daysBeforeYear_succ]
    omega

end Lengths

/-- A common year and a leap year. -/
example : daysBeforeMonth 1970 13 = 365 ∧ daysBeforeMonth 1972 13 = 366 := by decide

end Calendar
