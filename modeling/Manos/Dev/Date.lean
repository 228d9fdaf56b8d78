import Mathlib.Algebra.Group.Int.Defs
import Mathlib.Algebra.GroupWithZero.Nat
import Mathlib.Data.Int.Notation
import Mathlib.Data.Nat.Notation
import Mathlib.Tactic.Common

/-!
# Dates

The functions of `date.c`.  An `int` is an integer, which is reduced where the code computes
it.
-/

namespace Dev

/-- A value as an `int`. -/
def int (z : ℤ) : ℤ := (BitVec.ofInt 32 z).toInt

/-- `Date` -/
structure Date where
  seconds : ℤ
  minutes : ℤ
  hours : ℤ
  day : ℤ
  month : ℤ
  year : ℤ
deriving DecidableEq

/-- A date whose memory is zero. -/
instance : Inhabited Date := ⟨0, 0, 0, 0, 0, 0⟩

/-- `EPOCH_YEAR` -/
def epochYear : ℤ := 1970

/-- `SECONDS_PER_DAY` -/
def secondsPerDay : ℕ := 86400

/-- `IS_LEAP` -/
def isLeap (year : ℤ) : Bool :=
  year % 400 = 0 ∨ (year % 100 ≠ 0 ∧ year % 4 = 0)

/-- `DAYS_IN_YEAR` -/
def daysInYear (year : ℤ) : ℕ := if isLeap year then 366 else 365

/-- A row of `monthDays` -/
def monthDays (leap : Bool) : List ℕ :=
  if leap then [31, 29, 31, 30, 31, 30, 31, 31, 30, 31, 30, 31]
  else [31, 28, 31, 30, 31, 30, 31, 31, 30, 31, 30, 31]

theorem daysInYear_pos (year : ℤ) :
  0 < daysInYear year
  := by
  rw [daysInYear]
  split
  · decide
  · decide

/-- The loop of `secondsToDate` over the years; the values are the days that are left. -/
def yearLoop (days : ℕ) (year : ℤ) : ℕ × ℤ :=
  if daysInYear year ≤ days then yearLoop (days - daysInYear year) (year + 1)
  else (days, year)
termination_by days
decreasing_by
  have := daysInYear_pos year
  omega

/--
The loop of `secondsToDate` over the months, with the part of `monthDays` from the month on.
There is no value if it leaves the table.
-/
def monthLoop : List ℕ → ℕ → ℤ → Option (ℕ × ℤ)
  | [], _, _ => none
  | d :: ds, days, month =>
      if d ≤ days then monthLoop ds (days - d) (month + 1) else some (days, month)

/-- `secondsToDate`, which has no value if it reads outside `monthDays` -/
def secondsToDate (seconds : BitVec 64) : Option Date := do
  let daySeconds := seconds.toNat % secondsPerDay
  let days := seconds.toNat / secondsPerDay % 2 ^ 32
  let (days, year) := yearLoop days epochYear
  let (days, month) ← monthLoop (monthDays (isLeap year)) days 0
  return {
    seconds := daySeconds % 60
    minutes := daySeconds % 3600 / 60
    hours := daySeconds / 3600
    day := days + 1
    month := month
    year := year }

/--
The loop of `dateToSeconds` over the months, with the part of `monthDays` from the first month of
the year on.  There is no value if it leaves the table.
-/
def monthsLoop : List ℕ → ℕ → BitVec 64 → Option (BitVec 64)
  | _, 0, seconds => some seconds
  | [], _ + 1, _ => none
  | d :: ds, k + 1, seconds => monthsLoop ds k (seconds + .ofNat 64 (d * secondsPerDay))

/-- The loops of `dateToSeconds` over `k` years from a year on, downwards or upwards. -/
def yearsLoop (step : ℤ) : ℕ → ℤ → BitVec 64 → BitVec 64
  | 0, _, seconds => seconds
  | k + 1, year, seconds =>
      yearsLoop step k (year + step) (seconds + .ofNat 64 (daysInYear year * secondsPerDay))

/-- The part of `monthDays` from the first month of a year on; the rows are next to each other. -/
def monthsFrom (year : ℤ) : List ℕ :=
  if isLeap year then monthDays true else monthDays false ++ monthDays true

/-- `dateToSeconds`, which has no value if it reads outside `monthDays` -/
def dateToSeconds (date : Date) : Option (BitVec 64) := do
  let seconds : BitVec 64 := .ofInt 64 (int (date.seconds + date.minutes * 60 + date.hours * 3600))
  let seconds := seconds + .ofInt 64 (int (date.day * secondsPerDay))
  let seconds ← monthsLoop (monthsFrom date.year) date.month.toNat seconds
  let seconds := yearsLoop (-1) (date.year - epochYear).toNat date.year seconds
  return yearsLoop 1 (epochYear - date.year).toNat date.year seconds

/-- The loop over the months stays in the table exactly if it has so many months. -/
theorem monthsLoop_isSome_iff {ds : List ℕ} {k : ℕ} {seconds : BitVec 64} :
  (monthsLoop ds k seconds).isSome ↔ k ≤ ds.length
  := by
  induction ds generalizing k seconds with
  | nil =>
      cases k with
      | zero => simp [monthsLoop]
      | succ k => simp [monthsLoop]
  | cons d ds ih =>
      cases k with
      | zero => simp [monthsLoop]
      | succ k =>
          rw [monthsLoop, ih, List.length_cons]
          omega

/-- `dateToSeconds` stays in the table exactly if the table has the month from the row on. -/
theorem dateToSeconds_isSome_iff (date : Date) :
  (dateToSeconds date).isSome ↔ date.month.toNat ≤ (monthsFrom date.year).length
  := by
  rw [← monthsLoop_isSome_iff]
  simp only [dateToSeconds]
  generalize monthsLoop (monthsFrom date.year) date.month.toNat _ = o
  cases o with
  | none => rfl
  | some seconds => rfl

/-- After the loop over the years less than a year is left. -/
theorem yearLoop_lt (days : ℕ) (year : ℤ) :
  (yearLoop days year).1 < daysInYear (yearLoop days year).2
  := by
  induction days, year using yearLoop.induct with
  | case1 days year h ih =>
      rw [yearLoop, if_pos h]
      apply ih
  | case2 days year h =>
      rw [yearLoop, if_neg h]
      apply Nat.lt_of_not_le h

/-- The loop over the months stays in the table if there are fewer days than in its rest. -/
theorem monthLoop_isSome {ds : List ℕ} {days : ℕ} (h : days < ds.sum) (month : ℤ) :
  (monthLoop ds days month).isSome
  := by
  induction ds generalizing days month with
  | nil => contradiction
  | cons d ds ih =>
      rw [monthLoop]
      split
      · apply ih
        rw [List.sum_cons] at h
        omega
      · rfl

/-- The months of a year have the days of the year. -/
theorem sum_monthDays (year : ℤ) :
  (monthDays (isLeap year)).sum = daysInYear year
  := by
  rw [monthDays, daysInYear]
  split
  · rfl
  · rfl

/-- `secondsToDate` stays in the table. -/
theorem secondsToDate_isSome (seconds : BitVec 64) :
  (secondsToDate seconds).isSome
  := by
  have hlt := yearLoop_lt (seconds.toNat / secondsPerDay % 2 ^ 32) epochYear
  rw [← sum_monthDays] at hlt
  obtain ⟨r, hr⟩ := Option.isSome_iff_exists.mp (monthLoop_isSome hlt 0)
  simp only [secondsToDate]
  rw [hr]
  rfl

end Dev
