import Mathlib.Algebra.BigOperators.Intervals
import Mathlib.Algebra.Order.BigOperators.Group.Finset
import Manos.Dev.Date

/-!
# The Gregorian calendar

The days from the first of January 1970 to the start of a year, and what the functions of `date.c`
compute of them.  `secondsToDate` takes off the days of the years that are over, and then those of
the months that are over.  `dateToSeconds` adds the days of the years from 1971 up to the year of
the date, in place of those from 1970 up to the year before it.
-/

open Finset

namespace Dev

/-! ### Days -/

/-- The days of the years from 1970 to the one before `year`. -/
def daysTo (year : ℤ) : ℕ := ∑ k ∈ range (year - epochYear).toNat, daysInYear (epochYear + k)

/-- The days of a month, counted from zero, of a year. -/
def daysInMonth (year month : ℤ) : ℕ := (monthDays (isLeap year)).getD month.toNat 0

/-- The days of the months before a month of a year. -/
def daysToMonth (year month : ℤ) : ℕ := ((monthDays (isLeap year)).take month.toNat).sum

/-- The day that is `n` days after the first of January 1970 is in `year`. -/
def InYear (n : ℕ) (year : ℤ) : Prop :=
  epochYear ≤ year ∧ daysTo year ≤ n ∧ n < daysTo year + daysInYear year

theorem daysTo_epoch :
  daysTo epochYear = 0
  := by
  rw [daysTo, Int.sub_self, Int.toNat_zero, range_zero, sum_empty]

theorem daysTo_succ {year : ℤ} (h : epochYear ≤ year) :
  daysTo (year + 1) = daysTo year + daysInYear year
  := by
  have hlen : (year + 1 - epochYear).toNat = (year - epochYear).toNat + 1 := by omega
  have hlast : epochYear + ((year - epochYear).toNat : ℤ) = year := by omega
  rw [daysTo, hlen, sum_range_succ, hlast, daysTo]

theorem daysTo_mono {year year' : ℤ} (h : year ≤ year') :
  daysTo year ≤ daysTo year'
  := by
  apply sum_le_sum_of_subset
  apply range_subset_range.mpr
  omega

/-- A day is in one year only. -/
theorem InYear.unique {n : ℕ} {year year' : ℤ} (h : InYear n year) (h' : InYear n year') :
  year = year'
  := by
  obtain ⟨hepoch, hle, hlt⟩ := h
  obtain ⟨hepoch', hle', hlt'⟩ := h'
  rw [← daysTo_succ hepoch] at hlt
  rw [← daysTo_succ hepoch'] at hlt'
  rcases Int.lt_trichotomy year year' with hy | hy | hy
  · have := daysTo_mono (show year + 1 ≤ year' by omega)
    omega
  · apply hy
  · have := daysTo_mono (show year' + 1 ≤ year by omega)
    omega

/-- Years have at least 365 days. -/
theorem le_daysTo {year : ℤ} (h : epochYear ≤ year) :
  365 * (year - epochYear) ≤ daysTo year
  := by
  induction year, h using Int.leInduction with
  | base =>
      rw [daysTo_epoch, Int.sub_self]
      decide
  | succ y hy ih =>
      have : 365 ≤ daysInYear y := by
        rw [daysInYear]
        split
        · decide
        · decide
      rw [daysTo_succ hy]
      omega

/-! ### From seconds to dates -/

/-- The loop over the years finds the year that the day is in. -/
theorem yearLoop_inYear {days : ℕ} {year : ℤ} (h : epochYear ≤ year) :
  epochYear ≤ (yearLoop days year).2
    ∧ daysTo (yearLoop days year).2 + (yearLoop days year).1 = daysTo year + days
  := by
  induction days, year using yearLoop.induct with
  | case1 days year hle ih =>
      rw [yearLoop, if_pos hle]
      obtain ⟨h₁, h₂⟩ := ih (by omega)
      refine ⟨h₁, ?_⟩
      rw [h₂, daysTo_succ h]
      omega
  | case2 days year hlt =>
      rw [yearLoop, if_neg hlt]
      refine ⟨h, rfl⟩

/-- The loop over the months finds the month that the day is in. -/
theorem monthLoop_eq_some {ds : List ℕ} {days days' : ℕ} {month month' : ℤ}
    (h : monthLoop ds days month = some (days', month')) :
  ∃ k < ds.length, month' = month + k ∧ (ds.take k).sum + days' = days ∧ days' < ds.getD k 0
  := by
  induction ds generalizing days month with
  | nil => cases h
  | cons d ds ih =>
      rw [monthLoop] at h
      split at h
      case isTrue hle =>
        obtain ⟨k, hk, hm, hsum, hlt⟩ := ih h
        refine ⟨k + 1, ?_, ?_, ?_, ?_⟩
        · rw [List.length_cons]
          omega
        · omega
        · rw [List.take_succ_cons, List.sum_cons]
          omega
        · rw [List.getD_cons_succ]
          apply hlt
      case isFalse hlt =>
        cases h
        refine ⟨0, Nat.zero_lt_succ _, by simp, by simp, ?_⟩
        rw [List.getD_cons_zero]
        omega

theorem length_monthDays (leap : Bool) :
  (monthDays leap).length = 12
  := by
  cases leap with
  | false => rfl
  | true => rfl

/-- The date `d` is that of the second `n` after the start of 1970. -/
structure IsDateOf (d : Date) (n : ℕ) : Prop where
  seconds : 0 ≤ d.seconds ∧ d.seconds < 60
  minutes : 0 ≤ d.minutes ∧ d.minutes < 60
  hours : 0 ≤ d.hours ∧ d.hours < 24
  month : 0 ≤ d.month ∧ d.month < 12
  day : 1 ≤ d.day ∧ d.day ≤ daysInMonth d.year d.month
  year : epochYear ≤ d.year ∧ d.year < 2 ^ 31
  days : daysTo d.year + daysToMonth d.year d.month + (d.day - 1) = (n / 86400 : ℕ)
  time : d.hours * 3600 + d.minutes * 60 + d.seconds = (n % 86400 : ℕ)

theorem isDateOf_secondsToDate {s : BitVec 64} {d : Date} (h : s.toNat / 86400 < 2 ^ 32)
    (hd : secondsToDate s = some d) :
  IsDateOf d s.toNat
  := by
  obtain ⟨hepoch, hdays⟩ := @yearLoop_inYear (s.toNat / secondsPerDay % 2 ^ 32) epochYear
    (Int.le_refl _)
  rw [secondsToDate] at hd
  generalize yearLoop (s.toNat / secondsPerDay % 2 ^ 32) epochYear = r at hd hepoch hdays
  obtain ⟨⟨days, month⟩, hloop, hd⟩ := Option.bind_eq_some_iff.mp hd
  obtain ⟨k, hk, hmonth, hsum, hlt⟩ := monthLoop_eq_some hloop
  rw [length_monthDays] at hk
  rw [daysTo_epoch, secondsPerDay, Nat.mod_eq_of_lt h] at hdays
  have hle := le_daysTo hepoch
  have hepoch' : epochYear = 1970 := rfl
  have hmonth' : month.toNat = k := by omega
  obtain rfl := Option.some.inj hd
  constructor
  all_goals dsimp only [secondsPerDay]
  case seconds => omega
  case minutes => omega
  case hours => omega
  case month => omega
  case day =>
    rw [daysInMonth, hmonth']
    omega
  case year => omega
  case days =>
    rw [daysToMonth, hmonth']
    omega
  case time => omega

/-- `secondsToDate` computes the Gregorian date, and does not read outside of `monthDays`. -/
theorem secondsToDate_gregorian (s : BitVec 64) (h : s.toNat / 86400 < 2 ^ 32) :
  ∃ d, secondsToDate s = some d ∧ IsDateOf d s.toNat
  := by
  obtain ⟨d, hd⟩ := Option.isSome_iff_exists.mp (secondsToDate_isSome s)
  refine ⟨d, hd, isDateOf_secondsToDate h hd⟩

/-- The last second of the year 1970. -/
theorem secondsToDate_gregorian_1970 :
  ∃ d, secondsToDate 31535999 = some d ∧ IsDateOf d 31535999
  := secondsToDate_gregorian 31535999 (by decide)

/-! ### From dates to seconds -/

/-- A number that is an `int`. -/
theorem int_eq {z : ℤ} (h0 : 0 ≤ z) (h : z < 2 ^ 31) :
  int z = z
  := by
  rw [int, BitVec.toInt_ofInt]
  apply Int.bmod_eq_of_le
  · omega
  · omega

/-- The loop over the months adds the days of the months. -/
theorem monthsLoop_eq {ds : List ℕ} {k : ℕ} (h : k ≤ ds.length) (seconds : BitVec 64) :
  monthsLoop ds k seconds = some (seconds + .ofNat 64 ((ds.take k).sum * secondsPerDay))
  := by
  induction ds generalizing k seconds with
  | nil =>
      obtain rfl : k = 0 := Nat.le_zero.mp h
      simp [monthsLoop]
  | cons d ds ih =>
      cases k with
      | zero => simp [monthsLoop]
      | succ k =>
          rw [List.length_cons] at h
          rw [monthsLoop, ih (by omega), List.take_succ_cons, List.sum_cons, Nat.add_mul,
            BitVec.ofNat_add, BitVec.add_assoc]

/-- The table has the months of a year from its first one on. -/
theorem take_monthsFrom {year : ℤ} {k : ℕ} (h : k ≤ 12) :
  k ≤ (monthsFrom year).length
    ∧ (monthsFrom year).take k = (monthDays (isLeap year)).take k
  := by
  rw [monthsFrom]
  split
  case isTrue hleap =>
    rw [hleap, length_monthDays]
    refine ⟨h, rfl⟩
  case isFalse hleap =>
    rw [Bool.not_eq_true] at hleap
    rw [hleap, List.length_append, length_monthDays, List.take_append_of_le_length]
    · refine ⟨by omega, rfl⟩
    · rw [length_monthDays]
      apply h

/-- The loop down from a year adds the days of that year and of the years before it. -/
theorem yearsLoop_down {k : ℕ} {year : ℤ} (h : epochYear + k ≤ year) (seconds : BitVec 64) :
  yearsLoop (-1) k year seconds
    = seconds + .ofNat 64 ((daysTo (year + 1) - daysTo (year + 1 - k)) * secondsPerDay)
  := by
  induction k generalizing year seconds with
  | zero => simp [yearsLoop]
  | succ k ih =>
      have hyear : daysTo (year + 1) = daysTo year + daysInYear year := daysTo_succ (by omega)
      have hmono := daysTo_mono (show year + 1 - (k + 1 : ℕ) ≤ year by omega)
      have hdays : daysTo (year + 1) - daysTo (year + 1 - (k + 1 : ℕ))
          = daysInYear year + (daysTo year - daysTo (year + 1 - (k + 1 : ℕ))) := by
        omega
      rw [yearsLoop, ih (by omega), hdays, Nat.add_mul, BitVec.ofNat_add, BitVec.add_assoc,
        show year + -1 + 1 = year by omega, show year - (k : ℤ) = year + 1 - (k + 1 : ℕ) by omega]

/-- `dateToSeconds` adds up the time of the day, the days, the months and the years after 1970. -/
theorem dateToSeconds_eq {d : Date} {time days : ℕ}
    (htime : int (d.seconds + d.minutes * 60 + d.hours * 3600) = time)
    (hday : int (d.day * secondsPerDay) = (days * secondsPerDay : ℕ)) (hmonth : d.month.toNat ≤ 12)
    (hyear : epochYear ≤ d.year) :
  dateToSeconds d = some (.ofNat 64
    (time + (days + daysToMonth d.year d.month + (daysTo (d.year + 1) - 365)) * secondsPerDay))
  := by
  obtain ⟨hlen, htake⟩ := @take_monthsFrom d.year _ hmonth
  have hup : (epochYear - d.year).toNat = 0 := by omega
  have hfirst : daysTo (d.year + 1 - (d.year - epochYear).toNat) = 365 := by
    rw [show d.year + 1 - (d.year - epochYear).toNat = epochYear + 1 by omega,
      daysTo_succ (Int.le_refl _), daysTo_epoch]
    rfl
  rw [dateToSeconds, htime, hday, BitVec.ofInt_natCast, BitVec.ofInt_natCast, monthsLoop_eq hlen,
    htake, hup]
  have hnone : ∀ seconds, yearsLoop 1 0 d.year seconds = seconds := fun _ => rfl
  rw [Option.bind_eq_bind, Option.bind_some]
  dsimp only
  rw [hnone, yearsLoop_down (by omega), hfirst]
  simp only [← BitVec.ofNat_add, Nat.add_mul, Nat.add_assoc]
  rfl

/-- The date with its day counted from zero, as `writeDate` has it. -/
def dayFromZero (d : Date) : Date :=
  { d with day := if d.day ≠ 0 then int (d.day - 1) else d.day }

theorem daysInMonth_le (year month : ℤ) :
  daysInMonth year month ≤ 31
  := by
  have hall : ∀ leap, ∀ k, (monthDays leap).getD k 0 ≤ 31 := by
    intro leap k
    rw [List.getD_eq_getElem?_getD]
    cases hk : (monthDays leap)[k]? with
    | none => exact Nat.zero_le 31
    | some m =>
        have hmem := List.mem_of_getElem? hk
        have hmonths : ∀ leap, ∀ m ∈ monthDays leap, m ≤ 31 := by decide
        apply hmonths leap m hmem
  apply hall

/-- What `dateToSeconds` makes of a date: it adds the days of the year of the date in place of
those of 1970. -/
theorem IsDateOf.dateToSeconds {d : Date} {n : ℕ} (h : IsDateOf d n) :
  dateToSeconds (dayFromZero d)
    = some (.ofNat 64 (n + (daysInYear d.year - 365) * secondsPerDay))
  := by
  obtain ⟨hs, hm, hh, hmonth, hday, hyear, hdays, htime⟩ := h
  have hlength := daysInMonth_le d.year d.month
  have hyear365 : 365 ≤ daysInYear d.year := by
    rw [daysInYear]
    split
    · decide
    · decide
  have hday' : (dayFromZero d).day = d.day - 1 := by
    rw [dayFromZero]
    dsimp only
    rw [if_pos (by omega), int_eq (by omega) (by omega)]
  have heq := @dateToSeconds_eq (dayFromZero d) (n % 86400) (d.day - 1).toNat
  rw [heq]
  · dsimp only [dayFromZero, secondsPerDay]
    have hsucc := daysTo_succ hyear.1
    refine congrArg (fun k => some (BitVec.ofNat 64 k)) ?_
    omega
  · change int (d.seconds + d.minutes * 60 + d.hours * 3600) = _
    rw [int_eq (by omega) (by omega)]
    omega
  · rw [hday', secondsPerDay, int_eq (by omega) (by omega)]
    omega
  · change d.month.toNat ≤ 12
    omega
  · apply hyear.1

/-- The day of a date is in its year. -/
theorem IsDateOf.inYear {d : Date} {n : ℕ} (h : IsDateOf d n) :
  InYear (n / 86400) d.year
  := by
  have hsum : ∀ leap, ∀ k < 12,
      ((monthDays leap).take k).sum + (monthDays leap).getD k 0 ≤ (monthDays leap).sum := by
    decide
  have hmonth := hsum (isLeap d.year) d.month.toNat (by have := h.month; omega)
  rw [sum_monthDays] at hmonth
  have hday := h.day
  have hdays := h.days
  rw [daysInMonth] at hday
  rw [daysToMonth] at hdays
  refine ⟨h.year.1, ?_, ?_⟩
  · omega
  · omega

/-- Setting the clock after reading it adds a day in the leap years. -/
theorem round_trip {s : BitVec 64} {year : ℤ} (h : s.toNat / 86400 < 2 ^ 32)
    (hyear : InYear (s.toNat / 86400) year) :
  ((secondsToDate s).bind fun d => dateToSeconds (dayFromZero d))
    = some (s + .ofNat 64 (if isLeap year then 86400 else 0))
  := by
  obtain ⟨d, hd⟩ := Option.isSome_iff_exists.mp (secondsToDate_isSome s)
  have hdate := isDateOf_secondsToDate h hd
  rw [hd, Option.bind_some, hdate.dateToSeconds, hdate.inYear.unique hyear, BitVec.ofNat_add,
    BitVec.ofNat_toNat, BitVec.setWidth_eq, daysInYear]
  split
  · rfl
  · rfl

/-- Setting the clock undoes reading it exactly in the years that are not leap years. -/
theorem date_round_trip_iff (s : BitVec 64) (h : s.toNat / 86400 < 2 ^ 32) :
  ((secondsToDate s).bind fun d => dateToSeconds (dayFromZero d)) = some s
    ↔ ∃ year, InYear (s.toNat / 86400) year ∧ isLeap year = false
  := by
  obtain ⟨d, hd⟩ := Option.isSome_iff_exists.mp (secondsToDate_isSome s)
  have hyear := (isDateOf_secondsToDate h hd).inYear
  rw [round_trip h hyear, Option.some_inj]
  constructor
  · intro heq
    refine ⟨d.year, hyear, ?_⟩
    by_contra hleap
    rw [Bool.not_eq_false] at hleap
    rw [hleap, if_pos rfl] at heq
    revert heq
    generalize s = x
    bv_omega
  · rintro ⟨year, hin, hleap⟩
    rw [hyear.unique hin, hleap, if_neg (by decide)]
    apply BitVec.add_zero

/-- The first second of the year 1970. -/
theorem date_round_trip_iff_epoch :
  ((secondsToDate 0).bind fun d => dateToSeconds (dayFromZero d)) = some 0
    ↔ ∃ year, InYear ((0 : BitVec 64).toNat / 86400) year ∧ isLeap year = false
  := date_round_trip_iff 0 (by decide)

/-- The first second of the year 1972 is set a day too late. -/
theorem date_not_round_trip :
  ((secondsToDate 63072000).bind fun d => dateToSeconds (dayFromZero d)) = some 63158400
    ∧ ((secondsToDate 63072000).bind fun d => dateToSeconds (dayFromZero d)) ≠ some 63072000
  := by
  have h1971 : daysTo 1971 = 365 := (daysTo_succ (show epochYear ≤ 1970 by decide)).trans (by
    rw [show (1970 : ℤ) = epochYear from rfl, daysTo_epoch]
    rfl)
  have h1972 : daysTo 1972 = 730 := (daysTo_succ (show epochYear ≤ 1971 by decide)).trans (by
    rw [h1971]
    rfl)
  have hyear : InYear ((63072000 : BitVec 64).toNat / 86400) 1972 := by
    refine ⟨by decide, ?_, ?_⟩
    · rw [h1972]
      decide
    · rw [h1972]
      decide
  rw [round_trip (by decide) hyear]
  decide

end Dev
