import Mathlib

/-! Dates of the proleptic Gregorian calendar in universal time, as days since 1970, and the
addition of years and days to a time in nanoseconds: a day past the month's end is counted
into the next month. -/
namespace MaxIOFS.Calendar

structure Date where
  (year month day : Int)
  deriving DecidableEq, Repr

-- Years start in March here, so that the leap day is the last of a year.
def dayNumber (date : Date) : Int :=
  let year := if date.month ≤ 2 then date.year - 1 else date.year
  let era := year / 400
  let inEra := year - era * 400
  let inYear := (153 * ((date.month + 9) % 12) + 2) / 5 + date.day - 1
  era * 146097 + inEra * 365 + inEra / 4 - inEra / 100 + inYear - 719468

def dateOf (days : Int) : Date :=
  let era := (days + 719468) / 146097
  let inEra := days + 719468 - era * 146097
  let yearOfEra := (inEra - inEra / 1460 + inEra / 36524 - inEra / 146096) / 365
  let inYear := inEra - (365 * yearOfEra + yearOfEra / 4 - yearOfEra / 100)
  let shifted := (5 * inYear + 2) / 153
  let month := if shifted < 10 then shifted + 3 else shifted - 9
  ⟨yearOfEra + era * 400 + (if month ≤ 2 then 1 else 0), month, inYear - (153 * shifted + 2) / 5 + 1⟩

def day : Int := 24 * 60 * 60 * 1000000000

def zeroTime : Int := dayNumber ⟨1, 1, 1⟩ * day

def addDate (time years days : Int) : Int :=
  let date := dateOf (time / day)
  (dayNumber { date with year := date.year + years, day := date.day + days }) * day + time % day

example : dateOf 0 = ⟨1970, 1, 1⟩ ∧ dayNumber ⟨2000, 2, 29⟩ = 11016 ∧ dateOf 11016 = ⟨2000, 2, 29⟩ := by decide

-- A year after the leap day is the first of March.
example : addDate (11016 * day) 1 0 = dayNumber ⟨2001, 3, 1⟩ * day := by decide

-- So a year after the end of the leap day is later than a year after the next day's start.
example : addDate (11017 * day) 1 0 < addDate (11016 * day + 1) 1 0 := by decide

end MaxIOFS.Calendar
