/-
Dates and times of the proleptic Gregorian calendar, and their two texts: the compact one of
literals and the separated one of documents. A fraction of a thousand million nanoseconds or more
marks a leap second, which is written as second 60.
-/
import RelSql.Text.Digits

namespace RelSql.Calendar

structure Date where
  year : Int
  month : Nat
  day : Nat
deriving Repr, DecidableEq, Inhabited

structure Time where
  hour : Nat
  minute : Nat
  second : Nat
  nanos : Nat
deriving Repr, DecidableEq, Inhabited

structure DateTime where
  date : Date
  time : Time
deriving Repr, DecidableEq, Inhabited

/-- A local date and time with the offset of its clock from universal time, in seconds east. -/
structure OffsetDateTime where
  reading : DateTime
  offset : Int
deriving Repr, DecidableEq, Inhabited

def nanosPerSecond : Nat := 1000000000

namespace Time

/-- The second as it is written: a leap second is second 60. -/
def shownSecond (t : Time) : Nat := if t.nanos ≥ nanosPerSecond then t.second + 1 else t.second

/-- The fraction of the written second. -/
def shownNanos (t : Time) : Nat :=
  if t.nanos ≥ nanosPerSecond then t.nanos - nanosPerSecond else t.nanos

/-- The fraction in the fewest of 0, 3, 6 and 9 digits that are exact. -/
def fraction (t : Time) : String :=
  let n := t.shownNanos
  if n = 0 then ""
  else if n % 1000000 = 0 then "." ++ Digits.padded 3 (n / 1000000)
  else if n % 1000 = 0 then "." ++ Digits.padded 6 (n / 1000)
  else "." ++ Digits.padded 9 n

/-- The separated text, `14:05:07.250`. -/
def toText (t : Time) : String :=
  Digits.padded 2 t.hour ++ ":" ++ Digits.padded 2 t.minute ++ ":" ++
    Digits.padded 2 t.shownSecond ++ t.fraction

/-- The compact text, `140507.250000`: microseconds, the rest cut off. -/
def compact (t : Time) : String :=
  Digits.padded 2 t.hour ++ Digits.padded 2 t.minute ++ Digits.padded 2 t.shownSecond ++
    "." ++ Digits.padded 6 (t.shownNanos / 1000)

def seconds (t : Time) : Nat := 3600 * t.hour + 60 * t.minute + t.second

end Time

namespace Date

/-- Four digits from year 0 to 9999; any other year has a sign and at least four digits. -/
def yearText (year : Int) : String :=
  if 0 ≤ year ∧ year ≤ 9999 then Digits.padded 4 year.natAbs
  else (if year < 0 then "-" else "+") ++ Digits.padded 4 year.natAbs

def toText (d : Date) : String :=
  yearText d.year ++ "-" ++ Digits.padded 2 d.month ++ "-" ++ Digits.padded 2 d.day

def compact (d : Date) : String :=
  yearText d.year ++ Digits.padded 2 d.month ++ Digits.padded 2 d.day

/-- Days since the first of March of year 0. The year is counted from March, so that the leap day
is its last. -/
def dayNumber (d : Date) : Int :=
  let y := if d.month ≤ 2 then d.year - 1 else d.year
  let m : Int := if d.month ≤ 2 then d.month + 9 else d.month - 3
  365 * y + y.fdiv 4 - y.fdiv 100 + y.fdiv 400 + (153 * m + 2) / 5 + (d.day - 1)

end Date

namespace DateTime

/-- The separated text, `2024-03-09T14:05:07`. -/
def toText (t : DateTime) : String := t.date.toText ++ "T" ++ t.time.toText

/-- The compact text, `20240309140507.000250`. -/
def compact (t : DateTime) : String := t.date.compact ++ t.time.compact

end DateTime

namespace OffsetDateTime

/-- The offset rounded to minutes, a half away from zero; `Z` stands for no offset at all. -/
def offsetText (offset : Int) : String :=
  if offset = 0 then "Z"
  else
    let minutes := (offset.natAbs + 30) / 60
    (if offset < 0 then "-" else "+") ++ Digits.padded 2 (minutes / 60) ++ ":" ++
      Digits.padded 2 (minutes % 60)

def toText (t : OffsetDateTime) : String := t.reading.toText ++ offsetText t.offset

/-- The second of universal time, and the fraction within it. -/
def instant (t : OffsetDateTime) : Int × Nat :=
  (86400 * t.reading.date.dayNumber + t.reading.time.seconds - t.offset, t.reading.time.nanos)

/-- Two readings of different clocks may name one instant. -/
def sameInstant (a b : OffsetDateTime) : Bool := a.instant == b.instant

end OffsetDateTime

end RelSql.Calendar
