import AddressLedger.Number.Digits

/-!
# Calendar dates

Seconds since 1970 as a date and time of the proleptic Gregorian calendar. The calendar holds the
years `-262143` to `262142`.
-/
namespace AddressLedger.Calendar

structure Date where
  year : Int
  month : Nat
  day : Nat
  deriving DecidableEq

def firstYear : Int := -262143

def lastYear : Int := 262142

/--
The date that lies `days` after 1970-01-01. Years are counted from the first of March, so that
a leap day ends its year, within eras of 400 years or 146097 days.
-/
def Date.ofDays (days : Int) : Date :=
  let shifted := days + 719468
  let era := Int.fdiv shifted 146097
  let inEra := (shifted - era * 146097).toNat
  let yearOfEra := (inEra - inEra / 1460 + inEra / 36524 - inEra / 146096) / 365
  let dayOfYear := inEra - (365 * yearOfEra + yearOfEra / 4 - yearOfEra / 100)
  let marchMonth := (5 * dayOfYear + 2) / 153
  let month := if marchMonth < 10 then marchMonth + 3 else marchMonth - 9
  let year := Int.ofNat yearOfEra + era * 400
  ⟨if month ≤ 2 then year + 1 else year, month, dayOfYear - (153 * marchMonth + 2) / 5 + 1⟩

/-- Four digits for the years 0 to 9999; a sign before all others, with at least four digits. -/
def yearText (year : Int) : List Char :=
  let digits := Number.padded 4 year.natAbs
  if year < 0 then '-' :: digits else if 9999 < year then '+' :: digits else digits

/-- `YYYY-MM-DD HH:MM:SS` in UTC, or nothing outside the calendar. -/
def dateTime? (seconds : Int) : Option String :=
  let days := Int.fdiv seconds 86400
  let date := Date.ofDays days
  let inDay := (seconds - days * 86400).toNat
  let two := Number.padded 2
  if firstYear ≤ date.year ∧ date.year ≤ lastYear then
    some (String.ofList (yearText date.year ++ '-' :: two date.month ++ '-' :: two date.day ++
      ' ' :: two (inDay / 3600) ++ ':' :: two (inDay / 60 % 60) ++ ':' :: two (inDay % 60)))
  else none

def dateTimeText (seconds : Option Int64) : String :=
  (seconds.bind fun s => dateTime? s.toInt).getD ""

end AddressLedger.Calendar
