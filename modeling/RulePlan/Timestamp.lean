import RulePlan.Text.Decimal

/-!
# RulePlan.Timestamp — points in time with their own offset

A timestamp is a date, a time of day with nanoseconds, and an offset from universal time. It is
written as `2024-02-29T10:00:00.5+02:00`, with `Z` for offset zero and without trailing zeros of the
fraction. Reading accepts one or two digits for every field but the year, a blank instead of the
letter (then without an offset), and a date alone.
-/

namespace RulePlan

/-- A date and time of day, with the offset from universal time in minutes. -/
structure Timestamp where
  year : Nat
  month : Nat
  day : Nat
  hour : Nat := 0
  minute : Nat := 0
  second : Nat := 0
  nanosecond : Nat := 0
  offset : Int := 0
deriving DecidableEq, Repr, Inhabited

namespace Timestamp

open Text.Decimal (digitValue digits)

/-- The start of the calendar, which stands for no time at all. -/
def zero : Timestamp := { year := 1, month := 1, day := 1 }

/-- Leap years of the Gregorian calendar. -/
def isLeap (year : Nat) : Bool := year % 4 == 0 && (year % 100 != 0 || year % 400 == 0)

/-- The number of days of a month. -/
def daysIn (year month : Nat) : Nat :=
  if month = 2 then if isLeap year then 29 else 28
  else if month = 4 ∨ month = 6 ∨ month = 9 ∨ month = 11 then 30
  else 31

/-- The date of a number of days after the first of March of the year zero. -/
def ofDays (days : Nat) : Timestamp :=
  let era := days / 146097
  let dayOfEra := days % 146097
  let yearOfEra := (dayOfEra - dayOfEra / 1460 + dayOfEra / 36524 - dayOfEra / 146096) / 365
  let dayOfYear := dayOfEra - (365 * yearOfEra + yearOfEra / 4 - yearOfEra / 100)
  let shifted := (5 * dayOfYear + 2) / 153
  let month := if shifted < 10 then shifted + 3 else shifted - 9
  { year := yearOfEra + 400 * era + (if month ≤ 2 then 1 else 0)
    month
    day := dayOfYear - (153 * shifted + 2) / 5 + 1 }

/-- The time of a number of seconds after the start of 1970. -/
def ofSeconds (seconds nanosecond : Nat) : Timestamp :=
  let rest := seconds % 86400
  { ofDays (seconds / 86400 + 719468) with
    hour := rest / 3600
    minute := rest / 60 % 60
    second := rest % 60
    nanosecond }

/-- The number of days from the start of the year zero to the start of a year. -/
def daysBeforeYear (year : Nat) : Nat :=
  365 * year + (year + 3) / 4 - (year + 99) / 100 + (year + 399) / 400

/-- The number of days from the start of a year to the start of a month. -/
def daysBeforeMonth (year month : Nat) : Nat :=
  (List.range (month - 1)).foldl (fun n m => n + daysIn year (m + 1)) 0

/-- The number of seconds, in universal time, from the start of the year zero. -/
def instant (t : Timestamp) : Int :=
  86400 * ((daysBeforeYear t.year + daysBeforeMonth t.year t.month + t.day : Nat) - 1 : Int)
    + (3600 * t.hour + 60 * t.minute + t.second : Nat) - 60 * t.offset

/-- Whether a timestamp is the start of the calendar, in whatever offset it is written. -/
def isZero (t : Timestamp) : Bool := t.instant == zero.instant && t.nanosecond == 0

/-! ## Reading -/

/-- One or two digits. -/
def short : List Char → Option (Nat × List Char)
  | a :: b :: rest =>
    if !a.isDigit then none
    else if b.isDigit then some (10 * digitValue a + digitValue b, rest)
    else some (digitValue a, b :: rest)
  | [a] => if a.isDigit then some (digitValue a, []) else none
  | [] => none

/-- A given character. -/
def expect (c : Char) : List Char → Option (List Char)
  | d :: rest => if c = d then some rest else none
  | [] => none

/-- Year of four digits, month and day, if there is such a day. -/
def date : List Char → Option (Timestamp × List Char)
  | a :: b :: c :: d :: rest => do
    if !(a.isDigit && b.isDigit && c.isDigit && d.isDigit) then none
    let year := Text.Decimal.value [a, b, c, d]
    let (month, rest) ← short (← expect '-' rest)
    let (day, rest) ← short (← expect '-' rest)
    if 1 ≤ month ∧ month ≤ 12 ∧ 1 ≤ day ∧ day ≤ daysIn year month then
      some ({ year, month, day }, rest)
    else none
  | _ => none

/-- A fraction of a second in nanoseconds; further digits are dropped. -/
def fraction (cs : List Char) : Nat × List Char :=
  match cs with
  | mark :: d :: _ =>
    if (mark = '.' ∨ mark = ',') ∧ d.isDigit then
      let ds := (cs.drop 1).takeWhile Char.isDigit
      let kept := ds.take 9
      (Text.Decimal.value kept * Nat.pow 10 (9 - kept.length), (cs.drop 1).dropWhile Char.isDigit)
    else (0, cs)
  | _ => (0, cs)

/-- Hour, minute and second, with an optional fraction. -/
def clock (t : Timestamp) (cs : List Char) : Option (Timestamp × List Char) := do
  let (hour, rest) ← short cs
  let (minute, rest) ← short (← expect ':' rest)
  let (second, rest) ← short (← expect ':' rest)
  let (nanosecond, rest) := fraction rest
  if hour < 24 ∧ minute < 60 ∧ second < 60 then
    some ({ t with hour, minute, second, nanosecond }, rest)
  else none

/-- `Z`, or a sign with hours and minutes. -/
def zone (t : Timestamp) : List Char → Option Timestamp
  | ['Z'] => some t
  | [sign, a, b, ':', c, d] =>
    let hours := Text.Decimal.value [a, b]
    let minutes := Text.Decimal.value [c, d]
    if a.isDigit && b.isDigit && c.isDigit && d.isDigit && hours ≤ 24 && minutes ≤ 60 then
      if sign = '+' then some { t with offset := 60 * hours + minutes }
      else if sign = '-' then some { t with offset := -(60 * hours + minutes) }
      else none
    else none
  | _ => none

/-- Reads a timestamp in one of the accepted forms. -/
def read? (s : String) : Option Timestamp := do
  match ← date s.toList with
  | (t, []) => some t
  | (t, c :: rest) =>
    if c = 'T' ∨ c = 't' then
      let (t, rest) ← clock t rest
      zone t rest
    else if c = ' ' then
      match ← clock t (rest.dropWhile (· == ' ')) with
      | (t, []) => some t
      | _ => none
    else none

/-! ## Writing -/

/-- A number with leading zeros up to a width. -/
def padded (width n : Nat) : List Char :=
  let ds := digits n
  List.replicate (width - ds.length) '0' ++ ds

/-- Year, month and day. -/
def renderDate (t : Timestamp) : List Char :=
  padded 4 t.year ++ '-' :: padded 2 t.month ++ '-' :: padded 2 t.day

/-- Hour, minute and second. -/
def renderClock (t : Timestamp) : List Char :=
  padded 2 t.hour ++ ':' :: padded 2 t.minute ++ ':' :: padded 2 t.second

/-- The fraction after its point, without trailing zeros. -/
def renderFraction (t : Timestamp) : List Char :=
  if t.nanosecond = 0 then []
  else '.' :: ((padded 9 t.nanosecond).reverse.dropWhile (· == '0')).reverse

/-- The offset. -/
def renderZone (t : Timestamp) : List Char :=
  if t.offset = 0 then ['Z']
  else
    (if t.offset < 0 then '-' else '+')
      :: padded 2 (t.offset.natAbs / 60) ++ ':' :: padded 2 (t.offset.natAbs % 60)

/-- The full form. -/
def render (t : Timestamp) : String :=
  String.ofList (t.renderDate ++ 'T' :: t.renderClock ++ t.renderFraction ++ t.renderZone)

/-- Date and time of day, without fraction and offset. -/
def renderShort (t : Timestamp) : String := String.ofList (t.renderDate ++ ' ' :: t.renderClock)

end Timestamp

end RulePlan
