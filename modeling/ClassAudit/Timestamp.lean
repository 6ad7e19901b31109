/-! # Points in time

    A point in time is a date and a time of day with an offset from universal time. It is written
    as `2026-01-02T03:04:05.25+02:30`, with `Z` for no offset. Reading is more liberal: the
    fields may be shorter, and a date may stand alone.
-/

namespace ClassAudit

/-- A point in time, as a clock with the given offset shows it. -/
structure Timestamp where
  year : Nat
  month : Nat
  day : Nat
  hour : Nat
  minute : Nat
  second : Nat
  nanosecond : Nat
  /-- Minutes ahead of universal time. -/
  offset : Int
  deriving DecidableEq

namespace Timestamp

/-- The first second of the first year. -/
def zero : Timestamp :=
  ⟨1, 1, 1, 0, 0, 0, 0, 0⟩

def daysIn (year month : Nat) : Nat :=
  if month = 2 then
    if year % 4 = 0 ∧ (year % 100 ≠ 0 ∨ year % 400 = 0) then 29 else 28
  else if month = 4 ∨ month = 6 ∨ month = 9 ∨ month = 11 then 30
  else 31

/-- The date with a number of days after the first of March of the year 0. A year starts with March
    here, so that the day that only some years have comes last. -/
def dateOf (days : Nat) : Nat × Nat × Nat :=
  let era := days / 146097
  let dayOfEra := days % 146097
  let year := (dayOfEra - dayOfEra / 1460 + dayOfEra / 36524 - dayOfEra / 146096) / 365
  let dayOfYear := dayOfEra - (365 * year + year / 4 - year / 100)
  let month := (5 * dayOfYear + 2) / 153
  let day := dayOfYear - (153 * month + 2) / 5 + 1
  if month < 10 then (400 * era + year, month + 3, day) else (400 * era + year + 1, month - 9, day)

/-- The point in time some seconds and nanoseconds after the start of 1970, in universal time. -/
def ofSeconds (seconds nanosecond : Nat) : Timestamp :=
  let (year, month, day) := dateOf (719468 + seconds / 86400)
  let clock := seconds % 86400
  ⟨year, month, day, clock / 3600, clock / 60 % 60, clock % 60, nanosecond, 0⟩

/-! ### Writing -/

/-- A number with zeros in front up to a width. -/
def padded (width n : Nat) : String :=
  let digits := Nat.toDigits 10 n
  String.ofList (List.replicate (width - digits.length) '0' ++ digits)

/-- The fraction of a second without zeros at its end. -/
def fraction (nanosecond : Nat) : String :=
  if nanosecond = 0 then ""
  else "." ++ String.ofList
    (((padded 9 nanosecond).toList.reverse.dropWhile (· == '0')).reverse)

def offsetText (minutes : Int) : String :=
  if minutes = 0 then "Z"
  else
    let sign := if minutes < 0 then "-" else "+"
    sign ++ padded 2 (minutes.natAbs / 60) ++ ":" ++ padded 2 (minutes.natAbs % 60)

def text (t : Timestamp) : String :=
  padded 4 t.year ++ "-" ++ padded 2 t.month ++ "-" ++ padded 2 t.day ++ "T" ++
    padded 2 t.hour ++ ":" ++ padded 2 t.minute ++ ":" ++ padded 2 t.second ++
    fraction t.nanosecond ++ offsetText t.offset

/-! ### Reading -/

abbrev Scan := StateT (List Char) Option

def one (c : Char) : Scan Unit := fun cs =>
  match cs with
  | d :: rest => if c = d then some ((), rest) else none
  | [] => none

def digit : Scan Nat := fun cs =>
  match cs with
  | d :: rest => if d.isDigit then some (d.toNat - '0'.toNat, rest) else none
  | [] => none

def digits : Nat → Nat → Scan Nat
  | 0, value => pure value
  | n + 1, value => do digits n (10 * value + (← digit))

/-- Two digits, or one if no second follows and `short` allows it. -/
def twoDigits (short : Bool) : Scan Nat := do
  let a ← digit
  match (← get) with
  | d :: _ => if d.isDigit then return 10 * a + (← digit) else guard short; return a
  | [] => guard short; return a

def bounded (bound : Nat) (n : Scan Nat) : Scan Nat := do
  let n ← n
  guard (n < bound)
  return n

def date (short : Bool) : Scan (Nat × Nat × Nat) := do
  let year ← digits 4 0
  one '-'
  let month ← bounded 13 (twoDigits short)
  one '-'
  let day ← twoDigits short
  guard (1 ≤ month ∧ 1 ≤ day ∧ day ≤ daysIn year month)
  return (year, month, day)

/-- The fraction of a second, if there is one, cut after nine digits. -/
def fractionPart : Scan Nat := do
  match (← get) with
  | p :: d :: rest =>
    if (p = '.' ∨ p = ',') ∧ d.isDigit then
      let ds := (d :: rest).takeWhile Char.isDigit
      set ((d :: rest).dropWhile Char.isDigit)
      let nine := ds.take 9 ++ List.replicate (9 - ds.length) '0'
      return nine.foldl (fun n c => 10 * n + (c.toNat - '0'.toNat)) 0
    else return 0
  | _ => return 0

/-- An hour, a minute, a second and its fraction. The hour may always be short. -/
def clock (short : Bool) : Scan (Nat × Nat × Nat × Nat) := do
  let hour ← bounded 24 (twoDigits true)
  one ':'
  let minute ← bounded 60 (twoDigits short)
  one ':'
  let second ← bounded 60 (twoDigits short)
  return (hour, minute, second, ← fractionPart)

def zone : Scan Int := do
  match (← get) with
  | 'Z' :: rest => set rest; return 0
  | sign :: rest =>
    guard (sign = '+' ∨ sign = '-')
    set rest
    let hours ← bounded 25 (twoDigits false)
    one ':'
    let minutes ← bounded 61 (twoDigits false)
    let offset : Int := (60 * hours + minutes : Nat)
    return if sign = '-' then -offset else offset
  | [] => failure

/-- A date, a letter and a time of day with an offset. -/
def full (short : Bool) (separator : Char) : Scan Timestamp := do
  let (year, month, day) ← date short
  one separator
  let (hour, minute, second, nanosecond) ← clock short
  let offset ← zone
  return ⟨year, month, day, hour, minute, second, nanosecond, offset⟩

/-- A date, spaces and a time of day of universal time. -/
def spaced : Scan Timestamp := do
  let (year, month, day) ← date true
  one ' '
  modify (·.dropWhile (· == ' '))
  let (hour, minute, second, nanosecond) ← clock true
  return ⟨year, month, day, hour, minute, second, nanosecond, 0⟩

/-- A date, which stands for its first second. -/
def dateOnly : Scan Timestamp := do
  let (year, month, day) ← date true
  return ⟨year, month, day, 0, 0, 0, 0, 0⟩

def whole (scan : Scan Timestamp) (text : String) : Option Timestamp :=
  match scan.run text.toList with
  | some (t, []) => some t
  | _ => none

def parse? (text : String) : Option Timestamp :=
  whole (full false 'T') text

def parseLiberal? (text : String) : Option Timestamp :=
  whole (full true 'T') text <|> whole (full true 't') text <|> whole spaced text <|>
    whole dateOnly text

end Timestamp

end ClassAudit
