/-!
Days, times of day and points in time, and how they are written.
-/

namespace CodeAtlas

structure Date where
  year : Nat
  month : Nat
  day : Nat
  deriving Repr, DecidableEq

structure Clock where
  hour : Nat
  minute : Nat
  second : Nat
  microsecond : Nat
  deriving Repr, DecidableEq

structure Instant where
  date : Date
  clock : Clock
  offset : Option Int
  deriving Repr, DecidableEq

def padded (width n : Nat) : String :=
  let digits := toString n
  String.ofList (List.replicate (width - digits.length) '0') ++ digits

namespace Date

def isLeapYear (year : Nat) : Bool :=
  year % 4 == 0 && (year % 100 != 0 || year % 400 == 0)

def daysIn (year month : Nat) : Nat :=
  if month == 2 then (if isLeapYear year then 29 else 28)
  else if [4, 6, 9, 11].contains month then 30
  else 31

def of? (year month day : Nat) : Option Date :=
  if 1 ≤ year && 1 ≤ month && month ≤ 12 && 1 ≤ day && day ≤ daysIn year month then
    some ⟨year, month, day⟩
  else none

def text (d : Date) : String :=
  padded 4 d.year ++ "-" ++ padded 2 d.month ++ "-" ++ padded 2 d.day

def numbers (d : Date) : List Nat := [d.year, d.month, d.day]

def literal (d : Date) : String :=
  "datetime.date(" ++ ", ".intercalate (d.numbers.map toString) ++ ")"

def daysBefore (d : Date) : Nat :=
  let years := d.year - 1
  let months := ((List.range (d.month - 1)).map fun m => daysIn d.year (m + 1)).foldl (· + ·) 0
  365 * years + years / 4 - years / 100 + years / 400 + months + (d.day - 1)

end Date

namespace Clock

def of? (hour minute second microsecond : Nat) : Option Clock :=
  if hour < 24 && minute < 60 && second < 60 && microsecond < 1000000 then
    some ⟨hour, minute, second, microsecond⟩
  else none

/-- A time of day as text. Parts of seconds are left out where they are zero. -/
def text (t : Clock) : String :=
  let fraction := if t.microsecond == 0 then "" else "." ++ padded 6 t.microsecond
  padded 2 t.hour ++ ":" ++ padded 2 t.minute ++ ":" ++ padded 2 t.second ++ fraction

/-- The numbers of a time of day. Seconds and parts of seconds are left out where they are zero. -/
def numbers (t : Clock) : List Nat :=
  let tail :=
    if t.microsecond != 0 then [t.second, t.microsecond]
    else if t.second != 0 then [t.second]
    else []
  [t.hour, t.minute] ++ tail

def microseconds (t : Clock) : Nat :=
  ((t.hour * 60 + t.minute) * 60 + t.second) * 1000000 + t.microsecond

def literal (t : Clock) : String :=
  "datetime.time(" ++ ", ".intercalate (t.numbers.map toString) ++ ")"

end Clock

namespace Instant

def minutesPerDay : Nat := 24 * 60

/-- A point in time as text, unless its zone is a day or more away from universal time. -/
def text? (t : Instant) : Option String :=
  let local_ := t.date.text ++ " " ++ t.clock.text
  match t.offset with
  | none => some local_
  | some m =>
      if m.natAbs < minutesPerDay then
        some (local_ ++ (if m < 0 then "-" else "+") ++ padded 2 (m.natAbs / 60) ++ ":"
          ++ padded 2 (m.natAbs % 60))
      else none

/-- The millionths of a second up to a point in time, by the clock that it names or by universal
time. -/
def microseconds (t : Instant) : Int :=
  let minutes : Int := (t.date.daysBefore * minutesPerDay : Int) - t.offset.getD 0
  minutes * 60000000 + t.clock.microseconds

/-- Are two points in time the same? One with a zone is never one without. -/
def isSame (a b : Instant) : Bool :=
  a.offset.isSome == b.offset.isSome && a.microseconds == b.microseconds

/-- The zone of a point in time inside a list. A zone behind universal time is a day back and some
seconds on. -/
def zoneLiteral (offset : Int) : String :=
  if offset == 0 then "datetime.timezone.utc"
  else
    let span :=
      if offset < 0 then "days=-1, seconds=" ++ toString (24 * 60 * 60 + 60 * offset)
      else "seconds=" ++ toString (60 * offset)
    "datetime.timezone(datetime.timedelta(" ++ span ++ "))"

def literal (t : Instant) : String :=
  let numbers := (t.date.numbers ++ t.clock.numbers).map toString
  let zone := match t.offset with
    | none => []
    | some offset => ["tzinfo=" ++ zoneLiteral offset]
  "datetime.datetime(" ++ ", ".intercalate (numbers ++ zone) ++ ")"

end Instant

end CodeAtlas
