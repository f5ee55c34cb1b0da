import MotionControl.Toml.Scan

/-!
# Dates and times

A date has four digits for the year and two each for the month and the day, which has to be one of
the calendar. A time has two digits each for hour, minute and, if it goes so far, second, which may
go on with a fraction. A date and a time together may end with an offset from UTC.

Settings hold no such values. A file may still have them where nothing is read, so they are checked
and not interpreted.
-/

namespace MotionControl.Toml

/-- Read a number of exactly `count` digits. -/
def fixed? (count : Nat) (cs : List Char) : Option (Nat × List Char) :=
  let ds := cs.take count
  if ds.length = count && ds.all Char.isDigit then some (Nat.ofDigitChars 10 ds 0, cs.drop count)
  else none

/-- Skip a number of two digits from `least` to `greatest`. -/
def skipPair? (least greatest : Nat) (cs : List Char) : Option (List Char) := do
  let (n, cs) ← fixed? 2 cs
  if least ≤ n && n ≤ greatest then return cs else none

/-- Whether a year has a leap day. -/
def isLeapYear (year : Nat) : Bool := year % 4 = 0 && (year % 100 ≠ 0 || year % 400 = 0)

/-- The number of days in a month, counted from 1; there are none in other months. -/
def daysIn (year : Nat) : (month : Nat) → Nat
  | 2 => if isLeapYear year then 29 else 28
  | 4 | 6 | 9 | 11 => 30
  | 1 | 3 | 5 | 7 | 8 | 10 | 12 => 31
  | _ => 0

/-- Skip a date. -/
def skipDate? (cs : List Char) : Option (List Char) := do
  let (year, cs) ← fixed? 4 cs
  let (month, cs) ← fixed? 2 (← expect? '-' cs)
  skipPair? 1 (daysIn year month) (← expect? '-' cs)

/-- Skip hours and minutes. -/
def skipMinutes? (cs : List Char) : Option (List Char) := do
  skipPair? 0 59 (← expect? ':' (← skipPair? 0 23 cs))

/-- Skip the fraction of a second, if there is one. -/
def skipFraction? : List Char → Option (List Char)
  | '.' :: c :: cs => if c.isDigit then some (cs.dropWhile Char.isDigit) else none
  | ['.'] => none
  | cs => some cs

/-- Skip a time. Seconds may be missing, and there may be a leap second. -/
def skipTime? (cs : List Char) : Option (List Char) := do
  match ← skipMinutes? cs with
  | ':' :: cs => skipFraction? (← skipPair? 0 60 cs)
  | cs => return cs

/-- Skip an offset from UTC, if there is one. -/
def skipOffset? : List Char → Option (List Char)
  | 'Z' :: cs => some cs
  | 'z' :: cs => some cs
  | '+' :: cs => skipMinutes? cs
  | '-' :: cs => skipMinutes? cs
  | cs => some cs

/-- Whether a character may stand between a date and a time. -/
def joinsTime (c : Char) : Bool := c == 'T' || c == 't' || c == ' '

/-- Whether a word is a date, a time or both. -/
def isDateTime (cs : List Char) : Bool :=
  match skipDate? cs with
  | none => skipTime? cs == some []
  | some [] => true
  | some (c :: cs) => joinsTime c && (skipTime? cs).bind skipOffset? == some []

end MotionControl.Toml
