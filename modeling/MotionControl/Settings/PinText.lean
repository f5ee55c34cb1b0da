import MotionControl.Settings.Pin
import MotionControl.Text.Blank

/-!
# Pins in writing

A pin is written `gpio` and its number, with `!` in front for an active-low line and `^` for a
pull-up, in any order and as often as one likes. Blank characters around it do not matter. The
number may have a plus sign and leading zeros; 255 is not a number of a line.
-/

namespace MotionControl.PinText

/-- Apply the modifiers at the front to a pin and go on behind them. -/
def readModifiers (p : Pin) : List Char → Pin × List Char
  | '!' :: cs => readModifiers { p with inverted := true } cs
  | '^' :: cs => readModifiers { p with pullUp := true } cs
  | cs => (p, cs)

/-- A number in digits, with an optional plus sign. -/
def readNumber? (cs : List Char) : Option Nat :=
  let ds := (match cs with
    | '+' :: cs => cs
    | cs => cs)
  if !ds.isEmpty && ds.all Char.isDigit then some (Nat.ofDigitChars 10 ds 0) else none

/-- Read a pin. -/
def read? (text : String) : Option Pin := do
  let (p, cs) := readModifiers .unassigned (Text.trim text.toList)
  let number ← readNumber? (← ['g', 'p', 'i', 'o'].isPrefixOf? cs)
  if number < 255 then some { p with number := UInt8.ofNat number } else none

end MotionControl.PinText
