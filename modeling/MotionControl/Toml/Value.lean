import MotionControl.Decimal.Nearest

/-!
# Values of a settings file

The values of a TOML document, apart from arrays of tables, which settings have no place for.
Numbers keep the value that was written, whatever its size; `Value.asWord?` and `Value.asQuantity?`
find out whether it fits what is asked for.
-/

namespace MotionControl.Toml

/-- A number with a point or an exponent, or one of the special values. -/
inductive Real where
  /-- a number in digits -/
  | finite (value : Scientific)
  /-- infinity with a sign -/
  | infinite (negative : Bool)
  /-- not a number -/
  | nan
  deriving DecidableEq, Repr

/-- How a table came into being, which decides how it may be extended. -/
inductive TableKind where
  /-- by a header of its own -/
  | header
  /-- by the header of a table inside it -/
  | implied
  /-- by a dotted key -/
  | dotted
  /-- in braces, closed for good -/
  | inline
  deriving DecidableEq, Repr

/-- A value. -/
inductive Value where
  /-- a text -/
  | string (text : String)
  /-- a whole number, without a value if its digits turn out not to be a number -/
  | integer (n : Option Int)
  /-- any other number -/
  | real (x : Real)
  /-- a truth value -/
  | boolean (b : Bool)
  /-- a date, a time or both, as written -/
  | dateTime (text : String)
  /-- a sequence -/
  | array (items : List Value)
  /-- a table, with its keys in the order of appearance -/
  | table (kind : TableKind) (entries : List (String × Value))

/-- The keys of a table with their values. -/
abbrev Entries := List (String × Value)

namespace Value

/-- A text. -/
def asText? : Value → Option String
  | string text => some text
  | _ => none

/-- A whole number without sign, below the size of a word. -/
def asWord? (size : Nat) : Value → Option Nat
  | integer (some n) => if 0 ≤ n ∧ n < size then some n.toNat else none
  | _ => none

end Value

end MotionControl.Toml
