import MotionControl.Toml.DateTime
import MotionControl.Toml.Quoted
import MotionControl.Toml.Value

/-!
# Words

Truth values, numbers, dates and times are written as single words. Whole numbers are decimal, or
hexadecimal, octal or binary behind `0x`, `0o` or `0b`. Other numbers have a point, an exponent or
both, or are `inf` or `nan`. Underscores may separate digits. Decimal numbers have no superfluous
leading zeros and may have a sign, the others may not.

A word goes on behind blanks if more of it follows on the same line, as in a date and its time.

A word is judged in two steps. `word?` refuses what is no value at all, wherever it stands. The
digits of a whole number are looked at again when its value is found: what follows the first
underscore of a decimal need not be digits, and digits may be missing behind `0x`, `0o` or `0b`.
Such numbers may stand where no value is asked for.
-/

namespace MotionControl.Toml

/-- Whether every underscore stands between two digits; `behindDigit` says whether there is a digit
just before. -/
def separatesDigits (isDigit : Char → Bool) : (behindDigit : Bool) → List Char → Bool
  | _, [] => true
  | behindDigit, '_' :: cs =>
    behindDigit && cs.head?.any isDigit && separatesDigits isDigit false cs
  | _, c :: cs => separatesDigits isDigit (isDigit c) cs

/-- The characters without underscores. -/
def withoutUnderscores (cs : List Char) : List Char := cs.filter (· != '_')

/-- Whether there is a zero in front of other characters. -/
def hasLeadingZero : List Char → Bool
  | '0' :: _ :: _ => true
  | _ => false

/-- Take a sign off the front, if there is one, and say whether it is negative. -/
def splitSign : List Char → Bool × List Char
  | '-' :: cs => (true, cs)
  | '+' :: cs => (false, cs)
  | cs => (false, cs)

/-- A whole number with a sign. -/
def signed (negative : Bool) (n : Nat) : Int := if negative then -n else n

/-- Whether there are decimal digits and nothing else. -/
def isDigits (cs : List Char) : Bool := !cs.isEmpty && cs.all Char.isDigit

/-- The value of decimal digits. -/
def digits? (cs : List Char) : Option Nat :=
  if isDigits cs then some (Nat.ofDigitChars 10 cs 0) else none

/-- Whether a character is a digit of a base. -/
def isDigitOf (base : Nat) (c : Char) : Bool := (hexValue? c).any (· < base)

/-- A whole number in a base other than ten, behind the letter that names the base. -/
def based? (base : Nat) (cs : List Char) : Option Value :=
  let ds := withoutUnderscores cs
  if ds.all (isDigitOf base) && separatesDigits (isDigitOf base) false cs then
    some (.integer (if ds.isEmpty then none
      else some (ds.foldl (fun n d => base * n + (hexValue? d).getD 0) 0 : Nat)))
  else none

/-- A decimal whole number behind its sign. Behind the first underscore, all that is looked at here
is where further underscores stand and that there is no space. -/
def whole? (negative : Bool) (cs : List Char) : Option Value :=
  let tail := cs.dropWhile Char.isDigit
  if !cs.isEmpty && (tail.isEmpty || tail.head? == some '_') && !hasLeadingZero cs
      && !cs.contains ' ' && separatesDigits (isDigitOf 16) false cs then
    some (.integer ((digits? (withoutUnderscores cs)).map (signed negative)))
  else none

/-- The part of a word before a mark and the part behind it, if there is one. -/
def splitAtMark (isMark : Char → Bool) (cs : List Char) : List Char × Option (List Char) :=
  match cs.dropWhile fun c => !isMark c with
  | [] => (cs, none)
  | _ :: rest => (cs.takeWhile fun c => !isMark c, some rest)

/-- An exponent; a missing one is zero. -/
def exponent? : Option (List Char) → Option Int
  | none => some 0
  | some cs =>
    let (negative, cs) := splitSign cs
    (digits? cs).map (signed negative)

/-- Whether a character starts an exponent. -/
def isExponentMark (c : Char) : Bool := c == 'e' || c == 'E'

/-- A number with a point or an exponent, behind its sign. -/
def real? (negative : Bool) (cs : List Char) : Option Value :=
  let (mantissa, exponent) := splitAtMark isExponentMark (withoutUnderscores cs)
  let (whole, fraction) := splitAtMark (· == '.') mantissa
  if isDigits whole && !hasLeadingZero whole && fraction.all isDigits
      && separatesDigits Char.isDigit false cs then do
    let places := fraction.getD []
    let digits := Nat.ofDigitChars 10 (whole ++ places) 0
    return .real (.finite ⟨negative, digits, (← exponent? exponent) - places.length⟩)
  else none

/-- A value that is written as a single word. -/
def word? : List Char → Option Value
  | ['t', 'r', 'u', 'e'] => some (.boolean true)
  | ['f', 'a', 'l', 's', 'e'] => some (.boolean false)
  | '0' :: 'x' :: cs => based? 16 cs
  | '0' :: 'o' :: cs => based? 8 cs
  | '0' :: 'b' :: cs => based? 2 cs
  | word =>
    match splitSign word with
    | (negative, ['i', 'n', 'f']) => some (.real (.infinite negative))
    | (_, ['n', 'a', 'n']) => some (.real .nan)
    | (negative, cs) =>
      let next := (cs.dropWhile Char.isDigit).head?
      if next == some '-' || next == some ':' then
        if isDateTime word then some (.dateTime (String.ofList word)) else none
      else if cs.any fun c => c == '.' || isExponentMark c then real? negative cs
      else whole? negative cs

/-- A character that cannot stand in a word, blanks apart. -/
def endsWord (c : Char) : Bool :=
  c == '\n' || c == '\r' || c == ',' || c == '=' || c == '#'
    || c == '[' || c == ']' || c == '{' || c == '}'

/-- Whether a word goes on behind blanks: quotes may stand in a word but do not begin a part. -/
def goesOn (cs : List Char) : Bool :=
  (skipGap cs).head?.any fun c => !endsWord c && c != '"' && c != '\''

/-- Read on in a word whose characters so far are given, last first. -/
def restOfWord (word : List Char) : List Char → List Char × List Char
  | [] => (word.reverse, [])
  | c :: cs =>
    if endsWord c || (isGap c && !goesOn cs) then (word.reverse, c :: cs)
    else restOfWord (c :: word) cs

/-- Split a word off the front. -/
def splitWord (cs : List Char) : List Char × List Char := restOfWord [] cs

end MotionControl.Toml
