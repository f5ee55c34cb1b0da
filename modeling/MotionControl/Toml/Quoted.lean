import MotionControl.Toml.Scan

/-!
# Quoted texts

Texts stand between single or double quotes, either within a line or, between three quotes each,
over several lines. Double quotes allow escapes. Over several lines, up to two quotes may stand just
before the closing ones, and an escaped line end swallows the blank space after it.

A quoted text is read character by character by a small machine, whose state is a `Mode`.
-/

namespace MotionControl.Toml

/-- A style of quoting. -/
structure Quoting where
  /-- the quote -/
  mark : Char
  /-- escapes are recognised -/
  escapes : Bool
  /-- the text may span lines -/
  multiline : Bool

/-- Where the reading of a quoted text is. -/
inductive Mode where
  /-- between characters -/
  | text
  /-- behind some quotes in a row, which may be the closing ones -/
  | quotes (count : Nat)
  /-- behind a carriage return, which has to be part of a line end -/
  | carriage
  /-- behind a backslash -/
  | escape
  /-- in a numeric escape, with digits to come -/
  | code (left value : Nat)
  /-- in the blanks before an escaped line end -/
  | trailing
  /-- in an escaped line end, behind its carriage return -/
  | trailingCarriage
  /-- in the blank space behind an escaped line end -/
  | leading
  /-- in that blank space, behind a carriage return -/
  | leadingCarriage

/-- What one more character comes to. -/
inductive Progress where
  /-- the text goes on, with its characters so far, last first -/
  | more (mode : Mode) (chars : List Char)
  /-- the text ended with this character -/
  | closed (chars : List Char)
  /-- the text ended before this character -/
  | closedBefore (chars : List Char)
  /-- this is no text -/
  | refused

/-- The value of a hexadecimal digit. -/
def hexValue? (c : Char) : Option Nat :=
  if c.isDigit then some (c.toNat - 48)
  else if 'a' ≤ c && c ≤ 'f' then some (c.toNat - 87)
  else if 'A' ≤ c && c ≤ 'F' then some (c.toNat - 55)
  else none

/-- The character behind a backslash, if it stands for one by itself. -/
def escaped? : Char → Option Char
  | 'b' => some '\x08'
  | 't' => some '\t'
  | 'n' => some '\n'
  | 'f' => some '\x0c'
  | 'r' => some '\r'
  | 'e' => some '\x1b'
  | '"' => some '"'
  | '\\' => some '\\'
  | _ => none

/-- The number of digits behind a backslash and a letter. -/
def codeLength? : Char → Option Nat
  | 'x' => some 2
  | 'u' => some 4
  | 'U' => some 8
  | _ => none

/-- The character with a code, unless there is none. -/
def charOf? (code : Nat) : Option Char :=
  if h : code.isValidChar then some (Char.ofNatAux code h) else none

namespace Quoting

/-- A character between others. -/
def onText (q : Quoting) (chars : List Char) (c : Char) : Progress :=
  if c = q.mark then if q.multiline then .more (.quotes 1) chars else .closed chars
  else if c = '\\' && q.escapes then .more .escape chars
  else if isPlain c then .more .text (c :: chars)
  else if c = '\n' && q.multiline then .more .text (c :: chars)
  else if c = '\r' && q.multiline then .more .carriage chars
  else .refused

/-- Quotes that turned out to belong to the text. -/
def withQuotes (q : Quoting) (count : Nat) (chars : List Char) : List Char :=
  List.replicate count q.mark ++ chars

/-- A character behind quotes in a row. -/
def onQuotes (q : Quoting) (count : Nat) (chars : List Char) (c : Char) : Progress :=
  if c = q.mark then
    if count < 4 then .more (.quotes (count + 1)) chars else .closed (q.withQuotes 2 chars)
  else if count < 3 then q.onText (q.withQuotes count chars) c
  else .closedBefore (q.withQuotes (count - 3) chars)

/-- A character behind a backslash. -/
def onEscape (q : Quoting) (chars : List Char) (c : Char) : Progress :=
  match escaped? c, codeLength? c with
  | some e, _ => .more .text (e :: chars)
  | none, some length => .more (.code length 0) chars
  | none, none =>
    if !q.multiline then .refused
    else if isGap c then .more .trailing chars
    else if c = '\n' then .more .leading chars
    else if c = '\r' then .more .trailingCarriage chars
    else .refused

/-- A digit of a numeric escape. -/
def onCode (left value : Nat) (chars : List Char) (c : Char) : Progress :=
  match hexValue? c with
  | none => .refused
  | some d =>
    let value := 16 * value + d
    if 1 < left then .more (.code (left - 1) value) chars
    else
      match charOf? value with
      | some e => .more .text (e :: chars)
      | none => .refused

/-- One more character of a quoted text. -/
def step (q : Quoting) (mode : Mode) (chars : List Char) (c : Char) : Progress :=
  match mode with
  | .text => q.onText chars c
  | .quotes count => q.onQuotes count chars c
  | .carriage => if c = '\n' then .more .text ('\n' :: chars) else .refused
  | .escape => q.onEscape chars c
  | .code left value => onCode left value chars c
  | .trailing =>
    if isGap c then .more .trailing chars
    else if c = '\n' then .more .leading chars
    else if c = '\r' then .more .trailingCarriage chars
    else .refused
  | .trailingCarriage => if c = '\n' then .more .leading chars else .refused
  | .leading =>
    if isGap c || c = '\n' then .more .leading chars
    else if c = '\r' then .more .leadingCarriage chars
    else q.onText chars c
  | .leadingCarriage => if c = '\n' then .more .leading chars else .refused

/-- Read the rest of a quoted text. -/
def read? (q : Quoting) : Mode → List Char → List Char → Option (String × List Char)
  | .quotes count, chars, [] =>
    if 3 ≤ count then some (String.ofList (q.withQuotes (count - 3) chars).reverse, []) else none
  | _, _, [] => none
  | mode, chars, c :: cs =>
    match q.step mode chars c with
    | .more mode chars => q.read? mode chars cs
    | .closed chars => some (String.ofList chars.reverse, cs)
    | .closedBefore chars => some (String.ofList chars.reverse, c :: cs)
    | .refused => none

end Quoting

/-- Skip the line end directly behind opening quotes. -/
def skipFirstLineEnd (cs : List Char) : List Char := (lineEnd? cs).getD cs

/-- Read a quoted text within a line. -/
def quotedLine? : List Char → Option (String × List Char)
  | '"' :: cs => Quoting.read? ⟨'"', true, false⟩ .text [] cs
  | '\'' :: cs => Quoting.read? ⟨'\'', false, false⟩ .text [] cs
  | _ => none

/-- Read a quoted text. -/
def quoted? : List Char → Option (String × List Char)
  | '"' :: '"' :: '"' :: cs => Quoting.read? ⟨'"', true, true⟩ .text [] (skipFirstLineEnd cs)
  | '\'' :: '\'' :: '\'' :: cs =>
    Quoting.read? ⟨'\'', false, true⟩ .text [] (skipFirstLineEnd cs)
  | cs => quotedLine? cs

end MotionControl.Toml
