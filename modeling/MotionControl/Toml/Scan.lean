/-!
# Scanning a settings file

The small pieces of the grammar: blanks, line ends, comments and bare keys. All of them work on the
characters not read yet and answer what is left.
-/

namespace MotionControl.Toml

/-- A blank within a line. -/
def isGap (c : Char) : Bool := c == ' ' || c == '\t'

/-- A character that may stand for itself in texts and comments. -/
def isPlain (c : Char) : Bool := c == '\t' || (' ' ≤ c && c ≤ '~') || 128 ≤ c.toNat

/-- A character of a bare key. -/
def isBare (c : Char) : Bool := c.isAlphanum || c == '_' || c == '-'

/-- Skip a character that has to be there. -/
def expect? (c : Char) : List Char → Option (List Char)
  | d :: cs => if c = d then some cs else none
  | [] => none

/-- Skip blanks within a line. -/
def skipGap (cs : List Char) : List Char := cs.dropWhile isGap

/-- Skip a line end. -/
def lineEnd? : List Char → Option (List Char)
  | '\n' :: cs => some cs
  | '\r' :: '\n' :: cs => some cs
  | _ => none

/-- Skip a comment, if there is one, up to the end of its line. -/
def skipComment : List Char → List Char
  | '#' :: cs => cs.dropWhile isPlain
  | cs => cs

/-- Skip what may follow at the end of a line: blanks, a comment, and the line end or the end of the
file. -/
def endLine? (cs : List Char) : Option (List Char) :=
  match skipComment (skipGap cs) with
  | [] => some []
  | cs => lineEnd? cs

/-- Skip blanks, line ends and comments, being inside a comment or not. -/
def skipLines : (inComment : Bool) → List Char → List Char
  | _, [] => []
  | _, '\n' :: cs => skipLines false cs
  | _, '\r' :: '\n' :: cs => skipLines false cs
  | true, c :: cs => if isPlain c then skipLines true cs else c :: cs
  | false, '#' :: cs => skipLines true cs
  | false, c :: cs => if isGap c then skipLines false cs else c :: cs

/-- Skip blanks, line ends and comments. -/
def skipSpace (cs : List Char) : List Char := skipLines false cs

end MotionControl.Toml
