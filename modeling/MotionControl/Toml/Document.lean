import MotionControl.Toml.Word
import MotionControl.Toml.Table

/-!
# Documents

A document is a sequence of lines: headers in brackets, and keys with their values. Keys may be
dotted, values may be arrays and tables in braces. Within brackets and braces a value may go on over
several lines. Keys have at most eighty parts, and nesting is at most eighty deep. The result is one
table.

The recursion is bounded by a number of steps that exceeds what the length of the text allows.
-/

namespace MotionControl.Toml

/-- Read a key without dots. -/
def simpleKey? (cs : List Char) : Option (String × List Char) :=
  match quotedLine? cs with
  | some r => some r
  | none =>
    let name := cs.takeWhile isBare
    if name.isEmpty then none else some (String.ofList name, cs.dropWhile isBare)

/-- Read a dotted key of at most `limit` parts. -/
def keyPath? : (limit : Nat) → List Char → Option (List String × List Char)
  | 0, _ => none
  | limit + 1, cs => do
    let (key, cs) ← simpleKey? cs
    match skipGap cs with
    | '.' :: cs =>
      let (path, cs) ← keyPath? limit (skipGap cs)
      return (key :: path, cs)
    | cs => return ([key], cs)

/-- The greatest number of parts of a key, and the greatest depth of nesting. -/
def depthLimit : Nat := 80

/-- Read a dotted key and split off its last part. -/
def splitKey? (cs : List Char) : Option ((List String × String) × List Char) := do
  let (path, cs) ← keyPath? depthLimit cs
  let last ← path.getLast?
  return ((path.dropLast, last), cs)

/-- Read a key up to its value, given how to skip what may stand around the equals sign. -/
def keyAndEquals? (skip : List Char → List Char) (cs : List Char) :
    Option ((List String × String) × List Char) := do
  let (key, cs) ← splitKey? cs
  return (key, skip (← expect? '=' (skip cs)))

mutual

/-- Read a value with at most `depth` levels of nesting. -/
def value? : (fuel depth : Nat) → List Char → Option (Value × List Char)
  | 0, _, _ => none
  | fuel + 1, depth, '[' :: cs =>
    match depth with
    | 0 => none
    | depth + 1 => do
      let (items, cs) ← items? fuel depth [] (skipSpace cs)
      return (.array items, cs)
  | fuel + 1, depth, '{' :: cs =>
    match depth with
    | 0 => none
    | depth + 1 => do
      let (entries, cs) ← members? fuel depth [] (skipSpace cs)
      return (.table .inline entries, cs)
  | _ + 1, _, cs =>
    match quoted? cs with
    | some (text, cs) => some (.string text, cs)
    | none => do
      let (word, cs) := splitWord cs
      return (← word? word, cs)

/-- Read the remaining items of an array, behind its bracket or a comma. -/
def items? : (fuel depth : Nat) → List Value → List Char → Option (List Value × List Char)
  | 0, _, _, _ => none
  | _ + 1, _, items, ']' :: cs => some (items, cs)
  | fuel + 1, depth, items, cs => do
    let (v, cs) ← value? fuel depth cs
    match skipSpace cs with
    | ',' :: cs => items? fuel depth (items ++ [v]) (skipSpace cs)
    | ']' :: cs => return (items ++ [v], cs)
    | _ => none

/-- Read the remaining members of a table in braces, behind its brace or a comma. -/
def members? : (fuel depth : Nat) → Entries → List Char → Option (Entries × List Char)
  | 0, _, _, _ => none
  | _ + 1, _, entries, '}' :: cs => some (entries, cs)
  | fuel + 1, depth, entries, cs => do
    let ((path, key), cs) ← keyAndEquals? skipSpace cs
    let (v, cs) ← value? fuel depth cs
    let (_, entries) ← Entries.addPath path key v .inline entries
    match skipSpace cs with
    | ',' :: cs => members? fuel depth entries (skipSpace cs)
    | '}' :: cs => return (entries, cs)
    | _ => none

end

/-- Read a header behind its bracket. -/
def header? (cs : List Char) : Option ((List String × String) × List Char) := do
  let (key, cs) ← splitKey? (skipGap cs)
  return (key, ← expect? ']' (skipGap cs))

/-- Read the remaining lines, being in the table at `current`. -/
def lines? : (fuel : Nat) → (current : List String) → Entries → List Char → Option Entries
  | 0, _, _, _ => none
  | fuel + 1, current, entries, cs =>
    match skipSpace cs with
    | [] => some entries
    | '[' :: cs => do
      let ((path, key), cs) ← header? cs
      let (_, entries) ← Entries.changeAt false (Entries.openTable key) path .header entries
      lines? fuel (path ++ [key]) entries (← endLine? cs)
    | cs => do
      let ((path, key), cs) ← keyAndEquals? skipGap cs
      let (v, cs) ← value? (4 * cs.length + 4) depthLimit cs
      let (_, entries) ←
        Entries.changeAt false (Entries.addPath path key v) current .header entries
      lines? fuel current entries (← endLine? cs)

/-- Skip the mark of the byte order at the front of a file. -/
def skipByteOrderMark : List Char → List Char
  | c :: cs => if c.toNat = 0xfeff then cs else c :: cs
  | [] => []

/-- Read a document. -/
def document? (text : String) : Option Entries :=
  let cs := skipByteOrderMark text.toList
  lines? (cs.length + 1) [] [] cs

end MotionControl.Toml
