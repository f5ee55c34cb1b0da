import MotionControl.Toml.Value

/-!
# Building tables

A document is built from headers and from keys with their values. Headers open tables, once each;
dotted keys open tables as well, which only further dotted keys may extend. Whatever would define
something twice is refused.
-/

namespace MotionControl.Toml

/-- Whether dotted keys may extend a table. -/
def TableKind.isOpen : TableKind → Bool
  | implied => true
  | dotted => true
  | header => false
  | inline => false

namespace Entries

/-- Replace the value of a key. -/
def replace (es : Entries) (key : String) (v : Value) : Entries :=
  es.map fun e => if e.1 = key then (key, v) else e

/-- What happens to the table at the end of a path. -/
abbrev Change := TableKind → Entries → Option (TableKind × Entries)

/-- Change the table at the end of a path. Missing tables on the way are made. A dotted path does
not lead through tables that have a header, and no path leads through what is not an open
table. -/
def changeAt (isDotted : Bool) (change : Change) : List String → Change
  | [], kind, es => change kind es
  | key :: path, kind, es =>
    match es.lookup key with
    | none => do
      let (k, inner) ← changeAt isDotted change path
        (if isDotted then .dotted else .implied) []
      return (kind, es ++ [(key, .table k inner)])
    | some (.table k inner) =>
      if k = .inline || (isDotted && !k.isOpen) then none
      else do
        let (k, inner) ← changeAt isDotted change path k inner
        return (kind, replace es key (.table k inner))
    | some _ => none

/-- Open a table by a header. It must be new, or implied by headers of tables inside it. -/
def openTable (key : String) : Change := fun kind es =>
  match es.lookup key with
  | none => some (kind, es ++ [(key, .table .header [])])
  | some (.table .implied inner) => some (kind, replace es key (.table .header inner))
  | some _ => none

/-- Give a new key of a table its value. The table has been reached by a dotted key exactly if it
was made by dotted keys. -/
def addKey (isDotted : Bool) (key : String) (v : Value) : Change := fun kind es =>
  if decide (kind = .dotted) == isDotted && (es.lookup key).isNone then
    some (kind, es ++ [(key, v)])
  else none

/-- Give a new, possibly dotted key its value. -/
def addPath (path : List String) (key : String) (v : Value) : Change :=
  changeAt true (addKey (!path.isEmpty) key v) path

end Entries

end MotionControl.Toml
