import MotionControl.Settings.Quantity
import MotionControl.Single.Basic
import MotionControl.Toml.Document

/-!
# Records in a settings file

A record is a table with known keys, each of which sets one field. Missing keys leave their fields
alone and unknown keys are refused. A record may also be given as an array of its fields in their
order; missing fields are left alone and surplus items are not looked at.
-/

namespace MotionControl

namespace Toml

/-- A single precision number. Whole numbers of at most 64 bits are converted directly, other
numbers by way of double precision, whose range they must not leave. -/
def Value.asQuantity? : Value → Option Quantity
  | .integer (some n) =>
    if Int64.minValue.toInt ≤ n ∧ n < UInt64.size then some (.ofFloat (Single.ofInt n)) else none
  | .real (.finite x) => x.toSingle?.map .ofFloat
  | .real (.infinite negative) => some ⟨if negative then 0xff800000 else 0x7f800000⟩
  | .real .nan => some ⟨0x7fc00000⟩
  | _ => none

/-- A field of a record: its key and how its value is taken over. -/
structure RecordField (σ : Type) where
  /-- the key -/
  key : String
  /-- take a value over, if it is of the right type -/
  put : Value → σ → Option σ

namespace RecordField

variable {σ α : Type}

/-- A field that reads a value of some type and stores it. -/
def of (key : String) (read : Value → Option α) (store : α → σ → σ) : RecordField σ where
  key := key
  put v s := (read v).map (store · s)

/-- Take an entry of a table over. -/
def putEntry (fields : List (RecordField σ)) (s : σ) (e : String × Value) : Option σ := do
  (← fields.find? (·.key == e.1)).put e.2 s

/-- Take a record over. -/
def putAll (fields : List (RecordField σ)) (v : Value) (s : σ) : Option σ :=
  match v with
  | .table _ entries => entries.foldlM (putEntry fields) s
  | .array items => (fields.zip items).foldlM (fun s (f, v) => f.put v s) s
  | _ => none

end RecordField

end Toml

end MotionControl
