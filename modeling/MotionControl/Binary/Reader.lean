import MotionControl.Binary.Varint

/-!
# Reading and writing binary values

Values of a compact binary form without field names: words as variable-length integers or as
four bytes with the low byte first, texts behind their length, truth values and option tags as 0
or 1. A `Reader` takes a value off the front of some bytes.
-/

namespace MotionControl.Binary

/-- A reader of values from the front of some bytes. -/
abbrev Reader (α : Type) := StateT (List UInt8) Option α

/-- Read one byte. -/
def readByte : Reader UInt8
  | [] => none
  | b :: bs => some (b, bs)

/-- Read a number of bytes. -/
def readBytes (count : Nat) : Reader (List UInt8) := fun bs =>
  if count ≤ bs.length then some (bs.splitAt count) else none

/-- Write a 32-bit word. -/
def encodeWord (n : UInt32) : List UInt8 := encodeVarint n.toNat

/-- Read a 32-bit word: five bytes, of which the last holds four bits. -/
def readWord : Reader UInt32 := do return UInt32.ofNat (← decodeVarint 15 5)

/-- Write a 64-bit word. -/
def encodeLong (n : UInt64) : List UInt8 := encodeVarint n.toNat

/-- Read a 64-bit word: ten bytes, of which the last holds one bit. -/
def readLong : Reader UInt64 := do return UInt64.ofNat (← decodeVarint 1 10)

/-- Write a 32-bit word as four bytes. -/
def encodeFixed (b : UInt32) : List UInt8 :=
  [b.toUInt8, (b >>> 8).toUInt8, (b >>> 16).toUInt8, (b >>> 24).toUInt8]

/-- Read a 32-bit word from four bytes. -/
def readFixed : Reader UInt32 := do
  let b0 ← readByte
  let b1 ← readByte
  let b2 ← readByte
  let b3 ← readByte
  return b0.toUInt32 ||| b1.toUInt32 <<< 8 ||| b2.toUInt32 <<< 16 ||| b3.toUInt32 <<< 24

/-- Write a truth value. -/
def encodeBool (b : Bool) : List UInt8 := [if b then 1 else 0]

/-- Read a truth value. -/
def readBool : Reader Bool := do
  match ← readByte with
  | 0 => return false
  | 1 => return true
  | _ => failure

/-- Write a value that may be missing. -/
def encodeOption {α : Type} (encode : α → List UInt8) : Option α → List UInt8
  | none => [0]
  | some x => 1 :: encode x

/-- Read a value that may be missing. -/
def readOption {α : Type} (read : Reader α) : Reader (Option α) := do
  if ← readBool then return some (← read) else return none

/-- Write a text. -/
def encodeText (s : String) : List UInt8 := encodeVarint s.utf8ByteSize ++ s.toUTF8.toList

/-- Read a text. -/
def readText : Reader String := do
  let bytes ← readBytes (← readLong).toNat
  match String.fromUTF8? ⟨bytes.toArray⟩ with
  | some s => return s
  | none => failure

end MotionControl.Binary
