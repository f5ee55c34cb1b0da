/-!
# Quantities in settings

Speeds, accelerations and scales are single precision numbers. Settings keep the four bytes of each
one as they came in, so that what is written equals what was read even where it is not a number.
-/

namespace MotionControl

/-- A single precision number, kept bit for bit. -/
structure Quantity where
  /-- sign, exponent and fraction -/
  bits : UInt32
  deriving DecidableEq, Repr

namespace Quantity

/-- The number to calculate with. -/
def value (q : Quantity) : Float32 := Float32.ofBits q.bits

/-- The quantity with some value. -/
def ofFloat (x : Float32) : Quantity := ⟨x.toBits⟩

end Quantity

end MotionControl
