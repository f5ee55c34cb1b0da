/-!
# Nearest binary values

The binary value nearest to a decimal, a half going to the even neighbour. A `Scientific` is a
decimal with an exponent; `Scientific.toDouble?` rounds it to 53 bits, which fails when it is too
large for that format, and `Dyadic.toSingle` rounds on to 24 bits, where too large values become
infinite.
-/

namespace MotionControl

/-- The number `± digits * 10 ^ exponent`. -/
structure Scientific where
  /-- the sign -/
  negative : Bool
  /-- the digits, read as a whole number -/
  digits : Nat
  /-- the power of ten -/
  exponent : Int
  deriving DecidableEq, Repr

/-- The number `mantissa * 2 ^ exponent`. -/
structure Dyadic where
  /-- the bits, read as a whole number -/
  mantissa : Nat
  /-- the power of two -/
  exponent : Int
  deriving DecidableEq, Repr

namespace Dyadic

/-- The whole number nearest to a quotient; a half goes to the even neighbour. -/
def roundQuotient (num den : Nat) : Nat :=
  let q := num / den
  let r := num % den
  if 2 * r < den then q else if den < 2 * r then q + 1 else q + q % 2

/-- The greatest `e` with `2 ^ e` at most a quotient of positive numbers. -/
def floorLog (num den : Nat) : Int :=
  let e : Int := (num.log2 : Int) - den.log2
  if num <<< (-e).toNat < den <<< e.toNat then e - 1 else e

/-- The number with at most `bits` bits and an exponent of at least `least` that is nearest to a
quotient of positive numbers. -/
def nearest (bits : Nat) (least : Int) (num den : Nat) : Dyadic :=
  let e := max (floorLog num den - bits + 1) least
  ⟨roundQuotient (num <<< (-e).toNat) (den <<< e.toNat), e⟩

/-- The number of bits before the point: the number is below `2 ^ size`. -/
def size (d : Dyadic) : Int := (d.mantissa.log2 : Int) + 1 + d.exponent

/-- The nearest single precision value. -/
def toSingle (negative : Bool) (d : Dyadic) : Float32 :=
  let magnitude : UInt32 :=
    if d.mantissa = 0 then 0
    else
      let m := nearest 24 (-149) (d.mantissa <<< d.exponent.toNat) (1 <<< (-d.exponent).toNat)
      if 128 < m.size then 0x7f800000
      else
        -- A mantissa of 2 ^ 24 carries into the exponent.
        UInt32.ofNat ((m.exponent + 149).toNat * 0x800000 + m.mantissa)
  Float32.ofBits (if negative then 0x80000000 ||| magnitude else magnitude)

end Dyadic

namespace Scientific

/-- The nearest number of 53 bits, unless that is too large for double precision. Numbers far from
its range are recognised by their size in decimal. -/
def toDouble? (s : Scientific) : Option Dyadic :=
  let size : Int := (Nat.toDigits 10 s.digits).length + s.exponent
  if s.digits = 0 || size < -400 then some ⟨0, 0⟩
  else if 400 < size then none
  else
    let d := Dyadic.nearest 53 (-1074) (s.digits * Nat.pow 10 s.exponent.toNat)
      (Nat.pow 10 (-s.exponent).toNat)
    if 1024 < d.size then none else some d

/-- The single precision value, rounded by way of double precision. -/
def toSingle? (s : Scientific) : Option Float32 := (s.toDouble?).map (Dyadic.toSingle s.negative)

end Scientific

end MotionControl
