import MotionControl.Single.Basic
import MotionControl.Decimal.Shortest

/-!
# Fixed point phases

Step timing accumulates a phase in 16.16 fixed point: sixteen whole and sixteen fractional bits in
one unsigned word. The checked operations fail where the word would wrap, the saturating ones stop
at its ends.
-/

namespace MotionControl

/-- An unsigned 16.16 fixed point number: `bits / 65536`. -/
structure Q16 where
  /-- the number of 65536ths -/
  bits : UInt32
  deriving DecidableEq, Repr

namespace Q16

/-- Zero. -/
def zero : Q16 := ⟨0⟩

/-- One. -/
def one : Q16 := ⟨65536⟩

/-- A whole number of at most sixteen bits. -/
def ofInt (n : UInt16) : Q16 := ⟨n.toUInt32 <<< 16⟩

/-- A float, rounded down; what is not positive (a NaN too) gives zero, what is too large the
largest value. -/
def ofFloat (x : Float32) : Q16 := if 0 < x then ⟨(x * 65536).toUInt32⟩ else zero

/-- The ratio `num / den`, rounded down, if it fits and `den` is not zero. -/
def ofRatio? (num den : UInt32) : Option Q16 :=
  if den = 0 then none
  else
    let raw := num.toNat * 65536 / den.toNat
    if raw < UInt32.size then some ⟨UInt32.ofNat raw⟩ else none

/-- The nearest float. -/
def toFloat (q : Q16) : Float32 := q.bits.toFloat32 / 65536

/-- The whole part. -/
def whole (q : Q16) : UInt32 := q.bits >>> 16

/-- The fractional part. -/
def frac (q : Q16) : Q16 := ⟨q.bits &&& 0xffff⟩

/-- The sum, if it fits. -/
def add? (p q : Q16) : Option Q16 :=
  if p.bits.toNat + q.bits.toNat < UInt32.size then some ⟨p.bits + q.bits⟩ else none

/-- The sum, or the largest value. -/
def addSat (p q : Q16) : Q16 := (add? p q).getD ⟨0xffffffff⟩

/-- The difference, if it is not negative. -/
def sub? (p q : Q16) : Option Q16 :=
  if q.bits ≤ p.bits then some ⟨p.bits - q.bits⟩ else none

/-- The difference, or zero. -/
def subSat (p q : Q16) : Q16 := (sub? p q).getD zero

/-- The order of the numbers. -/
def compare (p q : Q16) : Ordering := Ord.compare p.bits q.bits

/-- The text shown in diagnostics: the shortest decimal of the nearest float. -/
def debugText (q : Q16) : String :=
  "Fixed16(" ++ Decimal.textOfBits q.toFloat.toBits ++ ")"

theorem frac_toNat (q : Q16) : q.frac.bits.toNat = q.bits.toNat % 65536 := by
  simp only [frac, UInt32.toNat_and, UInt32.toNat_ofNat]
  exact Nat.and_two_pow_sub_one_eq_mod _ 16

theorem addSat_toNat (p q : Q16) :
    (p.addSat q).bits.toNat = Nat.min (p.bits.toNat + q.bits.toNat) 0xffffffff := by
  unfold addSat add?
  have hp := p.bits.toNat_lt
  have hq := q.bits.toNat_lt
  split
  · next h =>
    rw [UInt32.size] at h
    rw [Option.getD_some, UInt32.toNat_add, Nat.mod_eq_of_lt (by omega)]
    exact (Nat.min_eq_left (by omega)).symm
  · next h =>
    rw [UInt32.size] at h
    rw [Option.getD_none]
    change 0xffffffff = _
    exact (Nat.min_eq_right (by omega)).symm

end Q16

end MotionControl
