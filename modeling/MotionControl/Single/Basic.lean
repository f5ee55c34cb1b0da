/-!
# Single precision quantities

Speeds, lengths and accelerations are `Float32`; every operation rounds once. This module adds
what the arithmetic of the planner needs besides the four operations and the square root:

* `min` and `max`, which prefer a number to a NaN;
* rounding to whole numbers as exact integers: `truncate`, `ceil`, `floor`, `round`;
* the clamped counts made of them (`ceilCount`, `roundPosition`) and the way back (`ofInt`).

Values beyond `2 ^ 64` are cut there by `truncate`; all clamped results lie far below.
-/

namespace MotionControl.Single

/-- The smaller of two values; a NaN gives way to the other. -/
def min (x y : Float32) : Float32 := if y < x || x.isNaN then y else x

/-- The larger of two values; a NaN gives way to the other. -/
def max (x y : Float32) : Float32 := if x < y || x.isNaN then y else x

/-- The float nearest to a whole number of magnitude below `2 ^ 64`. -/
def ofInt (n : Int) : Float32 :=
  if n < 0 then -n.natAbs.toUInt64.toFloat32 else n.natAbs.toUInt64.toFloat32

/-- The whole part, towards zero; a NaN counts as zero. -/
def truncate (x : Float32) : Int :=
  if x < 0 then -((-x).toUInt64.toNat : Int) else x.toUInt64.toNat

/-- The least whole number not below `x`. -/
def ceil (x : Float32) : Int :=
  let t := truncate x
  if ofInt t < x then t + 1 else t

/-- The greatest whole number not above `x`. -/
def floor (x : Float32) : Int :=
  let t := truncate x
  if x < ofInt t then t - 1 else t

/-- The nearest whole number; a half goes away from zero. -/
def round (x : Float32) : Int :=
  let t := truncate x
  let d := x - ofInt t
  if 0.5 ≤ d then t + 1 else if d ≤ -0.5 then t - 1 else t

/-- Clamp a whole number into a range. -/
def clamp (lo hi n : Int) : Int := if n < lo then lo else if hi < n then hi else n

theorem le_clamp {lo hi : Int} (h : lo ≤ hi) (n : Int) : lo ≤ clamp lo hi n := by
  unfold clamp
  split
  · omega
  · split <;> omega

theorem clamp_le {lo hi : Int} (h : lo ≤ hi) (n : Int) : clamp lo hi n ≤ hi := by
  unfold clamp
  split
  · omega
  · split <;> omega

/-- Round up to an unsigned 32-bit count, clamping at both ends. -/
def ceilCount (x : Float32) : UInt32 := UInt32.ofNatClamp (ceil x).toNat

/-- Round to a signed 32-bit position, clamping at both ends. -/
def roundPosition (x : Float32) : Int32 :=
  Int32.ofInt (clamp Int32.minValue.toInt Int32.maxValue.toInt (round x))

/-- The whole value below `x` as a float; from `2 ^ 24` on every float is whole. -/
def wholeBelow (x : Float32) : Float32 :=
  if x.abs < 16777216 then ofInt (floor x) else x

end MotionControl.Single
