import MotionControl.Fault
import MotionControl.Segment.Basic
import MotionControl.Single.Basic

/-!
# Speed profiles

The kinematics of one segment: which speeds its length allows, what the two lookahead passes do to
its entry speed, and the trapezoid of step rates that entry and exit speed ask for. Speeds within
a segment are compared through factors, fractions of the requested speed in `[0, 1]`.
-/

namespace MotionControl

namespace Profile

/-- The speed from which `targetSpeed` can still be reached within `distance`. Slowing down is a
negative `acceleration`. -/
def maxAllowableSpeed (acceleration targetSpeed distance : Float32) : Float32 :=
  (Single.max (targetSpeed * targetSpeed - 2 * acceleration * distance) 0).sqrt

/-- Steps from one rate to another at an acceleration in steps/s². -/
def accelerationDistance (initialRate targetRate acceleration : Float32) : Float32 :=
  if acceleration == 0 then 0
  else (targetRate * targetRate - initialRate * initialRate) / (2 * acceleration)

/-- Steps after which acceleration must turn into deceleration when there is no room to reach the
requested rate. -/
def intersectionDistance (initialRate finalRate acceleration distance : Float32) : Float32 :=
  if acceleration == 0 then 0
  else (2 * acceleration * distance - initialRate * initialRate + finalRate * finalRate)
    / (4 * acceleration)

/-- A factor cut to `[0, 1]`; a NaN counts as zero. -/
def unitFactor (factor : Float32) : Float32 :=
  if 1 ≤ factor then 1 else if 0 < factor then factor else 0

/-- A whole number of a signed 64-bit word, cut at its ends. -/
def clampWord (n : Int) : Int := Single.clamp Int64.minValue.toInt Int64.maxValue.toInt n

/-- The difference of two signed 64-bit words, if it is one. -/
def subWord (m n : Int) : Except Fault Int :=
  if Int64.minValue.toInt ≤ m - n ∧ m - n ≤ Int64.maxValue.toInt then .ok (m - n)
  else .error .subtractOverflow

end Profile

namespace Segment

open Profile

/-- A speed as a fraction of the requested speed. -/
def speedFactor (s : Segment) (speed : Float32) : Float32 :=
  if 0 < s.nominalSpeed then unitFactor (speed / s.nominalSpeed) else 0

/-- Entry speed as a fraction of the requested speed. -/
def entryFactor (s : Segment) : Float32 := s.speedFactor s.entrySpeed

/-- Exit speed as a fraction of the requested speed. -/
def exitFactor (s : Segment) : Float32 := s.speedFactor s.exitSpeed

/-- Acceleration in step events per second squared. -/
def stepAcceleration (s : Segment) : Float32 :=
  if 0 < s.length then s.eventCount.toFloat32 / s.length * s.acceleration else 0

/-- The factor at which a segment may be entered and left before any lookahead. -/
def safeFactor (s : Segment) (maxJerk : Float32) : Float32 :=
  if s.nominalSpeed ≤ 0 then 1 else unitFactor (maxJerk / s.nominalSpeed)

/-- The fastest the segment can end, given how it is entered. -/
def maxExitSpeed (s : Segment) : Float32 :=
  if s.reachesNominal then s.nominalSpeed
  else Single.min (maxAllowableSpeed (-s.acceleration) s.entrySpeed s.length) s.nominalSpeed

/-- Plan a new entry speed and mark the profile stale if that changes it. -/
def planEntry (s : Segment) (speed : Float32) : Segment :=
  if speed == s.entrySpeed then s else { s with entrySpeed := speed, stale := true }

/-- The pass from the newest segment to the oldest: enter no faster than what still lets the
segment slow down to `nextEntry`, the entry speed of the segment after it. -/
def reversePass (s : Segment) (nextEntry : Float32) : Segment :=
  let constrained := !s.reachesNominal && decide (nextEntry < s.maxEntrySpeed)
  if s.entrySpeed == s.maxEntrySpeed && !constrained then s
  else if constrained then
    s.planEntry
      (Single.min s.maxEntrySpeed (maxAllowableSpeed (-s.acceleration) nextEntry s.length))
  else s.planEntry s.maxEntrySpeed

/-- The pass from the oldest segment to the newest: enter no faster than the previous segment can
be going when it ends. -/
def forwardPass (s : Segment) (previousMaxExit : Float32) : Segment :=
  let reachable := Single.min (Single.min previousMaxExit s.nominalSpeed) s.maxEntrySpeed
  if reachable < s.entrySpeed then { s with entrySpeed := reachable, stale := true } else s

/-- The step rate of a factor, rounded up, at most the nominal rate. -/
def rateOfFactor (s : Segment) (factor : Float32) : UInt32 :=
  min (Single.ceilCount (s.nominalRate.toFloat32 * unitFactor factor)) s.nominalRate

/-- Compute the trapezoid of step rates for given entry and exit factors: accelerate to the nominal
rate, cruise, decelerate. Without room to cruise the two ramps meet in between. -/
def planTrapezoid (s : Segment) (entryFactor exitFactor : Float32) : Except Fault Segment :=
  let s := { s with
    initialRate := s.rateOfFactor entryFactor
    finalRate := s.rateOfFactor exitFactor }
  let acceleration := s.stepAcceleration
  if s.eventCount = 0 || acceleration ≤ 0 then
    .ok { s with accelerateUntil := 0, decelerateAfter := s.eventCount }
  else do
    let count : Int := s.eventCount.toNat
    let initial := s.initialRate.toFloat32
    let nominal := s.nominalRate.toFloat32
    let final := s.finalRate.toFloat32
    let up := clampWord (Single.ceil (accelerationDistance initial nominal acceleration))
    let down := clampWord (Single.floor (accelerationDistance nominal final (-acceleration)))
    let plateau ← subWord (← subWord count up) down
    if plateau < 0 then
      let meet := Single.clamp 0 count (clampWord (Single.ceil
        (intersectionDistance initial final acceleration s.eventCount.toFloat32)))
      .ok { s with accelerateUntil := UInt32.ofInt meet, decelerateAfter := UInt32.ofInt meet }
    else
      .ok { s with
        accelerateUntil := UInt32.ofInt up
        decelerateAfter := UInt32.ofInt (up + plateau) }

end Segment

end MotionControl
