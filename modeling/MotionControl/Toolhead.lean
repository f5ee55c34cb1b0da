import MotionControl.Settings.Basic
import MotionControl.Single.Basic

/-!
# The toolhead

Moves are asked for in Cartesian millimetres and planned in actuator steps. A `Transform` maps the
one space to the other; a `Toolhead` keeps the Cartesian position and turns targets into moves whose
feed no actuator limit forbids.
-/

namespace MotionControl

/-- How actuator positions follow from Cartesian ones. -/
inductive Transform where
  /-- one actuator per axis -/
  | cartesian
  /-- one actuator per axis, travelling twice as far -/
  | doubled
  /-- two crossed belts: the sum and the difference of `x` and `y` -/
  | corexy
  deriving DecidableEq, Repr

namespace Transform

/-- Actuator positions of a Cartesian point. -/
def toActuator : Transform → PerAxis Float32 → PerAxis Float32
  | cartesian, p => p
  | doubled, p => p.map (2 * ·)
  | corexy, p => ⟨p.alpha + p.beta, p.alpha - p.beta, p.gamma⟩

/-- The Cartesian point of some actuator positions. -/
def toCartesian : Transform → PerAxis Float32 → PerAxis Float32
  | cartesian, p => p
  | doubled, p => p.map (· / 2)
  | corexy, p => ⟨(p.alpha + p.beta) / 2, (p.alpha - p.beta) / 2, p.gamma⟩

end Transform

/-- The Euclidean length of a vector. -/
def PerAxis.norm (v : PerAxis Float32) : Float32 :=
  (v.alpha * v.alpha + v.beta * v.beta + v.gamma * v.gamma).sqrt

/-- A straight move, ready to be planned. -/
structure Move where
  /-- where to go, in steps -/
  target : PerAxis Int32
  /-- speed along the path in mm/s -/
  feed : Float32
  /-- Cartesian length in mm -/
  distance : Float32
  /-- velocity of every axis in mm/s -/
  speeds : PerAxis Float32

/-- The Cartesian side of the machine. -/
structure Toolhead where
  /-- from Cartesian to actuator positions -/
  transform : Transform
  /-- the scale of every actuator -/
  stepsPerMm : PerAxis Float32
  /-- the speed limit of every axis in mm/s -/
  maxRates : PerAxis Float32
  /-- where the last planned move ends, in mm -/
  position : PerAxis Float32

namespace Toolhead

/-- A toolhead at the origin. -/
def ofSettings (transform : Transform) (s : Settings) : Toolhead where
  transform := transform
  stepsPerMm := s.stepsPerMm
  maxRates := s.maxRates
  position := .const 0

/-- The position in steps of a Cartesian point. -/
def toSteps (t : Toolhead) (point : PerAxis Float32) : PerAxis Int32 :=
  let actuator := t.transform.toActuator point
  .ofFn fun a => Single.roundPosition (actuator.get a * t.stepsPerMm.get a)

/-- Lower a feed so that an axis with the given share of it keeps its limit. -/
def capFeed (feed share limit : Float32) : Float32 :=
  if 0 < share && limit < feed * share then limit / share else feed

/-- Plan a straight move. A move without length or with a feed that is not positive is none. -/
def plan (t : Toolhead) (target : PerAxis Float32) (feed : Float32) : Option (Move × Toolhead) :=
  let delta : PerAxis Float32 := .ofFn fun a => target.get a - t.position.get a
  let distance := delta.norm
  if 0 < feed && 0 < distance then
    let feed := Axis.all.foldl
      (fun feed a => capFeed feed (delta.get a / distance).abs (t.maxRates.get a)) feed
    some
      ({ target := t.toSteps target
         feed := feed
         distance := distance
         speeds := delta.map (· / distance * feed) },
       { t with position := target })
  else none

/-- Take the Cartesian position from steps, after a stop has cut motion short. -/
def resetFromSteps (t : Toolhead) (steps : PerAxis Int32) : Toolhead :=
  { t with
    position := t.transform.toCartesian
      (.ofFn fun a => Single.ofInt (steps.get a).toInt / t.stepsPerMm.get a) }

end Toolhead

end MotionControl
