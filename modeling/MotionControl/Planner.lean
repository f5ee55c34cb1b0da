import MotionControl.Dispatcher
import MotionControl.Lookahead
import MotionControl.Toolhead

/-!
# The planner

The planner turns moves into segments and keeps the profiles of all pending segments limited in
jerk and physically reachable. Every move that is queued replans the whole window of segments that
have not begun.
-/

namespace MotionControl

/-- What the planner has to respect. -/
structure Tuning where
  /-- acceleration in mm/s² -/
  acceleration : Float32
  /-- largest speed change at a junction, in mm/s -/
  maxJerk : Float32
  /-- speed the newest segment plans to end at, in mm/s -/
  minimumSpeed : Float32
  /-- ramp tick rate in Hz -/
  accelerationTicks : UInt32

/-- The tuning found in some settings. -/
def Tuning.ofSettings (s : Settings) : Tuning where
  acceleration := s.acceleration.value
  maxJerk := s.maxJerk.value
  minimumSpeed := s.minimumPlannerSpeed.value
  accelerationTicks := s.accelerationTicks

/-- The planner's memory of the last queued move. -/
structure Planner where
  /-- the tuning in use -/
  tuning : Tuning
  /-- where the last queued move ends, in steps -/
  position : PerAxis Int32
  /-- velocity of every axis in the last move -/
  previousSpeeds : PerAxis Float32
  /-- feed of the last move; zero if there is none to take into account -/
  previousNominalSpeed : Float32

namespace Planner

variable {n : Nat} {σ : Type}

/-- A planner at the origin. -/
def ofTuning (tuning : Tuning) : Planner where
  tuning := tuning
  position := .const 0
  previousSpeeds := .const 0
  previousNominalSpeed := 0

/-- Take over another position. The next move starts from rest. -/
def resetPosition (p : Planner) (position : PerAxis Int32) : Planner :=
  { ofTuning p.tuning with position := position }

/-- The signed steps of an actuator to a target. -/
def delta (p : Planner) (target : PerAxis Int32) (a : Axis) : Int :=
  (target.get a).toInt - (p.position.get a).toInt

/-- The largest of three step counts. -/
def eventCount (steps : PerAxis UInt32) : UInt32 := max (max steps.alpha steps.beta) steps.gamma

/-- The speed at which a move may be entered: half the jerk from rest, otherwise what the change of
velocity against the last move allows. -/
def junctionSpeed (p : Planner) (m : Move) (fromRest : Bool) : Float32 :=
  if fromRest then Single.min (p.tuning.maxJerk / 2) m.feed
  else
    let change : PerAxis Float32 := .ofFn fun a => m.speeds.get a - p.previousSpeeds.get a
    let jerk := change.norm
    let slower := Single.min p.previousNominalSpeed m.feed
    if p.tuning.maxJerk < jerk then slower * (p.tuning.maxJerk / jerk) else slower

/-- The segment of a move, with a cautious profile that the lookahead revises. -/
def segmentOf (p : Planner) (m : Move) (fromRest : Bool) : Except Fault Segment :=
  let steps : PerAxis UInt32 := .ofFn fun a => UInt32.ofNat (p.delta m.target a).natAbs
  let count := eventCount steps
  let junction := p.junctionSpeed m fromRest
  let allowable :=
    Profile.maxAllowableSpeed (-p.tuning.acceleration) p.tuning.minimumSpeed m.distance
  let segment := { Segment.empty with
    steps := steps
    directions := .ofAxes (.ofFn fun a => p.delta m.target a < 0)
    eventCount := count
    length := m.distance
    nominalSpeed := m.feed
    nominalRate := max (Single.ceilCount (count.toFloat32 * m.feed / m.distance)) 1
    acceleration := p.tuning.acceleration
    rateDelta := count.toFloat32 / m.distance * p.tuning.acceleration
      / p.tuning.accelerationTicks.toFloat32
    maxEntrySpeed := junction
    entrySpeed := Single.min junction allowable
    reachesNominal := m.feed ≤ allowable
    stale := true }
  let safe := segment.safeFactor p.tuning.maxJerk
  { segment with exitSpeed := m.feed * safe }.planTrapezoid safe safe

/-- Replan every pending segment that has not begun. -/
def recalculate (p : Planner) (d : Dispatcher n σ) : Except Fault (Dispatcher n σ) := do
  let (window, locked) := d.ring.lockWindow
  let replanned ← Lookahead.replan window.boundary p.tuning.minimumSpeed
    (locked.segments window.slots)
  return d.setRing ((locked.setSegments window.slots replanned).unlock window.slots)

/-- Whether a move goes anywhere. -/
def accepts (p : Planner) (m : Move) : Bool :=
  m.target != p.position && 0 < m.feed && 0 < m.distance

/-- Queue a move, waiting for room, and answer whether there was anything to move. Commands that
wait at the head are published first. -/
def append (p : Planner) (m : Move) (idle : Idle n σ) (d : Dispatcher n σ) :
    Except Fault (Bool × Planner × Idle n σ × Dispatcher n σ) :=
  if p.accepts m then do
    let (idle, d) ← d.pushCarrier idle
    let (idle, d) ← d.waitForSpace idle
    let fromRest := !d.ring.hasPending || p.previousNominalSpeed ≤ 0
    let segment ← p.segmentOf m fromRest
    let p := { p with
      position := m.target
      previousSpeeds := m.speeds
      previousNominalSpeed := m.feed }
    let (idle, d) ← (d.setHead segment).queueHead idle
    let d ← p.recalculate d
    return (true, p, idle, { d with plant := d.plant.publish .wokeUp })
  else .ok (false, p, idle, d)

end Planner

end MotionControl
