import MotionControl.Q16
import MotionControl.Segment.Basic

/-!
# Traversals

A traversal is a segment under execution. Its step events are spread over the actuators by
Bresenham's rule: every event adds the step count of an actuator to its counter, and a counter that
becomes positive makes a step and gives back the number of events. The counters start at minus half
the number of events, so that every actuator stays within half a step of the straight line.
-/

namespace MotionControl

/-- Where a traversal is within its speed profile. -/
inductive RampPhase where
  /-- nothing is being executed -/
  | idle
  /-- speeding up to the nominal rate -/
  | accelerating
  /-- holding the nominal rate -/
  | cruising
  /-- slowing down to the final rate -/
  | decelerating
  deriving DecidableEq, Repr

/-- The name shown for a phase. -/
def RampPhase.name : RampPhase → String
  | idle => "Idle"
  | accelerating => "Accelerating"
  | cruising => "Cruising"
  | decelerating => "Decelerating"

/-- A segment under execution. -/
structure Traversal where
  /-- the slot of the segment -/
  slot : Nat
  /-- planned steps of every actuator -/
  steps : PerAxis UInt32
  /-- steps still to be made -/
  remaining : PerAxis UInt32
  /-- Bresenham counters -/
  counters : PerAxis Int
  /-- planned step events -/
  eventCount : UInt32
  /-- step events so far -/
  eventsDone : UInt32
  /-- actuators moving towards negative -/
  directions : Directions
  /-- step event rate to reach -/
  nominalRate : UInt32
  /-- step event rate to end with -/
  finalRate : UInt32
  /-- change of the rate per ramp tick -/
  rateDelta : Float32
  /-- event at which acceleration ends -/
  accelerateUntil : UInt32
  /-- event after which deceleration starts -/
  decelerateAfter : UInt32
  /-- current step event rate -/
  rate : Float32
  /-- advance of the phase per step tick -/
  increment : Q16
  /-- progress towards the next step event -/
  phase : Q16
  /-- a stop has cut the segment short -/
  interrupted : Bool

namespace Traversal

/-- The start of a segment, not moving yet. -/
def ofSegment (slot : Nat) (s : Segment) : Traversal where
  slot := slot
  steps := s.steps
  remaining := s.steps
  counters := .const (-(s.eventCount.toNat / 2 : Nat))
  eventCount := s.eventCount
  eventsDone := 0
  directions := s.directions
  nominalRate := s.nominalRate
  finalRate := s.finalRate
  rateDelta := s.rateDelta
  accelerateUntil := s.accelerateUntil
  decelerateAfter := s.decelerateAfter
  rate := 0
  increment := .zero
  phase := .zero
  interrupted := false

/-- Where the traversal is within its profile. -/
def rampPhase (t : Traversal) : RampPhase :=
  if t.eventsDone < t.accelerateUntil then .accelerating
  else if t.decelerateAfter < t.eventsDone then .decelerating
  else .cruising

/-- Whether nothing is left to do. -/
def isComplete (t : Traversal) : Bool :=
  t.eventCount ≤ t.eventsDone || t.remaining.toList.all (· == 0)

/-- Whether an actuator steps in the next event. -/
def stepsNext (t : Traversal) (a : Axis) : Bool :=
  t.remaining.get a != 0 && 0 < t.counters.get a + (t.steps.get a).toNat

/-- The actuators that step in the next event. -/
def nextMask (t : Traversal) : UInt8 :=
  Axis.all.foldl (fun mask a => if t.stepsNext a then mask ||| a.bit else mask) 0

/-- One step event. -/
def stepEvent (t : Traversal) : Traversal :=
  { t with
    counters := .ofFn fun a =>
      if t.remaining.get a = 0 then t.counters.get a
      else if t.stepsNext a then
        t.counters.get a + (t.steps.get a).toNat - t.eventCount.toNat
      else t.counters.get a + (t.steps.get a).toNat
    remaining := .ofFn fun a =>
      if t.stepsNext a then t.remaining.get a - 1 else t.remaining.get a
    eventsDone := t.eventsDone + 1 }

/-- Whether a stop of some actuators cuts steps off. -/
def isCutBy (t : Traversal) (stopped : UInt8) : Bool :=
  Axis.all.any fun a => a.isIn stopped && t.remaining.get a != 0

/-- Drop the remaining steps of the stopped actuators. -/
def cut (t : Traversal) (stopped : UInt8) : Traversal :=
  { t with
    remaining := .ofFn fun a => if a.isIn stopped then 0 else t.remaining.get a
    interrupted := t.interrupted || t.isCutBy stopped }

/-- Advance the phase by one step tick. -/
def advancePhase (t : Traversal) : Traversal := { t with phase := t.phase.addSat t.increment }

/-- Whether the phase has reached a step event. -/
def isDue (t : Traversal) : Bool := Q16.one.bits ≤ t.phase.bits

/-- Take a due step event off the phase. -/
def wrapPhase (t : Traversal) : Traversal := { t with phase := t.phase.frac }

end Traversal

end MotionControl
