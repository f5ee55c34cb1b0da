import MotionControl.Plant
import MotionControl.Settings.Basic
import MotionControl.Single.Basic
import MotionControl.Stepper.Traversal

/-!
# The stepper

The interrupt's side of a plant. Two timers drive it:

* `Plant.tick`, at the base frequency, advances the phase of the traversal and performs a step
  event whenever the phase reaches one;
* `Plant.rampTick`, at the ramp tick rate, moves the step rate along the trapezoid.

The stepper begins the next segment when one is over. Carriers are passed over at once: their
commands run and no time goes by. A latched stop keeps anything from beginning; a stop that cuts
steps off the segment under execution cancels it with all that waits behind it.
-/

namespace MotionControl

/-- The lines to drive after a step tick. -/
structure StepOutput where
  /-- the actuators to pulse -/
  step : UInt8
  /-- the directions of the segment under execution -/
  directions : Directions
  deriving DecidableEq, Repr

/-- Nothing to pulse. -/
def StepOutput.idle : StepOutput := ⟨0, ⟨0⟩⟩

/-- Whether any actuator steps. -/
def StepOutput.hasSteps (o : StepOutput) : Bool := o.step != 0

/-- The state of the step interrupt. -/
structure Stepper where
  /-- step tick rate in Hz -/
  baseFrequency : UInt32
  /-- lower bound on the step rate -/
  minimumRate : UInt32
  /-- the segment under execution -/
  current : Option Traversal
  /-- the position reached, in steps -/
  position : PerAxis Int32

namespace Stepper

/-- A stepper at rest at the origin. -/
def ofSettings (s : Settings) : Stepper where
  baseFrequency := s.baseFrequency
  minimumRate := min s.minimumStepRate s.baseFrequency
  current := none
  position := .const 0

/-- Whether a segment is under execution. -/
def isBusy (s : Stepper) : Bool := s.current.isSome

/-- Where the stepper is within the profile of its segment. -/
def phase (s : Stepper) : RampPhase :=
  match s.current with
  | some t => t.rampPhase
  | none => .idle

/-- The current step event rate, rounded up; zero at rest. -/
def stepRate (s : Stepper) : UInt32 :=
  match s.current with
  | some t => Single.ceilCount t.rate
  | none => 0

/-- The phase advance per step tick for a step rate. -/
def incrementOf (s : Stepper) (rate : UInt32) : Q16 :=
  (Q16.ofRatio? (min rate s.baseFrequency) s.baseFrequency).getD .one

/-- The rate at which a segment is entered. -/
def entryRate (s : Stepper) (segment : Segment) : Float32 :=
  (min (max segment.initialRate s.minimumRate) s.baseFrequency).toFloat32

/-- The rate after one ramp tick. -/
def nextRate (s : Stepper) (t : Traversal) : Float32 :=
  let nominal := t.nominalRate.toFloat32
  let minimum := s.minimumRate.toFloat32
  let rate :=
    match t.rampPhase with
    | .accelerating => Single.min (t.rate + t.rateDelta) nominal
    | .decelerating =>
      let lowest := Single.max t.finalRate.toFloat32 minimum
      if lowest < t.rate then Single.max (t.rate - t.rateDelta) lowest else t.rate
    | .cruising => if t.accelerateUntil < t.decelerateAfter then nominal else t.rate
    | .idle => t.rate
  Single.min (Single.max rate minimum) s.baseFrequency.toFloat32

/-- One step of a position in the direction of a segment. -/
def stepPosition (position : Int32) (negative : Bool) : Except Fault Int32 :=
  if negative then
    if position = Int32.minValue then .error .addOverflow else .ok (position - 1)
  else if position = Int32.maxValue then .error .addOverflow
  else .ok (position + 1)

/-- The position after the actuators of a mask have made a step. -/
def movePosition (position : PerAxis Int32) (mask : UInt8) (d : Directions) :
    Except Fault (PerAxis Int32) :=
  Axis.all.foldlM (fun position a =>
    if a.isIn mask then do
      return position.set a (← stepPosition (position.get a) (d.isNegative a.index))
    else .ok position) position

end Stepper

namespace Plant

variable {n : Nat}

/-- Replace the segment under execution. -/
def setCurrent (p : Plant n Stepper) (t : Option Traversal) : Plant n Stepper :=
  { p with side := { p.side with current := t } }

/-- Drop everything that is pending. -/
def abort (p : Plant n Stepper) : Plant n Stepper := { p with ring := p.ring.abort }

/-- Give a traversal a step rate and report the change. -/
def runAt (p : Plant n Stepper) (t : Traversal) (rate : Float32) : Plant n Stepper :=
  let whole := Single.ceilCount rate
  (p.setCurrent (some { t with rate := rate, increment := p.side.incrementOf whole })).publish
    (.speedChanged whole t.nominalRate)

/-- Start executing a segment that has begun. -/
def execute (p : Plant n Stepper) (slot : Nat) (s : Segment) : Plant n Stepper :=
  (p.publish (.began s)).runAt (.ofSegment slot s) (p.side.entryRate s)

/-- Report a completed segment: its commands first, then its end. -/
def publishCompletion (p : Plant n Stepper) (s : Segment) : Plant n Stepper :=
  (s.commands.toList.foldl (fun p c => p.publish (.commandDue c)) p).publish (.ended s)

/-- From a segment that has begun, pass over carriers until one has motion to execute. Every carrier
passed over uses up a slot that was ready, so `fuel` beyond the number of slots is never used
up. -/
def passCarriers : Nat → Option Nat → Plant n Stepper → Except Fault (Plant n Stepper)
  | 0, _, p => .ok (p.setCurrent none)
  | _ + 1, none, p => .ok (p.setCurrent none)
  | fuel + 1, some slot, p => do
    let s ← p.ring.executing slot
    if s.hasMotion then return p.execute slot s
    else
      let p := p.publishCompletion s
      let (next, ring) ← p.ring.release slot
      passCarriers fuel next { p with ring := ring }

/-- Go on with a segment that has begun, if any, unless a stop is latched. -/
def advance (next : Option Nat) (p : Plant n Stepper) : Except Fault (Plant n Stepper) :=
  if next.isSome && p.stop.isActive then .ok (p.setCurrent none).abort
  else passCarriers (n + 2) next p

/-- Abandon the segment under execution and everything behind it. -/
def cancel (p : Plant n Stepper) : Plant n Stepper := (p.setCurrent none).abort

/-- Complete the segment under execution and go on. -/
def complete (p : Plant n Stepper) (t : Traversal) : Except Fault (Plant n Stepper) := do
  let p := p.setCurrent none
  let s ← p.ring.executing t.slot
  let p := p.publishCompletion s
  let (next, ring) ← p.ring.release t.slot
  advance next { p with ring := ring }

/-- Begin the next segment while nothing is executed. -/
def beginNext (p : Plant n Stepper) : Except Fault (Plant n Stepper) :=
  match p.ring.start? with
  | some (slot, ring) => advance (some slot) { p with ring := ring }
  | none => advance none p

/-- Perform the step event that is due. -/
def performEvent (p : Plant n Stepper) (t : Traversal) :
    Except Fault (StepOutput × Plant n Stepper) := do
  let mask := t.nextMask
  let position ← Stepper.movePosition p.side.position mask t.directions
  let t := t.stepEvent
  let p := { p with side := { p.side with position := position, current := some t } }
  let p ←
    if t.isComplete then (if t.interrupted then .ok p.cancel else p.complete t) else .ok p
  return (⟨mask, t.directions⟩, p)

/-- Advance the phase of the traversal, performing a step event if one is due. -/
def advancePhase (p : Plant n Stepper) (t : Traversal) :
    Except Fault (StepOutput × Plant n Stepper) :=
  let t := t.advancePhase
  if t.isDue then p.performEvent t.wrapPhase
  else .ok (.idle, p.setCurrent (some t))

/-- A step tick of a traversal: obey the stop mask, then advance. -/
def traverse (p : Plant n Stepper) (t : Traversal) : Except Fault (StepOutput × Plant n Stepper) :=
  let t := t.cut p.stop.bits
  if p.stop.isActive && t.interrupted && t.isComplete then .ok (.idle, p.cancel)
  else p.advancePhase t

/-- A tick of the step timer. -/
def tick (p : Plant n Stepper) : Except Fault (StepOutput × Plant n Stepper) :=
  match p.side.current with
  | some t => p.traverse t
  | none =>
    if p.stop.isActive then
      .ok (.idle, if p.ring.hasPending then p.abort else p)
    else do
      let p ← p.beginNext
      match p.side.current with
      | some t => p.traverse t
      | none => return (.idle, p)

/-- A tick of the ramp timer. -/
def rampTick (p : Plant n Stepper) : Plant n Stepper :=
  match p.side.current with
  | some t =>
    let rate := p.side.nextRate t
    if rate == t.rate then p else p.runAt t rate
  | none => p

end Plant

end MotionControl
