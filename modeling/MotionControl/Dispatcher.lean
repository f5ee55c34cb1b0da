import MotionControl.Plant

/-!
# The dispatcher

The main loop's side of the ring. It publishes the segment prepared at the head, keeps the ring
running, clears finished segments while idle, attaches commands behind the motion queued so far,
and waits for room or for the end of all motion.

A wait calls back to the rest of the main loop, during which the interrupt may do its work. What
the successive calls do is an `Idle` script: a list of actions on the plant, one per call. A wait
consumes the script from its front, and hands back what is left of it when it is over. When the
script is used up before that, the wait has failed.
-/

namespace MotionControl

/-- What happens in the successive idle calls of a wait. -/
abbrev Idle (n : Nat) (σ : Type) := List (Plant n σ → Except Fault (Plant n σ))

/-- The main loop's side of a plant. -/
structure Dispatcher (n : Nat) (σ : Type) where
  /-- new segments and commands are dropped -/
  halted : Bool
  /-- what is shared with the interrupt -/
  plant : Plant n σ

/-- What the dispatcher is doing. -/
inductive Activity where
  /-- the ring is not being consumed -/
  | idle
  /-- the interrupt consumes the ring -/
  | running
  /-- halted: new segments are dropped -/
  | halted
  deriving DecidableEq, Repr

/-- The name shown for an activity. -/
def Activity.name : Activity → String
  | idle => "Idle"
  | running => "Running"
  | halted => "Halted"

namespace Dispatcher

variable {n : Nat} {σ : Type}

/-- A dispatcher over an empty ring. -/
def ofRing (ring : Ring n) (side : σ) : Dispatcher n σ where
  halted := false
  plant := { ring := ring, stop := .clear, events := #[], side := side }

/-- The ring. -/
def ring (d : Dispatcher n σ) : Ring n := d.plant.ring

/-- Replace the ring. -/
def setRing (d : Dispatcher n σ) (r : Ring n) : Dispatcher n σ :=
  { d with plant := { d.plant with ring := r } }

/-- Replace the segment being prepared. -/
def setHead (d : Dispatcher n σ) (s : Segment) : Dispatcher n σ := d.setRing (d.ring.setHead s)

/-- Replace the stop mask. -/
def setStop (d : Dispatcher n σ) (stop : StopMask) : Dispatcher n σ :=
  { d with plant := { d.plant with stop := stop } }

/-- What the dispatcher is doing. -/
def activity (d : Dispatcher n σ) : Activity :=
  if d.halted then .halted else if d.ring.running then .running else .idle

/-- Let the interrupt consume the ring if there is work. -/
def ensureRunning (d : Dispatcher n σ) : Dispatcher n σ :=
  if d.halted || d.ring.running || !d.ring.hasPending then d
  else d.setRing (d.ring.setRunning true)

/-- Clear one finished segment. -/
def onIdle (d : Dispatcher n σ) : Except Fault (Dispatcher n σ) :=
  if d.ring.hasFinished then
    if d.ring.isEmpty then .error .invariantViolated
    else do return d.setRing (← d.ring.reclaim)
  else .ok d

/-! ## Waiting -/

/-- Wait until the ring satisfies a condition, keeping it running and clearing behind it. -/
def waitUntil (done : Ring n → Bool) :
    Idle n σ → Dispatcher n σ → Except Fault (Idle n σ × Dispatcher n σ)
  | [], d =>
    if done d.ring then .ok ([], d)
    else do
      let _ ← d.ensureRunning.onIdle
      .error .waitExhausted
  | act :: rest, d =>
    if done d.ring then .ok (act :: rest, d)
    else do
      let d ← d.ensureRunning.onIdle
      let plant ← act d.plant
      waitUntil done rest { d with plant := plant }

/-- Wait until there is room for one more segment. -/
def waitForSpace (idle : Idle n σ) (d : Dispatcher n σ) :
    Except Fault (Idle n σ × Dispatcher n σ) :=
  waitUntil (fun r => !r.isFull) idle d

/-- Wait until every segment has been executed and cleared. -/
def waitForEmpty (idle : Idle n σ) (d : Dispatcher n σ) :
    Except Fault (Idle n σ × Dispatcher n σ) :=
  waitUntil Ring.isEmpty idle d

/-- Skip all waiting segments as soon as the current one is over. -/
def flush (idle : Idle n σ) (d : Dispatcher n σ) :
    Except Fault (Idle n σ × Dispatcher n σ) := do
  let (idle, d) ← (d.setRing (d.ring.setFlush true)).waitForEmpty idle
  return (idle, d.setRing (d.ring.setFlush false))

/-! ## Publishing -/

/-- Publish the prepared segment, which must succeed: there has to be room. -/
def publish (d : Dispatcher n σ) : Except Fault (Dispatcher n σ) :=
  match d.ring.publish with
  | .ok r => .ok (d.setRing r)
  | .error _ => .error .invariantViolated

/-- Publish the prepared segment, waiting for room. While halted it is dropped instead. -/
def queueHead (idle : Idle n σ) (d : Dispatcher n σ) :
    Except Fault (Idle n σ × Dispatcher n σ) := do
  let (idle, d) ← d.waitForSpace idle
  if d.halted then return (idle, d.setHead .empty)
  else return (idle, ← d.publish)

/-- Publish the prepared segment if it carries commands, so that they run before the move which is
written into the head next. -/
def pushCarrier (idle : Idle n σ) (d : Dispatcher n σ) :
    Except Fault (Idle n σ × Dispatcher n σ) :=
  if d.ring.headSegment.hasCommands then d.queueHead idle else .ok (idle, d)

/-- Housekeeping of the main loop: publish a carrier that is waiting at the head of a ring at rest,
and see that the ring is running. -/
def onMainLoop (d : Dispatcher n σ) : Except Fault (Dispatcher n σ) :=
  if d.halted then .ok d
  else if !d.ring.running && d.ring.headSegment.hasCommands && !d.ring.isFull then do
    return (← d.publish).ensureRunning
  else .ok d.ensureRunning

/-! ## Commands -/

/-- Attach a command to the newest pending segment, if it has not begun and has room. -/
def attachToNewest? (c : Command) (d : Dispatcher n σ) : Option (Dispatcher n σ) :=
  match d.ring.lockNewest with
  | none => none
  | some (i, locked) =>
    match (locked.segment i).attach c with
    | .ok s => some (d.setRing ((locked.setSegment i s).unlock [i]))
    | .error _ => none

/-- Attach a command to the prepared segment. -/
def attachToHead (c : Command) (d : Dispatcher n σ) : Except CommandError (Dispatcher n σ) := do
  return d.setHead (← d.ring.headSegment.attach c)

/-- Attach a command behind all motion queued so far. It rides on the newest pending segment unless
commands already wait at the head, which have to stay first. A full carrier at the head is
published to make room for a new one. While halted, commands are dropped. -/
def appendCommand (c : Command) (idle : Idle n σ) (d : Dispatcher n σ) :
    Except Fault (Except CommandError Unit × Idle n σ × Dispatcher n σ) :=
  if d.halted then .ok (.ok (), idle, d)
  else
    let riding := if d.ring.headSegment.hasCommands then none else d.attachToNewest? c
    match riding with
    | some d => .ok (.ok (), idle, d)
    | none =>
      match d.attachToHead c with
      | .ok d => .ok (.ok (), idle, d)
      | .error _ => do
        let (idle, d) ← d.queueHead idle
        match d.attachToHead c with
        | .ok d => return (.ok (), idle, d)
        | .error e => return (.error e, idle, d)

/-! ## Halting -/

/-- Stop all motion and drop what is being prepared. -/
def halt (d : Dispatcher n σ) : Dispatcher n σ :=
  ({ d with halted := true }.setStop .halt).setHead .empty

/-- Leave the halt and lower the stop mask. -/
def clearHalt (d : Dispatcher n σ) : Dispatcher n σ := { d with halted := false }.setStop .clear

end Dispatcher

end MotionControl
