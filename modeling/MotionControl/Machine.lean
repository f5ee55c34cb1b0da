import MotionControl.Drive.Pulse
import MotionControl.Planner

/-!
# The machine

All parts put together: a toolhead that turns Cartesian targets into moves, the planner and the
dispatcher of the main loop, the stepper of the interrupt, and the drivers its output goes to.
-/

namespace MotionControl

/-- A machine whose ring has `n` slots built in. -/
structure Machine (n : Nat) where
  /-- the main loop's side, with the plant shared with the stepper -/
  dispatcher : Dispatcher n Stepper
  /-- the lookahead planner -/
  planner : Planner
  /-- the Cartesian side -/
  toolhead : Toolhead
  /-- the drivers -/
  bank : DriverBank
  /-- the pulse in progress -/
  pulse : Pulse

/-- Where the output of a step tick goes. -/
inductive Outlet where
  /-- nowhere -/
  | nothing
  /-- to the drivers, whose step lines fall at once -/
  | bank
  /-- to the drivers as a pulse that ends at once -/
  | pulse
  deriving DecidableEq, Repr

/-- What happens between step ticks. -/
structure Rhythm where
  /-- step ticks per ramp tick, zero for none -/
  rampEvery : Nat
  /-- step ticks per round of the main loop, zero for none -/
  houseEvery : Nat
  /-- stop when the machine is at rest -/
  untilIdle : Bool

namespace Machine

variable {n : Nat}

/-- A machine at rest, with `len` slots of its ring in use and a reset timer of the given
frequency. -/
def ofSettings (n len : Nat) (transform : Transform) (timerHz : UInt32) (s : Settings) :
    Except RingError (Machine n) := do
  let ring ← Ring.new n len
  return {
    dispatcher := .ofRing ring (.ofSettings s)
    planner := .ofTuning (.ofSettings s)
    toolhead := .ofSettings transform s
    bank := (DriverBank.start (.low []) s (.const true)).2
    pulse := .ofSettings s timerHz }

/-- The plant shared with the interrupt. -/
def plant (m : Machine n) : Plant n Stepper := m.dispatcher.plant

/-- Replace the plant. -/
def setPlant (m : Machine n) (p : Plant n Stepper) : Machine n :=
  { m with dispatcher := { m.dispatcher with plant := p } }

/-- Queue a move and answer whether there was anything to move. -/
def append (m : Machine n) (move : Move) (idle : Idle n Stepper) :
    Except Fault (Bool × Idle n Stepper × Machine n) := do
  let (moved, planner, idle, d) ← m.planner.append move idle m.dispatcher
  return (moved, idle, { m with dispatcher := d, planner := planner })

/-- Move to a Cartesian point, answering the move if there is one and whether it was queued. -/
def moveTo (m : Machine n) (target : PerAxis Float32) (feed : Float32) (idle : Idle n Stepper) :
    Except Fault (Option (Move × Bool) × Idle n Stepper × Machine n) :=
  match m.toolhead.plan target feed with
  | none => .ok (none, idle, m)
  | some (move, toolhead) => do
    let (moved, idle, m) ← { m with toolhead := toolhead }.append move idle
    return (some (move, moved), idle, m)

/-- Take the position over that the stepper has reached, after a stop has cut motion short. -/
def resync (m : Machine n) : Machine n :=
  let position := m.plant.side.position
  { m with
    planner := m.planner.resetPosition position
    toolhead := m.toolhead.resetFromSteps position }

/-- Whether nothing is executed and nothing is pending. -/
def isAtRest (m : Machine n) : Bool := !m.plant.side.isBusy && !m.plant.ring.hasPending

/-- Drive an output. The lines never fail here. -/
def emit (m : Machine n) (outlet : Outlet) (o : StepOutput) : Machine n :=
  match outlet with
  | .nothing => m
  | .bank =>
    { m with bank := (if o.hasSteps then (m.bank.apply o).2.unstep else m.bank.apply o).2 }
  | .pulse =>
    match m.pulse.start m.bank o with
    | (.ok (some _), pulse, bank) =>
      let (_, pulse, bank) := pulse.stop bank
      { m with pulse := pulse, bank := bank }
    | (_, pulse, bank) => { m with pulse := pulse, bank := bank }

/-- One step tick and the driving of its output. -/
def tick (m : Machine n) (outlet : Outlet) : Except Fault (StepOutput × Machine n) := do
  let (o, p) ← m.plant.tick
  return (o, (m.setPlant p).emit outlet o)

/-- Whether something that comes every `period` ticks comes after `ticks` of them. -/
def isTime (period ticks : Nat) : Bool := 0 < period && ticks % period == 0

/-- What follows the step tick that makes `ticks` of them. -/
def afterTick (m : Machine n) (rhythm : Rhythm) (ticks : Nat) : Except Fault (Machine n) := do
  let m := if isTime rhythm.rampEvery ticks then m.setPlant m.plant.rampTick else m
  if isTime rhythm.houseEvery ticks then
    let d ← m.dispatcher.onIdle
    return { m with dispatcher := ← d.onMainLoop }
  else return m

/-- Run up to `count` step ticks after `ticks` earlier ones. The answer is the number of ticks in
the end, and the outputs that made a step with the numbers of their ticks. -/
def run (outlet : Outlet) (rhythm : Rhythm) :
    (count ticks : Nat) → Array (Nat × StepOutput) → Machine n →
      Except Fault (Nat × Array (Nat × StepOutput) × Machine n)
  | 0, ticks, outputs, m => .ok (ticks, outputs, m)
  | count + 1, ticks, outputs, m => do
    let (o, m) ← m.tick outlet
    let outputs := if o.hasSteps then outputs.push (ticks, o) else outputs
    let m ← m.afterTick rhythm (ticks + 1)
    if rhythm.untilIdle && m.isAtRest then return (ticks + 1, outputs, m)
    else run outlet rhythm count (ticks + 1) outputs m

end Machine

namespace Plant

variable {n : Nat}

/-- A number of step ticks, with their outputs. -/
def ticks : Nat → Plant n Stepper → Except Fault (List StepOutput × Plant n Stepper)
  | 0, p => .ok ([], p)
  | count + 1, p => do
    let (o, p) ← p.tick
    let (rest, p) ← p.ticks count
    return (o :: rest, p)

/-- Step ticks while all pending segments are held for revision. -/
def heldTicks (p : Plant n Stepper) (count : Nat) :
    Except Fault (Window × List StepOutput × Plant n Stepper) := do
  let (window, locked) := p.ring.lockWindow
  let (outputs, p) ← { p with ring := locked }.ticks count
  return (window, outputs, { p with ring := p.ring.unlock window.slots })

/-- An idle call: some step ticks, and a ramp tick if asked for. -/
def idleCall (count : Nat) (ramp : Bool) (p : Plant n Stepper) :
    Except Fault (Plant n Stepper) := do
  let (_, p) ← p.ticks count
  return if ramp then p.rampTick else p

end Plant

end MotionControl
