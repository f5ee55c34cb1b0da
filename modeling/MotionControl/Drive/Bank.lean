import MotionControl.Drive.Wires
import MotionControl.Settings.Basic
import MotionControl.Stepper.Basic

/-!
# The driver bank

All drivers of the machine as one. Logical states are turned into levels by the pins, so inverted
wiring is dealt with here and nowhere else. An operation whose write fails stops there and answers
the line; what it wrote before stays written.
-/

namespace MotionControl

/-- The drivers of all actuators. -/
structure DriverBank where
  /-- the lines -/
  wires : Wires
  /-- how the lines are wired -/
  pins : PerAxis (PerLead Pin)
  /-- which enable lines exist -/
  enableWired : PerAxis Bool
  /-- the directions latched last -/
  directions : Option Directions
  /-- whether the drivers are enabled -/
  enabled : Bool

namespace DriverBank

/-- The write that brings a line to a logical state. -/
def drive (b : DriverBank) (a : Axis) (l : Lead) (active : Bool) : Wire × Bool :=
  (⟨a, l⟩, ((b.pins.get a).get l).level active)

/-- Perform writes, and a change of the bank if all of them succeed. -/
def perform (b : DriverBank) (writes : List (Wire × Bool)) (done : DriverBank → DriverBank) :
    Option Wire × DriverBank :=
  match b.wires.writeAll writes with
  | (none, ws) => (none, done { b with wires := ws })
  | (some w, ws) => (some w, { b with wires := ws })

/-- Latch the directions of all actuators. Nothing is written if they are latched already. -/
def setDirections (b : DriverBank) (d : Directions) : Option Wire × DriverBank :=
  if b.directions = some d then (none, b)
  else b.perform (Axis.all.map fun a => b.drive a .dir (d.isNegative a.index))
    fun b => { b with directions := some d }

/-- Raise the step lines of a mask. -/
def step (b : DriverBank) (mask : UInt8) : Option Wire × DriverBank :=
  b.perform ((Axis.all.filter (·.isIn mask)).map fun a => b.drive a .step true) id

/-- Lower all step lines. -/
def unstep (b : DriverBank) : Option Wire × DriverBank :=
  b.perform (Axis.all.map fun a => b.drive a .step false) id

/-- Enable or disable all drivers. -/
def enable (b : DriverBank) (on : Bool) : Option Wire × DriverBank :=
  b.perform ((Axis.all.filter b.enableWired.get).map fun a => b.drive a .enable on)
    fun b => { b with enabled := on }

/-- Continue after an operation that succeeded. -/
def andThen (r : Option Wire × DriverBank) (f : DriverBank → Option Wire × DriverBank) :
    Option Wire × DriverBank :=
  match r with
  | (none, b) => f b
  | (some w, b) => (some w, b)

/-- Bring the lines to rest: step lines inactive, drivers disabled. -/
def start (wires : Wires) (s : Settings) (enableWired : PerAxis Bool) :
    Option Wire × DriverBank :=
  let b : DriverBank :=
    { wires := wires
      pins := s.axes.map fun a => ⟨a.stepPin, a.dirPin, a.enablePin⟩
      enableWired := enableWired
      directions := none
      enabled := false }
  andThen b.unstep fun b => b.enable false

/-- Drive the output of a step tick: directions first, then the step lines. -/
def apply (b : DriverBank) (o : StepOutput) : Option Wire × DriverBank :=
  if o.hasSteps then andThen (b.setDirections o.directions) fun b => b.step o.step
  else (none, b)

end DriverBank

end MotionControl
