import MotionControl.Axis
import MotionControl.Settings.Pin
import MotionControl.Settings.Quantity

/-!
# Settings

What the machine is told about itself: tuning of the planner, size of the queue, frequencies of the
timers, and per actuator its scale, its limit and its pins. Rates are per second.
-/

namespace MotionControl

/-- The name of an axis, at most eight bytes long. -/
structure Label where
  /-- the name -/
  text : String
  /-- a name has at most eight bytes -/
  fits : text.utf8ByteSize ≤ 8
  deriving DecidableEq

/-- A label with the given text, if it fits. -/
def Label.ofText? (text : String) : Option Label :=
  if h : text.utf8ByteSize ≤ 8 then some ⟨text, h⟩ else none

/-- The settings of one actuator. -/
structure AxisSettings where
  /-- name of the axis -/
  name : Label
  /-- steps per mm of travel -/
  stepsPerMm : Quantity
  /-- maximum speed in mm/s -/
  maxRate : Quantity
  /-- step pulse line -/
  stepPin : Pin
  /-- direction line -/
  dirPin : Pin
  /-- driver enable line -/
  enablePin : Pin
  /-- endstop input, if fitted -/
  endstopPin : Option Pin
  deriving DecidableEq

namespace AxisSettings

/-- An unnamed axis without pins. -/
def default : AxisSettings where
  name := ⟨"", by decide⟩
  stepsPerMm := .ofFloat 80
  maxRate := .ofFloat 500
  stepPin := .unassigned
  dirPin := .unassigned
  enablePin := .unassigned
  endstopPin := none

/-- The wired pins of the axis with their roles. -/
def pins (a : AxisSettings) : List (PinRole × Pin) :=
  ([(PinRole.step, a.stepPin), (PinRole.dir, a.dirPin), (PinRole.enable, a.enablePin)]
    ++ (a.endstopPin.map fun p => (PinRole.endstop, p)).toList).filter fun p => p.2.isAssigned

/-- The highest step rate the axis can be asked for. -/
def maxStepRate (a : AxisSettings) : Float32 := a.maxRate.value * a.stepsPerMm.value

end AxisSettings

/-- The settings of the whole machine. -/
structure Settings where
  /-- number of segment slots in the queue -/
  queueSize : UInt64
  /-- acceleration in mm/s² -/
  acceleration : Quantity
  /-- largest speed change at a junction, in mm/s -/
  maxJerk : Quantity
  /-- speed the newest segment plans to end at, in mm/s -/
  minimumPlannerSpeed : Quantity
  /-- ramp tick rate in Hz -/
  accelerationTicks : UInt32
  /-- lower bound on the step rate -/
  minimumStepRate : UInt32
  /-- step tick rate in Hz -/
  baseFrequency : UInt32
  /-- step pulse width in µs -/
  stepPulseUs : UInt32
  /-- the actuators -/
  axes : PerAxis AxisSettings
  deriving DecidableEq

namespace Settings

/-- Settings without any pins. -/
def default : Settings where
  queueSize := 32
  acceleration := .ofFloat 100
  maxJerk := .ofFloat 10
  minimumPlannerSpeed := .ofFloat 0
  accelerationTicks := 100
  minimumStepRate := 50
  baseFrequency := 100000
  stepPulseUs := 1
  axes := .const .default

/-- Settings with pins 0 to 8 wired to the step, direction and active-low enable lines. -/
def withDefaultPins : Settings :=
  { default with
    axes := .ofFn fun a =>
      let base := (3 * a.index).toUInt8
      { AxisSettings.default with
        stepPin := .plain base
        dirPin := .plain (base + 1)
        enablePin := .activeLow (base + 2) } }

/-- The scale of every actuator. -/
def stepsPerMm (s : Settings) : PerAxis Float32 := s.axes.map fun a => a.stepsPerMm.value

/-- The speed limit of every actuator. -/
def maxRates (s : Settings) : PerAxis Float32 := s.axes.map fun a => a.maxRate.value

/-- The wired pin numbers of all axes, in the order of axes and roles. -/
def pinNumbers (s : Settings) : List UInt8 :=
  s.axes.toList.flatMap fun a => a.pins.map fun p => p.2.number

end Settings

end MotionControl
