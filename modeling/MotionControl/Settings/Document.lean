import MotionControl.Settings.LoadError
import MotionControl.Settings.PinText
import MotionControl.Settings.Record

/-!
# Settings files

A settings file has a table `motion` and a table `axis` with one table per axis. Missing keys take
their defaults. An axis called `x`, `y`, `z` or `alpha`, `beta`, `gamma` belongs to the actuator of
that name; any other axis has to say which `actuator` it belongs to.

Axes are taken in the order of their names, so the order of the tables in the file does not matter.

What settings come of a document does not depend on how the document is read: a reader is any
function that takes a text apart (`Settings.ofTextWith`), and `Toml.document?` is the one in use.
-/

namespace MotionControl

open Toml

/-- The table of one axis, as far as it says something. -/
structure AxisTable where
  /-- the index of the actuator -/
  actuator : Option Nat
  /-- steps per mm -/
  stepsPerMm : Option Quantity
  /-- maximum speed in mm/s -/
  maxRate : Option Quantity
  /-- the step pin in writing -/
  stepPin : Option String
  /-- the direction pin in writing -/
  dirPin : Option String
  /-- the enable pin in writing -/
  enablePin : Option String
  /-- the endstop pin in writing -/
  endstopPin : Option String
  deriving DecidableEq

/-- A settings file: the quantities of the machine as a whole, and the axes with their names. -/
structure SettingsFile where
  /-- the settings of the machine, with default axes -/
  motion : Settings
  /-- the axes in the order of appearance -/
  axes : List (String × AxisTable)
  deriving DecidableEq

namespace AxisTable

/-- A table that says nothing. -/
def empty : AxisTable := ⟨none, none, none, none, none, none, none⟩

/-- The keys of an axis. -/
def fields : List (RecordField AxisTable) :=
  [.of "actuator" (Value.asWord? UInt64.size) fun v t => { t with actuator := some v },
   .of "steps_per_mm" Value.asQuantity? fun v t => { t with stepsPerMm := some v },
   .of "max_rate" Value.asQuantity? fun v t => { t with maxRate := some v },
   .of "step_pin" Value.asText? fun v t => { t with stepPin := some v },
   .of "dir_pin" Value.asText? fun v t => { t with dirPin := some v },
   .of "enable_pin" Value.asText? fun v t => { t with enablePin := some v },
   .of "endstop_pin" Value.asText? fun v t => { t with endstopPin := some v }]

/-- The actuator that goes by a name. -/
def axisNamed? : String → Option Axis
  | "x" => some .alpha
  | "alpha" => some .alpha
  | "y" => some .beta
  | "beta" => some .beta
  | "z" => some .gamma
  | "gamma" => some .gamma
  | _ => none

/-- The actuator of an axis: the one it says, or the one of its name. -/
def axis? (name : String) (t : AxisTable) : Option Axis :=
  match t.actuator with
  | some i => Axis.ofIndex? i
  | none => axisNamed? name

/-- A pin in writing; without one there is a fallback. -/
def pin (text : Option String) (fallback : Pin) : Except LoadError Pin :=
  match text with
  | none => .ok fallback
  | some text =>
    match PinText.read? text with
    | some p => .ok p
    | none => .error .invalidPin

/-- The settings of an axis. -/
def settings (name : String) (t : AxisTable) : Except LoadError AxisSettings :=
  match Label.ofText? name with
  | none => .error .unknownAxis
  | some label => do
    let stepPin ← pin t.stepPin .unassigned
    let dirPin ← pin t.dirPin .unassigned
    let enablePin ← pin t.enablePin .unassigned
    let endstopPin ←
      match t.endstopPin with
      | none => .ok none
      | some text => some <$> pin (some text) .unassigned
    return {
      name := label
      stepsPerMm := t.stepsPerMm.getD AxisSettings.default.stepsPerMm
      maxRate := t.maxRate.getD AxisSettings.default.maxRate
      stepPin := stepPin
      dirPin := dirPin
      enablePin := enablePin
      endstopPin := endstopPin }

end AxisTable

namespace SettingsFile

/-- The keys of the machine as a whole. -/
def motionFields : List (RecordField Settings) :=
  [.of "queue_size" (Value.asWord? UInt64.size) fun v s => { s with queueSize := UInt64.ofNat v },
   .of "acceleration" Value.asQuantity? fun v s => { s with acceleration := v },
   .of "max_jerk" Value.asQuantity? fun v s => { s with maxJerk := v },
   .of "minimum_planner_speed" Value.asQuantity? fun v s => { s with minimumPlannerSpeed := v },
   .of "acceleration_ticks_per_second" (Value.asWord? UInt32.size)
     fun v s => { s with accelerationTicks := UInt32.ofNat v },
   .of "minimum_steps_per_second" (Value.asWord? UInt32.size)
     fun v s => { s with minimumStepRate := UInt32.ofNat v },
   .of "base_frequency" (Value.asWord? UInt32.size)
     fun v s => { s with baseFrequency := UInt32.ofNat v },
   .of "step_pulse_us" (Value.asWord? UInt32.size)
     fun v s => { s with stepPulseUs := UInt32.ofNat v }]

/-- The tables of the axes. -/
def axisTables? : Value → Option (List (String × AxisTable))
  | .table _ entries => entries.mapM fun (name, v) => do
    return (name, ← RecordField.putAll AxisTable.fields v .empty)
  | _ => none

/-- The keys of a settings file. -/
def fields : List (RecordField SettingsFile) :=
  [{ key := "motion"
     put := fun v f => (RecordField.putAll motionFields v f.motion).map
       fun motion => { f with motion := motion } },
   .of "axis" axisTables? fun axes f => { f with axes := axes }]

/-- Read a settings file with a reader of documents. -/
def readWith? (reader : String → Option Entries) (text : String) : Option SettingsFile := do
  (← reader text).foldlM (RecordField.putEntry fields) ⟨.default, []⟩

/-- Read a settings file. -/
def read? (text : String) : Option SettingsFile := readWith? document? text

/-- The order of names. -/
def nameLE (s t : String × AxisTable) : Bool := decide (s.1 ≤ t.1)

/-- Assign the axes to their actuators one by one. -/
def assign : List (String × AxisTable) → PerAxis (Option AxisSettings) →
    Except LoadError (PerAxis (Option AxisSettings))
  | [], assigned => .ok assigned
  | (name, table) :: rest, assigned =>
    match table.axis? name with
    | none => .error .unknownAxis
    | some a =>
      if (assigned.get a).isSome then .error .unknownAxis
      else do assign rest (assigned.set a (some (← table.settings name)))

/-- The settings of a file: axes assigned, speed limits clamped, and all of it valid. -/
def settings (f : SettingsFile) : Except LoadError Settings := do
  let assigned ← assign (f.axes.mergeSort nameLE) (.const none)
  { f.motion with axes := assigned.map (Option.getD · AxisSettings.default) }.clampRates.validated

end SettingsFile

namespace Settings

/-- Read settings from the text of a settings file with a reader of documents. -/
def ofTextWith (reader : String → Option Entries) (text : String) : Except LoadError Settings :=
  match SettingsFile.readWith? reader text with
  | some f => f.settings
  | none => .error .toml

/-- Read settings from the text of a settings file. -/
def ofText (text : String) : Except LoadError Settings := ofTextWith document? text

end Settings

end MotionControl
