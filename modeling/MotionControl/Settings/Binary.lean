import MotionControl.Binary.Reader
import MotionControl.Settings.LoadError

/-!
# Settings in binary form

A version byte, then all settings in order. What follows the last of them is ignored. Settings read
from bytes are validated before they are handed out.
-/

namespace MotionControl

open Binary

/-- Write a quantity. -/
def Quantity.encode (q : Quantity) : List UInt8 := encodeFixed q.bits

/-- Read a quantity. -/
def Quantity.reader : Reader Quantity := do return ⟨← readFixed⟩

/-- Write a pin. -/
def Pin.encode (p : Pin) : List UInt8 :=
  p.number :: (encodeBool p.inverted ++ encodeBool p.pullUp)

/-- Read a pin. -/
def Pin.reader : Reader Pin := do
  let number ← readByte
  let inverted ← readBool
  let pullUp ← readBool
  return { number := number, inverted := inverted, pullUp := pullUp }

/-- Read a label; a text that is too long is none. -/
def Label.reader : Reader Label := do
  match Label.ofText? (← readText) with
  | some l => return l
  | none => failure

/-- Write the settings of an axis. -/
def AxisSettings.encode (a : AxisSettings) : List UInt8 :=
  encodeText a.name.text ++ a.stepsPerMm.encode ++ a.maxRate.encode
    ++ a.stepPin.encode ++ a.dirPin.encode ++ a.enablePin.encode
    ++ encodeOption Pin.encode a.endstopPin

/-- Read the settings of an axis. -/
def AxisSettings.reader : Reader AxisSettings := do
  let name ← Label.reader
  let stepsPerMm ← Quantity.reader
  let maxRate ← Quantity.reader
  let stepPin ← Pin.reader
  let dirPin ← Pin.reader
  let enablePin ← Pin.reader
  let endstopPin ← readOption Pin.reader
  return {
    name := name
    stepsPerMm := stepsPerMm
    maxRate := maxRate
    stepPin := stepPin
    dirPin := dirPin
    enablePin := enablePin
    endstopPin := endstopPin }

namespace Settings

/-- The version of the binary form. -/
def version : UInt8 := 1

/-- The settings without the version byte. -/
def encodeBody (s : Settings) : List UInt8 :=
  encodeLong s.queueSize ++ s.acceleration.encode ++ s.maxJerk.encode
    ++ s.minimumPlannerSpeed.encode ++ encodeWord s.accelerationTicks
    ++ encodeWord s.minimumStepRate ++ encodeWord s.baseFrequency ++ encodeWord s.stepPulseUs
    ++ s.axes.alpha.encode ++ s.axes.beta.encode ++ s.axes.gamma.encode

/-- Write the settings. -/
def toBytes (s : Settings) : List UInt8 := version :: s.encodeBody

/-- Read settings without the version byte. -/
def reader : Reader Settings := do
  let queueSize ← readLong
  let acceleration ← Quantity.reader
  let maxJerk ← Quantity.reader
  let minimumPlannerSpeed ← Quantity.reader
  let accelerationTicks ← readWord
  let minimumStepRate ← readWord
  let baseFrequency ← readWord
  let stepPulseUs ← readWord
  let alpha ← AxisSettings.reader
  let beta ← AxisSettings.reader
  let gamma ← AxisSettings.reader
  return {
    queueSize := queueSize
    acceleration := acceleration
    maxJerk := maxJerk
    minimumPlannerSpeed := minimumPlannerSpeed
    accelerationTicks := accelerationTicks
    minimumStepRate := minimumStepRate
    baseFrequency := baseFrequency
    stepPulseUs := stepPulseUs
    axes := ⟨alpha, beta, gamma⟩ }

/-- Read settings and validate them. -/
def ofBytes : List UInt8 → Except LoadError Settings
  | [] => .error .decode
  | v :: body =>
    if v = version then
      match reader body with
      | some (s, _) => s.validated
      | none => .error .decode
    else .error .versionMismatch

end Settings

end MotionControl
