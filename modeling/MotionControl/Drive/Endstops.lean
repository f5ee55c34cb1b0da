import MotionControl.Settings.Pin
import MotionControl.Stop

/-!
# Endstops

Every actuator may have an endstop, an input line with a pin that says which level is active.
`Endstops.poll` samples them in order; while they are armed, the active ones raise stop requests.
Reading an input may fail, which ends the poll; the requests raised before that stay raised.
-/

namespace MotionControl

/-- The endstop of one actuator. -/
structure Endstop where
  /-- the number of the input line -/
  input : Nat
  /-- how the line is wired -/
  pin : Pin

/-- The endstops of the machine. -/
structure Endstops where
  /-- the endstop of every actuator that has one -/
  attached : PerAxis (Option Endstop)
  /-- whether active endstops stop motion -/
  armed : Bool

namespace Endstops

/-- Nothing attached, armed. -/
def none : Endstops := ⟨.const .none, true⟩

/-- Attach the endstop of the actuator with an index; other indices have none. -/
def attach (e : Endstops) (i : Nat) (endstop : Endstop) : Endstops :=
  match Axis.ofIndex? i with
  | some a => { e with attached := e.attached.set a (some endstop) }
  | .none => e

/-- Sample the endstops of some actuators. `read` is the level of an input, if it can be read. The
answer is the mask of active endstops, or `none` if a reading failed. -/
def pollAxes (e : Endstops) (read : Nat → Option Bool) :
    List Axis → UInt8 → StopMask → Option UInt8 × StopMask
  | [], active, stop => (some active, stop)
  | a :: rest, active, stop =>
    match e.attached.get a with
    | .none => e.pollAxes read rest active stop
    | some endstop =>
      match read endstop.input with
      | .none => (.none, stop)
      | some high =>
        if high != endstop.pin.inverted then
          e.pollAxes read rest (active ||| a.bit) (if e.armed then stop.raise a else stop)
        else e.pollAxes read rest active stop

/-- Sample every endstop. -/
def poll (e : Endstops) (read : Nat → Option Bool) (stop : StopMask) : Option UInt8 × StopMask :=
  e.pollAxes read Axis.all 0 stop

end Endstops

end MotionControl
