import MotionControl.Drive.Bank
import MotionControl.Single.Basic

/-!
# Step pulses

A step tick raises the step lines. They have to stay up for the width of a pulse and to fall before
the next tick. `Pulse.start` drives the output of a tick and answers how long to wait;
`Pulse.stop` is called when that time is over.
-/

namespace MotionControl

/-- The pulse in progress. -/
structure Pulse where
  /-- width of a pulse in ticks of the reset timer -/
  width : UInt32
  /-- the step lines are up -/
  asserted : Bool

namespace Pulse

/-- The pulse width of some settings for a reset timer of the given frequency, rounded up to at
least one tick. -/
def ofSettings (s : Settings) (timerHz : UInt32) : Pulse where
  width := max (Single.ceilCount (s.stepPulseUs.toFloat32 * timerHz.toFloat32 / 1000000)) 1
  asserted := false

/-- Drive the output of a step tick. The answer is the line that failed, or the time to wait if
there was something to step. A pulse still up is ended first. -/
def start (p : Pulse) (b : DriverBank) (o : StepOutput) :
    Except Wire (Option UInt32) × Pulse × DriverBank :=
  if o.hasSteps then
    let ready := if p.asserted then b.unstep else (none, b)
    match DriverBank.andThen ready fun b => b.apply o with
    | (none, b) => (.ok (some p.width), { p with asserted := true }, b)
    | (some w, b) => (.error w, p, b)
  else (.ok none, p, b)

/-- Lower the step lines if a pulse is in progress. -/
def stop (p : Pulse) (b : DriverBank) : Option Wire × Pulse × DriverBank :=
  if p.asserted then
    match b.unstep with
    | (none, b) => (none, { p with asserted := false }, b)
    | (some w, b) => (some w, p, b)
  else (none, p, b)

end Pulse

end MotionControl
