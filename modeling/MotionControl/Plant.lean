import MotionControl.Event
import MotionControl.Ring.Window
import MotionControl.Stop

/-!
# What both contexts share

The main loop and the step interrupt meet in a `Plant`: the ring, the stop mask and the record of
published events, together with whatever state the interrupt's side keeps for itself. The
interrupt takes segments from the ring with `Ring.start?` and hands them back with `Ring.release`.
-/

namespace MotionControl

/-- The state shared by the main loop and an interrupt's side with state `σ`. -/
structure Plant (n : Nat) (σ : Type) where
  /-- the segments on their way -/
  ring : Ring n
  /-- the latched stop requests -/
  stop : StopMask
  /-- all events published so far, oldest first -/
  events : Array Event
  /-- the interrupt's own state -/
  side : σ

namespace Plant

variable {n : Nat} {σ : Type}

/-- Record an event. -/
def publish (p : Plant n σ) (e : Event) : Plant n σ := { p with events := p.events.push e }

/-- Raise a stop request for the actuator with an index. -/
def trigger (p : Plant n σ) (i : Nat) : Plant n σ := { p with stop := p.stop.trigger i }

end Plant

namespace Ring

variable {n : Nat}

/-- Begin the segment at the front if the ring is running. -/
def start? (r : Ring n) : Option (Nat × Ring n) := if r.running then r.begin? else none

/-- Hand a completed segment back and begin the next one, if there is one to begin. -/
def release (r : Ring n) (i : Nat) : Except Fault (Option Nat × Ring n) := do
  let (more, r) ← r.finish i
  if more then
    match r.begin? with
    | some (j, r) => .ok (some j, r)
    | none => .ok (none, r)
  else .ok (none, r)

end Ring

end MotionControl
