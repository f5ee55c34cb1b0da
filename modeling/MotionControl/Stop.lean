import MotionControl.Axis

/-!
# Stop requests

Endstops, probes and halts raise bits of a latched mask, one per actuator. The step generator
samples the mask on every tick. It stays up until it is cleared as a whole.
-/

namespace MotionControl

/-- The latched mask of stopped actuators. -/
structure StopMask where
  /-- one bit per stopped actuator -/
  bits : UInt8
  deriving DecidableEq, Repr

namespace StopMask

/-- Nothing is stopped. -/
def clear : StopMask := ⟨0⟩

/-- Everything is stopped. -/
def halt : StopMask := ⟨7⟩

/-- Stop one actuator. -/
def raise (s : StopMask) (a : Axis) : StopMask := ⟨s.bits ||| a.bit⟩

/-- Stop the actuator with an index; there is nothing to stop at other indices. -/
def trigger (s : StopMask) (i : Nat) : StopMask :=
  match Axis.ofIndex? i with
  | some a => s.raise a
  | none => s

/-- Whether an actuator is stopped. -/
def has (s : StopMask) (a : Axis) : Bool := a.isIn s.bits

/-- Whether the actuator with an index is stopped; other indices never are. -/
def isStopped (s : StopMask) (i : Nat) : Bool :=
  match Axis.ofIndex? i with
  | some a => s.has a
  | none => false

/-- Whether any stop is latched. -/
def isActive (s : StopMask) : Bool := s.bits != 0

theorem has_halt (a : Axis) : halt.has a = true := by cases a <;> decide

end StopMask

end MotionControl
