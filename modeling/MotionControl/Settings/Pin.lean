/-!
# Pins

A pin is a line of the controller, possibly wired active-low, possibly with a pull-up. Number 255
stands for a line that is not wired.
-/

namespace MotionControl

/-- A line of the controller. -/
structure Pin where
  /-- the line, 255 when not wired -/
  number : UInt8
  /-- the line is active-low -/
  inverted : Bool
  /-- the internal pull-up is on -/
  pullUp : Bool
  deriving DecidableEq, Repr

namespace Pin

/-- A plain line. -/
def plain (number : UInt8) : Pin := ⟨number, false, false⟩

/-- An active-low line. -/
def activeLow (number : UInt8) : Pin := ⟨number, true, false⟩

/-- A line with its pull-up on. -/
def pulledUp (number : UInt8) : Pin := ⟨number, false, true⟩

/-- A line that is not wired. -/
def unassigned : Pin := plain 255

/-- Whether the line is wired. -/
def isAssigned (p : Pin) : Bool := p.number != 255

/-- The electrical level of a logical state. -/
def level (p : Pin) (active : Bool) : Bool := active != p.inverted

theorem level_injective (p : Pin) {a b : Bool} (h : p.level a = p.level b) : a = b := by
  cases a <;> cases b <;> cases hp : p.inverted <;> simp_all [level]

end Pin

/-- What a pin does for its axis. -/
inductive PinRole where
  /-- step pulse output -/
  | step
  /-- direction output -/
  | dir
  /-- driver enable output -/
  | enable
  /-- endstop input -/
  | endstop
  deriving DecidableEq, Repr

/-- The name shown for a role. -/
def PinRole.name : PinRole → String
  | step => "Step"
  | dir => "Dir"
  | enable => "Enable"
  | endstop => "Endstop"

end MotionControl
