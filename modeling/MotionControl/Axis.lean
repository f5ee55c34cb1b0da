/-!
# Axes

The machine moves three actuators, called alpha, beta and gamma. A value per actuator is a
`PerAxis`; a mask over the actuators is a byte with bit `Axis.index` for each of them.
-/

namespace MotionControl

/-- One of the three actuators. -/
inductive Axis where
  /-- the first actuator, `x` on a Cartesian machine -/
  | alpha
  /-- the second actuator, `y` on a Cartesian machine -/
  | beta
  /-- the third actuator, `z` on a Cartesian machine -/
  | gamma
  deriving DecidableEq, Repr

namespace Axis

/-- The position of an actuator in masks and tables. -/
def index : Axis → Nat
  | alpha => 0
  | beta => 1
  | gamma => 2

/-- All actuators, by index. -/
def all : List Axis := [alpha, beta, gamma]

/-- The actuator at an index, if there is one. -/
def ofIndex? : Nat → Option Axis
  | 0 => some alpha
  | 1 => some beta
  | 2 => some gamma
  | _ => none

/-- The mask of one actuator. -/
def bit : Axis → UInt8
  | alpha => 1
  | beta => 2
  | gamma => 4

/-- Whether a mask contains the actuator. -/
def isIn (a : Axis) (mask : UInt8) : Bool := mask &&& a.bit != 0

theorem mem_all (a : Axis) : a ∈ all := by cases a <;> decide

theorem ofIndex?_index (a : Axis) : ofIndex? a.index = some a := by cases a <;> rfl

end Axis

/-- One value for every actuator. -/
structure PerAxis (α : Type) where
  /-- the value of the first actuator -/
  alpha : α
  /-- the value of the second actuator -/
  beta : α
  /-- the value of the third actuator -/
  gamma : α
  deriving DecidableEq, Repr

namespace PerAxis

variable {α β : Type}

/-- The value of one actuator. -/
def get (v : PerAxis α) : Axis → α
  | .alpha => v.alpha
  | .beta => v.beta
  | .gamma => v.gamma

/-- The table of a function. -/
def ofFn (f : Axis → α) : PerAxis α := ⟨f .alpha, f .beta, f .gamma⟩

/-- The same value everywhere. -/
def const (x : α) : PerAxis α := ⟨x, x, x⟩

/-- Replace the value of one actuator. -/
def set (v : PerAxis α) (a : Axis) (x : α) : PerAxis α :=
  match a with
  | .alpha => { v with alpha := x }
  | .beta => { v with beta := x }
  | .gamma => { v with gamma := x }

/-- Apply a function to every value. -/
def map (f : α → β) (v : PerAxis α) : PerAxis β := ⟨f v.alpha, f v.beta, f v.gamma⟩

/-- The values by index. -/
def toList (v : PerAxis α) : List α := [v.alpha, v.beta, v.gamma]

@[simp] theorem get_ofFn (f : Axis → α) (a : Axis) : (ofFn f).get a = f a := by cases a <;> rfl

@[simp] theorem get_const (x : α) (a : Axis) : (const x).get a = x := by cases a <;> rfl

@[simp] theorem get_map (f : α → β) (v : PerAxis α) (a : Axis) :
    (v.map f).get a = f (v.get a) := by cases a <;> rfl

theorem get_set (v : PerAxis α) (a b : Axis) (x : α) :
    (v.set a x).get b = if a = b then x else v.get b := by
  cases a <;> cases b <;> rfl

theorem ext_get {v w : PerAxis α} (h : ∀ a, v.get a = w.get a) : v = w := by
  rcases v with ⟨x, y, z⟩
  rcases w with ⟨x', y', z'⟩
  have hx := h .alpha
  have hy := h .beta
  have hz := h .gamma
  simp only [get] at hx hy hz
  rw [hx, hy, hz]

theorem toList_eq_map_get (v : PerAxis α) : v.toList = Axis.all.map v.get := rfl

end PerAxis

end MotionControl
