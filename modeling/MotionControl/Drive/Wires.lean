import MotionControl.Axis

/-!
# Wires

Three lines lead to the driver of every actuator: step, direction and enable. Writing a level to a
line may fail; the attempts that fail are given by their number, counted over all lines. A failed
attempt changes no level. The record of successful writes is kept, so that edges can be counted.
-/

namespace MotionControl

/-- The lines of one driver. -/
inductive Lead where
  /-- step pulse line -/
  | step
  /-- direction line -/
  | dir
  /-- enable line -/
  | enable
  deriving DecidableEq, Repr

/-- A line to one of the drivers. -/
structure Wire where
  /-- the actuator -/
  axis : Axis
  /-- which of its lines -/
  lead : Lead
  deriving DecidableEq, Repr

namespace Wire

/-- The short name of a line. -/
def name (w : Wire) : String :=
  (match w.lead with
    | .step => "s"
    | .dir => "d"
    | .enable => "e") ++ toString w.axis.index

/-- All lines, actuator by actuator. -/
def all : List Wire := Axis.all.flatMap fun a => [⟨a, .step⟩, ⟨a, .dir⟩, ⟨a, .enable⟩]

end Wire

/-- One value for every line of a driver. -/
structure PerLead (α : Type) where
  /-- the value of the step line -/
  step : α
  /-- the value of the direction line -/
  dir : α
  /-- the value of the enable line -/
  enable : α
  deriving DecidableEq, Repr

namespace PerLead

variable {α : Type}

/-- The value of one line. -/
def get (v : PerLead α) : Lead → α
  | .step => v.step
  | .dir => v.dir
  | .enable => v.enable

/-- Replace the value of one line. -/
def set (v : PerLead α) (l : Lead) (x : α) : PerLead α :=
  match l with
  | .step => { v with step := x }
  | .dir => { v with dir := x }
  | .enable => { v with enable := x }

theorem get_set (v : PerLead α) (l k : Lead) (x : α) :
    (v.set l x).get k = if l = k then x else v.get k := by
  cases l <;> cases k <;> rfl

end PerLead

/-- The state of all lines. -/
structure Wires where
  /-- the level of every line -/
  levels : PerAxis (PerLead Bool)
  /-- the successful writes, oldest first -/
  writes : Array (Wire × Bool)
  /-- the number of attempts to write, failed ones included -/
  attempts : Nat
  /-- the attempts that fail -/
  failing : List Nat

namespace Wires

/-- All lines low. -/
def low (failing : List Nat) : Wires where
  levels := .const ⟨false, false, false⟩
  writes := #[]
  attempts := 0
  failing := failing

/-- The level of a line. -/
def level (ws : Wires) (w : Wire) : Bool := (ws.levels.get w.axis).get w.lead

/-- Write a level to a line, answering whether it succeeded. -/
def write (ws : Wires) (w : Wire) (high : Bool) : Bool × Wires :=
  if ws.attempts ∈ ws.failing then (false, { ws with attempts := ws.attempts + 1 })
  else
    (true, { ws with
      levels := ws.levels.set w.axis ((ws.levels.get w.axis).set w.lead high)
      writes := ws.writes.push (w, high)
      attempts := ws.attempts + 1 })

/-- Write several levels in order, stopping at the first line that fails, which is answered. -/
def writeAll (ws : Wires) : List (Wire × Bool) → Option Wire × Wires
  | [] => (none, ws)
  | (w, high) :: rest =>
    match ws.write w high with
    | (true, ws) => ws.writeAll rest
    | (false, ws) => (some w, ws)

/-- The number of times a line went from low to high. -/
def risingEdges (ws : Wires) (w : Wire) : Nat :=
  (ws.writes.foldl (fun (count, level) (v, high) =>
    if v = w then (if high && !level then count + 1 else count, high) else (count, level))
    (0, false)).1

theorem level_write (ws : Wires) (w v : Wire) (high : Bool) :
    (ws.write w high).2.level v =
      if (ws.write w high).1 = true ∧ w = v then high else ws.level v := by
  unfold write
  split
  · simp [level]
  · unfold level
    dsimp only
    rw [PerAxis.get_set]
    rcases w with ⟨a, l⟩
    rcases v with ⟨b, k⟩
    by_cases hab : a = b
    · subst hab
      simp [PerLead.get_set]
    · simp [hab]

end Wires

end MotionControl
