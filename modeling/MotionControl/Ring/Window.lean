import MotionControl.Ring.Basic

/-!
# Revising pending segments

The main loop may revise a published segment while it holds it locked. `Ring.lockNewest` locks the
newest pending segment, `Ring.lockWindow` all pending segments that have not begun. Locks are given
back with `Ring.unlock`; while they are held, the interrupt's side may take any of its steps.
-/

namespace MotionControl

/-- The pending segments held for revision. -/
structure Window where
  /-- the locked slots, oldest first -/
  slots : List Nat
  /-- exit speed of the segment just before the oldest locked one; nothing changes it any more -/
  boundary : Float32

namespace Ring

variable {n : Nat}

/-- Lock a slot if it is ready. -/
def lock? (r : Ring n) (i : Nat) : Option (Ring n) :=
  if r.state i = .ready then some (r.setState i .locked) else none

/-- Lock the newest pending segment. There may be none, or it has begun. -/
def lockNewest (r : Ring n) : Option (Nat × Ring n) :=
  if r.hasPending then
    let i := r.prev r.head
    (r.lock? i).map fun locked => (i, locked)
  else none

/-- Lock up to `count` segments before slot `i`, newest first, up to the first that is not ready.
The slots already locked are put behind them. -/
def lockBack : Nat → Nat → List Nat → Ring n → List Nat × Ring n
  | 0, _, held, r => (held, r)
  | count + 1, i, held, r =>
    match r.lock? (r.prev i) with
    | some locked => lockBack count (r.prev i) (r.prev i :: held) locked
    | none => (held, r)

/-- The exit speed that a window starting at a slot has to respect. The segment before it is
executing, finished or cleared. -/
def boundaryBefore (r : Ring n) : List Nat → Float32
  | oldest :: _ =>
    if oldest = r.tail then r.lastExitSpeed else (r.segment (r.prev oldest)).exitSpeed
  | [] => r.lastExitSpeed

/-- Lock every pending segment that has not begun. -/
def lockWindow (r : Ring n) : Window × Ring n :=
  let (held, locked) := lockBack r.pending r.head [] r
  (⟨held, locked.boundaryBefore held⟩, locked)

/-- Give locks back. -/
def unlock (r : Ring n) (held : List Nat) : Ring n :=
  held.foldl (fun r i => r.setState i .ready) r

/-- The segments in some slots. -/
def segments (r : Ring n) (held : List Nat) : List Segment := held.map r.segment

/-- Put segments into slots, as far as both lists go. -/
def setSegments (r : Ring n) : List Nat → List Segment → Ring n
  | i :: is, s :: ss => (r.setSegment i s).setSegments is ss
  | _, _ => r

end Ring

end MotionControl
