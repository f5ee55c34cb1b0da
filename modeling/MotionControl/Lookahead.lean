import MotionControl.Segment.Profile

/-!
# Lookahead

Replanning takes the pending segments, oldest first, through three passes:

1. `reverse`, newest to oldest: how slow must each segment already be to reach the speed at which
   the next one is entered;
2. `forward`, oldest to newest: how fast can each segment actually be entered, given the one before
   it. It starts from the `boundary`, the exit speed of the segment before all of these;
3. `profiles`: exit speeds and trapezoids that go with the entry speeds found.

The newest segment ends at a `final` speed. Carriers pass the speed at their junction through.
-/

namespace MotionControl.Lookahead

/-- The entry speed of the first of some segments, or the final speed if there is none. -/
def entryOf (final : Float32) : List Segment → Float32
  | s :: _ => s.entrySpeed
  | [] => final

/-- One step of the reverse pass. -/
def reverseStep (s : Segment) (nextEntry : Float32) : Segment :=
  if s.hasMotion then s.reversePass nextEntry
  else { s with maxEntrySpeed := nextEntry, entrySpeed := nextEntry }

/-- The pass from the newest segment to the oldest. -/
def reverse (final : Float32) : List Segment → List Segment
  | [] => []
  | s :: ss => reverseStep s (entryOf final (reverse final ss)) :: reverse final ss

/-- One step of the forward pass. -/
def forwardStep (s : Segment) (previousMaxExit : Float32) : Segment :=
  if s.hasMotion then s.forwardPass previousMaxExit
  else { s with entrySpeed := Single.min s.entrySpeed previousMaxExit }

/-- The speed at which a segment hands over to the next one, at most. -/
def handover (s : Segment) : Float32 := if s.hasMotion then s.maxExitSpeed else s.entrySpeed

/-- The pass from the oldest segment to the newest. -/
def forward : Float32 → List Segment → List Segment
  | _, [] => []
  | previousMaxExit, s :: ss =>
    let s := forwardStep s previousMaxExit
    s :: forward (handover s) ss

/-- Fix the exit speed of a segment and compute its trapezoid. -/
def profile (s : Segment) (exitSpeed : Float32) : Except Fault Segment := do
  let s := { s with exitSpeed := exitSpeed }
  return { ← s.planTrapezoid s.entryFactor s.exitFactor with stale := false }

/-- Exit speeds and trapezoids: each segment ends at the speed at which the next is entered. -/
def profiles (final : Float32) : List Segment → Except Fault (List Segment)
  | [] => .ok []
  | s :: ss => do
    let s ← profile s (entryOf final ss)
    return s :: (← profiles final ss)

/-- All three passes. -/
def replan (boundary final : Float32) (ss : List Segment) : Except Fault (List Segment) :=
  profiles final (forward boundary (reverse final ss))

end MotionControl.Lookahead
