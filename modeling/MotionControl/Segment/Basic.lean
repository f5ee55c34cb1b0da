import MotionControl.Axis

/-!
# Segments

A segment is one straight move of all actuators together with its trapezoidal speed profile and
the commands to run when it is over. A segment without step events is a carrier: it only brings
its commands.
-/

namespace MotionControl

/-- Why a command cannot be attached. -/
inductive CommandError where
  /-- the text is longer than a command may be -/
  | tooLong
  /-- the segment carries all the commands it can -/
  | listFull
  deriving DecidableEq, Repr

/-- The name shown for the cause. -/
def CommandError.name : CommandError → String
  | tooLong => "TooLong"
  | listFull => "ListFull"

/-- A command waiting for its place in the motion. Its text means nothing to the motion core. -/
structure Command where
  /-- what to run -/
  text : String
  /-- a command has at most 48 bytes -/
  fits : text.utf8ByteSize ≤ 48
  deriving DecidableEq

/-- A command with the given text, if it fits. -/
def Command.ofText (text : String) : Except CommandError Command :=
  if h : text.utf8ByteSize ≤ 48 then .ok ⟨text, h⟩ else .error .tooLong

/-- The commands riding on one segment, in the order of attachment. -/
structure CommandList where
  /-- the commands, first attached first -/
  toList : List Command
  /-- a segment carries at most four -/
  atMost : toList.length ≤ 4
  deriving DecidableEq

namespace CommandList

/-- No commands. -/
def empty : CommandList := ⟨[], Nat.zero_le _⟩

/-- Whether there are no commands. -/
def isEmpty (l : CommandList) : Bool := l.toList.isEmpty

/-- Whether no further command fits. -/
def isFull (l : CommandList) : Bool := l.toList.length == 4

/-- The list with one more command at its end, if there is room. -/
def push? (l : CommandList) (c : Command) : Option CommandList :=
  if h : l.toList.length < 4 then some ⟨l.toList ++ [c], by rw [List.length_append]; exact h⟩
  else none

theorem toList_of_push? {l m : CommandList} {c : Command} (h : l.push? c = some m) :
    m.toList = l.toList ++ [c] := by
  unfold push? at h
  split at h
  · rw [← Option.some.inj h]
  · cases h

theorem push?_eq_none_iff {l : CommandList} {c : Command} :
    l.push? c = none ↔ l.isFull = true := by
  have := l.atMost
  unfold push? isFull
  split <;> simp <;> omega

end CommandList

/-- One bit per actuator, set for a move towards negative. -/
structure Directions where
  /-- the mask -/
  bits : UInt8
  deriving DecidableEq, Repr

namespace Directions

/-- Mark the move of bit `i` as negative or positive. -/
def setNegative (d : Directions) (i : Nat) (negative : Bool) : Directions :=
  let bit : UInt8 := 1 <<< i.toUInt8
  if negative then ⟨d.bits ||| bit⟩ else ⟨d.bits &&& ~~~bit⟩

/-- Whether the move of bit `i` is negative. -/
def isNegative (d : Directions) (i : Nat) : Bool := d.bits &&& (1 <<< i.toUInt8) != 0

/-- The mask of a choice for every actuator. -/
def ofAxes (negative : PerAxis Bool) : Directions :=
  Axis.all.foldl (fun d a => d.setNegative a.index (negative.get a)) ⟨0⟩

theorem isNegative_ofAxes (negative : PerAxis Bool) (a : Axis) :
    (ofAxes negative).isNegative a.index = negative.get a := by
  rcases negative with ⟨x, y, z⟩
  cases x <;> cases y <;> cases z <;> cases a <;> decide

end Directions

/-- The way an actuator travels. -/
inductive Direction where
  /-- towards larger positions -/
  | positive
  /-- towards smaller positions -/
  | negative
  deriving DecidableEq, Repr

namespace Direction

/-- The other way. -/
def opposite : Direction → Direction
  | positive => negative
  | negative => positive

/-- The way bit `i` of a mask stands for. -/
def ofBit (d : Directions) (i : Nat) : Direction :=
  if d.isNegative i then negative else positive

/-- The signed unit step. -/
def delta : Direction → Int
  | positive => 1
  | negative => -1

/-- The name of a direction. -/
def name : Direction → String
  | positive => "Positive"
  | negative => "Negative"

theorem delta_opposite (d : Direction) : d.opposite.delta = -d.delta := by cases d <;> rfl

end Direction

/-- A planned motion segment. Speeds are in mm/s, rates in steps per second. -/
structure Segment where
  /-- step count of every actuator -/
  steps : PerAxis UInt32
  /-- number of step events: the largest step count -/
  eventCount : UInt32
  /-- actuators moving towards negative -/
  directions : Directions
  /-- Cartesian length in mm -/
  length : Float32
  /-- requested speed -/
  nominalSpeed : Float32
  /-- step event rate at the requested speed -/
  nominalRate : UInt32
  /-- planned speed at the start -/
  entrySpeed : Float32
  /-- planned speed at the end -/
  exitSpeed : Float32
  /-- the most the junction with the previous segment allows -/
  maxEntrySpeed : Float32
  /-- acceleration in mm/s² -/
  acceleration : Float32
  /-- change of the step rate per ramp tick -/
  rateDelta : Float32
  /-- step rate at the first event -/
  initialRate : UInt32
  /-- step rate at the last event -/
  finalRate : UInt32
  /-- event at which acceleration ends -/
  accelerateUntil : UInt32
  /-- event after which deceleration starts -/
  decelerateAfter : UInt32
  /-- the entry speed changed since the profile was computed -/
  stale : Bool
  /-- the requested speed can be reached from rest within the segment -/
  reachesNominal : Bool
  /-- commands to run when the segment is over -/
  commands : CommandList
  deriving DecidableEq

namespace Segment

/-- A segment without motion and without commands. -/
def empty : Segment where
  steps := .const 0
  eventCount := 0
  directions := ⟨0⟩
  length := 0
  nominalSpeed := 0
  nominalRate := 0
  entrySpeed := 0
  exitSpeed := 0
  maxEntrySpeed := 0
  acceleration := 0
  rateDelta := 0
  initialRate := 0
  finalRate := 0
  accelerateUntil := 0
  decelerateAfter := 0
  stale := false
  reachesNominal := false
  commands := .empty

/-- Whether the segment moves anything. -/
def hasMotion (s : Segment) : Bool := 0 < s.eventCount

/-- Whether the segment carries commands. -/
def hasCommands (s : Segment) : Bool := !s.commands.isEmpty

/-- Attach a command to run when the segment is over. -/
def attach (s : Segment) (c : Command) : Except CommandError Segment :=
  match s.commands.push? c with
  | some l => .ok { s with commands := l }
  | none => .error .listFull

end Segment

end MotionControl
