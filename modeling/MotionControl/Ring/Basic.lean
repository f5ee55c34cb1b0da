import MotionControl.Fault
import MotionControl.Segment.Basic

/-!
# The segment ring

A fixed arena of slots shared by the main loop and the step interrupt. Of the slots built in,
`len` are in use, and three cursors move forward through them, wrapping at the end:

```text
  tail ........ front ......... head
  | finished,   | pending or    | free slot being
  | awaiting    | executing     | prepared
  | cleanup     |               |
```

The main loop writes the slot at `head` and publishes it; the interrupt begins the segment at
`front` and moves `front` past it when it is over; the main loop clears the slots behind `front`
and moves `tail`. One slot always stays free, so the ring holds at most `len - 1` segments and is
empty when `head` and `tail` meet.

Every slot carries a state of its own. A pending segment is revised only while it is `locked` and
begins only from `ready`, so it is never revised after it began and never begun half revised.
-/

namespace MotionControl

/-- Why a request to the ring is refused. -/
inductive RingError where
  /-- publishing would overtake the tail -/
  | full
  /-- the ring cannot change its size while it holds segments -/
  | notEmpty
  /-- fewer than two slots, or more than are built in -/
  | invalidSize
  deriving DecidableEq, Repr

/-- The name shown for the cause. -/
def RingError.name : RingError → String
  | full => "Full"
  | notEmpty => "NotEmpty"
  | invalidSize => "InvalidSize"

/-- The life of a slot. -/
inductive SlotState where
  /-- cleared, written by the main loop only -/
  | free
  /-- published and waiting -/
  | ready
  /-- being revised by the main loop -/
  | locked
  /-- begun; not written any more -/
  | executing
  deriving DecidableEq, Repr

/-- A place for one segment. -/
structure Slot where
  /-- the segment in the slot -/
  segment : Segment
  /-- who may touch it -/
  state : SlotState
  deriving DecidableEq

/-- A cleared slot. -/
def Slot.cleared : Slot := ⟨.empty, .free⟩

/-- A ring with `n` slots built in. -/
structure Ring (n : Nat) where
  /-- all slots, those beyond `len` unused -/
  slots : Vector Slot n
  /-- the number of slots in use -/
  len : Nat
  /-- the slot being prepared -/
  head : Nat
  /-- the first segment that is not finished -/
  front : Nat
  /-- the first segment that is not cleared -/
  tail : Nat
  /-- the interrupt is asked to consume segments -/
  running : Bool
  /-- finishing a segment skips all that wait behind it -/
  flush : Bool
  /-- exit speed of the segment cleared last -/
  lastExitSpeed : Float32
  /-- a ring has at least two slots -/
  two_le_len : 2 ≤ len
  /-- a ring uses no more slots than are built in -/
  len_le : len ≤ n

namespace Ring

variable {n : Nat}

/-- An empty ring with `len` of its `n` slots in use. -/
def ofLen (len : Nat) (two_le_len : 2 ≤ len) (len_le : len ≤ n) : Ring n where
  slots := Vector.replicate n .cleared
  len := len
  head := 0
  front := 0
  tail := 0
  running := false
  flush := false
  lastExitSpeed := 0
  two_le_len := two_le_len
  len_le := len_le

/-- An empty ring, if the size is possible. -/
def new (n len : Nat) : Except RingError (Ring n) :=
  if h : 2 ≤ len ∧ len ≤ n then .ok (ofLen len h.1 h.2) else .error .invalidSize

/-! ## Cursors -/

/-- The slot after another. -/
def next (r : Ring n) (i : Nat) : Nat := if i + 1 < r.len then i + 1 else 0

/-- The slot before another. -/
def prev (r : Ring n) (i : Nat) : Nat := if i = 0 then r.len - 1 else i - 1

/-- How many steps forward lead from one slot to another. -/
def distance (r : Ring n) (i j : Nat) : Nat := (j + r.len - i) % r.len

/-- No segment is queued, executing or awaiting cleanup. -/
def isEmpty (r : Ring n) : Bool := r.head == r.tail

/-- Publishing one more segment would overtake the tail. -/
def isFull (r : Ring n) : Bool := r.next r.head == r.tail

/-- The number of segments pending or executing. -/
def pending (r : Ring n) : Nat := r.distance r.front r.head

/-- Whether any segment is pending or executing. -/
def hasPending (r : Ring n) : Bool := 0 < r.pending

/-- Whether the cursors are in order up to wrapping. -/
def ordered (r : Ring n) : Bool :=
  r.distance r.tail r.front + r.distance r.front r.head == r.distance r.tail r.head

theorem next_lt (r : Ring n) (i : Nat) : r.next i < r.len := by
  have := r.two_le_len
  unfold next
  split <;> omega

theorem prev_lt (r : Ring n) {i : Nat} (h : i < r.len) : r.prev i < r.len := by
  have := r.two_le_len
  unfold prev
  split <;> omega

theorem prev_next (r : Ring n) {i : Nat} (h : i < r.len) : r.prev (r.next i) = i := by
  have := r.two_le_len
  unfold prev next
  split <;> split <;> omega

theorem next_prev (r : Ring n) {i : Nat} (h : i < r.len) : r.next (r.prev i) = i := by
  have := r.two_le_len
  unfold prev next
  split <;> split <;> omega

/-! ## Slots -/

/-- The slot with a number; beyond the built capacity there are only cleared ones. -/
def slot (r : Ring n) (i : Nat) : Slot := r.slots[i]?.getD .cleared

/-- Replace a slot. -/
def setSlot (r : Ring n) (i : Nat) (s : Slot) : Ring n :=
  { r with slots := r.slots.setIfInBounds i s }

/-- The segment in a slot. -/
def segment (r : Ring n) (i : Nat) : Segment := (r.slot i).segment

/-- The state of a slot. -/
def state (r : Ring n) (i : Nat) : SlotState := (r.slot i).state

/-- Change the state of a slot. -/
def setState (r : Ring n) (i : Nat) (s : SlotState) : Ring n :=
  r.setSlot i { r.slot i with state := s }

/-- Change the segment in a slot. -/
def setSegment (r : Ring n) (i : Nat) (s : Segment) : Ring n :=
  r.setSlot i { r.slot i with segment := s }

/-- The states of the slots in use, by number. -/
def states (r : Ring n) : List SlotState := (List.range r.len).map r.state

theorem slot_setSlot (r : Ring n) {i : Nat} (h : i < n) (j : Nat) (s : Slot) :
    (r.setSlot i s).slot j = if i = j then s else r.slot j := by
  unfold slot setSlot
  dsimp only
  rw [Vector.getElem?_setIfInBounds]
  split <;> rfl

/-! ## The main loop's side: preparing and publishing -/

/-- The segment being prepared. -/
def headSegment (r : Ring n) : Segment := r.segment r.head

/-- Replace the segment being prepared. -/
def setHead (r : Ring n) (s : Segment) : Ring n := r.setSegment r.head s

/-- Publish the prepared segment. -/
def publish (r : Ring n) : Except RingError (Ring n) :=
  if r.isFull then .error .full
  else .ok { r.setState r.head .ready with head := r.next r.head }

/-- Ask the interrupt to consume segments, or not to. -/
def setRunning (r : Ring n) (running : Bool) : Ring n := { r with running := running }

/-- Let the next finished segment take all that wait behind it along, or not. -/
def setFlush (r : Ring n) (flush : Bool) : Ring n := { r with flush := flush }

/-- Use another number of slots. All slots are cleared, which only an empty ring allows. -/
def resize (r : Ring n) (len : Nat) : Except RingError (Ring n) :=
  if !r.isEmpty then .error .notEmpty
  else if h : 2 ≤ len ∧ len ≤ n then
    .ok { ofLen len h.1 h.2 with
      running := r.running, flush := r.flush, lastExitSpeed := r.lastExitSpeed }
  else .error .invalidSize

/-! ## The interrupt's side: beginning and finishing -/

/-- Begin the segment at the front. There may be none, or it is still being revised. -/
def begin? (r : Ring n) : Option (Nat × Ring n) :=
  if r.front = r.head then none
  else if r.state r.front = .ready then some (r.front, r.setState r.front .executing)
  else none

/-- Read a segment that has begun. -/
def executing (r : Ring n) (i : Nat) : Except Fault Segment :=
  if n ≤ i then .error (.noSuchSlot n i)
  else if r.state i = .executing then .ok (r.segment i)
  else .error .invariantViolated

/-- Finish the segment at the front, which has to be `i`, and answer whether more are pending. The
ring stops running when none is. -/
def finish (r : Ring n) (i : Nat) : Except Fault (Bool × Ring n) :=
  if i = r.front then
    let front := if r.flush then r.head else r.next r.front
    if front = r.head then .ok (false, { r with front := front, running := false })
    else .ok (true, { r with front := front })
  else .error .invariantViolated

/-- Drop every pending segment and stop running. -/
def abort (r : Ring n) : Ring n := { r with front := r.head, running := false }

/-! ## The main loop's side: clearing -/

/-- Whether a finished segment waits at the tail. -/
def hasFinished (r : Ring n) : Bool := r.tail != r.front

/-- The finished segment at the tail, if any. -/
def finished? (r : Ring n) : Option Segment :=
  if r.hasFinished then some (r.segment r.tail) else none

/-- Clear the finished segment at the tail, remembering its exit speed. -/
def reclaim (r : Ring n) : Except Fault (Ring n) :=
  if !r.hasFinished then .error .invariantViolated
  else if r.state r.tail = .locked then .error .invariantViolated
  else .ok { r.setSlot r.tail .cleared with
    lastExitSpeed := (r.segment r.tail).exitSpeed
    tail := r.next r.tail }

end Ring

end MotionControl
