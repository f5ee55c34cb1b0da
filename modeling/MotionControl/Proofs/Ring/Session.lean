import MotionControl.Proofs.Ring.Locks

/-!
# Using the ring

A `Session` is a ring together with what its users have to remember to use it properly: which
slots are held for revision, and which segments have begun and are not over. `Session.step` is one
use of the ring, and `Session.Allows` says which uses are proper:

* the main loop holds slots for revision at most once at a time, and does not change the size of
  the ring or clear a slot while it holds it;
* the interrupt finishes and reads only what has begun and is not over;
* the main loop clears a segment only when one is finished.

Everything else may come in any order, in particular the uses of the interrupt while slots are
held. The same uses of a `Fifo` are `Fifo.step`, and a proper use of the ring always succeeds, with
the answer that the queue gives (`Session.Keeps.step`).

A session also numbers the segments in the order of their publication. The number is noted for the
slot, and read from there when the segment begins.
-/

namespace MotionControl

/-- The uses of the ring. -/
inductive Use where
  /-- change the segment being prepared -/
  | write (f : Segment → Segment)
  /-- publish it -/
  | publish
  /-- ask the interrupt to consume segments, or not to -/
  | setRunning (running : Bool)
  /-- let the next finished segment take all that wait behind it along, or not -/
  | setFlush (flush : Bool)
  /-- hold the newest pending segment for revision -/
  | lockNewest
  /-- hold every pending segment that has not begun for revision -/
  | lockWindow
  /-- revise one of the segments held, the oldest having number 0 -/
  | revise (k : Nat) (f : Segment → Segment)
  /-- give up what is held -/
  | unlock
  /-- begin the segment at the front -/
  | begin
  /-- read a segment that has begun -/
  | read (i : Nat)
  /-- finish a segment that has begun -/
  | finish (i : Nat)
  /-- drop every pending segment -/
  | abort
  /-- read the finished segment at the tail -/
  | peek
  /-- clear the finished segment at the tail -/
  | reclaim
  /-- use another number of slots -/
  | resize (len : Nat)

/-- What a use of the ring is answered with. No answer depends on the number of a slot. -/
inductive Answer where
  /-- it is done -/
  | done
  /-- it is refused, and nothing has changed -/
  | refused (cause : RingError)
  /-- these are held for revision, oldest first -/
  | held (segments : List Segment)
  /-- this one has begun, if any -/
  | begun (segment : Option Segment)
  /-- this is the segment -/
  | content (segment : Segment)
  /-- whether more segments are pending -/
  | more (pending : Bool)
  /-- this one is finished, if any -/
  | finished (segment : Option Segment)

/-- A ring in use. -/
structure Session (n : Nat) where
  /-- the ring -/
  ring : Ring n
  /-- the slots held for revision, if any are -/
  guard : Option (List Nat)
  /-- the slots of the segments that have begun and are not over -/
  begun : List Nat
  /-- how many segments have been published -/
  published : Nat
  /-- the number of the segment published last into a slot -/
  stamp : Nat → Nat
  /-- the numbers of the segments that have begun, in the order in which they did -/
  started : List Nat

namespace Session

variable {n : Nat}

/-- The session before the first use of a ring. -/
def ofRing (r : Ring n) : Session n where
  ring := r
  guard := none
  begun := []
  published := 0
  stamp _ := 0
  started := []

/-- The slots held for revision. -/
def held (s : Session n) : List Nat := s.guard.getD []

/-- Which uses are proper. -/
def Allows (s : Session n) : Use → Prop
  | .lockNewest | .lockWindow | .resize _ => s.guard = none
  | .revise k _ => k < s.held.length
  | .read i | .finish i => i ∈ s.begun
  | .reclaim => s.ring.hasFinished = true ∧ s.ring.tail ∉ s.held
  | _ => True

instance (s : Session n) (u : Use) : Decidable (s.Allows u) := by
  cases u <;> unfold Allows <;> infer_instance

/-- One use of the ring. -/
def step (s : Session n) : Use → Except Fault (Answer × Session n)
  | .write f => .ok (.done, { s with ring := s.ring.setHead (f s.ring.headSegment) })
  | .publish =>
    match s.ring.publish with
    | .error e => .ok (.refused e, s)
    | .ok ring => .ok (.done, { s with
        ring := ring
        published := s.published + 1
        stamp := fun i => if i = s.ring.head then s.published else s.stamp i })
  | .setRunning running => .ok (.done, { s with ring := s.ring.setRunning running })
  | .setFlush flush => .ok (.done, { s with ring := s.ring.setFlush flush })
  | .lockNewest =>
    match s.ring.lockNewest with
    | some (i, ring) => .ok (.held [ring.segment i], { s with ring := ring, guard := some [i] })
    | none => .ok (.held [], s)
  | .lockWindow =>
    let (window, ring) := s.ring.lockWindow
    .ok (.held (ring.segments window.slots),
      { s with ring := ring, guard := some window.slots })
  | .revise k f =>
    match s.held[k]? with
    | some i => .ok (.done, { s with ring := s.ring.setSegment i (f (s.ring.segment i)) })
    | none => .error .invariantViolated
  | .unlock => .ok (.done, { s with ring := s.ring.unlock s.held, guard := none })
  | .begin =>
    match s.ring.begin? with
    | some (i, ring) => .ok (.begun (some (ring.segment i)), { s with
        ring := ring
        begun := i :: s.begun
        started := s.started ++ [s.stamp i] })
    | none => .ok (.begun none, s)
  | .read i => do
    let segment ← s.ring.executing i
    return (.content segment, s)
  | .finish i => do
    let (more, ring) ← s.ring.finish i
    return (.more more, { s with ring := ring, begun := s.begun.filter fun j => j ≠ i })
  | .abort => .ok (.done, { s with ring := s.ring.abort, begun := [] })
  | .peek => .ok (.finished s.ring.finished?, s)
  | .reclaim => do
    let ring ← s.ring.reclaim
    return (.done, { s with ring := ring })
  | .resize len =>
    match s.ring.resize len with
    | .error e => .ok (.refused e, s)
    | .ok ring => .ok (.done, { s with ring := ring })

/-- A sequence of uses, with their answers. -/
def run (s : Session n) : List Use → Except Fault (List Answer × Session n)
  | [] => .ok ([], s)
  | u :: us => do
    let (answer, s) ← s.step u
    let (answers, s) ← s.run us
    return (answer :: answers, s)

/-- Every use in a sequence is proper when its turn comes. -/
def Disciplined (s : Session n) : List Use → Prop
  | [] => True
  | u :: us => s.Allows u ∧
    match s.step u with
    | .ok (_, s) => s.Disciplined us
    | .error _ => True

instance decidableDisciplined : (s : Session n) → (us : List Use) → Decidable (s.Disciplined us)
  | _, [] => .isTrue trivial
  | s, u :: us =>
    let _ : Decidable (match s.step u with
        | .ok (_, s) => s.Disciplined us
        | .error _ => True) :=
      match s.step u with
      | .ok (_, s) => decidableDisciplined s us
      | .error _ => .isTrue trivial
    inferInstanceAs (Decidable (_ ∧ _))

end Session

/-- One use of a queue, of which the ring that stands for it has `built` slots built in. -/
def Fifo.step (built : Nat) (q : Fifo) : Use → Answer × Fifo
  | .write f => (.done, q.setHead (f q.head))
  | .publish =>
    match q.publish with
    | .error e => (.refused e, q)
    | .ok q => (.done, q)
  | .setRunning running => (.done, q.setRunning running)
  | .setFlush flush => (.done, q.setFlush flush)
  | .lockNewest =>
    match q.lockNewest with
    | some q => (.held q.held, q)
    | none => (.held [], q)
  | .lockWindow => (.held q.lockWindow.held, q.lockWindow)
  | .revise k f => (.done, q.revise (q.held.modify k f))
  | .unlock => (.done, q.unlock)
  | .begin =>
    match q.begin? with
    | some (segment, q) => (.begun (some segment), q)
    | none => (.begun none, q)
  | .read _ => (.content ((q.pending.head?.map Slot.segment).getD .empty), q)
  | .finish _ => (.more q.finish.1, q.finish.2)
  | .abort => (.done, q.abort)
  | .peek => (.finished q.finished?, q)
  | .reclaim => (.done, q.reclaim)
  | .resize len =>
    if q.entries ≠ [] then (.refused .notEmpty, q)
    else if 2 ≤ len ∧ len ≤ built then (.done, q.resize (len - 1))
    else (.refused .invalidSize, q)

/-- A sequence of uses of a queue, with their answers. -/
def Fifo.run (built : Nat) (q : Fifo) : List Use → List Answer × Fifo
  | [] => ([], q)
  | u :: us =>
    let (answer, q) := q.step built u
    let (answers, q) := q.run built us
    (answer :: answers, q)

end MotionControl
