import MotionControl.Plant

/-!
# The interrupt's side by hand

Everything that an interrupt's side may do with the ring, as single acts: begin the next segment,
end the one under execution, drop everything, or nothing. Sequences of acts stand for every
behaviour of an interrupt that is not a stepper.
-/

namespace MotionControl

/-- The state of an interrupt's side that is driven by hand. -/
structure Hand where
  /-- the slot of the segment under execution -/
  current : Option Nat
  /-- the segments ended so far with their slots, oldest first -/
  ended : Array (Nat × Segment)

/-- Nothing is executed and nothing has ended. -/
def Hand.atRest : Hand := ⟨none, #[]⟩

/-- What an interrupt's side can do. -/
inductive Act where
  /-- nothing -/
  | pass
  /-- begin the next segment, unless one is under execution -/
  | start
  /-- end the segment under execution, which begins the next one -/
  | finish
  /-- begin a segment if none is under execution, then end it -/
  | step
  /-- drop everything -/
  | abort
  deriving DecidableEq, Repr

namespace Plant

variable {n : Nat}

/-- Begin the next segment, unless one is under execution. -/
def startByHand (p : Plant n Hand) : Plant n Hand :=
  match p.side.current with
  | some _ => p
  | none =>
    match p.ring.start? with
    | some (i, r) => { p with ring := r, side := { p.side with current := some i } }
    | none => p

/-- End the segment under execution, if any. -/
def finishByHand (p : Plant n Hand) : Except Fault (Plant n Hand) :=
  match p.side.current with
  | none => .ok p
  | some i => do
    let s ← p.ring.executing i
    let (next, r) ← p.ring.release i
    return { p with ring := r, side := ⟨next, p.side.ended.push (i, s)⟩ }

/-- Drop everything. -/
def abortByHand (p : Plant n Hand) : Plant n Hand :=
  { p with ring := p.ring.abort, side := { p.side with current := none } }

end Plant

/-- Perform an act. -/
def Act.perform {n : Nat} (act : Act) (p : Plant n Hand) : Except Fault (Plant n Hand) :=
  match act with
  | pass => .ok p
  | start => .ok p.startByHand
  | finish => p.finishByHand
  | step => p.startByHand.finishByHand
  | abort => .ok p.abortByHand

end MotionControl
