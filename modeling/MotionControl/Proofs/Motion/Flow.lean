import MotionControl.Proofs.Motion.Course
import MotionControl.Proofs.Ring.Locks

/-!
# The flow of loads

A `Flow` is what matters of a plant for where the actuators go and which commands run: the loads on
their way, the traversal under execution and the position reached. Slots, locks, speeds and
everything finished are left out. What the interrupt does to it while no stop is latched is
`Flow.Step`, and each step says what an observer sees happen meanwhile: events, and pulses of the
step lines.

* `start`: the first waiting load begins to move;
* `pass`: the first waiting load, which has no motion, is over at once;
* `turn` and `ramp`: the traversal proceeds between two step events, or changes its speed;
* `strike`: a step event that leaves more to do;
* `last`: the step event that completes the load.

`Plant.flow` is the flow of a plant, and `Plant.Coupled` says that stepper and ring agree about
what is executed.
-/

namespace MotionControl

/-- What an observer of the machine sees. -/
inductive Happening where
  /-- an event is published -/
  | event (e : Event)
  /-- the step lines are pulsed -/
  | pulse (o : StepOutput)

/-- What an observer sees of the output of a tick. -/
def StepOutput.happenings (o : StepOutput) : List Happening := if o.hasSteps then [.pulse o] else []

/-- What happens when a segment is over: its commands run, then it is reported. -/
def Segment.completion (s : Segment) : List Event :=
  s.commands.toList.map Event.commandDue ++ [.ended s]

/-- The loads on their way and the position reached. -/
structure Flow where
  /-- the traversal under execution, with the load it carries out -/
  current : Option (Traversal × Load)
  /-- the loads that have been published and have not begun, oldest first -/
  waiting : List Load
  /-- the load being prepared -/
  head : Load
  /-- the position reached, in steps -/
  position : PerAxis Int32

namespace Flow

/-- The position after a step event. -/
def Moves (f : Flow) (t : Traversal) (position : PerAxis Int32) : Prop :=
  ∀ a, (position.get a).toInt =
    (f.position.get a).toInt + Stepper.maskedStep t.nextMask t.directions a

/-- What the interrupt does while no stop is latched, and what an observer sees of it. -/
inductive Step : Flow → List Happening → Flow → Prop
  | start {f : Flow} {s : Segment} {rest : List Load} {slot : Nat} {t : Traversal}
      {rate nominalRate : UInt32} (hc : f.current = none) (hw : f.waiting = s.load :: rest)
      (hm : s.hasMotion = true) (ht : (Traversal.ofSegment slot s).SameCourse t) :
      Step f [.event (.began s), .event (.speedChanged rate nominalRate)]
        { f with current := some (t, s.load), waiting := rest }
  | pass {f : Flow} {s : Segment} {rest : List Load} (hc : f.current = none)
      (hw : f.waiting = s.load :: rest) (hm : s.hasMotion = false) :
      Step f (s.completion.map .event) { f with waiting := rest }
  | turn {f : Flow} {t t' : Traversal} {l : Load} (hc : f.current = some (t, l))
      (ht : t.SameCourse t') : Step f [] { f with current := some (t', l) }
  | ramp {f : Flow} {t t' : Traversal} {l : Load} {rate nominalRate : UInt32}
      (hc : f.current = some (t, l)) (ht : t.SameCourse t') :
      Step f [.event (.speedChanged rate nominalRate)] { f with current := some (t', l) }
  | strike {f : Flow} {t : Traversal} {l : Load} {position : PerAxis Int32}
      (hc : f.current = some (t, l)) (hp : f.Moves t position)
      (hmore : t.stepEvent.isComplete = false) :
      Step f (StepOutput.happenings ⟨t.nextMask, t.directions⟩)
        { f with current := some (t.stepEvent, l), position := position }
  | last {f : Flow} {t : Traversal} {s : Segment} {position : PerAxis Int32}
      (hc : f.current = some (t, s.load)) (hp : f.Moves t position)
      (hdone : t.stepEvent.isComplete = true) :
      Step f (StepOutput.happenings ⟨t.nextMask, t.directions⟩ ++ s.completion.map .event)
        { f with current := none, position := position }

/-- Any number of steps, with all that is seen of them. -/
inductive Steps : Flow → List Happening → Flow → Prop
  | refl (f : Flow) : Steps f [] f
  | cons {f g h : Flow} {hs hs' : List Happening} (first : Step f hs g) (rest : Steps g hs' h) :
      Steps f (hs ++ hs') h

theorem Step.steps {f g : Flow} {hs : List Happening} (h : Step f hs g) : Steps f hs g := by
  have := Steps.cons h (.refl g)
  rwa [List.append_nil] at this

theorem Steps.trans {f g h : Flow} {hs hs' : List Happening} (h₁ : Steps f hs g)
    (h₂ : Steps g hs' h) : Steps f (hs ++ hs') h := by
  induction h₁ with
  | refl => exact h₂
  | cons first _ ih =>
    rw [List.append_assoc]
    exact .cons first (ih h₂)

/-- The next step event, if there is one, does not lead out of the word of a position. -/
def CanStrike (f : Flow) : Prop :=
  ∀ t l, f.current = some (t, l) → ∀ a,
    InWord ((f.position.get a).toInt + Stepper.maskedStep t.nextMask t.directions a)

end Flow

/-! ## The flow of a queue -/

namespace Fifo

/-- The loads that are not over, oldest first. -/
def loads (q : Fifo) : List Load := q.pending.map fun e => e.segment.load

/-- The flow of a queue from which a stepper takes its segments. -/
def flow (q : Fifo) (s : Stepper) : Flow where
  current := s.current.bind fun t => q.loads.head?.map fun l => (t, l)
  waiting := q.waiting.map fun e => e.segment.load
  head := q.head.load
  position := s.position

/-- The flow of a queue of which nothing has begun. -/
def restingFlow (q : Fifo) (position : PerAxis Int32) : Flow where
  current := none
  waiting := q.loads
  head := q.head.load
  position := position

theorem waiting_loads (q : Fifo) : (q.waiting.map fun e => e.segment.load) =
    if q.begun then q.loads.tail else q.loads := by
  unfold waiting loads
  split
  · rw [List.map_tail]
  · rfl

theorem flow_of_current_none {q : Fifo} {s : Stepper} (hb : q.begun = false)
    (hc : s.current = none) : q.flow s = q.restingFlow s.position := by
  unfold flow restingFlow
  rw [waiting_loads, hb, hc]
  rfl

theorem flow_of_current_some {q : Fifo} {s : Stepper} {t : Traversal} (hb : q.begun = true)
    (hc : s.current = some t) {l : Load} {rest : List Load} (hl : q.loads = l :: rest) :
    q.flow s = ⟨some (t, l), rest, q.head.load, s.position⟩ := by
  unfold flow
  rw [waiting_loads, hb, hc, hl]
  rfl

/-- The flow does not depend on locks, speeds and whatever is finished. -/
theorem flow_congr {q q' : Fifo} (s : Stepper) (hl : q'.loads = q.loads)
    (hb : q'.begun = q.begun) (hh : q'.head.load = q.head.load) : q'.flow s = q.flow s := by
  unfold flow
  rw [waiting_loads, waiting_loads, hl, hb, hh]

end Fifo

/-! ## The flow of a plant -/

namespace Plant

variable {n : Nat}

/-- The flow of a plant. -/
def flow (p : Plant n Stepper) : Flow := p.ring.toFifo.flow p.side

/-- The ring stands for a queue, and the stepper executes the segment at its front if that has
begun. -/
structure Coupled (p : Plant n Stepper) (held : List Nat) (q : Fifo) : Prop where
  /-- the ring stands for the queue -/
  holds : p.ring.Holds held q
  /-- both agree whether anything is executed -/
  begun_eq : q.begun = p.side.isBusy
  /-- both agree about what is executed -/
  slot_eq : ∀ t, p.side.current = some t → t.slot = p.ring.front

/-- The ring stands for a queue, and `next` is the slot of the segment that has begun. -/
structure Poised (p : Plant n Stepper) (held : List Nat) (q : Fifo) (next : Option Nat) :
    Prop where
  /-- the ring stands for the queue -/
  holds : p.ring.Holds held q
  /-- there is a slot if something has begun -/
  begun_eq : q.begun = next.isSome
  /-- the slot is the one at the front -/
  slot_eq : ∀ i, next = some i → i = p.ring.front

namespace Coupled

variable {p : Plant n Stepper} {held : List Nat} {q : Fifo}

theorem flow_eq (h : p.Coupled held q) : p.flow = q.flow p.side := by
  rw [flow, h.holds.toFifo_eq]

theorem begun_of_idle (h : p.Coupled held q) (hc : p.side.current = none) : q.begun = false := by
  rw [h.begun_eq, Stepper.isBusy, hc]
  rfl

theorem begun_of_busy (h : p.Coupled held q) {t : Traversal} (hc : p.side.current = some t) :
    q.begun = true := by
  rw [h.begun_eq, Stepper.isBusy, hc]
  rfl

theorem flow_of_rest (h : p.Coupled held q) (hc : p.side.current = none) :
    p.flow = q.restingFlow p.side.position := by
  rw [h.flow_eq, Fifo.flow_of_current_none (h.begun_of_idle hc) hc]

theorem exists_executing (h : p.Coupled held q) {t : Traversal} (hc : p.side.current = some t) :
    ∃ s rest, q.pending = ⟨s, .executing⟩ :: rest := Fifo.pending_of_begun (h.begun_of_busy hc)

/-- The traversal may proceed, as long as the ring is left alone. -/
theorem proceed {p' : Plant n Stepper} (h : p.Coupled held q) {t t' : Traversal}
    (hc : p.side.current = some t) (hring : p'.ring = p.ring) (hc' : p'.side.current = some t')
    (hslot : t'.slot = t.slot) : p'.Coupled held q := by
  refine ⟨?_, ?_, ?_⟩
  · rw [hring]
    exact h.holds
  · rw [h.begun_of_busy hc, Stepper.isBusy, hc']
    rfl
  · intro t'' ht''
    rw [hc'] at ht''
    cases ht''
    rw [hring, hslot]
    exact h.slot_eq t hc

theorem flow_of_busy (h : p.Coupled held q) {t : Traversal} (hc : p.side.current = some t)
    {s : Segment} {rest : List Slot} (hp : q.pending = ⟨s, .executing⟩ :: rest) :
    p.flow = ⟨some (t, s.load), rest.map fun e => e.segment.load, q.head.load,
      p.side.position⟩ := by
  rw [h.flow_eq, Fifo.flow_of_current_some (h.begun_of_busy hc) hc]
  rw [Fifo.loads, hp, List.map_cons]

end Coupled

end Plant

/-! ## Taking segments from the ring -/

namespace Ring.Holds

variable {n : Nat} {r : Ring n} {held : List Nat} {q : Fifo}

/-- What beginning a segment does to the queue: nothing that matters but that it has begun. -/
theorem begin?_eq (h : r.Holds held q) :
    (∃ r' q', r.begin? = some (r.front, r') ∧ r'.Holds held q' ∧ q'.begun = true ∧
      r'.front = r.front ∧ q'.loads = q.loads ∧ q'.head = q.head ∧ q'.flush = q.flush) ∨
      r.begin? = none := by
  by_cases hready : ∃ s rest, q.pending = ⟨s, .ready⟩ :: rest
  · obtain ⟨s, rest, hp⟩ := hready
    obtain ⟨r', hr', hfront, hholds⟩ := h.begin?_of_ready hp
    refine .inl ⟨r', _, hr', hholds, rfl, hfront, ?_, rfl, rfl⟩
    simp only [Fifo.loads, hp, List.map_cons]
  · refine .inr (h.begin?_of_not_ready ?_)
    intro s rest hp
    exact hready ⟨s, rest, hp⟩

/-- Handing a segment back takes its load off the queue, and may begin the next one. -/
theorem release_eq (h : r.Holds held q) (hb : q.begun = true) :
    ∃ next r' q', r.release r.front = .ok (next, r') ∧ r'.Holds held q' ∧
      q'.begun = next.isSome ∧ (∀ i, next = some i → i = r'.front) ∧
      (q.flush = false → q'.loads = q.loads.tail) ∧ q'.pending.length < q.pending.length ∧
      q'.head = q.head ∧ q'.flush = q.flush := by
  obtain ⟨s, rest, hp⟩ := Fifo.pending_of_begun hb
  have hne : q.pending ≠ [] := by
    rw [hp]
    exact List.cons_ne_nil _ _
  obtain ⟨r₁, hr₁, h₁⟩ := h.finish fun _ => hne
  -- first the front is given back, and then the next segment may begin
  have hb₁ : q.finish.2.begun = false := h.valid.begun_finish
  have hloads₁ : q.flush = false → q.finish.2.loads = q.loads.tail := by
    intro hflush
    simp [Fifo.loads, Fifo.finish, Fifo.afterFinish, hflush]
  have hlt₁ : q.finish.2.pending.length < q.pending.length := by
    have := List.length_pos_iff.mpr hne
    simp only [Fifo.finish, Fifo.afterFinish]
    split
    · exact this
    · rw [List.length_tail]
      omega
  rw [Ring.release, hr₁]
  dsimp only [bind, Except.bind]
  by_cases hmore : q.finish.1 = true
  · rw [if_pos hmore]
    obtain ⟨r₂, q₂, hr₂, h₂, hb₂, hfront₂, hloads₂, hhead₂, hflush₂⟩ | hr₂ := h₁.begin?_eq
    · refine ⟨some r₁.front, r₂, q₂, by rw [hr₂], h₂, hb₂, ?_, ?_, ?_, hhead₂, hflush₂⟩
      · intro i hi
        rw [hfront₂, ← Option.some.inj hi]
      · intro hflush
        rw [hloads₂, hloads₁ hflush]
      · have hlen := congrArg List.length hloads₂
        rw [Fifo.loads, Fifo.loads, List.length_map, List.length_map] at hlen
        omega
    · exact ⟨none, r₁, q.finish.2, by rw [hr₂], h₁, hb₁, fun i hi => (by cases hi), hloads₁, hlt₁,
        rfl, rfl⟩
  · rw [if_neg hmore]
    exact ⟨none, r₁, q.finish.2, rfl, h₁, hb₁, fun i hi => (by cases hi), hloads₁, hlt₁, rfl, rfl⟩

end Ring.Holds

end MotionControl
