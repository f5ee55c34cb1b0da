import MotionControl.Proofs.Motion.Accept
import MotionControl.Proofs.Motion.Tick

/-!
# Ticks on record

A `Scribe` is a stepper together with a record of the pulses it has made. The record is kept beside
the stepper: ring, events and stepper come from `Plant.tick` and `Plant.rampTick`. Since events are
recorded by the plant itself, the scribe only notes where between the events a pulse belongs, and
`Plant.log` is both records in one.

A `Beat` is one thing that may happen in interrupt context. `Plant.Keeps` is the invariant of all
beats: it says what the main loop may rely on while the interrupt does its work, and its ledger
what the interrupt leaves alone. As long as the machine is `calm`, that is, no stop is raised and
nothing is flushed, the flow leads where it should and the story is the one that was accepted.
-/

namespace MotionControl

/-- A stepper whose pulses are on record. -/
structure Scribe where
  /-- the stepper -/
  stepper : Stepper
  /-- what an observer has seen up to the last pulse -/
  told : List Happening
  /-- how many events are part of it -/
  count : Nat

/-- A scribe with nothing on record. -/
def Scribe.ofStepper (s : Stepper) : Scribe := ⟨s, [], 0⟩

/-- Note a pulse, if there is one, behind some events. -/
def Scribe.note (s : Scribe) (stepper : Stepper) (events : List Event) (o : StepOutput) : Scribe :=
  if o.hasSteps then
    ⟨stepper, s.told ++ (events.drop s.count).map .event ++ [.pulse o], events.length⟩
  else { s with stepper := stepper }

/-- One thing that happens in interrupt context. -/
inductive Beat where
  /-- a tick of the step timer -/
  | step
  /-- a tick of the ramp timer -/
  | ramp
  /-- a stop request for the actuator with an index -/
  | trigger (i : Nat)
  /-- all stop requests are taken back -/
  | rearm
  deriving DecidableEq

/-- Whether a beat leaves the stop mask alone. -/
def Beat.isCalm : Beat → Bool
  | .step | .ramp => true
  | .trigger _ | .rearm => false

namespace Plant

variable {n : Nat}

/-- The plant without the record. -/
def strip (p : Plant n Scribe) : Plant n Stepper := ⟨p.ring, p.stop, p.events, p.side.stepper⟩

/-- The plant with a record. -/
def dress (p : Plant n Stepper) (s : Scribe) : Plant n Scribe := ⟨p.ring, p.stop, p.events, s⟩

/-- All that an observer has seen, oldest first. -/
def log (p : Plant n Scribe) : List Happening :=
  p.side.told ++ (p.events.toList.drop p.side.count).map .event

/-- The story that an observer can tell. -/
def story (p : Plant n Scribe) : Story := .ofLog p.log

/-- A tick of the step timer, on record. -/
def recordTick (p : Plant n Scribe) : Except Fault (Plant n Scribe) := do
  let ready ← p.strip.prepare
  let (o, q) ← p.strip.tick
  return q.dress (p.side.note q.side ready.events.toList o)

/-- A tick of the ramp timer, on record. -/
def recordRamp (p : Plant n Scribe) : Plant n Scribe :=
  p.strip.rampTick.dress { p.side with stepper := p.strip.rampTick.side }

/-- One beat. -/
def beat (p : Plant n Scribe) : Beat → Except Fault (Plant n Scribe)
  | .step => p.recordTick
  | .ramp => .ok p.recordRamp
  | .trigger i => .ok (p.trigger i)
  | .rearm => .ok { p with stop := .clear }

/-- A number of beats. The plant is inspected before each of them and after the last. -/
def beats (inspect : Plant n Scribe → Bool) : List Beat → Plant n Scribe →
    Except Fault (Plant n Scribe)
  | [], p => if inspect p then .ok p else .error .invariantViolated
  | b :: bs, p => if inspect p then do beats inspect bs (← p.beat b) else .error .invariantViolated

theorem strip_dress_note (q : Plant n Stepper) (s : Scribe) (events : List Event)
    (o : StepOutput) : (q.dress (s.note q.side events o)).strip = q := by
  unfold Scribe.note
  split <;> rfl

/-- Keeping a record changes nothing else. -/
theorem strip_recordTick (p : Plant n Scribe) :
    p.recordTick.map strip = p.strip.tick.map Prod.snd := by
  unfold recordTick
  rw [tick_eq_prepare]
  cases p.strip.prepare with
  | error e => rfl
  | ok ready =>
    dsimp only [bind, Except.bind]
    split
    · next hready => rw [hready]; rfl
    · next x hready =>
      rw [hready]
      exact congrArg Except.ok (x.2.strip_dress_note p.side _ x.1)

theorem strip_recordRamp (p : Plant n Scribe) : p.recordRamp.strip = p.strip.rampTick := rfl

/-- The record is one of this plant. -/
def Counted (p : Plant n Scribe) : Prop := p.side.count ≤ p.events.toList.length

/-- Events that are published while nothing is noted come at the end of the log. -/
theorem log_of_events {p : Plant n Scribe} (h : p.Counted) (p' : Plant n Scribe)
    {es : List Event} (hevents : p'.events.toList = p.events.toList ++ es)
    (htold : p'.side.told = p.side.told) (hcount : p'.side.count = p.side.count) :
    p'.Counted ∧ p'.log = p.log ++ es.map .event := by
  unfold Counted log at *
  rw [hevents, htold, hcount, List.length_append]
  refine ⟨Nat.le_trans h (Nat.le_add_right _ _), ?_⟩
  rw [List.drop_append_of_le_length h, List.map_append, List.append_assoc]

theorem log_note {p : Plant n Scribe} (h : p.Counted) {q : Plant n Stepper} {o : StepOutput}
    {events es es' : List Event} (hready : events = p.events.toList ++ es)
    (hq : q.events.toList = p.events.toList ++ (es ++ es')) :
    (q.dress (p.side.note q.side events o)).Counted ∧
      (q.dress (p.side.note q.side events o)).log =
        p.log ++ (es.map .event ++ o.happenings ++ es'.map .event) := by
  have hdrop : ∀ xs, (p.events.toList ++ xs).drop p.side.count =
      p.events.toList.drop p.side.count ++ xs := fun xs => List.drop_append_of_le_length h
  unfold Counted log dress Scribe.note StepOutput.happenings
  dsimp only
  split
  · refine ⟨?_, ?_⟩
    · rw [hq, hready, List.length_append, List.length_append]
      simp only [List.length_append]
      omega
    · dsimp only
      rw [hq, hready, hdrop, ← List.append_assoc p.events.toList, List.drop_left]
      simp [List.append_assoc]
  · refine ⟨?_, ?_⟩
    · dsimp only
      rw [hq, List.length_append]
      exact Nat.le_trans h (Nat.le_add_right _ _)
    · dsimp only
      rw [hq, hdrop]
      simp [List.append_assoc]

end Plant

/-! ## What the main loop may rely on -/

/-- What the interrupt leaves alone. -/
structure Ledger where
  /-- the slots held for revision -/
  held : List Nat
  /-- the segment being prepared -/
  head : Segment
  /-- finishing a segment skips all that wait behind it -/
  flush : Bool
  /-- where the last accepted move ends -/
  goal : PerAxis Int32
  /-- what is to become of all that has been accepted -/
  accepted : List Entry

namespace Plant

variable {n : Nat}

/-- A plant that keeps a ledger. Where it leads is said for a calm machine only. -/
structure Keeps (calm : Prop) (g : Ledger) (p : Plant n Scribe) : Prop where
  /-- stepper and ring agree -/
  coupled : p.strip.Coupled g.held p.ring.toFifo
  /-- the segment being prepared is the one of the ledger -/
  head_eq : p.ring.toFifo.head = g.head
  /-- the request to flush is the one of the ledger -/
  flush_eq : p.ring.toFifo.flush = g.flush
  /-- the record is one of this plant -/
  counted : p.Counted
  /-- a calm machine has no stop latched -/
  clear : calm → p.stop.isActive = false
  /-- a calm machine does not skip segments -/
  unflushed : calm → g.flush = false
  /-- a calm machine is on its course -/
  onCourse : calm → p.strip.flow.OnCourse p.story g.goal g.accepted

/-- Where only the faults of the planner's arithmetic and of waits given up may come from. -/
def Safely {α : Type} (calm : Prop) (post : α → Prop) : Except Fault α → Prop
  | .ok a => post a
  | .error e => calm → e = .waitExhausted ∨ e = .subtractOverflow

theorem Safely.bind {α β : Type} {calm : Prop} {x : Except Fault α} {f : α → Except Fault β}
    {r : α → Prop} {post : β → Prop} (hx : Safely calm r x)
    (hf : ∀ a, r a → Safely calm post (f a)) : Safely calm post (x >>= f) := by
  cases x with
  | ok a => exact hf a hx
  | error e => exact hx

theorem Safely.mono {α : Type} {calm : Prop} {x : Except Fault α} {post post' : α → Prop}
    (hx : Safely calm post x) (h : ∀ a, post a → post' a) : Safely calm post' x := by
  cases x with
  | ok a => exact h a hx
  | error e => exact hx

namespace Keeps

variable {calm : Prop} {g : Ledger} {p : Plant n Scribe}

/-- Keeping a ledger, from an outcome of the interrupt's work. -/
theorem ofOutcome (h : p.Keeps calm g) {p' : Plant n Stepper} {q' : Fifo} {es : List Event}
    (hout : p.strip.Outcome g.held p.ring.toFifo p' q' es) {s : Scribe} {hs : List Happening}
    (hside : s.stepper = p'.side) (hcounted : (p'.dress s).Counted)
    (hlog : (p'.dress s).log = p.log ++ hs) (hsteps : calm → p.strip.flow.Steps hs p'.flow) :
    (p'.dress s).Keeps calm g := by
  have hstrip : (p'.dress s).strip = p' := by
    unfold dress strip
    rw [hside]
  have hqueue : (p'.dress s).ring.toFifo = q' := hout.coupled.holds.toFifo_eq
  refine ⟨?_, ?_, ?_, hcounted, ?_, h.unflushed, ?_⟩
  · rw [hstrip, hqueue]
    exact hout.coupled
  · rw [hqueue, hout.head_eq]
    exact h.head_eq
  · rw [hqueue, hout.flush_eq]
    exact h.flush_eq
  · intro hcalm
    have hstop : (p'.dress s).stop = p.stop := hout.stop_eq
    rw [hstop]
    exact h.clear hcalm
  · intro hcalm
    have hcourse := (h.onCourse hcalm).steps (hsteps hcalm)
    rw [hstrip, story, hlog, Story.ofLog, List.foldl_append]
    exact hcourse

theorem calmPlant (h : p.Keeps calm g) (hcalm : calm) : p.strip.Calm p.ring.toFifo :=
  ⟨h.clear hcalm, by rw [h.flush_eq]; exact h.unflushed hcalm⟩

theorem recordTick (h : p.Keeps calm g) : Safely calm (Keeps calm g) p.recordTick := by
  unfold Plant.recordTick
  obtain ⟨ready, o, p', q', es, es', hready, hevents, htick, hout, hsteps⟩ |
    ⟨e, htick, hnot⟩ := tick_eq h.coupled
  · rw [hready, htick]
    obtain ⟨hcounted, hlog⟩ := log_note (o := o) h.counted hevents hout.events_eq
    refine h.ofOutcome hout ?_ hcounted hlog ?_
    · unfold Scribe.note
      split <;> rfl
    · intro hcalm
      have hcourse := h.onCourse hcalm
      refine hsteps (h.calmPlant hcalm) ?_ ?_
      · intro f hs hsteps
        exact (hcourse.steps hsteps).bounded.canStrike
      · intro f hs t l hsteps hc
        exact ((hcourse.steps hsteps).sound.carries t l hc).uncut
  · obtain ⟨ready, -, -, hready, -⟩ := prepare_eq h.coupled
    rw [hready, htick]
    -- a calm machine never leaves the word of a position
    intro hcalm
    obtain ⟨f, hs, hsteps, hcan⟩ := hnot (h.calmPlant hcalm)
    exact (hcan ((h.onCourse hcalm).steps hsteps).bounded.canStrike).elim

theorem recordRamp (h : p.Keeps calm g) : p.recordRamp.Keeps calm g := by
  obtain ⟨es, hout, hsteps⟩ := rampTick_eq h.coupled
  obtain ⟨hcounted, hlog⟩ := log_of_events h.counted p.recordRamp hout.events_eq rfl rfl
  exact h.ofOutcome hout rfl hcounted hlog fun _ => hsteps

theorem beat (h : p.Keeps calm g) {b : Beat} (hb : calm → b.isCalm = true) :
    Safely calm (Keeps calm g) (p.beat b) := by
  cases b with
  | step => exact h.recordTick
  | ramp => exact h.recordRamp
  | trigger i =>
    have hnot : ¬ calm := fun hcalm => Bool.noConfusion (hb hcalm)
    exact ⟨⟨h.coupled.holds, h.coupled.begun_eq, h.coupled.slot_eq⟩, h.head_eq, h.flush_eq,
      h.counted, fun hcalm => (hnot hcalm).elim, h.unflushed, fun hcalm => (hnot hcalm).elim⟩
  | rearm =>
    have hnot : ¬ calm := fun hcalm => Bool.noConfusion (hb hcalm)
    exact ⟨⟨h.coupled.holds, h.coupled.begun_eq, h.coupled.slot_eq⟩, h.head_eq, h.flush_eq,
      h.counted, fun hcalm => (hnot hcalm).elim, h.unflushed, fun hcalm => (hnot hcalm).elim⟩

/-- Beats keep the ledger, and every inspection that the ledger justifies is passed. -/
theorem beats {inspect : Plant n Scribe → Bool}
    (hinspect : calm → ∀ p, Keeps calm g p → inspect p = true) {bs : List Beat}
    (hbs : calm → ∀ b ∈ bs, b.isCalm = true) (h : p.Keeps calm g) :
    Safely calm (Keeps calm g) (Plant.beats inspect bs p) := by
  induction bs generalizing p with
  | nil =>
    unfold Plant.beats
    split
    · exact h
    · next hfail => exact fun hcalm => (hfail (hinspect hcalm p h)).elim
  | cons b bs ih =>
    unfold Plant.beats
    split
    · refine (h.beat fun hcalm => hbs hcalm b List.mem_cons_self).bind fun p' h' => ?_
      exact ih (fun hcalm b hb => hbs hcalm b (List.mem_cons_of_mem _ hb)) h'
    · next hfail => exact fun hcalm => (hfail (hinspect hcalm p h)).elim

end Keeps

end Plant

end MotionControl
