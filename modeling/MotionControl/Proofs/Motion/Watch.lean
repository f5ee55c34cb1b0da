import MotionControl.Proofs.Motion.Pace
import MotionControl.Proofs.Motion.Reach
import MotionControl.Proofs.Motion.Scribe

/-!
# Watching a segment being executed

`Plant.watch` is a run of beats with the outputs of its ticks. From a traversal on, a run may do
three things, which `Plant.Until` keeps apart: it goes on executing the segment, or a tick ends the
segment one way or another, or a tick would lead out of the word of a position. What holds while it
goes on is proved by one lemma about a single beat (`Plant.Until.of_beat`), and from there by one
about a single stroke (`Plant.Until.of_stroke`), since the other beats make no steps.

`Plant.Ahead` is what holds in any case, whatever the beats are: the position has moved by the
steps made, no more steps have been made than there were left, and nothing has been published but
changes of the speed. And if every tick advances the phase, the ticks have been counted, so that
there can be no more than 65536 of them for every event (`Plant.Ahead.length_lt`): a run that has
more of them is over (`Plant.Until.ends`).
-/

namespace MotionControl

variable {n : Nat} {good : Segment → Prop}

/-! ## Runs -/

/-- The stop mask that a beat leaves. -/
def Beat.leaves (stop : StopMask) : Beat → StopMask
  | .step | .ramp => stop
  | .trigger i => stop.trigger i
  | .rearm => .clear

namespace Plant

/-- One beat, with the output if it is a tick of the step timer. -/
def react (p : Plant n Stepper) : Beat → Except Fault (List StepOutput × Plant n Stepper)
  | .step => p.tick.map fun x => ([x.1], x.2)
  | .ramp => .ok ([], p.rampTick)
  | .trigger i => .ok ([], p.trigger i)
  | .rearm => .ok ([], { p with stop := .clear })

/-- A run of beats, with the outputs of its ticks. -/
def watch : List Beat → Plant n Stepper → Except Fault (List StepOutput × Plant n Stepper)
  | [], p => .ok ([], p)
  | b :: bs, p => do
    let (os, p) ← p.react b
    let (os', p) ← watch bs p
    return (os ++ os', p)

theorem watch_cons_eq_ok {p p' : Plant n Stepper} {b : Beat} {bs : List Beat}
    {os : List StepOutput} (h : p.watch (b :: bs) = .ok (os, p')) :
    ∃ os₁ p₁ os₂, p.react b = .ok (os₁, p₁) ∧ p₁.watch bs = .ok (os₂, p') ∧ os = os₁ ++ os₂ := by
  obtain ⟨⟨os₁, p₁⟩, hb, h⟩ := Fault.bind_eq_ok.mp h
  obtain ⟨⟨os₂, p₂⟩, hbs, h⟩ := Fault.bind_eq_ok.mp h
  cases h
  exact ⟨os₁, p₁, os₂, hb, hbs, rfl⟩

theorem watch_append {p p₁ p₂ : Plant n Stepper} {bs bs' : List Beat} {os os' : List StepOutput}
    (h : p.watch bs = .ok (os, p₁)) (h' : p₁.watch bs' = .ok (os', p₂)) :
    p.watch (bs ++ bs') = .ok (os ++ os', p₂) := by
  induction bs generalizing p os with
  | nil =>
    cases h
    exact h'
  | cons c bs ih =>
    obtain ⟨os₁, p', os₂, hc, hbs, rfl⟩ := watch_cons_eq_ok h
    simp only [List.cons_append, watch, hc, ih hbs, bind, Except.bind]
    rw [List.append_assoc]
    rfl

theorem watch_cons {p p₁ p₂ : Plant n Stepper} {b : Beat} {bs : List Beat}
    {os os' : List StepOutput} (hb : p.react b = .ok (os, p₁))
    (h : p₁.watch bs = .ok (os', p₂)) : p.watch (b :: bs) = .ok (os ++ os', p₂) := by
  simp only [watch, hb, h, bind, Except.bind]
  rfl

theorem watch_singleton {p p₁ : Plant n Stepper} {b : Beat} {os : List StepOutput}
    (hb : p.react b = .ok (os, p₁)) : p.watch [b] = .ok (os, p₁) := by
  rw [watch_cons hb (show p₁.watch [] = .ok ([], p₁) from rfl), List.append_nil]

theorem react_step {p p' : Plant n Stepper} {o : StepOutput} (h : p.tick = .ok (o, p')) :
    p.react .step = .ok ([o], p') := by
  rw [react, h]
  rfl

theorem react_step_eq_ok {p p' : Plant n Stepper} {os : List StepOutput}
    (h : p.react .step = .ok (os, p')) : ∃ o, p.tick = .ok (o, p') ∧ os = [o] := by
  cases htick : p.tick with
  | error e =>
    rw [react, htick] at h
    cases h
  | ok x =>
    rw [react, htick] at h
    cases h
    exact ⟨x.1, rfl, rfl⟩

theorem length_react {p p' : Plant n Stepper} {b : Beat} {os : List StepOutput}
    (h : p.react b = .ok (os, p')) : os.length = [b].count .step := by
  cases b with
  | step =>
    obtain ⟨o, -, rfl⟩ := react_step_eq_ok h
    rfl
  | _ =>
    cases h
    rfl

/-- Every tick of the step timer has one output. -/
theorem length_watch {p p' : Plant n Stepper} {bs : List Beat} {os : List StepOutput}
    (h : p.watch bs = .ok (os, p')) : os.length = bs.count .step := by
  induction bs generalizing p os with
  | nil =>
    cases h
    rfl
  | cons b bs ih =>
    obtain ⟨os₁, p₁, os₂, hb, hbs, rfl⟩ := watch_cons_eq_ok h
    rw [List.length_append, length_react hb, ih hbs, ← List.count_append]
    rfl

theorem watch_append_eq_ok {p p' : Plant n Stepper} {bs bs' : List Beat} {os : List StepOutput}
    (h : p.watch (bs ++ bs') = .ok (os, p')) :
    ∃ os₁ p₁ os₂, p.watch bs = .ok (os₁, p₁) ∧ p₁.watch bs' = .ok (os₂, p') := by
  induction bs generalizing p os with
  | nil => exact ⟨[], p, os, rfl, h⟩
  | cons b bs ih =>
    obtain ⟨os₁, p₁, os₂, hb, hbs, -⟩ := watch_cons_eq_ok h
    obtain ⟨os₃, p₂, os₄, hwatch, hrest⟩ := ih hbs
    exact ⟨_, p₂, os₄, watch_cons hb hwatch, hrest⟩

theorem Reachable.react {p p' : Plant n Stepper} {held : List Nat} (h : Reachable good held p)
    {b : Beat} {os : List StepOutput} (hb : p.react b = .ok (os, p')) :
    Reachable good held p' := by
  cases b with
  | step =>
    obtain ⟨o, htick, -⟩ := react_step_eq_ok hb
    exact h.tick htick
  | ramp =>
    cases hb
    exact h.rampTick
  | trigger i =>
    cases hb
    exact h.setStop _
  | rearm =>
    cases hb
    exact h.setStop .clear

theorem Reachable.watch {p p' : Plant n Stepper} {held : List Nat} (h : Reachable good held p)
    {bs : List Beat} {os : List StepOutput} (hbs : p.watch bs = .ok (os, p')) :
    Reachable good held p' := by
  induction bs generalizing p os with
  | nil =>
    cases hbs
    exact h
  | cons b bs ih =>
    obtain ⟨os₁, p₁, os₂, hb, hbs, -⟩ := watch_cons_eq_ok hbs
    exact ih (h.react hb) hbs

/-- A run from some plant on: it goes on for all of the beats, or it is over with one of its ticks,
or one of its ticks leads out of the word of a position, which happens only for a reason. -/
inductive Until (during : List Beat → List StepOutput → Plant n Stepper → Prop)
    (final : List Beat → List StepOutput → StepOutput → Plant n Stepper → Prop) (reason : Prop)
    (p : Plant n Stepper) : List Beat → Prop
  | underway {bs : List Beat} {os : List StepOutput} {p' : Plant n Stepper}
      (hrun : p.watch bs = .ok (os, p')) (hduring : during bs os p') :
      Until during final reason p bs
  | ended {bs bs' : List Beat} {os : List StepOutput} {p₁ p' : Plant n Stepper} {o : StepOutput}
      (hrun : p.watch bs = .ok (os, p₁)) (hduring : during bs os p₁) (htick : p₁.tick = .ok (o, p'))
      (hfinal : final bs os o p') : Until during final reason p (bs ++ .step :: bs')
  | overflow {bs bs' : List Beat} {os : List StepOutput} {p₁ : Plant n Stepper}
      (hrun : p.watch bs = .ok (os, p₁)) (hduring : during bs os p₁)
      (htick : p₁.tick = .error .addOverflow) (hreason : reason) :
      Until during final reason p (bs ++ .step :: bs')

/-- A run is over with one of its ticks. -/
def Over (final : List Beat → List StepOutput → StepOutput → Plant n Stepper → Prop)
    (p : Plant n Stepper) (bs : List Beat) : Prop :=
  ∃ bs₁ bs₂ os o p₁ p', bs = bs₁ ++ .step :: bs₂ ∧ p.watch bs₁ = .ok (os, p₁) ∧
    p₁.tick = .ok (o, p') ∧ final bs₁ os o p'

namespace Until

variable {during during' : List Beat → List StepOutput → Plant n Stepper → Prop}
  {final final' : List Beat → List StepOutput → StepOutput → Plant n Stepper → Prop}
  {reason reason' : Prop} {p : Plant n Stepper} {bs : List Beat}

theorem mono (h : p.Until during final reason bs)
    (hduring : ∀ bs os p', during bs os p' → during' bs os p')
    (hfinal : ∀ bs os o p₁ p', p.watch bs = .ok (os, p₁) → p₁.tick = .ok (o, p') →
      final bs os o p' → final' bs os o p')
    (hreason : reason → reason') : p.Until during' final' reason' bs := by
  cases h with
  | underway hrun hu => exact .underway hrun (hduring _ _ _ hu)
  | ended hrun hu htick ho =>
    exact .ended hrun (hduring _ _ _ hu) htick (hfinal _ _ _ _ _ hrun htick ho)
  | overflow hrun hu htick hr => exact .overflow hrun (hduring _ _ _ hu) htick (hreason hr)

/-- A run that does not go on for all of its beats, and has no reason to fail, is over. -/
theorem ends (h : p.Until during final reason bs) (hreason : ¬ reason)
    (hduring : ∀ os p', p.watch bs = .ok (os, p') → ¬ during bs os p') : p.Over final bs := by
  cases h with
  | underway hrun hu => exact absurd hu (hduring _ _ hrun)
  | ended hrun hu htick ho => exact ⟨_, _, _, _, _, _, rfl, hrun, htick, ho⟩
  | overflow hrun hu htick hr => exact absurd hr hreason

/-- A run that does not fail is over if it leads to where it would not go on. -/
theorem ends_of_watch (h : p.Until during final reason bs) {os : List StepOutput}
    {p' : Plant n Stepper} (hwatch : p.watch bs = .ok (os, p')) (hduring : ¬ during bs os p') :
    p.Over final bs := by
  cases h with
  | underway hrun hu =>
    rw [hrun] at hwatch
    cases hwatch
    exact absurd hu hduring
  | ended hrun hu htick ho => exact ⟨_, _, _, _, _, _, rfl, hrun, htick, ho⟩
  | overflow hrun hu htick hr =>
    obtain ⟨os₁, p₁, os₂, hrun', hrest⟩ := watch_append_eq_ok hwatch
    rw [hrun] at hrun'
    cases hrun'
    obtain ⟨os₃, p₂, os₄, hreact, -⟩ := watch_cons_eq_ok hrest
    obtain ⟨o, htick', -⟩ := react_step_eq_ok hreact
    rw [htick] at htick'
    cases htick'

/-- A run that goes on after it is over. -/
theorem resume (h : p.Until during final reason bs)
    (hrest : ∀ bs₁ bs₂ os o p₁ p', bs = bs₁ ++ .step :: bs₂ → p.watch bs₁ = .ok (os, p₁) →
      p₁.tick = .ok (o, p') → final bs₁ os o p' →
      ∃ os' p'', p'.watch bs₂ = .ok (os', p'') ∧ during bs (os ++ ([o] ++ os')) p'') :
    p.Until during (fun _ _ _ _ => False) reason bs := by
  cases h with
  | underway hrun hu => exact .underway hrun hu
  | ended hrun hu htick ho =>
    obtain ⟨os', p'', hrun', hu'⟩ := hrest _ _ _ _ _ _ rfl hrun htick ho
    exact .underway (watch_append hrun (watch_cons (react_step htick) hrun')) hu'
  | overflow hrun hu htick hr => exact .overflow hrun hu htick hr

/-- From a single beat to a run. -/
theorem of_beat (hstart : during [] [] p)
    (hbeat : ∀ bs₁ b bs₂ os p₁, bs = bs₁ ++ b :: bs₂ → p.watch bs₁ = .ok (os, p₁) →
      during bs₁ os p₁ →
      (∃ os' p₂, p₁.react b = .ok (os', p₂) ∧ during (bs₁ ++ [b]) (os ++ os') p₂) ∨
      (b = .step ∧ ∃ o p₂, p₁.tick = .ok (o, p₂) ∧ final bs₁ os o p₂) ∨
      (b = .step ∧ p₁.tick = .error .addOverflow ∧ reason)) : p.Until during final reason bs := by
  -- on the beats that are left
  have hrest : ∀ bs₂ bs₁ os p₁, bs = bs₁ ++ bs₂ → p.watch bs₁ = .ok (os, p₁) → during bs₁ os p₁ →
      p.Until during final reason bs := by
    intro bs₂
    induction bs₂ with
    | nil =>
      intro bs₁ os p₁ hbs hrun hduring
      rw [List.append_nil] at hbs
      exact hbs ▸ .underway hrun hduring
    | cons b bs₂ ih =>
      intro bs₁ os p₁ hbs hrun hduring
      obtain ⟨os', p₂, hb, hduring'⟩ | ⟨rfl, o, p₂, htick, hfinal⟩ | ⟨rfl, htick, hreason⟩ :=
        hbeat bs₁ b bs₂ os p₁ hbs hrun hduring
      · refine ih (bs₁ ++ [b]) _ p₂ ?_ (watch_append hrun (watch_singleton hb)) hduring'
        rw [hbs, List.append_assoc]
        rfl
      · exact hbs ▸ .ended hrun hduring htick hfinal
      · exact hbs ▸ .overflow hrun hduring htick hreason
  exact hrest bs [] [] p rfl rfl hstart

end Until

/-! ## What is published -/

/-- Nothing is published but changes of the speed. -/
def Quiet (p p' : Plant n Stepper) : Prop :=
  ∃ es, p'.events.toList = p.events.toList ++ es ∧ ∀ e ∈ es, e.kind = .speedChanged

namespace Quiet

variable {p p' p'' : Plant n Stepper}

theorem of_eq (h : p'.events = p.events) : p.Quiet p' :=
  ⟨[], by rw [h, List.append_nil], fun _ he => by cases he⟩

theorem trans (h : p.Quiet p') (h' : p'.Quiet p'') : p.Quiet p'' := by
  obtain ⟨es, hes, hall⟩ := h
  obtain ⟨es', hes', hall'⟩ := h'
  refine ⟨es ++ es', by rw [hes', hes, List.append_assoc], fun e he => ?_⟩
  exact (List.mem_append.mp he).elim (hall e) (hall' e)

theorem rampTick (p : Plant n Stepper) : p.Quiet p.rampTick := by
  unfold Plant.rampTick
  cases p.side.current with
  | none => exact of_eq rfl
  | some t =>
    dsimp only
    split
    · exact of_eq rfl
    · refine ⟨[_], Array.toList_push, fun e he => ?_⟩
      rw [List.mem_singleton.mp he]
      rfl

end Quiet

/-- A segment is reported complete, and some events come behind that. Before it nothing is published
but changes of the speed. -/
def Ends (p : Plant n Stepper) (s : Segment) (es : List Event) (p' : Plant n Stepper) : Prop :=
  ∃ p₁ : Plant n Stepper, p.Quiet p₁ ∧
    p'.events.toList = p₁.events.toList ++ s.completion ++ es

end Plant

/-! ## What is left of a traversal -/

/-- The pulses of an actuator among some outputs. -/
def pulses (a : Axis) (os : List StepOutput) : Nat := os.countP fun o => a.isIn o.step

theorem pulses_append (a : Axis) (os os' : List StepOutput) :
    pulses a (os ++ os') = pulses a os + pulses a os' := List.countP_append

theorem pulses_singleton (a : Axis) (o : StepOutput) :
    pulses a [o] = if a.isIn o.step then 1 else 0 := List.countP_singleton

@[simp] theorem pulses_idle (a : Axis) : pulses a [.idle] = 0 := by cases a <;> rfl

/-- A step event makes the steps that are left afterwards fewer by those of its output. -/
theorem pulses_stepEvent (a : Axis) (os : List StepOutput) (t : Traversal) :
    pulses a (os ++ [⟨t.nextMask, t.directions⟩]) + (t.stepEvent.remaining.get a).toNat =
      pulses a os + (t.remaining.get a).toNat := by
  rw [pulses_append, pulses_singleton, Traversal.isIn_nextMask, Traversal.stepEvent,
    PerAxis.get_ofFn]
  split
  · next hs =>
    have hpos := Traversal.remaining_of_stepsNext hs
    omega
  · rfl

/-- A way that ends at a position leaves the word nowhere. -/
theorem InWord.of_le {x : Int32} {d : Directions} {a : Axis} {j k : Nat} (hjk : j ≤ k)
    (h : InWord (x.toInt + d.signed a k)) : InWord (x.toInt + d.signed a j) := by
  obtain ⟨hx₁, hx₂⟩ := inWord_toInt x
  obtain ⟨h₁, h₂⟩ := h
  unfold Directions.signed at h₁ h₂ ⊢
  unfold InWord
  split at h₁ <;> constructor <;> simp_all <;> omega

namespace Plant

/-- From a plant that executes a load on, some outputs later. -/
structure Ahead (p : Plant n Stepper) (t : Traversal) (l : Load) (k : Nat) (os : List StepOutput)
    (p₁ : Plant n Stepper) (t₁ : Traversal) : Prop where
  /-- the ring is left alone -/
  ring_eq : p₁.ring = p.ring
  /-- there is a traversal -/
  current_eq : p₁.side.current = some t₁
  /-- it is one of the same segment -/
  slot_eq : t₁.slot = t.slot
  /-- its load is carried out, and something is left to do -/
  tracks : t₁.Tracks l
  /-- some events are over -/
  done_eq : t₁.eventsDone.toNat = t.eventsDone.toNat + k
  /-- no more steps have been made than there were left -/
  pulses_le : ∀ a, pulses a os + (t₁.remaining.get a).toNat ≤ (t.remaining.get a).toNat
  /-- the position has moved by the steps made -/
  position_eq : ∀ a, (p₁.side.position.get a).toInt =
    (p.side.position.get a).toInt + l.directions.signed a (pulses a os)
  /-- nothing has been published but changes of the speed -/
  quiet : p.Quiet p₁
  /-- every tick has brought the traversal on, if ticks advance it -/
  paced : p.side.Paced → p₁.side.Paced ∧ t.clock + os.length ≤ t₁.clock

namespace Ahead

variable {p p₁ : Plant n Stepper} {t t₁ t₂ : Traversal} {l : Load} {k : Nat}
  {os : List StepOutput} {held : List Nat} {q : Fifo}

theorem refl (hc : p.side.current = some t) (ht : t.Tracks l) : p.Ahead t l 0 [] p t where
  ring_eq := rfl
  current_eq := hc
  slot_eq := rfl
  tracks := ht
  done_eq := rfl
  pulses_le a := by simp [pulses]
  position_eq a := by simp [pulses]
  quiet := .of_eq rfl
  paced hp := ⟨hp, Nat.le_refl _⟩

/-- Before the last event there have not been too many ticks. -/
theorem length_lt (h : p.Ahead t l k os p₁ t₁) (ht : t.Tracks l) (hp : p.side.Paced) :
    t.clock + os.length < 65536 * t.eventCount.toNat := by
  obtain ⟨hpaced, hclock⟩ := h.paced hp
  have hlt := (hpaced.advances t₁ h.current_eq).clock_lt
    (Traversal.eventsDone_lt h.tracks.unfinished)
  have hcount : t₁.eventCount = l.eventCount := h.tracks.carries.eventCount_eq
  have hcount' : t.eventCount = l.eventCount := ht.carries.eventCount_eq
  rw [hcount, ← hcount'] at hlt
  omega

/-- One more tick has brought the traversal on. -/
theorem later (h : p.Ahead t l k os p₁ t₁) {t' : Traversal} (hlater : t₁.Later t')
    (p₂ : Plant n Stepper) (htimers : p₁.SameTimers p₂) (hc : p₂.side.current = some t')
    (o : StepOutput) (hp : p.side.Paced) :
    p₂.side.Paced ∧ t.clock + (os ++ [o]).length ≤ t'.clock := by
  obtain ⟨hpaced, hclock⟩ := h.paced hp
  obtain ⟨hadvances, hlt⟩ := hlater (hpaced.advances t₁ h.current_eq)
    (Traversal.eventsDone_lt h.tracks.unfinished)
  have hgeared : p₂.side.Geared := by
    rw [htimers]
    exact hpaced.geared
  refine ⟨.of_some hgeared hc hadvances, ?_⟩
  rw [List.length_append, List.length_singleton]
  omega

theorem coupled (h : p.Ahead t l k os p₁ t₁) (hp : p.Coupled held q)
    (hc : p.side.current = some t) : p₁.Coupled held q :=
  hp.proceed hc h.ring_eq h.current_eq h.slot_eq

/-- Being brought on by its time leaves a traversal no more to do. -/
theorem pulses_turned_le (h : p.Ahead t l k os p₁ t₁) (hturn : p₁.Turns t₁ t₂) (a : Axis) :
    pulses a os + (t₂.remaining.get a).toNat ≤ (t.remaining.get a).toNat := by
  have hle := h.pulses_le a
  rw [hturn.remaining_eq]
  split
  · exact Nat.le_trans (Nat.add_le_add_left (Nat.zero_le _) _) hle
  · exact hle

/-- A traversal that is brought on by its time. -/
theorem turn (h : p.Ahead t l k os p₁ t₁) (hturn : p₁.Turns t₁ t₂) (hlater : t₁.Later t₂) :
    p.Ahead t l k (os ++ [.idle]) (p₁.setCurrent (some t₂)) t₂ where
  ring_eq := h.ring_eq
  current_eq := rfl
  slot_eq := hturn.slot_eq.trans h.slot_eq
  tracks := hturn.tracks h.tracks
  done_eq := by
    rw [hturn.course]
    exact h.done_eq
  pulses_le a := by
    rw [pulses_append, pulses_idle]
    exact h.pulses_turned_le hturn a
  position_eq a := by
    rw [pulses_append, pulses_idle]
    exact h.position_eq a
  quiet := h.quiet.trans (.of_eq rfl)
  paced := h.later hlater (p₁.setCurrent (some t₂)) rfl rfl .idle

/-- The steps of one more event are made, whether it is the last one or not. -/
theorem pulses_struck_le (h : p.Ahead t l k os p₁ t₁) (hturn : p₁.Turns t₁ t₂) (a : Axis) :
    pulses a (os ++ [⟨t₂.nextMask, t₂.directions⟩]) + (t₂.stepEvent.remaining.get a).toNat ≤
      (t.remaining.get a).toNat := by
  rw [pulses_stepEvent]
  exact h.pulses_turned_le hturn a

theorem position_struck (h : p.Ahead t l k os p₁ t₁) (hturn : p₁.Turns t₁ t₂)
    {position : PerAxis Int32}
    (hpos : Stepper.movePosition p₁.side.position t₂.nextMask t₂.directions = .ok position)
    (a : Axis) : (position.get a).toInt = (p.side.position.get a).toInt +
      l.directions.signed a (pulses a (os ++ [⟨t₂.nextMask, t₂.directions⟩])) := by
  rw [Stepper.toInt_movePosition hpos, h.position_eq, pulses_append, pulses_singleton,
    Stepper.maskedStep, (hturn.tracks h.tracks).directions_eq]
  split
  · rw [l.directions.signed_succ a (pulses a os), Int.add_assoc]
  · rw [Nat.add_zero, Int.add_zero]

/-- One more event, and not the last one. -/
theorem strike (h : p.Ahead t l k os p₁ t₁) (hturn : p₁.Turns t₁ t₂) {position : PerAxis Int32}
    (hpos : Stepper.movePosition p₁.side.position t₂.nextMask t₂.directions = .ok position)
    (hmore : t₂.stepEvent.isComplete = false) (hlater : t₁.Later t₂.stepEvent) :
    p.Ahead t l (k + 1) (os ++ [⟨t₂.nextMask, t₂.directions⟩]) (p₁.struck position t₂.stepEvent)
      t₂.stepEvent where
  ring_eq := h.ring_eq
  current_eq := rfl
  slot_eq := hturn.slot_eq.trans h.slot_eq
  tracks := (hturn.tracks h.tracks).stepEvent hmore
  done_eq := by
    have hsame : t₂.eventsDone = t₁.eventsDone := by rw [hturn.course]; rfl
    rw [Traversal.eventsDone_stepEvent (hturn.tracks h.tracks).unfinished, hsame, h.done_eq,
      Nat.add_assoc]
  pulses_le := h.pulses_struck_le hturn
  position_eq := h.position_struck hturn hpos
  quiet := h.quiet.trans (.of_eq rfl)
  paced := h.later hlater (p₁.struck position t₂.stepEvent) rfl rfl _

/-- The last event completes the segment. -/
theorem last (h : p.Ahead t l k os p₁ t₁) (hturn : p₁.Turns t₁ t₂) {s s' : Segment}
    (hexec : p.ring.executing t.slot = .ok s) (hexec' : p₁.ring.executing t₂.slot = .ok s')
    {position : PerAxis Int32} {next : Option Nat} {r : Ring n} {es : List Event}
    {p₂ : Plant n Stepper} (honward : Onward next
      { ((p₁.struck position t₂.stepEvent).setCurrent none).publishCompletion s' with ring := r }
      es p₂) :
    p₂.side.position = position ∧ p₂.events.toList = p₁.events.toList ++ s.completion ++ es := by
  rw [h.ring_eq, hturn.slot_eq, h.slot_eq, hexec] at hexec'
  cases hexec'
  have hposition := honward.position_eq
  have hevents := honward.events_eq
  simp only [side_publishCompletion, events_publishCompletion] at hposition hevents
  exact ⟨hposition, hevents⟩

/-- Beats that are no ticks of the step timer make no steps. -/
theorem still (h : p.Ahead t l k os p₁ t₁) {b : Beat} (hb : b ≠ .step) :
    ∃ p₂ t₂, p₁.react b = .ok ([], p₂) ∧ t₁.SameCourse t₂ ∧ p₂.stop = b.leaves p₁.stop ∧
      p₂.side.position = p₁.side.position ∧ p.Ahead t l k os p₂ t₂ := by
  have hsame : ∀ {p₂ t₂}, p₂.ring = p₁.ring → p₂.side.current = some t₂ → t₁.SameCourse t₂ →
      p₂.side.position = p₁.side.position → p₁.Quiet p₂ → (p₁.side.Paced → p₂.side.Paced) →
      t₂.clock = t₁.clock → p.Ahead t l k os p₂ t₂ := by
    intro p₂ t₂ hring hc hcourse hposition hquiet hpaced hclock
    refine ⟨hring.trans h.ring_eq, hc, ?_, h.tracks.sameCourse hcourse, ?_, fun a => ?_,
      fun a => ?_, h.quiet.trans hquiet, fun hp => (h.paced hp).imp hpaced fun hle => ?_⟩
    · rw [hcourse]
      exact h.slot_eq
    · rw [hcourse]
      exact h.done_eq
    · rw [hcourse]
      exact h.pulses_le a
    · rw [hposition]
      exact h.position_eq a
    · rw [hclock]
      exact hle
  cases b with
  | step => exact absurd rfl hb
  | trigger i =>
    exact ⟨_, t₁, rfl, .refl _, rfl, rfl, hsame rfl h.current_eq (.refl _) rfl (.of_eq rfl) id rfl⟩
  | rearm =>
    exact ⟨_, t₁, rfl, .refl _, rfl, rfl, hsame rfl h.current_eq (.refl _) rfl (.of_eq rfl) id rfl⟩
  | ramp =>
    have hquiet := Quiet.rampTick p₁
    have hpaced : p₁.side.Paced → p₁.rampTick.side.Paced := paced_rampTick
    rw [react, rampTick_of_current h.current_eq]
    rw [rampTick_of_current h.current_eq] at hquiet hpaced
    split
    · exact ⟨p₁, t₁, rfl, .refl _, rfl, rfl, h⟩
    · next hrate =>
      rw [if_neg hrate] at hquiet hpaced
      obtain ⟨t₂, ht₂, hcourse, hclock⟩ : ∃ t₂, (p₁.runAt t₁ (p₁.side.nextRate t₁)).side.current =
          some t₂ ∧ t₁.SameCourse t₂ ∧ t₂.clock = t₁.clock := ⟨_, rfl, rfl, rfl⟩
      exact ⟨_, t₂, rfl, hcourse, rfl, rfl, hsame rfl ht₂ hcourse rfl hquiet hpaced hclock⟩

/-- A tick is a stroke, unless the way that is left leads out of the word of a position. -/
theorem stroke (h : p.Ahead t l k os p₁ t₁) (hp : p.Coupled held q)
    (hc : p.side.current = some t) :
    (∃ o es p₂, p₁.tick = .ok (o, p₂) ∧ p₁.Stroke t₁ o es p₂) ∨
    (p₁.tick = .error .addOverflow ∧ ∃ a, ¬ InWord ((p.side.position.get a).toInt +
      l.directions.signed a (t.remaining.get a).toNat)) := by
  rw [tick_of_busy h.current_eq]
  obtain hstroke | ⟨herr, t₂, a, hturn, hout⟩ := (h.coupled hp hc).stroke h.current_eq
  · exact .inl hstroke
  refine .inr ⟨herr, a, fun hin => hout ?_⟩
  have hle := h.pulses_struck_le hturn a
  have hmade := hin.of_le (Nat.le_trans (Nat.le_add_right _ _) hle)
  rw [pulses_append, pulses_singleton] at hmade
  rw [h.position_eq, Stepper.maskedStep, (hturn.tracks h.tracks).directions_eq]
  split at hmade
  · next hm => rwa [if_pos hm, Int.add_assoc, ← Directions.signed_succ]
  · next hm => rwa [if_neg hm, Int.add_zero]

end Ahead

/-- The way that is left leads an actuator out of the word of a position. -/
def OutOfReach (p : Plant n Stepper) (t : Traversal) : Prop :=
  ∃ a, ¬ InWord ((p.side.position.get a).toInt + t.left a)

/-- From a single stroke to a run. -/
theorem Until.of_stroke {p : Plant n Stepper} {held : List Nat} {q : Fifo} {t : Traversal}
    {l : Load} {inv : List Beat → List StepOutput → Plant n Stepper → Traversal → Nat → Prop}
    {final : List Beat → List StepOutput → StepOutput → Plant n Stepper → Prop} {bs : List Beat}
    (hp : p.Coupled held q) (hc : p.side.current = some t) (ht : t.Tracks l)
    (hstart : inv [] [] p t 0)
    (hstill : ∀ bs₁ b bs₂ os p₁ t₁ k p₂ t₂, bs = bs₁ ++ b :: bs₂ → b ≠ .step →
      inv bs₁ os p₁ t₁ k → t₁.SameCourse t₂ → p₂.stop = b.leaves p₁.stop →
      p₂.side.position = p₁.side.position → inv (bs₁ ++ [b]) os p₂ t₂ k)
    (hstroke : ∀ bs₁ bs₂ os p₁ t₁ k o es p₂, bs = bs₁ ++ .step :: bs₂ →
      p.watch bs₁ = .ok (os, p₁) → p.Ahead t l k os p₁ t₁ → inv bs₁ os p₁ t₁ k →
      p₁.Stroke t₁ o es p₂ →
      (∃ t₂ k', p.Ahead t l k' (os ++ [o]) p₂ t₂ ∧ inv (bs₁ ++ [.step]) (os ++ [o]) p₂ t₂ k') ∨
        final bs₁ os o p₂) :
    p.Until (fun bs os p' => ∃ t' k, p.Ahead t l k os p' t' ∧ inv bs os p' t' k) final
      (p.OutOfReach t) bs := by
  refine .of_beat ⟨t, 0, .refl hc ht, hstart⟩ ?_
  rintro bs₁ b bs₂ os p₁ hbs hwatch ⟨t₁, k, hahead, hinv⟩
  by_cases hb : b = .step
  · subst hb
    obtain ⟨o, es, p₂, htick, hstruck⟩ | ⟨herr, a, ha⟩ := hahead.stroke hp hc
    · obtain hgoes | hfinal := hstroke bs₁ bs₂ os p₁ t₁ k o es p₂ hbs hwatch hahead hinv hstruck
      · exact .inl ⟨[o], p₂, react_step htick, hgoes⟩
      · exact .inr (.inl ⟨rfl, o, p₂, htick, hfinal⟩)
    · exact .inr (.inr ⟨rfl, herr, a, by rwa [Traversal.left, ht.directions_eq]⟩)
  · -- the other beats make no steps
    obtain ⟨p₂, t₂, hreact, hsame, hstop, hposition, hahead₂⟩ := hahead.still hb
    refine .inl ⟨[], p₂, hreact, t₂, k, ?_⟩
    rw [List.append_nil]
    exact ⟨hahead₂, hstill bs₁ b bs₂ os p₁ t₁ k p₂ t₂ hbs hb hinv hsame hstop hposition⟩

end Plant

end MotionControl
