import MotionControl.Proofs.Motion.Errands
import MotionControl.Proofs.Motion.Watch

/-!
# Stops

What a latched stop does to a plant, at whatever moment it comes (`Plant.HonoursStops`):

* a stopped actuator makes no step as long as the stop is latched;
* a stop that takes steps from the segment under execution cancels it. The other actuators still
  make all their steps, at the events at which they would have made them without the stop, and then
  the segment is dropped with everything behind it, whether the stop is still latched or not;
* a stop that takes nothing from the segment lets it complete, and nothing begins behind it.

What an actuator would do without the stop is counted on the traversal itself: `Traversal.due` is
the number of its steps within the next events. An actuator that no stop concerns keeps pace with
that count (`Traversal.KeepsPace`), since the counters of two actuators have nothing to do with each
other.
-/

namespace MotionControl

variable {n : Nat} {good : Segment → Prop}

/-! ## Masks -/

theorem Axis.isIn_or (a : Axis) (m m' : UInt8) : a.isIn (m ||| m') = (a.isIn m || a.isIn m') := by
  have hdistrib : (m ||| m') &&& a.bit = (m &&& a.bit) ||| (m' &&& a.bit) := by
    apply UInt8.toNat_inj.mp
    simp only [UInt8.toNat_and, UInt8.toNat_or]
    exact Nat.and_or_distrib_right ..
  rw [isIn, isIn, isIn, hdistrib, Bool.eq_iff_iff]
  simp only [bne_iff_ne, Bool.or_eq_true, ne_eq, UInt8.or_eq_zero_iff]
  exact Decidable.not_and_iff_not_or_not

namespace StopMask

theorem not_has_clear (a : Axis) : clear.has a = false := by cases a <;> decide

theorem has_raise (s : StopMask) (a b : Axis) :
    (s.raise a).has b = (s.has b || decide (a = b)) := by
  rw [has, raise, Axis.isIn_or]
  congr 1
  cases a <;> cases b <;> decide

theorem has_trigger (s : StopMask) (i : Nat) (a : Axis) :
    (s.trigger i).has a = (s.has a || decide (Axis.ofIndex? i = some a)) := by
  cases hi : Axis.ofIndex? i with
  | none => simp [trigger, hi]
  | some b => simp [trigger, hi, has_raise]

theorem isActive_trigger {s : StopMask} (h : s.isActive = true) (i : Nat) :
    (s.trigger i).isActive = true := by
  cases hi : Axis.ofIndex? i with
  | none => simpa [trigger, hi] using h
  | some a =>
    have hraised : (s.raise a).has a = true := by simp [has_raise]
    simpa [trigger, hi] using isActive_of_has hraised

end StopMask

namespace Beat

variable {s : StopMask} {b : Beat}

/-- A stop stays latched until it is taken back. -/
theorem has_leaves {a : Axis} (h : s.has a = true) (hb : b ≠ .rearm) :
    (b.leaves s).has a = true := by
  cases b with
  | trigger i => rw [leaves, StopMask.has_trigger, h, Bool.true_or]
  | rearm => exact absurd rfl hb
  | _ => exact h

theorem isActive_leaves (h : s.isActive = true) (hb : b ≠ .rearm) :
    (b.leaves s).isActive = true := by
  cases b with
  | trigger i => exact StopMask.isActive_trigger h i
  | rearm => exact absurd rfl hb
  | _ => exact h

/-- Nothing but a request of its own stops an actuator. -/
theorem not_has_leaves {a : Axis} (h : s.has a = false)
    (hb : ∀ i, b = .trigger i → Axis.ofIndex? i ≠ some a) : (b.leaves s).has a = false := by
  cases b with
  | trigger i => simpa [leaves, StopMask.has_trigger, h] using hb i rfl
  | rearm => exact StopMask.not_has_clear a
  | _ => exact h

end Beat

/-! ## Keeping pace -/

namespace Traversal

/-- A traversal some events later, if no stop comes in between. -/
def after (t : Traversal) : Nat → Traversal
  | 0 => t
  | k + 1 => (t.after k).stepEvent

/-- The steps that an actuator makes at the next events, if no stop comes in between. -/
def due (t : Traversal) (a : Axis) (k : Nat) : Nat :=
  (List.range k).countP fun j => (t.after j).stepsNext a

theorem due_succ (t : Traversal) (a : Axis) (k : Nat) :
    t.due a (k + 1) = t.due a k + if (t.after k).stepsNext a then 1 else 0 := by
  rw [due, List.range_succ, List.countP_append, List.countP_singleton]
  rfl

theorem due_add_remaining (t : Traversal) (a : Axis) (k : Nat) :
    t.due a k + ((t.after k).remaining.get a).toNat = (t.remaining.get a).toNat := by
  induction k with
  | zero => exact Nat.zero_add _
  | succ k ih =>
    rw [due_succ, after, stepEvent, PerAxis.get_ofFn, ← ih]
    split
    · next hs =>
      have hpos := remaining_of_stepsNext hs
      omega
    · rfl

/-- Two traversals are at one for an actuator: it makes the same steps in both from here on. -/
structure AtOne (t t' : Traversal) (a : Axis) : Prop where
  /-- it is to make as many steps -/
  steps_eq : t'.steps.get a = t.steps.get a
  /-- there are as many events -/
  eventCount_eq : t'.eventCount = t.eventCount
  /-- as many steps are left -/
  remaining_eq : t'.remaining.get a = t.remaining.get a
  /-- the counter stands where it does -/
  counter_eq : t'.counters.get a = t.counters.get a

namespace AtOne

variable {t t' t'' : Traversal} {a : Axis}

theorem refl (t : Traversal) (a : Axis) : t.AtOne t a := ⟨rfl, rfl, rfl, rfl⟩

theorem stepsNext_eq (h : t.AtOne t' a) : t'.stepsNext a = t.stepsNext a := by
  rw [stepsNext, stepsNext, h.remaining_eq, h.counter_eq, h.steps_eq]

theorem stepEvent (h : t.AtOne t' a) : t.stepEvent.AtOne t'.stepEvent a where
  steps_eq := h.steps_eq
  eventCount_eq := h.eventCount_eq
  remaining_eq := by
    simp only [Traversal.stepEvent, PerAxis.get_ofFn, h.stepsNext_eq, h.remaining_eq]
  counter_eq := by
    simp only [Traversal.stepEvent, PerAxis.get_ofFn, h.stepsNext_eq, h.remaining_eq,
      h.counter_eq, h.steps_eq, h.eventCount_eq]

theorem sameCourse (h : t.AtOne t' a) (hcourse : t'.SameCourse t'') : t.AtOne t'' a := by
  rw [hcourse]
  exact ⟨h.steps_eq, h.eventCount_eq, h.remaining_eq, h.counter_eq⟩

/-- A stop of other actuators does not matter, nor does one that comes when the steps are made. -/
theorem cut (h : t.AtOne t' a) {stop : StopMask} (hspared : t'.SparedBy stop a) :
    t.AtOne (t'.cut stop.bits) a where
  steps_eq := h.steps_eq
  eventCount_eq := h.eventCount_eq
  remaining_eq := by
    rw [Traversal.cut, PerAxis.get_ofFn, ← h.remaining_eq]
    split
    · next hin => exact (hspared hin).symm
    · rfl
  counter_eq := h.counter_eq

end AtOne

/-- An actuator has kept pace: some events later it has made the steps that were due, and it goes on
as if nothing had happened. -/
structure KeepsPace (t : Traversal) (k : Nat) (os : List StepOutput) (a : Axis)
    (t' : Traversal) : Prop where
  /-- it goes on as without a stop -/
  atOne : (t.after k).AtOne t' a
  /-- it has made its steps -/
  pulses_eq : pulses a os = t.due a k

namespace KeepsPace

variable {t t' t'' : Traversal} {k : Nat} {os : List StepOutput} {a : Axis}

theorem refl (t : Traversal) (a : Axis) : t.KeepsPace 0 [] a t := ⟨.refl t a, rfl⟩

theorem sameCourse (h : t.KeepsPace k os a t') (hcourse : t'.SameCourse t'') :
    t.KeepsPace k os a t'' := ⟨h.atOne.sameCourse hcourse, h.pulses_eq⟩

theorem idle (h : t.KeepsPace k os a t') : t.KeepsPace k (os ++ [.idle]) a t' :=
  ⟨h.atOne, by rw [pulses_append, pulses_idle, h.pulses_eq, Nat.add_zero]⟩

theorem turn {p : Plant n Stepper} (h : t.KeepsPace k os a t') (hturn : p.Turns t' t'')
    (hspared : t'.SparedBy p.stop a) : t.KeepsPace k os a t'' :=
  ⟨(h.atOne.cut hspared).sameCourse hturn.course, h.pulses_eq⟩

theorem stepEvent (h : t.KeepsPace k os a t') :
    t.KeepsPace (k + 1) (os ++ [⟨t'.nextMask, t'.directions⟩]) a t'.stepEvent := by
  refine ⟨h.atOne.stepEvent, ?_⟩
  rw [pulses_append, pulses_singleton, isIn_nextMask, h.atOne.stepsNext_eq, h.pulses_eq, due_succ]

/-- When nothing is left to do, everything has been done. -/
theorem pulses_of_over (h : t.KeepsPace k os a t') (hover : t'.remaining.get a = 0) :
    pulses a os = (t.remaining.get a).toNat := by
  have hadd := t.due_add_remaining a k
  rw [← h.atOne.remaining_eq, hover] at hadd
  rw [h.pulses_eq, ← hadd]
  rfl

/-- Nothing more is due then. -/
theorem due_of_over (h : t.KeepsPace k os a t') (hover : t'.remaining.get a = 0) :
    t.due a (k + 1) = t.due a k := by
  have hnone : (t.after k).stepsNext a = false := by
    rw [← h.atOne.stepsNext_eq, stepsNext, hover]
    rfl
  rw [due_succ, hnone]
  rfl

end KeepsPace

end Traversal

/-! ## Strokes -/

/-- Nothing is pending, and the ring is at rest. -/
structure Ring.Emptied (r : Ring n) : Prop where
  /-- nothing is pending -/
  hasPending : r.hasPending = false
  /-- the ring is at rest -/
  running : r.running = false

theorem Ring.emptied_abort (r : Ring n) : r.abort.Emptied :=
  ⟨by simp [abort, hasPending, pending, distance], rfl⟩

namespace Plant

/-- A segment has been dropped with everything behind it, and nobody is told. -/
structure Cancelled (p p' : Plant n Stepper) : Prop where
  /-- nothing is executed -/
  current_eq : p'.side.current = none
  /-- nothing is pending -/
  emptied : p'.ring.Emptied
  /-- nothing has been published but changes of the speed -/
  quiet : p.Quiet p'

/-- A segment has been reported complete, and nothing has begun behind it if a stop is latched. -/
def Completed (p : Plant n Stepper) (s : Segment) (p' : Plant n Stepper) : Prop :=
  ∃ es, p.Ends s es p' ∧ (p'.stop.isActive = true → es = [] ∧ p'.side.current = none)

theorem Completed.current_eq {p p' : Plant n Stepper} {s : Segment} (h : p.Completed s p')
    (hstop : p'.stop.isActive = true) : p'.side.current = none := by
  obtain ⟨es, -, hnothing⟩ := h
  exact (hnothing hstop).2

theorem Onward.of_isActive {next : Option Nat} {p p' : Plant n Stepper} {es : List Event}
    (h : Onward next p es p') (hstop : p'.stop.isActive = true) :
    es = [] ∧ p'.side.current = none := by
  rw [h.stop_eq] at hstop
  cases h with
  | rest => exact ⟨rfl, rfl⟩
  | discard => exact ⟨rfl, rfl⟩
  | start hclear =>
    rw [hstop] at hclear
    cases hclear
  | pass hclear =>
    rw [hstop] at hclear
    cases hclear

/-- A stopped actuator makes no step at an event. -/
theorem Turns.not_isIn_nextMask {p : Plant n Stepper} {t t' : Traversal} (h : p.Turns t t')
    {a : Axis} (ha : p.stop.has a = true) : a.isIn t'.nextMask = false := by
  have hzero : t'.remaining.get a = 0 := (h.remaining_eq a).trans (if_pos ha)
  rw [Traversal.isIn_nextMask, Traversal.stepsNext, hzero]
  rfl

/-- An actuator has not been moved. -/
structure Silent (p : Plant n Stepper) (a : Axis) (os : List StepOutput)
    (p' : Plant n Stepper) : Prop where
  /-- no output makes it step -/
  isIn_eq : ∀ o ∈ os, a.isIn o.step = false
  /-- it is where it was -/
  position_eq : p'.side.position.get a = p.side.position.get a

namespace Silent

variable {p p' p'' : Plant n Stepper} {a : Axis} {os os' : List StepOutput}

theorem append (h : p.Silent a os p') (h' : p'.Silent a os' p'') :
    p.Silent a (os ++ os') p'' where
  isIn_eq o ho := (List.mem_append.mp ho).elim (h.isIn_eq o) (h'.isIn_eq o)
  position_eq := h'.position_eq.trans h.position_eq

theorem idle (hidle : ∀ o ∈ os, o = .idle)
    (hposition : p'.side.position = p.side.position) : p.Silent a os p' where
  isIn_eq o ho := by
    rw [hidle o ho]
    cases a <;> rfl
  position_eq := by rw [hposition]

end Silent

/-- A stroke does not move a stopped actuator. -/
theorem Stroke.silent {p p' : Plant n Stepper} {t : Traversal} {o : StepOutput} {es : List Event}
    (h : p.Stroke t o es p') {a : Axis} (ha : p.stop.has a = true) : p.Silent a [o] p' := by
  have hstruck : ∀ {t' position p''}, p.Turns t t' →
      Stepper.movePosition p.side.position t'.nextMask t'.directions = .ok position →
      p''.side.position = position → p.Silent a [⟨t'.nextMask, t'.directions⟩] p'' := by
    intro t' position p'' hturn hpos hposition
    have hmask := hturn.not_isIn_nextMask ha
    refine ⟨fun o ho => by rw [List.mem_singleton.mp ho]; exact hmask, ?_⟩
    rw [hposition, ← Int32.toInt_inj, Stepper.toInt_movePosition hpos, Stepper.maskedStep, hmask]
    exact Int.add_zero _
  cases h with
  | cancel => exact .idle (fun o ho => List.mem_singleton.mp ho) rfl
  | turn => exact .idle (fun o ho => List.mem_singleton.mp ho) rfl
  | strike hturn hpos => exact hstruck hturn hpos rfl
  | cutShort hturn hpos => exact hstruck hturn hpos rfl
  | last hturn hpos hdone hint hexec hr honward =>
    refine hstruck hturn hpos ?_
    rw [honward.position_eq, side_publishCompletion]
    rfl

/-- A stroke goes on with the traversal, or it is the last one. Then the segment is cancelled if a
stop has ever taken steps from it, and completed otherwise. In either case the actuators from which
the stop takes nothing keep pace. -/
theorem Ahead.goes {p p₁ p₂ : Plant n Stepper} {s : Segment} {t t₁ : Traversal} {k : Nat}
    {os : List StepOutput} {o : StepOutput} {es : List Event}
    (h : p.Ahead t s.load k os p₁ t₁) (hexec : p.ring.executing t.slot = .ok s)
    (hstroke : p₁.Stroke t₁ o es p₂) :
    (∃ t₂ k', p.Ahead t s.load k' (os ++ [o]) p₂ t₂ ∧
      t₂.interrupted = (t₁.interrupted || t₁.isCutBy p₁.stop.bits) ∧
      ∀ a, t₁.SparedBy p₁.stop a → t.KeepsPace k os a t₁ → t.KeepsPace k' (os ++ [o]) a t₂) ∨
    ((∀ a, t₁.SparedBy p₁.stop a → t.KeepsPace k os a t₁ →
        pulses a (os ++ [o]) = t.due a (k + 1) ∧
          pulses a (os ++ [o]) = (t.remaining.get a).toNat) ∧
      if t₁.interrupted || t₁.isCutBy p₁.stop.bits then p.Cancelled p₂ else p.Completed s p₂) := by
  -- the last event makes the last steps
  have hlast : ∀ {t₂}, p₁.Turns t₁ t₂ → t₂.stepEvent.isComplete = true →
      ∀ a, t₁.SparedBy p₁.stop a → t.KeepsPace k os a t₁ →
        pulses a (os ++ [⟨t₂.nextMask, t₂.directions⟩]) = t.due a (k + 1) ∧
          pulses a (os ++ [⟨t₂.nextMask, t₂.directions⟩]) = (t.remaining.get a).toNat := by
    intro t₂ hturn hdone a hspared hpace
    have htracks := hturn.tracks h.tracks
    have hpace₂ := (hpace.turn hturn hspared).stepEvent
    exact ⟨hpace₂.pulses_eq, hpace₂.pulses_of_over
      ((htracks.carries.stepEvent htracks.unfinished).remaining_eq_zero hdone a)⟩
  cases hstroke with
  | cancel hstop hint hdone =>
    refine .inr ⟨fun a hspared hpace => ?_, ?_⟩
    · have hcut : t.KeepsPace k (os ++ [.idle]) a (t₁.cut p₁.stop.bits) :=
        ⟨hpace.atOne.cut hspared, hpace.idle.pulses_eq⟩
      have hover := (h.tracks.carries_cut p₁.stop.bits).remaining_eq_zero hdone a
      exact ⟨hcut.pulses_eq.trans (hcut.due_of_over hover).symm, hcut.pulses_of_over hover⟩
    · rw [if_pos (show (t₁.interrupted || t₁.isCutBy p₁.stop.bits) = true from hint)]
      exact ⟨rfl, Ring.emptied_abort _, h.quiet.trans (.of_eq rfl)⟩
  | turn hturn hlater =>
    exact .inl ⟨_, k, h.turn hturn hlater, hturn.interrupted_eq,
      fun a hspared hpace => (hpace.turn hturn hspared).idle⟩
  | strike hturn hpos hmore hlater =>
    exact .inl ⟨_, k + 1, h.strike hturn hpos hmore hlater, hturn.interrupted_eq,
      fun a hspared hpace => (hpace.turn hturn hspared).stepEvent⟩
  | cutShort hturn hpos hdone hint =>
    refine .inr ⟨hlast hturn hdone, ?_⟩
    rw [← hturn.interrupted_eq, if_pos hint]
    exact ⟨rfl, Ring.emptied_abort _, h.quiet.trans (.of_eq rfl)⟩
  | last hturn hpos hdone hint hexec' hr honward =>
    refine .inr ⟨hlast hturn hdone, ?_⟩
    rw [← hturn.interrupted_eq, hint]
    obtain ⟨-, hevents⟩ := h.last hturn hexec hexec' honward
    exact ⟨_, ⟨p₁, h.quiet, hevents⟩, honward.of_isActive⟩

/-! ## Plants at rest -/

/-- A run of a plant at rest makes no step and publishes nothing, and its first tick drops whatever
is pending. -/
def Discards (p : Plant n Stepper) (bs : List Beat) : Prop :=
  ∃ os p', p.watch bs = .ok (os, p') ∧ (∀ o ∈ os, o = .idle) ∧ p'.side = p.side ∧
    p'.events = p.events ∧ (.step ∈ bs → p'.ring.Emptied)

/-- A beat while a stop is latched and nothing is executed. -/
theorem react_of_still {p : Plant n Stepper} (hc : p.side.current = none)
    (hstop : p.stop.isActive = true) (hrun : p.ring.running = true → p.ring.hasPending = true)
    {b : Beat} (hb : b ≠ .rearm) :
    ∃ os p', p.react b = .ok (os, p') ∧ (∀ o ∈ os, o = .idle) ∧ p'.side = p.side ∧
      p'.events = p.events ∧ p'.stop = b.leaves p.stop ∧
      (p'.ring = p.ring ∧ (b = .step → p.ring.Emptied) ∨ p'.ring.Emptied) := by
  have hnone : ∀ o ∈ ([] : List StepOutput), o = .idle := fun o ho => (List.not_mem_nil ho).elim
  cases b with
  | step =>
    refine ⟨_, _, react_step (tick_of_still hc hstop), fun o ho => List.mem_singleton.mp ho, ?_⟩
    split
    · exact ⟨rfl, rfl, rfl, .inr p.ring.emptied_abort⟩
    · next hpending =>
      refine ⟨rfl, rfl, rfl, .inr ⟨Bool.eq_false_iff.mpr hpending, ?_⟩⟩
      exact Bool.eq_false_iff.mpr fun hrunning => hpending (hrun hrunning)
  | ramp =>
    have hramp : p.rampTick = p := by rw [rampTick, hc]
    exact ⟨[], p, by rw [react, hramp], hnone, rfl, rfl, rfl, .inl ⟨rfl, fun h => by cases h⟩⟩
  | trigger i => exact ⟨[], _, rfl, hnone, rfl, rfl, rfl, .inl ⟨rfl, fun h => by cases h⟩⟩
  | rearm => exact absurd rfl hb

/-- As long as a stop is latched, nothing begins. -/
theorem watch_of_still {p : Plant n Stepper} (hc : p.side.current = none)
    (hstop : p.stop.isActive = true) (hrun : p.ring.running = true → p.ring.hasPending = true)
    {bs : List Beat} (hbs : .rearm ∉ bs) :
    ∃ os p', p.watch bs = .ok (os, p') ∧ (∀ o ∈ os, o = .idle) ∧ p'.side = p.side ∧
      p'.events = p.events ∧ (p.ring.Emptied ∨ .step ∈ bs → p'.ring.Emptied) := by
  induction bs generalizing p with
  | nil =>
    exact ⟨[], p, rfl, fun o ho => (List.not_mem_nil ho).elim, rfl, rfl,
      fun h => h.resolve_right List.not_mem_nil⟩
  | cons b bs ih =>
    simp only [List.mem_cons, not_or] at hbs
    obtain ⟨os₁, p₁, hreact, hidle₁, hside₁, hevents₁, hstop₁, hring₁⟩ :=
      react_of_still hc hstop hrun (Ne.symm hbs.1)
    have hactive₁ : p₁.stop.isActive = true :=
      hstop₁ ▸ Beat.isActive_leaves hstop (Ne.symm hbs.1)
    have hrun₁ : p₁.ring.running = true → p₁.ring.hasPending = true := by
      obtain ⟨hsame, -⟩ | hemptied := hring₁
      · rwa [hsame]
      · simp [hemptied.running]
    have hemptied₁ : p.ring.Emptied ∨ b = .step → p₁.ring.Emptied := by
      obtain ⟨hsame, hstep⟩ | hemptied := hring₁
      · rw [hsame]
        exact fun h => h.elim id hstep
      · exact fun _ => hemptied
    obtain ⟨os₂, p₂, hwatch, hidle₂, hside₂, hevents₂, hemptied₂⟩ :=
      ih (hside₁ ▸ hc) hactive₁ hrun₁ hbs.2
    refine ⟨_, p₂, watch_cons hreact hwatch, fun o ho => ?_, hside₂.trans hside₁,
      hevents₂.trans hevents₁, ?_⟩
    · exact (List.mem_append.mp ho).elim (hidle₁ o) (hidle₂ o)
    · rintro (h | h)
      · exact hemptied₂ (.inl (hemptied₁ (.inl h)))
      · exact hemptied₂ ((List.mem_cons.mp h).imp (fun h => hemptied₁ (.inr h.symm)) id)

/-! ## Runs -/

/-- No stop of an actuator is latched, and none is raised. -/
def NeverStops (p : Plant n Stepper) (a : Axis) (bs : List Beat) : Prop :=
  p.stop.has a = false ∧ ∀ i, .trigger i ∈ bs → Axis.ofIndex? i ≠ some a

/-- No tick of a run sees a stop that takes steps from what is under execution. -/
def NeverCuts (p : Plant n Stepper) (bs : List Beat) : Prop :=
  ∀ bs₁ bs₂ os p₁ t₁, bs = bs₁ ++ .step :: bs₂ → p.watch bs₁ = .ok (os, p₁) →
    p₁.side.current = some t₁ → ∀ a, t₁.SparedBy p₁.stop a

/-- A traversal is still under way, some events later. The actuators that are not hindered have made
the steps that were due until then. -/
structure Underway (p : Plant n Stepper) (t : Traversal) (unhindered : Axis → Prop) (k : Nat)
    (os : List StepOutput) (p' : Plant n Stepper) (t' : Traversal) : Prop where
  /-- it is what is under execution -/
  current_eq : p'.side.current = some t'
  /-- something is left to do -/
  unfinished : t'.isComplete = false
  /-- some events are over -/
  done_eq : t'.eventsDone.toNat = t.eventsDone.toNat + k
  /-- but not all of them -/
  done_lt : t.eventsDone.toNat + k < t.eventCount.toNat
  /-- the steps due at them have been made -/
  pulses_eq : ∀ a, unhindered a → pulses a os = t.due a k
  /-- nothing has been published but changes of the speed -/
  quiet : p.Quiet p'

/-- A traversal ends with the next output. The actuators that are not hindered make the steps that
are due at its event, and then they have made all of their steps. -/
def EndsWith (p : Plant n Stepper) (t : Traversal) (unhindered : Axis → Prop) (bs : List Beat)
    (os : List StepOutput) (o : StepOutput) : Prop :=
  ∃ p₁ t₁ k, p.watch bs = .ok (os, p₁) ∧ p.Underway t unhindered k os p₁ t₁ ∧
    ∀ a, unhindered a → pulses a (os ++ [o]) = t.due a (k + 1) ∧
      pulses a (os ++ [o]) = (t.remaining.get a).toNat

/-- A run does not move an actuator. -/
def Silences (p : Plant n Stepper) (a : Axis) (bs : List Beat) : Prop :=
  p.Until (fun _ os p' => p.Silent a os p') (fun _ _ _ _ => False)
    (∃ t, p.side.current = some t ∧ p.OutOfReach t) bs

/-- A run executes a traversal that a stop cuts short: whatever happens to the stop afterwards, the
segment is cancelled in the end. Until then the actuators that are never stopped make their steps at
the events at which they were due, and they make all of them. -/
def Cancels (p : Plant n Stepper) (t : Traversal) (bs : List Beat) : Prop :=
  p.Until
    (fun bs os p' => ∃ k t', p.Underway t (p.NeverStops · bs) k os p' t' ∧
      (bs ≠ [] → t'.interrupted = true))
    (fun bs os o p' => p.Cancelled p' ∧ p.EndsWith t (p.NeverStops · bs) bs os o)
    (p.OutOfReach t) bs

/-- A run executes a traversal of a segment. Unless a stop takes steps from it, the segment is
completed in the end, with all of its steps; and if a stop is latched then, nothing comes after
it. -/
def Completes (p : Plant n Stepper) (t : Traversal) (s : Segment) (bs : List Beat) : Prop :=
  p.Until
    (fun bs os p' => p.NeverCuts bs → ∃ k t', p.Underway t (fun _ => True) k os p' t' ∧
      t'.interrupted = false)
    (fun bs os o p' => p.NeverCuts (bs ++ [.step]) → p.Completed s p' ∧
      p.EndsWith t (fun _ => True) bs os o ∧
      (p'.stop.isActive = true → ∀ bs', .rearm ∉ bs' → p'.Discards bs'))
    (p.OutOfReach t) bs

/-- Stops are honoured, whatever comes next. -/
structure HonoursStops (p : Plant n Stepper) : Prop where
  /-- a stopped actuator makes no step until the stop is taken back -/
  silences : ∀ a bs, p.stop.has a = true → .rearm ∉ bs → p.Silences a bs
  /-- if the next tick sees a stop that takes steps from a segment, the segment is cancelled -/
  cancels : ∀ t a bs, p.side.current = some t → p.stop.has a = true → t.remaining.get a ≠ 0 →
    p.Cancels t (.step :: bs)
  /-- a segment of which no steps are taken is completed -/
  completes : ∀ t, p.side.current = some t → t.interrupted = false →
    ∃ s, p.ring.executing t.slot = .ok s ∧ ∀ bs, p.Completes t s bs
  /-- as long as a stop is latched, what is pending does not begin, but is dropped -/
  discards : ∀ bs, p.side.current = none → p.stop.isActive = true → .rearm ∉ bs → p.Discards bs

theorem NeverStops.of_append {p : Plant n Stepper} {a : Axis} {bs bs' : List Beat}
    (h : p.NeverStops a (bs ++ bs')) : p.NeverStops a bs :=
  ⟨h.1, fun i hi => h.2 i (List.mem_append_left bs' hi)⟩

/-- The actuators that no stop concerns in the course of some beats keep pace. -/
def Unhindered (p : Plant n Stepper) (t : Traversal) (k : Nat) (bs : List Beat)
    (os : List StepOutput) (p' : Plant n Stepper) (t' : Traversal) : Prop :=
  ∀ a, p.NeverStops a bs → p'.stop.has a = false ∧ t.KeepsPace k os a t'

namespace Unhindered

variable {p p₁ p₂ : Plant n Stepper} {t t₁ t₂ : Traversal} {k k' : Nat} {bs : List Beat}
  {os : List StepOutput} {o : StepOutput}

theorem refl (p : Plant n Stepper) (t : Traversal) : p.Unhindered t 0 [] [] p t :=
  fun a hnever => ⟨hnever.1, .refl t a⟩

theorem sparedBy (h : p.Unhindered t k bs os p₁ t₁) {a : Axis} (hnever : p.NeverStops a bs) :
    t₁.SparedBy p₁.stop a := by
  intro hstopped
  rw [(h a hnever).1] at hstopped
  cases hstopped

theorem still (h : p.Unhindered t k bs os p₁ t₁) {b : Beat} (hsame : t₁.SameCourse t₂)
    (hstop : p₂.stop = b.leaves p₁.stop) : p.Unhindered t k (bs ++ [b]) os p₂ t₂ := by
  intro a hnever
  obtain ⟨hfree, hpace⟩ := h a hnever.of_append
  refine ⟨?_, hpace.sameCourse hsame⟩
  rw [hstop]
  exact Beat.not_has_leaves hfree fun i hi => hnever.2 i (by simp [hi])

theorem stroke (h : p.Unhindered t k bs os p₁ t₁) (hstop : p₂.stop = p₁.stop)
    (hkeep : ∀ a, t₁.SparedBy p₁.stop a → t.KeepsPace k os a t₁ →
      t.KeepsPace k' (os ++ [o]) a t₂) :
    p.Unhindered t k' (bs ++ [.step]) (os ++ [o]) p₂ t₂ := by
  intro a hnever
  obtain ⟨hfree, hpace⟩ := h a hnever.of_append
  exact ⟨by rwa [hstop], hkeep a (h.sparedBy hnever.of_append) hpace⟩

end Unhindered

theorem NeverCuts.of_append {p : Plant n Stepper} {bs bs' : List Beat}
    (h : p.NeverCuts (bs ++ bs')) : p.NeverCuts bs := by
  rintro bs₁ bs₂ os p₁ t₁ rfl hwatch hc
  exact h bs₁ (bs₂ ++ bs') os p₁ t₁ (by simp) hwatch hc

theorem Ahead.underway {p p' : Plant n Stepper} {t t' : Traversal} {l : Load} {k : Nat}
    {os : List StepOutput} (h : p.Ahead t l k os p' t') (ht : t.Tracks l)
    {unhindered : Axis → Prop} (hpace : ∀ a, unhindered a → t.KeepsPace k os a t') :
    p.Underway t unhindered k os p' t' where
  current_eq := h.current_eq
  unfinished := h.tracks.unfinished
  done_eq := h.done_eq
  done_lt := by
    obtain ⟨hlt, -⟩ := t'.not_isComplete_iff.mp h.tracks.unfinished
    have hcount : t'.eventCount = l.eventCount := h.tracks.carries.eventCount_eq
    have hcount' : t.eventCount = l.eventCount := ht.carries.eventCount_eq
    rwa [h.done_eq, hcount, ← hcount'] at hlt
  pulses_eq a ha := (hpace a ha).pulses_eq
  quiet := h.quiet

namespace Reachable

variable {held : List Nat} {p : Plant n Stepper} {t : Traversal}

/-- What is under execution is a segment with motion that the traversal tracks. -/
theorem engaged (h : Reachable (fun s => s.load.Sound) held p) (hc : p.side.current = some t) :
    ∃ q s, p.Coupled held q ∧ p.ring.executing t.slot = .ok s ∧ t.Tracks s.load := by
  obtain ⟨q, hq⟩ := h.orderly
  obtain ⟨s, hexec, htracks⟩ := hq.tracks hc
  exact ⟨q, s, hq.coupled, hexec, htracks⟩

theorem watch_of_still (h : Reachable good held p) (hc : p.side.current = none)
    (hstop : p.stop.isActive = true) {bs : List Beat} (hbs : .rearm ∉ bs) :
    ∃ os p', p.watch bs = .ok (os, p') ∧ (∀ o ∈ os, o = .idle) ∧ p'.side = p.side ∧
      p'.events = p.events ∧ (p.ring.Emptied ∨ .step ∈ bs → p'.ring.Emptied) := by
  obtain ⟨q, hq⟩ := h.orderly
  refine Plant.watch_of_still hc hstop (fun hrun => ?_) hbs
  rw [hq.attended.holds.hasPending_iff]
  exact hq.attended.pending (hq.attended.holds.running_eq ▸ hrun)

theorem discards (h : Reachable good held p) (hc : p.side.current = none)
    (hstop : p.stop.isActive = true) {bs : List Beat} (hbs : .rearm ∉ bs) : p.Discards bs := by
  obtain ⟨os, p', hwatch, hidle, hside, hevents, hemptied⟩ := h.watch_of_still hc hstop hbs
  exact ⟨os, p', hwatch, hidle, hside, hevents, fun hstep => hemptied (.inr hstep)⟩

theorem silent_of_still (h : Reachable good held p) (hc : p.side.current = none)
    (hstop : p.stop.isActive = true) {bs : List Beat} (hbs : .rearm ∉ bs) (a : Axis) :
    ∃ os p', p.watch bs = .ok (os, p') ∧ p.Silent a os p' := by
  obtain ⟨os, p', hwatch, hidle, hside, -⟩ := h.watch_of_still hc hstop hbs
  exact ⟨os, p', hwatch, .idle hidle (by rw [hside])⟩

/-- From the tick on that sees the stop, every stroke goes on with a traversal that has been cut, or
cancels it. -/
theorem until_cancelled (h : Reachable (fun s => s.load.Sound) held p)
    (hc : p.side.current = some t) {a : Axis} (ha : p.stop.has a = true)
    (hleft : t.remaining.get a ≠ 0) (bs : List Beat) :
    ∃ l, t.Tracks l ∧ p.Until
      (fun bs os p' => ∃ t' k, p.Ahead t l k os p' t' ∧ (bs ≠ [] → t'.interrupted = true) ∧
        p.Unhindered t k bs os p' t')
      (fun bs os o p' => p.Cancelled p' ∧ p.EndsWith t (p.NeverStops · bs) bs os o)
      (p.OutOfReach t) (.step :: bs) := by
  obtain ⟨q, s, hcoupled, hexec, htracks⟩ := h.engaged hc
  have hcut : t.isCutBy p.stop.bits = true := by
    rw [← Bool.not_eq_false, Traversal.isCutBy_eq_false_iff]
    exact fun hspared => hleft (hspared a ha)
  refine ⟨s.load, htracks, .of_stroke hcoupled hc htracks ⟨fun h => absurd rfl h, .refl p t⟩ ?_ ?_⟩
  · rintro bs₁ b bs₂ os p₁ t₁ k p₂ t₂ hbs hb ⟨hmarked, hpace⟩ hsame hstop -
    refine ⟨fun _ => ?_, hpace.still hsame hstop⟩
    -- the first beat is a tick
    have hne : bs₁ ≠ [] := by
      rintro rfl
      exact hb (List.cons.inj hbs).1.symm
    rw [hsame]
    exact hmarked hne
  · rintro bs₁ bs₂ os p₁ t₁ k o es p₂ - hwatch hahead ⟨hmarked, hpace⟩ hstroke
    have hmark : (t₁.interrupted || t₁.isCutBy p₁.stop.bits) = true := by
      cases bs₁ with
      | nil =>
        cases hwatch
        have hsame := hahead.current_eq
        rw [hc] at hsame
        cases hsame
        rw [hcut, Bool.or_true]
      | cons b bs₁ => rw [hmarked (List.cons_ne_nil b bs₁), Bool.true_or]
    obtain ⟨t₂, k', hahead₂, hint, hkeep⟩ | ⟨hall, hend⟩ := hahead.goes hexec hstroke
    · exact .inl ⟨t₂, k', hahead₂, fun _ => hint.trans hmark, hpace.stroke hstroke.stop_eq hkeep⟩
    · rw [if_pos hmark] at hend
      refine .inr ⟨hend, p₁, t₁, k, hwatch, ?_, fun a hnever => ?_⟩
      · exact hahead.underway htracks fun a hnever => (hpace a hnever).2
      · exact hall a (hpace.sparedBy hnever) (hpace a hnever).2

theorem cancels (h : Reachable (fun s => s.load.Sound) held p) (hc : p.side.current = some t)
    {a : Axis} (ha : p.stop.has a = true) (hleft : t.remaining.get a ≠ 0) (bs : List Beat) :
    p.Cancels t (.step :: bs) := by
  obtain ⟨l, htracks, hrun⟩ := h.until_cancelled hc ha hleft bs
  refine hrun.mono ?_ (fun _ _ _ _ _ _ _ hfinal => hfinal) id
  rintro bs os p' ⟨t', k, hahead, hmarked, hpace⟩
  exact ⟨k, t', hahead.underway htracks fun a hnever => (hpace a hnever).2, hmarked⟩

/-- As long as no stop takes steps from it, every stroke goes on with a traversal or completes its
segment. -/
theorem until_completed (h : Reachable (fun s => s.load.Sound) held p)
    (hc : p.side.current = some t) (hint : t.interrupted = false) :
    ∃ s, p.ring.executing t.slot = .ok s ∧ t.Tracks s.load ∧ ∀ bs, p.Until
      (fun bs os p' => ∃ t' k, p.Ahead t s.load k os p' t' ∧ (p.NeverCuts bs →
        t'.interrupted = false ∧ ∀ a, t.KeepsPace k os a t'))
      (fun bs os o p' => p.NeverCuts (bs ++ [.step]) → p.Completed s p' ∧
        p.EndsWith t (fun _ => True) bs os o)
      (p.OutOfReach t) bs := by
  obtain ⟨q, s, hcoupled, hexec, htracks⟩ := h.engaged hc
  refine ⟨s, hexec, htracks, fun bs => ?_⟩
  refine .of_stroke hcoupled hc htracks (fun _ => ⟨hint, .refl t⟩) ?_ ?_
  · rintro bs₁ b bs₂ os p₁ t₁ k p₂ t₂ - - hkept hsame - - hnever
    obtain ⟨hint, hpace⟩ := hkept hnever.of_append
    exact ⟨by rwa [hsame], fun a => (hpace a).sameCourse hsame⟩
  · rintro bs₁ bs₂ os p₁ t₁ k o es p₂ - hwatch hahead hkept hstroke
    have hspared : p.NeverCuts (bs₁ ++ [.step]) → ∀ a, t₁.SparedBy p₁.stop a :=
      fun hnever => hnever bs₁ [] os p₁ t₁ rfl hwatch hahead.current_eq
    have hmark : p.NeverCuts (bs₁ ++ [.step]) →
        (t₁.interrupted || t₁.isCutBy p₁.stop.bits) = false := by
      intro hnever
      rw [(hkept hnever.of_append).1, Traversal.isCutBy_eq_false_iff.mpr (hspared hnever)]
      rfl
    obtain ⟨t₂, k', hahead₂, hint, hkeep⟩ | ⟨hall, hend⟩ := hahead.goes hexec hstroke
    · refine .inl ⟨t₂, k', hahead₂, fun hnever => ⟨hint.trans (hmark hnever), fun a => ?_⟩⟩
      exact hkeep a (hspared hnever a) ((hkept hnever.of_append).2 a)
    · refine .inr fun hnever => ⟨by rwa [hmark hnever] at hend, p₁, t₁, k, hwatch, ?_⟩
      have hpace := (hkept hnever.of_append).2
      refine ⟨hahead.underway htracks fun a _ => hpace a, fun a _ => ?_⟩
      exact hall a (hspared hnever a) (hpace a)

theorem completes (h : Reachable (fun s => s.load.Sound) held p) (hc : p.side.current = some t)
    (hint : t.interrupted = false) :
    ∃ s, p.ring.executing t.slot = .ok s ∧ ∀ bs, p.Completes t s bs := by
  obtain ⟨s, hexec, htracks, hrun⟩ := h.until_completed hc hint
  refine ⟨s, hexec, fun bs => (hrun bs).mono ?_ ?_ id⟩
  · rintro bs os p' ⟨t', k, hahead, hkept⟩ hnever
    obtain ⟨hint, hpace⟩ := hkept hnever
    exact ⟨k, t', hahead.underway htracks fun a _ => hpace a, hint⟩
  · intro bs os o p₁ p' hwatch htick hfinal hnever
    obtain ⟨hcompleted, hall⟩ := hfinal hnever
    refine ⟨hcompleted, hall, fun hstop bs' hbs' => ?_⟩
    exact ((h.watch hwatch).tick htick).discards (hcompleted.current_eq hstop) hstop hbs'

theorem silences (h : Reachable (fun s => s.load.Sound) held p) {a : Axis}
    (ha : p.stop.has a = true) {bs : List Beat} (hbs : .rearm ∉ bs) : p.Silences a bs := by
  cases hc : p.side.current with
  | none =>
    obtain ⟨os, p', hwatch, hsilent⟩ := h.silent_of_still hc (StopMask.isActive_of_has ha) hbs a
    exact .underway hwatch hsilent
  | some t =>
    obtain ⟨q, s, hcoupled, hexec, htracks⟩ := h.engaged hc
    have hrun : p.Until
        (fun bs os p' => ∃ t' k, p.Ahead t s.load k os p' t' ∧ p.Silent a os p' ∧
          p'.stop.has a = true)
        (fun bs os o p' => p.Silent a (os ++ [o]) p' ∧ p'.stop.has a = true ∧
          p'.side.current = none)
        (p.OutOfReach t) bs := by
      refine .of_stroke hcoupled hc htracks ⟨.idle (fun o ho => by cases ho) rfl, ha⟩ ?_ ?_
      · rintro bs₁ b bs₂ os p₁ t₁ k p₂ t₂ rfl hb ⟨hsilent, hhas⟩ - hstop hposition
        refine ⟨⟨hsilent.isIn_eq, by rw [hposition, hsilent.position_eq]⟩, ?_⟩
        rw [hstop]
        exact Beat.has_leaves hhas (by rintro rfl; simp at hbs)
      · rintro bs₁ bs₂ os p₁ t₁ k o es p₂ - - hahead ⟨hsilent, hhas⟩ hstroke
        have hsilent₂ := hsilent.append (hstroke.silent hhas)
        have hhas₂ : p₂.stop.has a = true := by rwa [hstroke.stop_eq]
        obtain ⟨t₂, k', hahead₂, -⟩ | ⟨-, hend⟩ := hahead.goes hexec hstroke
        · exact .inl ⟨t₂, k', hahead₂, hsilent₂, hhas₂⟩
        · refine .inr ⟨hsilent₂, hhas₂, ?_⟩
          split at hend
          · exact hend.current_eq
          · exact hend.current_eq (StopMask.isActive_of_has hhas₂)
    refine Until.resume (hrun.mono ?_ (fun _ _ _ _ _ _ _ hfinal => hfinal)
      fun hout => ⟨t, hc, hout⟩) ?_
    · rintro bs os p' ⟨-, -, -, hsilent, -⟩
      exact hsilent
    · rintro bs₁ bs₂ os o p₁ p' rfl hwatch htick ⟨hsilent, hhas, hnone⟩
      have hbs₂ : .rearm ∉ bs₂ := fun hmem => hbs (by simp [hmem])
      obtain ⟨os', p'', hwatch', hsilent'⟩ := ((h.watch hwatch).tick htick).silent_of_still hnone
        (StopMask.isActive_of_has hhas) hbs₂ a
      refine ⟨os', p'', hwatch', ?_⟩
      rw [← List.append_assoc]
      exact hsilent.append hsilent'

end Reachable

/-- In every state that a plant reaches with segments as the planner makes them, stops are
honoured. -/
theorem honoursStops_of_reachable {held : List Nat} {p : Plant n Stepper}
    (h : Reachable (fun s => s.load.Sound) held p) : p.HonoursStops where
  silences _ _ ha hbs := h.silences ha hbs
  cancels _ _ bs hc ha hleft := h.cancels hc ha hleft bs
  completes _ hc hint := h.completes hc hint
  discards _ hc hstop hbs := h.discards hc hstop hbs

/-- One of two actuators is stopped in the middle of a move, with steps left on both. The move is
cancelled, but not before the other one has made all of its steps. -/
theorem honoursStops_in_a_move : ∃ (p : Plant 4 Stepper) (t : Traversal) (bs : List Beat),
    p.side.current = some t ∧ p.stop.has .alpha = true ∧ p.stop.has .beta = false ∧
      t.remaining.get .alpha ≠ 0 ∧ t.remaining.get .beta ≠ 0 ∧ p.HonoursStops ∧
      p.Over (fun _ os o p' => p.Cancelled p' ∧
        pulses .beta (os ++ [o]) = (t.remaining.get .beta).toNat) bs := by
  -- the planner makes the move, and the stop comes after a few ticks
  obtain ⟨result, hreach, hrun⟩ : ∃ result : Except Fault (Pipeline 4),
      Fault.Blameless (Pipeline.Serves fun s => s.load.Sound) result ∧
      (match result with
      | .ok l => l.plant.strip.stop.has .alpha && !l.plant.strip.stop.has .beta &&
        (l.plant.strip.side.current.any fun t =>
          t.remaining.get .alpha != 0 && t.remaining.get .beta != 0) &&
        (l.plant.strip.watch (.step :: List.replicate 49 .step)).toOption.any fun x =>
          x.2.side.current.isNone
      | .error _ => false) = true := by
    have hring : Ring.new 4 3 = .ok (Ring.ofLen 3 (by decide) (by decide)) := rfl
    have hidle : Stepper.isBusy ⟨10, 10, none, .const 0⟩ = false := rfl
    have haudit : (Audit.none : Audit 4).Holds fun s => s.load.Sound := fun _ _ _ _ _ => rfl
    exact ⟨_, Pipeline.run_reachable hring hidle (.ofTuning ⟨1000, 4, 0, 100⟩) haudit
      [.append ⟨⟨40, -7, 0⟩, 20, 1, .const 0⟩ [] [] [], .ensureRunning,
        .beats [.step, .step, .step, .trigger 0]], by decide +kernel⟩
  cases result with
  | error e => cases hrun
  | ok l =>
    rw [Bool.and_eq_true] at hrun
    obtain ⟨hstop, hend⟩ := hrun
    simp only [Bool.and_eq_true, Bool.not_eq_true', Option.any_eq_true, bne_iff_ne] at hstop
    obtain ⟨⟨halpha, hbeta⟩, t, ht, hleft, hleft'⟩ := hstop
    obtain ⟨⟨os, p'⟩, hwatch, hnone⟩ := Fault.exists_eq_ok hend
    have hhonours := honoursStops_of_reachable hreach
    have hcancels := hhonours.cancels t .alpha (List.replicate 49 .step) ht halpha hleft
    obtain ⟨bs₁, bs₂, os₁, o, p₁, p₂, hbs, hwatch₁, htick, hcancelled, hends⟩ :=
      hcancels.ends_of_watch hwatch fun ⟨k, t', hunderway, _⟩ => by
        rw [hunderway.current_eq] at hnone
        cases hnone
    obtain ⟨p₃, t₃, k, -, -, hall⟩ := hends
    refine ⟨l.plant.strip, t, _, ht, halpha, hbeta, hleft, hleft', hhonours,
      bs₁, bs₂, os₁, o, p₁, p₂, hbs, hwatch₁, htick, hcancelled, ?_⟩
    refine (hall .beta ⟨hbeta, fun i hi => ?_⟩).2
    -- no stop is raised, since all beats are ticks
    have hmem : Beat.trigger i ∈ Beat.step :: List.replicate 49 .step :=
      hbs ▸ List.mem_append_left _ hi
    obtain heq | hmem := List.mem_cons.mp hmem
    · cases heq
    · cases List.eq_of_mem_replicate hmem

end Plant

end MotionControl
