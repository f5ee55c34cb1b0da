import Mathlib.Algebra.Order.Field.Basic
import Mathlib.Data.Rat.Cast.Order
import Mathlib.Tactic.Linarith
import Mathlib.Tactic.Ring
import MotionControl.Proofs.Motion.Progress
import MotionControl.Proofs.Motion.Stopping

/-!
# The phase keeps count

A tick of the step timer adds the increment to the phase. When that makes it one or more, one step
event is performed and the whole part is dropped. So nothing gets lost as long as the phase is below
one between ticks and the increment is one at most: what has been added up in the course of some
ticks is `Traversal.accrued`, of which the whole part has been performed (`Traversal.eventsWithin`)
and the rest is the phase. `Traversal.InTime` says so of a traversal that has come from another one,
and one tick takes it to the next.

Meanwhile the main loop may work on the ring, and the ramp timer may tick if it leaves the increment
alone (`Plant.GoesSteadily`). The main result is `Plant.keepsPhase_of_prepare`, and what it takes
for granted holds in every state of the machine (`Plant.Reachable.executesAt`).
-/

namespace MotionControl

variable {n : Nat}

/-! ## Counting ticks -/

namespace Traversal

/-- What adds up from the phase on in the course of some ticks, in 65536ths of a step event. -/
def accrued (t : Traversal) (ticks : Nat) : Nat :=
  t.phase.bits.toNat + ticks * t.increment.bits.toNat

/-- The step events that are due within some ticks. -/
def eventsWithin (t : Traversal) (ticks : Nat) : Nat := t.accrued ticks / 65536

/-- The output of the tick behind some ticks, which makes the steps of an event if one is due. -/
def outputAt (t : Traversal) (ticks : Nat) : StepOutput :=
  if t.eventsWithin ticks < t.eventsWithin (ticks + 1) then
    ⟨(t.after (t.eventsWithin ticks)).nextMask, t.directions⟩
  else .idle

/-- The tick behind some ticks performs the last event of a traversal. -/
def EndsAt (t : Traversal) (ticks : Nat) : Prop :=
  t.eventsWithin ticks < t.eventsWithin (ticks + 1) ∧
    (t.after (t.eventsWithin (ticks + 1))).isComplete = true

/-- A traversal has gone on at its increment, with the outputs of the ticks. -/
structure InTime (t : Traversal) (os : List StepOutput) (t' : Traversal) : Prop where
  /-- the events that were due have been performed, and no others -/
  course : (t.after (t.eventsWithin os.length)).SameCourse t'
  /-- they have been counted -/
  done_eq : t'.eventsDone.toNat = t.eventsDone.toNat + t.eventsWithin os.length
  /-- some step event is still to come -/
  lt : t'.eventsDone < t'.eventCount
  /-- the increment is the same -/
  increment_eq : t'.increment = t.increment
  /-- the phase is what is left -/
  phase_eq : t'.phase.bits.toNat = t.accrued os.length % 65536
  /-- every tick has made the steps of its event, if one was due -/
  outputs_eq : os = (List.range os.length).map t.outputAt

variable {t t' : Traversal} {os : List StepOutput}

theorem accrued_succ (t : Traversal) (k : Nat) :
    t.accrued (k + 1) = t.accrued k + t.increment.bits.toNat := by
  rw [accrued, accrued, Nat.succ_mul, Nat.add_assoc]

theorem directions_after (t : Traversal) (k : Nat) : (t.after k).directions = t.directions := by
  induction k with
  | zero => rfl
  | succ k ih => exact ih

theorem SameCourse.nextMask_eq (h : t.SameCourse t') : t'.nextMask = t.nextMask := by
  rw [h]
  rfl

theorem SameCourse.stepEvent (h : t.SameCourse t') : t.stepEvent.SameCourse t'.stepEvent := by
  rw [h]
  rfl

theorem SameCourse.isComplete_eq (h : t.SameCourse t') : t'.isComplete = t.isComplete := by
  rw [h]
  rfl

namespace Ticking

/-- The whole increment is added. -/
theorem fits (h : t.Ticking) : t.phase.add? t.increment = some t.advancePhase.phase := by
  have hphase := h.phase_lt
  have hle := h.increment_le
  have hfits : t.phase.bits.toNat + t.increment.bits.toNat < UInt32.size := by
    have hsize : UInt32.size = 4294967296 := rfl
    omega
  rw [advancePhase, Q16.addSat, Q16.add?, if_pos hfits, Option.getD_some]

theorem eventsWithin_zero (h : t.Ticking) : t.eventsWithin 0 = 0 := by
  have hphase := h.phase_lt
  rw [eventsWithin, accrued]
  omega

theorem eventsWithin_succ_le (h : t.Ticking) (k : Nat) :
    t.eventsWithin (k + 1) ≤ t.eventsWithin k + 1 := by
  have hle := h.increment_le
  rw [eventsWithin, eventsWithin, accrued_succ]
  omega

end Ticking

namespace InTime

theorem refl (h : t.Ticking) (hlt : t.eventsDone < t.eventCount) : t.InTime [] t where
  course := by
    rw [List.length_nil, h.eventsWithin_zero]
    exact .refl t
  done_eq := by rw [List.length_nil, h.eventsWithin_zero, Nat.add_zero]
  lt := hlt
  increment_eq := rfl
  phase_eq := by
    have hphase := h.phase_lt
    rw [List.length_nil, accrued]
    omega
  outputs_eq := rfl

theorem ticking (h : t.InTime os t') (ht : t.Ticking) : t'.Ticking where
  phase_lt := by
    rw [h.phase_eq]
    exact Nat.mod_lt _ (by decide)
  increment_le := by
    rw [h.increment_eq]
    exact ht.increment_le

/-- An event is due if the phase is so. -/
theorem isDue_iff (h : t.InTime os t') (ht : t.Ticking) : t'.advancePhase.isDue = true ↔
    t.eventsWithin os.length < t.eventsWithin (os.length + 1) := by
  rw [Traversal.isDue_iff, (h.ticking ht).phase_advancePhase, h.phase_eq, h.increment_eq,
    eventsWithin, eventsWithin, accrued_succ]
  omega

/-- The next tick makes the steps of the next event, if it is due. -/
theorem outputAt_eq (h : t.InTime os t') (ht : t.Ticking) : t.outputAt os.length =
    if t'.advancePhase.isDue then ⟨t'.nextMask, t'.directions⟩ else .idle := by
  have hdirections : t'.directions = t.directions := by
    rw [h.course, ← t.directions_after (t.eventsWithin os.length)]
  simp only [outputAt, ← h.isDue_iff ht, h.course.nextMask_eq, hdirections]

/-- One more tick, whatever it does. -/
theorem concat (h : t.InTime os t') {t'' : Traversal}
    (hcourse : (t.after (t.eventsWithin (os.length + 1))).SameCourse t'')
    (hdone : t''.eventsDone.toNat = t.eventsDone.toNat + t.eventsWithin (os.length + 1))
    (hlt : t''.eventsDone < t''.eventCount) (hincrement : t''.increment = t'.increment)
    (hphase : t''.phase.bits.toNat = t.accrued (os.length + 1) % 65536) :
    t.InTime (os ++ [t.outputAt os.length]) t'' := by
  have hlength : (os ++ [t.outputAt os.length]).length = os.length + 1 := List.length_append
  refine ⟨?_, ?_, hlt, hincrement.trans h.increment_eq, ?_, ?_⟩
  · rwa [hlength]
  · rwa [hlength]
  · rwa [hlength]
  · rw [hlength, List.range_succ, List.map_append, ← h.outputs_eq]
    rfl

/-- A tick without an event. -/
theorem wait (h : t.InTime os t') (ht : t.Ticking) (hdue : t'.advancePhase.isDue = false) :
    t.InTime (os ++ [t.outputAt os.length]) t'.advancePhase := by
  have hphase := (h.ticking ht).phase_advancePhase
  have hbelow := ((h.ticking ht).wait hdue).phase_lt
  rw [h.phase_eq, h.increment_eq] at hphase
  rw [hphase] at hbelow
  have hsum := t.accrued_succ os.length
  have hnone : t.eventsWithin (os.length + 1) = t.eventsWithin os.length := by
    rw [eventsWithin, eventsWithin]
    omega
  refine h.concat ?_ ?_ h.lt rfl ?_
  · rw [hnone]
    exact h.course.trans rfl
  · rw [hnone]
    exact h.done_eq
  · rw [hphase]
    omega

/-- A tick with an event takes one off the phase. -/
theorem strike (h : t.InTime os t') (ht : t.Ticking) (hdue : t'.advancePhase.isDue = true) :
    t.eventsWithin (os.length + 1) = t.eventsWithin os.length + 1 ∧
    (t.after (t.eventsWithin (os.length + 1))).SameCourse t'.advancePhase.wrapPhase.stepEvent ∧
    (t'.advancePhase.wrapPhase.stepEvent.isComplete = false →
      t.InTime (os ++ [t.outputAt os.length]) t'.advancePhase.wrapPhase.stepEvent) := by
  have hnext : t.eventsWithin (os.length + 1) = t.eventsWithin os.length + 1 :=
    Nat.le_antisymm (ht.eventsWithin_succ_le os.length) ((h.isDue_iff ht).mp hdue)
  have hcourse : (t.after (t.eventsWithin (os.length + 1))).SameCourse
      t'.advancePhase.wrapPhase.stepEvent := by
    have hwrap : t'.SameCourse t'.advancePhase.wrapPhase := rfl
    rw [hnext]
    exact (h.course.trans hwrap).stepEvent
  refine ⟨hnext, hcourse, fun hmore => h.concat hcourse ?_ ?_ rfl ?_⟩
  · have hdone : t'.advancePhase.wrapPhase.stepEvent.eventsDone.toNat =
        t'.eventsDone.toNat + 1 :=
      eventsDone_stepEvent_of_lt (t := t'.advancePhase.wrapPhase) h.lt
    rw [hdone, h.done_eq, hnext, Nat.add_assoc]
  · exact UInt32.lt_iff_toNat_lt.mpr ((not_isComplete_iff _).mp hmore).1
  · have hwrap := (h.ticking ht).phase_wrapPhase hdue
    have hbelow := ((h.ticking ht).strike hdue).phase_lt
    rw [h.phase_eq, h.increment_eq] at hwrap
    change t'.advancePhase.wrapPhase.phase.bits.toNat < 65536 at hbelow
    change t'.advancePhase.wrapPhase.phase.bits.toNat = _
    have hsum := t.accrued_succ os.length
    omega

end InTime

end Traversal

/-! ## Ticks -/

namespace Plant

variable {p p' : Plant n Stepper} {t t' : Traversal} {os : List StepOutput} {held : List Nat}
  {q : Fifo}

/-- A plant goes on without a stop, with the outputs of the ticks of the step timer. The main loop
may do whatever it likes meanwhile, and the ramp timer may tick as long as it leaves the increment
alone. -/
inductive GoesSteadily (p₀ : Plant n Stepper) : List StepOutput → Plant n Stepper → Prop
  | start : GoesSteadily p₀ [] p₀
  | work {os : List StepOutput} {p : Plant n Stepper} {held : List Nat} {r : Ring n}
      (h : GoesSteadily p₀ os p)
      (hw : Ring.Work (fun _ => True) p.ring.lockedSlots p.ring held r) :
      GoesSteadily p₀ os { p with ring := r }
  | wakeUp {os : List StepOutput} {p : Plant n Stepper} (h : GoesSteadily p₀ os p) :
      GoesSteadily p₀ os (p.publish .wokeUp)
  | setPosition {os : List StepOutput} {p : Plant n Stepper} (h : GoesSteadily p₀ os p)
      (position : PerAxis Int32) :
      GoesSteadily p₀ os { p with side := { p.side with position := position } }
  | rampTick {os : List StepOutput} {p : Plant n Stepper} (h : GoesSteadily p₀ os p)
      (hsame : p.rampTick.side.current.map Traversal.increment =
        p.side.current.map Traversal.increment) : GoesSteadily p₀ os p.rampTick
  | tick {os : List StepOutput} {p p' : Plant n Stepper} {o : StepOutput}
      (h : GoesSteadily p₀ os p) (htick : p.tick = .ok (o, p')) : GoesSteadily p₀ (os ++ [o]) p'

/-- A plant has gone on executing a traversal, and the phase has kept count. -/
structure Counts (p : Plant n Stepper) (t : Traversal) (os : List StepOutput) (t' : Traversal) :
    Prop where
  /-- there is a traversal -/
  current_eq : p.side.current = some t'
  /-- it has gone on in time -/
  inTime : t.InTime os t'
  /-- the next tick adds the whole increment to the phase -/
  fits : t'.phase.add? t'.increment = some t'.advancePhase.phase
  /-- it has the output that is due, unless it leads out of the word of a position -/
  goes : (∃ p', p.tick = .ok (t.outputAt os.length, p')) ∨
    p.tick = .error .addOverflow ∧ p.OutOfReach t'

/-- A plant has gone on, and one of the ticks has performed the last event of a traversal. -/
def HasEnded (p₀ : Plant n Stepper) (t : Traversal) (os : List StepOutput) (p : Plant n Stepper) :
    Prop :=
  ∃ os₁ os₂ p₁ p₂, os = os₁ ++ t.outputAt os₁.length :: os₂ ∧ p₀.GoesSteadily os₁ p₁ ∧
    p₁.tick = .ok (t.outputAt os₁.length, p₂) ∧ t.EndsAt os₁.length ∧ p₂.GoesSteadily os₂ p

/-- However a plant goes on without a stop and at the same increment, the phase of what it executes
keeps count, until a tick performs the last event. -/
def KeepsPhase (p₀ : Plant n Stepper) (t : Traversal) : Prop :=
  ∀ os p, p₀.GoesSteadily os p → (∃ t', p.Counts t os t') ∨ p₀.HasEnded t os p

theorem GoesSteadily.trans {p₀ : Plant n Stepper} {os' : List StepOutput}
    (h : p₀.GoesSteadily os p) (h' : p.GoesSteadily os' p') :
    p₀.GoesSteadily (os ++ os') p' := by
  induction h' with
  | start =>
    rw [List.append_nil]
    exact h
  | work h' hw ih => exact ih.work hw
  | wakeUp h' ih => exact ih.wakeUp
  | setPosition h' position ih => exact ih.setPosition position
  | rampTick h' hsame ih => exact ih.rampTick hsame
  | tick h' htick ih =>
    rw [← List.append_assoc]
    exact ih.tick htick

/-- What has ended stays so. -/
theorem HasEnded.goesSteadily {p₀ : Plant n Stepper} {os' : List StepOutput}
    (h : p₀.HasEnded t os p) (hgoes : p.GoesSteadily os' p') : p₀.HasEnded t (os ++ os') p' := by
  obtain ⟨os₁, os₂, p₁, p₂, rfl, hgoes₁, htick, hends, hgoes₂⟩ := h
  exact ⟨os₁, os₂ ++ os', p₁, p₂, by simp, hgoes₁, htick, hends, hgoes₂.trans hgoes⟩

theorem HasEnded.stays {p₀ : Plant n Stepper} (h : p₀.HasEnded t os p)
    (hgoes : p.GoesSteadily [] p') : p₀.HasEnded t os p' := by
  rw [← List.append_nil os]
  exact h.goesSteadily hgoes

/-- A plant executes a traversal that has gone on in time, and no stop is latched. -/
structure Steady (p : Plant n Stepper) (t : Traversal) (os : List StepOutput) (t' : Traversal)
    (q : Fifo) : Prop where
  /-- no stop is latched -/
  clear : p.stop.isActive = false
  /-- stepper and ring agree -/
  coupled : p.Coupled p.ring.lockedSlots q
  /-- there is a traversal -/
  current_eq : p.side.current = some t'
  /-- it has gone on in time -/
  inTime : t.InTime os t'

namespace Steady

/-- As long as the ring is left alone, the traversal may go on. -/
theorem proceed (h : p.Steady t os t' q) {os' : List StepOutput} {t'' : Traversal}
    (hring : p'.ring = p.ring) (hstop : p'.stop = p.stop) (hc : p'.side.current = some t'')
    (hslot : t''.slot = t'.slot) (htime : t.InTime os' t'') : p'.Steady t os' t'' q where
  clear := by rw [hstop]; exact h.clear
  coupled := by rw [hring]; exact h.coupled.proceed h.current_eq hring hc hslot
  current_eq := hc
  inTime := htime

theorem work (h : p.Steady t os t' q) {held : List Nat} {r : Ring n}
    (hw : Ring.Work (fun _ => True) p.ring.lockedSlots p.ring held r) :
    ∃ q', ({ p with ring := r } : Plant n Stepper).Steady t os t' q' := by
  obtain ⟨q', hcoupled, -⟩ := h.coupled.work hw
  exact ⟨q', h.clear, hcoupled, h.current_eq, h.inTime⟩

/-- The ramp timer changes the speed, but not the increment. -/
theorem rampTick (h : p.Steady t os t' q) (hsame : p.rampTick.side.current.map Traversal.increment =
    p.side.current.map Traversal.increment) : ∃ t'', p.rampTick.Steady t os t'' q := by
  rw [rampTick_of_current h.current_eq] at hsame ⊢
  split at hsame <;> rename_i hrate
  · rw [if_pos hrate]
    exact ⟨t', h⟩
  · rw [if_neg hrate]
    have hincrement :
        p.side.incrementOf (Single.ceilCount (p.side.nextRate t')) = t'.increment := by
      rw [h.current_eq] at hsame
      exact Option.some.inj hsame
    refine ⟨_, h.proceed rfl rfl rfl rfl ?_⟩
    exact ⟨h.inTime.course.trans rfl, h.inTime.done_eq, h.inTime.lt,
      hincrement.trans h.inTime.increment_eq, h.inTime.phase_eq, h.inTime.outputs_eq⟩

/-- A tick goes on with the traversal, or performs its last event, or leads out of the word of a
position. -/
theorem tick (h : p.Steady t os t' q) (ht : t.Ticking) :
    (∃ p' t'', p.tick = .ok (t.outputAt os.length, p') ∧
      p'.Steady t (os ++ [t.outputAt os.length]) t'' q) ∨
    (∃ p', p.tick = .ok (t.outputAt os.length, p') ∧ t.EndsAt os.length) ∨
    (p.tick = .error .addOverflow ∧ p.OutOfReach t') := by
  have htick := tick_of_clear h.current_eq h.clear
  have houtput := h.inTime.outputAt_eq ht
  by_cases hdue : t'.advancePhase.isDue = true
  · obtain ⟨hnext, hcourse, hgoes⟩ := h.inTime.strike ht hdue
    rw [if_pos hdue] at houtput
    rw [advancePhase, if_pos hdue] at htick
    have hends : t'.advancePhase.wrapPhase.stepEvent.isComplete = true → t.EndsAt os.length :=
      fun hdone => ⟨by omega, by rw [← hcourse.isComplete_eq]; exact hdone⟩
    obtain ⟨o, es, p', hok, hperforms⟩ | ⟨herr, a, ha⟩ := h.coupled.performs h.current_eq
      (show t'.advancePhase.wrapPhase.slot = t'.slot from rfl)
    · have ho : o = t.outputAt os.length := by
        rw [houtput]
        cases hperforms <;> rfl
      rw [← htick, ho] at hok
      cases hperforms with
      | goesOn hpos hmore => exact .inl ⟨_, _, hok, h.proceed rfl rfl rfl rfl (hgoes hmore)⟩
      | cutShort hpos hdone hint => exact .inr (.inl ⟨_, hok, hends hdone⟩)
      | last hpos hdone hint hexec hr honward => exact .inr (.inl ⟨_, hok, hends hdone⟩)
    · refine .inr (.inr ⟨htick.trans herr, a, fun hin => ha ?_⟩)
      exact t'.advancePhase.wrapPhase.inWord_maskedStep hin
  · rw [if_neg hdue] at houtput
    rw [advancePhase, if_neg hdue, ← houtput] at htick
    exact .inl ⟨_, _, htick,
      h.proceed rfl rfl rfl rfl (h.inTime.wait ht (Bool.eq_false_iff.mpr hdue))⟩

theorem counts (h : p.Steady t os t' q) (ht : t.Ticking) : p.Counts t os t' := by
  refine ⟨h.current_eq, h.inTime, (h.inTime.ticking ht).fits, ?_⟩
  obtain ⟨p', t'', htick, -⟩ | ⟨p', htick, -⟩ | herr := h.tick ht
  · exact .inl ⟨p', htick⟩
  · exact .inl ⟨p', htick⟩
  · exact .inr herr

/-- By induction on how the plant goes on: it executes the traversal until that has ended. -/
theorem goesSteadily {p₀ : Plant n Stepper} {q₀ : Fifo} (h : p₀.Steady t [] t q₀) (ht : t.Ticking)
    (hgoes : p₀.GoesSteadily os p) : (∃ t' q, p.Steady t os t' q) ∨ p₀.HasEnded t os p := by
  induction hgoes with
  | start => exact .inl ⟨t, q₀, h⟩
  | work hgoes hw ih =>
    obtain ⟨t', q, hp⟩ | hended := ih
    · obtain ⟨q', hp'⟩ := hp.work hw
      exact .inl ⟨t', q', hp'⟩
    · exact .inr (hended.stays (.work .start hw))
  | wakeUp hgoes ih =>
    obtain ⟨t', q, hp⟩ | hended := ih
    · exact .inl ⟨t', q, hp.proceed rfl rfl hp.current_eq rfl hp.inTime⟩
    · exact .inr (hended.stays (.wakeUp .start))
  | setPosition hgoes position ih =>
    obtain ⟨t', q, hp⟩ | hended := ih
    · exact .inl ⟨t', q, hp.proceed rfl rfl hp.current_eq rfl hp.inTime⟩
    · exact .inr (hended.stays (.setPosition .start position))
  | rampTick hgoes hsame ih =>
    obtain ⟨t', q, hp⟩ | hended := ih
    · obtain ⟨t'', hp'⟩ := hp.rampTick hsame
      exact .inl ⟨t'', q, hp'⟩
    · exact .inr (hended.stays (.rampTick .start hsame))
  | tick hgoes htick ih =>
    obtain ⟨t', q, hp⟩ | hended := ih
    · obtain ⟨p', t'', htick', hp'⟩ | ⟨p', htick', hends⟩ | ⟨herr, -⟩ := hp.tick ht
      · rw [htick] at htick'
        cases htick'
        exact .inl ⟨t'', q, hp'⟩
      · rw [htick] at htick'
        cases htick'
        exact .inr ⟨_, [], _, _, rfl, hgoes, htick, hends, .start⟩
      · rw [htick] at herr
        cases herr
    · exact .inr (hended.goesSteadily (.tick .start htick))

theorem keepsPhase (h : p.Steady t [] t q) (ht : t.Ticking) : p.KeepsPhase t := by
  intro os p' hgoes
  refine (h.goesSteadily ht hgoes).imp_left ?_
  rintro ⟨t', q', hsteady⟩
  exact ⟨t', hsteady.counts ht⟩

end Steady

end Plant

/-! ## What is executed -/

namespace Stepper

variable {s : Stepper} {t : Traversal}

/-- What a stepper may execute between two ticks. -/
structure Meters (s : Stepper) (t : Traversal) : Prop where
  /-- some step event is still to come -/
  lt : t.eventsDone < t.eventCount
  /-- no event is due between ticks -/
  phase_lt : t.phase.bits.toNat < 65536
  /-- the increment is that of a rate that the step timer can keep up with -/
  rate : ∃ rate ≤ s.baseFrequency, t.increment = s.incrementOf rate

theorem Meters.ticking (h : s.Meters t) : t.Ticking := by
  obtain ⟨rate, -, hincrement⟩ := h.rate
  exact ⟨h.phase_lt, by rw [hincrement]; exact s.bits_incrementOf_le rate⟩

/-- A rate that is too high for the step timer is as good as its own. -/
theorem incrementOf_min (s : Stepper) (rate : UInt32) :
    s.incrementOf (min rate s.baseFrequency) = s.incrementOf rate := by
  have hmin : min (min rate s.baseFrequency) s.baseFrequency = min rate s.baseFrequency :=
    if_pos Std.min_le_right
  rw [incrementOf, hmin, incrementOf]

theorem Meters.atRate (hlt : t.eventsDone < t.eventCount) (hphase : t.phase.bits.toNat < 65536)
    (rate : Float32) : s.Meters (s.atRate t rate) :=
  ⟨hlt, hphase, _, Std.min_le_right, (s.incrementOf_min (Single.ceilCount rate)).symm⟩

theorem keeps_meters (s : Stepper) : s.Keeps s.Meters where
  enter slot segment hm := .atRate (t := .ofSegment slot segment) (of_decide_eq_true hm)
    (Nat.zero_lt_succ 65535) _
  ramp _ ht := .atRate ht.lt ht.phase_lt _
  cut _ _ ht := ⟨ht.lt, ht.phase_lt, ht.rate⟩
  wait _ ht hdue := ⟨ht.lt, (ht.ticking.wait hdue).phase_lt, ht.rate⟩
  strike _ ht hdue hmore :=
    ⟨UInt32.lt_iff_toNat_lt.mpr ((Traversal.not_isComplete_iff _).mp hmore).1,
      (ht.ticking.strike hdue).phase_lt, ht.rate⟩

end Stepper

namespace Plant

variable {p p' ready : Plant n Stepper} {t : Traversal} {held : List Nat} {q : Fifo}
  {good : Segment → Prop} {rate : UInt32}

/-- A plant executes a traversal at the increment of a whole rate, and no stop is latched. -/
structure ExecutesAt (p : Plant n Stepper) (t : Traversal) (rate : UInt32) : Prop where
  /-- no stop is latched -/
  clear : p.stop.isActive = false
  /-- there is a traversal -/
  current_eq : p.side.current = some t
  /-- some step event is still to come -/
  lt : t.eventsDone < t.eventCount
  /-- no event is due between ticks -/
  phase_lt : t.phase.bits.toNat < 65536
  /-- the rate is one that the step timer can keep up with -/
  rate_le : rate ≤ p.side.baseFrequency
  /-- the increment is that of the rate -/
  increment_eq : t.increment = p.side.incrementOf rate

theorem ExecutesAt.ticking (h : p.ExecutesAt t rate) : t.Ticking :=
  Stepper.Meters.ticking ⟨h.lt, h.phase_lt, rate, h.rate_le, h.increment_eq⟩

theorem Bears.meters {s : Stepper} (h : p.Bears s s.Meters) : p.Bears p.side p.side.Meters := by
  refine ⟨rfl, fun t ht => ?_⟩
  obtain ⟨hlt, hphase, hrate⟩ := h.current t ht
  rw [h.timers]
  exact ⟨hlt, hphase, hrate⟩

/-- In every state of the machine the phase of what is executed is below one, and its increment is
that of a rate that the step timer can keep up with. -/
theorem Reachable.meters (h : Reachable good held p) : p.Bears p.side p.side.Meters := by
  induction h with
  | fresh hring hidle =>
    refine ⟨rfl, fun t ht => ?_⟩
    rw [Stepper.isBusy, ht] at hidle
    cases hidle
  | work h hw ih => exact ⟨ih.timers, ih.current⟩
  | setStop h stop ih => exact ⟨ih.timers, ih.current⟩
  | wakeUp h ih => exact ⟨ih.timers, ih.current⟩
  | setPosition h position ih =>
    refine ⟨rfl, fun t ht => ?_⟩
    obtain ⟨hlt, hphase, hrate⟩ := ih.current t ht
    exact ⟨hlt, hphase, hrate⟩
  | tick h htick ih =>
    obtain ⟨q, hq⟩ := h.orderly
    exact (hq.coupled.bears_of_tick (Stepper.keeps_meters _) ih htick).meters
  | rampTick h ih => exact (ih.rampTick (Stepper.keeps_meters _)).meters

/-- So whatever is executed without a stop, from the tick that begins it on, is executed at such a
rate. -/
theorem Reachable.executesAt (h : Reachable good held p) (hclear : p.stop.isActive = false)
    (hready : p.prepare = .ok ready) (hc : ready.side.current = some t) :
    ∃ rate, ready.ExecutesAt t rate := by
  obtain ⟨q, hq⟩ := h.orderly
  obtain ⟨ready', q', es, hready', hout, -⟩ := prepare_eq hq.coupled
  rw [hready] at hready'
  cases hready'
  obtain ⟨hlt, hphase, rate, hrate, hincrement⟩ :=
    (hq.coupled.bears_of_prepare (Stepper.keeps_meters _) h.meters hready).meters.current t hc
  exact ⟨rate, hout.stop_eq ▸ hclear, hc, hlt, hphase, hrate, hincrement⟩

end Plant

/-- A ratio that is rounded down to 65536ths, and of which a multiple is rounded down to a whole
number, is too low by less than a 65536th for each time and by less than one in the end. -/
theorem Stepper.mul_ratio_bounds (k rate : Nat) {base : Nat} (hbase : 0 < base) :
    ((k * (rate * 65536 / base) / 65536 : Nat) : ℚ) ≤ k * rate / base ∧
      (k * rate / base - k / 65536 - 1 : ℚ) < (k * (rate * 65536 / base) / 65536 : Nat) := by
  have hpos : (0 : ℚ) < base := by exact_mod_cast hbase
  obtain ⟨increment, hincrement⟩ : ∃ x, x = rate * 65536 / base := ⟨_, rfl⟩
  obtain ⟨events, hevents⟩ : ∃ x, x = k * increment / 65536 := ⟨_, rfl⟩
  have hratio : increment * base ≤ rate * 65536 := hincrement ▸ Nat.div_mul_le_self _ _
  have hratio' : rate * 65536 < base * (increment + 1) :=
    hincrement ▸ Nat.lt_mul_div_succ _ hbase
  have hwhole : events * 65536 ≤ k * increment := hevents ▸ Nat.div_mul_le_self _ _
  have hwhole' : k * increment < 65536 * (events + 1) := hevents ▸ Nat.lt_mul_div_succ _ (by decide)
  rw [← hincrement, ← hevents]
  constructor
  · have hle : events * 65536 * base ≤ k * (rate * 65536) := calc
      events * 65536 * base ≤ k * increment * base := Nat.mul_le_mul_right _ hwhole
      _ = k * (increment * base) := Nat.mul_assoc _ _ _
      _ ≤ k * (rate * 65536) := Nat.mul_le_mul_left _ hratio
    have hle : (events * 65536 * base : ℚ) ≤ k * (rate * 65536) := by exact_mod_cast hle
    rw [le_div_iff₀ hpos]
    linarith
  · have hlt : k * (rate * 65536) < (65536 * (events + 1) + k) * base := calc
      k * (rate * 65536) ≤ k * (base * (increment + 1)) := Nat.mul_le_mul_left _ hratio'.le
      _ = (k * increment + k) * base := by ring
      _ < (65536 * (events + 1) + k) * base :=
        Nat.mul_lt_mul_of_pos_right (Nat.add_lt_add_right hwhole' k) hbase
    have hlt : (k * (rate * 65536) : ℚ) < (65536 * (events + 1) + k) * base := by exact_mod_cast hlt
    rw [sub_sub, sub_lt_iff_lt_add, div_lt_iff₀ hpos]
    linarith

/-- From a phase of zero on there are as many events as the rate demands, up to what its increment
and the phase leave out. -/
theorem Traversal.eventsWithin_of_zero {t : Traversal} {s : Stepper} {rate : UInt32}
    (hphase : t.phase = .zero) (hincrement : t.increment = s.incrementOf rate)
    (hrate : rate ≤ s.baseFrequency) (hbase : 0 < s.baseFrequency) (k : Nat) :
    (t.eventsWithin k : ℚ) ≤ k * rate.toNat / s.baseFrequency.toNat ∧
      (k * rate.toNat / s.baseFrequency.toNat - k / 65536 - 1 : ℚ) < t.eventsWithin k := by
  have hpos : 0 < s.baseFrequency.toNat := UInt32.lt_iff_toNat_lt.mp hbase
  have hmin : min rate s.baseFrequency = rate := if_pos hrate
  have haccrued : t.accrued k = k * t.increment.bits.toNat := by
    rw [accrued, hphase]
    exact Nat.zero_add _
  rw [eventsWithin, haccrued, hincrement, Stepper.bits_incrementOf_eq hpos, hmin]
  exact Stepper.mul_ratio_bounds k rate.toNat hpos

namespace Plant

variable {p ready : Plant n Stepper} {t : Traversal} {held : List Nat} {q : Fifo} {rate : UInt32}

/-- Whatever is executed without a stop at the increment of a whole rate, from the tick that begins
it on: however the plant goes on, the step events and the phase are those of what has been added up,
with one event at most per tick, until the last event is performed. From a phase of zero on, the
events are those of the rate, up to what its increment and the phase leave out. -/
theorem keepsPhase_of_prepare (hp : p.Coupled held q) (hready : p.prepare = .ok ready)
    (h : ready.ExecutesAt t rate) :
    p.tick = ready.tick ∧ t.increment.bits.toNat ≤ 65536 ∧ ready.KeepsPhase t ∧
    (∀ k, t.eventsWithin k = (t.phase.bits.toNat + k * t.increment.bits.toNat) / 65536 ∧
      t.eventsWithin (k + 1) ≤ t.eventsWithin k + 1) ∧
    (t.phase = .zero → 0 < ready.side.baseFrequency → ∀ k : Nat,
      (t.eventsWithin k : ℚ) ≤ k * rate.toNat / ready.side.baseFrequency.toNat ∧
      (k * rate.toNat / ready.side.baseFrequency.toNat - k / 65536 - 1 : ℚ) <
        t.eventsWithin k) := by
  obtain ⟨ready', q', es, hready', hout, -⟩ := prepare_eq hp
  rw [hready] at hready'
  cases hready'
  have hcoupled : ready.Coupled ready.ring.lockedSlots q' :=
    hout.coupled.holds.held_eq ▸ hout.coupled
  have hbusy : ready.prepare = .ok ready := by rw [prepare, h.current_eq]
  refine ⟨?_, h.ticking.increment_le, ?_, ?_, ?_⟩
  · rw [p.tick_eq_prepare, ready.tick_eq_prepare, hready, hbusy]
  · exact Steady.keepsPhase ⟨h.clear, hcoupled, h.current_eq, .refl h.ticking h.lt⟩ h.ticking
  · exact fun k => ⟨rfl, h.ticking.eventsWithin_succ_le k⟩
  · exact fun hphase hbase k => t.eventsWithin_of_zero hphase h.increment_eq h.rate_le hbase k

/-- At two thirds of the step tick rate there has been one event after three ticks, and not two: the
increment is rounded down, and the phase is still just below one. -/
theorem keepsPhase_at_two_thirds : ∃ (p ready : Plant 4 Stepper) (t : Traversal),
    p.prepare = .ok ready ∧ ready.ExecutesAt t 2 ∧ t.eventsWithin 3 = 1 ∧ t.accrued 3 % 65536 = 65534 ∧
    p.tick = ready.tick ∧ ready.KeepsPhase t ∧ (t.eventsWithin 3 : ℚ) ≤ 3 * 2 / 3 ∧
    (3 * 2 / 3 - 3 / 65536 - 1 : ℚ) < t.eventsWithin 3 := by
  -- the segment is published in an empty ring, and begins with the next tick
  obtain ⟨p, hreach, hprepare⟩ : ∃ p : Plant 4 Stepper, Reachable (fun _ => True) [] p ∧
      (match p.prepare with
      | .ok ready => !ready.stop.isActive && ready.side.baseFrequency == 3 &&
        ready.side.current.any fun t => t.eventsDone < t.eventCount && t.phase == .zero &&
          t.increment == ready.side.incrementOf 2 && t.increment == ⟨43690⟩
      | .error _ => false) = true := by
    have hring : Ring.new 4 3 = .ok (Ring.ofLen 3 (by decide) (by decide)) := rfl
    have hfresh : Reachable (fun _ => True) [] ⟨_, .clear, #[], ⟨3, 1, none, .const 0⟩⟩ :=
      .fresh hring rfl
    have hwritten := hfresh.work (.write (s := { Segment.empty with
      steps := ⟨3, 2, 0⟩, eventCount := 3, directions := ⟨2⟩, initialRate := 2 }) trivial)
    exact ⟨_, (hwritten.work (.publish rfl)).work (.run rfl), by decide +kernel⟩
  obtain ⟨q, hq⟩ := hreach.orderly
  split at hprepare
  · next ready hready =>
    simp only [Bool.and_eq_true, Bool.not_eq_true', Option.any_eq_true, decide_eq_true_iff,
      beq_iff_eq] at hprepare
    obtain ⟨⟨hclear, hbase⟩, t, hc, ⟨⟨hlt, hphase⟩, hrate⟩, hincrement⟩ := hprepare
    have hexecutes : ready.ExecutesAt t 2 :=
      ⟨hclear, hc, hlt, by rw [hphase]; decide, by rw [hbase]; decide, hrate⟩
    obtain ⟨htick, -, hkeeps, -, hbounds⟩ :=
      keepsPhase_of_prepare hq.coupled hready hexecutes
    have hthree := hbounds hphase (by rw [hbase]; decide) 3
    rw [hbase] at hthree
    refine ⟨p, ready, t, hready, hexecutes, ?_, ?_, htick, hkeeps, ?_⟩
    · rw [Traversal.eventsWithin, Traversal.accrued, hphase, hincrement]
      decide
    · rw [Traversal.accrued, hphase, hincrement]
      decide
    · exact_mod_cast hthree
  · cases hprepare

end Plant

end MotionControl
