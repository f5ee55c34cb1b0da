import Mathlib.Algebra.Order.Field.Basic
import Mathlib.Data.Rat.Floor
import Mathlib.Tactic.FieldSimp
import Mathlib.Tactic.Linarith
import Mathlib.Tactic.Ring
import MotionControl.Proofs.Motion.Watch

/-!
# Straight lines

A segment is a straight line. Of its `n` step events, an actuator that makes `s` steps has made
`Line.made s n k` after the first `k`, which is the ideal `k * s / n` rounded to a whole number of
steps, and the actuators that step at each event are `Line.mask`. Neither depends on how fast the
segment is executed.

`Traversal.OnLine` is the invariant of the step events that says so. From it follows what a run does
(`Plant.DrawsLine`): whatever the rates are and however the two timers interleave, the pulses of a
segment that no stop interferes with are those of the line, one event after another, and the segment
is complete with the last of them.
-/

namespace MotionControl

variable {n : Nat}

/-! ## The line -/

namespace Line

/-- The steps that an actuator makes at the first `k` of `n` events, if it makes `s` in all. -/
def made (s n k : Nat) : Int := ⌈((k * s - (n / 2 : Nat) : Int) : ℚ) / n⌉

/-- The actuators that step at the event with a number. -/
def mask (steps : PerAxis UInt32) (n k : Nat) : UInt8 :=
  Axis.maskOf fun a => made (steps.get a).toNat n k < made (steps.get a).toNat n (k + 1)

variable {s n k : Nat}

/-- The counter of an actuator with `m` steps made is above `-n`, and not positive. -/
theorem made_eq_iff (hn : 0 < n) {m : Int} : made s n k = m ↔
    -(n : Int) < k * s - (n / 2 : Nat) - n * m ∧ (k * s - (n / 2 : Nat) - n * m : Int) ≤ 0 := by
  have hpos : (0 : ℚ) < n := by exact_mod_cast hn
  rw [made, Int.ceil_eq_iff, lt_div_iff₀ hpos, div_le_iff₀ hpos]
  refine and_congr ⟨fun h => ?_, fun h => ?_⟩ ⟨fun h => ?_, fun h => ?_⟩
  · have h : ((m - 1) * n : Int) < k * s - (n / 2 : Nat) := by exact_mod_cast h
    linarith
  · have h : ((m - 1) * n : Int) < k * s - (n / 2 : Nat) := by linarith
    exact_mod_cast h
  · have h : (k * s - (n / 2 : Nat) : Int) ≤ m * n := by exact_mod_cast h
    linarith
  · have h : (k * s - (n / 2 : Nat) : Int) ≤ m * n := by linarith
    exact_mod_cast h

theorem made_zero (hn : 0 < n) : made s n 0 = 0 := by
  rw [made_eq_iff hn]
  constructor <;> simp <;> omega

/-- An actuator with a step at every event. -/
theorem made_self (hn : 0 < n) : made n n k = k := by
  rw [made_eq_iff hn, Int.mul_comm]
  constructor <;> simp <;> omega

/-- The steps made are never more than half a step away from the line. -/
theorem abs_made_sub_le (hn : 0 < n) : |(made s n k : ℚ) - k * s / n| ≤ 1 / 2 := by
  have hpos : (0 : ℚ) < n := by exact_mod_cast hn
  obtain ⟨hlow, hhigh⟩ := (made_eq_iff (s := s) (k := k) hn).mp rfl
  have hlow : (2 * (n * made s n k - k * s) : Int) ≤ n := by omega
  have hhigh : (-n : Int) ≤ 2 * (n * made s n k - k * s) := by omega
  have hlow : (2 * (n * made s n k - k * s) : ℚ) ≤ n := by exact_mod_cast hlow
  have hhigh : (-n : ℚ) ≤ 2 * (n * made s n k - k * s) := by exact_mod_cast hhigh
  have heq : (made s n k : ℚ) - k * s / n = (n * made s n k - k * s) / n := by field_simp
  rw [heq, abs_le, le_div_iff₀ hpos, div_le_iff₀ hpos]
  constructor <;> linarith

/-- An actuator with a step at every event steps at every event. -/
theorem mask_ne_zero {steps : PerAxis UInt32} {a : Axis} (hn : 0 < n)
    (ha : (steps.get a).toNat = n) : mask steps n k ≠ 0 := by
  intro hzero
  have hin := Axis.isIn_maskOf (fun a =>
    made (steps.get a).toNat n k < made (steps.get a).toNat n (k + 1)) a
  rw [ha, made_self hn, made_self hn] at hin
  change a.isIn (mask steps n k) = _ at hin
  rw [hzero] at hin
  cases a <;> simp [Axis.isIn] at hin

end Line

/-! ## Step events -/

namespace Traversal

/-- A traversal has made the steps of its line so far. -/
structure OnLine (t : Traversal) (l : Load) : Prop where
  /-- it carries the load out -/
  carries : t.Carries l
  /-- the steps made are those of the line -/
  made_eq : ∀ a, ((l.steps.get a).toNat - (t.remaining.get a).toNat : Int) =
    Line.made (l.steps.get a).toNat l.eventCount.toNat t.eventsDone.toNat

namespace OnLine

variable {t t' : Traversal} {l : Load}

theorem sameCourse (h : t.OnLine l) (ht : t.SameCourse t') : t'.OnLine l := by
  refine ⟨h.carries.sameCourse ht, ?_⟩
  rw [ht]
  exact h.made_eq

theorem ofSegment (slot : Nat) {s : Segment} (hs : s.load.Sound) (hm : s.hasMotion = true) :
    (Traversal.ofSegment slot s).OnLine s.load := by
  have hpos : 0 < s.eventCount.toNat := UInt32.lt_iff_toNat_lt.mp (of_decide_eq_true hm)
  refine ⟨.ofSegment slot hs, fun a => ?_⟩
  have hzero := Line.made_zero (s := (s.steps.get a).toNat) hpos
  simp [Traversal.ofSegment, Segment.load, hzero]

/-- At the next event the line goes on by a step where the traversal does. -/
theorem made_next (h : t.OnLine l) (hmore : t.isComplete = false) (a : Axis) :
    Line.made (l.steps.get a).toNat l.eventCount.toNat (t.eventsDone.toNat + 1) =
      Line.made (l.steps.get a).toNat l.eventCount.toNat t.eventsDone.toNat +
        if t.stepsNext a then 1 else 0 := by
  obtain ⟨hlt, -⟩ := t.not_isComplete_iff.mp hmore
  rw [h.carries.eventCount_eq] at hlt
  have hn : 0 < l.eventCount.toNat := Nat.zero_lt_of_lt hlt
  have hle := h.carries.sound.steps_le a
  have hle : ((l.steps.get a).toNat : Int) ≤ l.eventCount.toNat := by exact_mod_cast hle
  obtain ⟨hlow, hhigh⟩ := (Line.made_eq_iff hn).mp (h.made_eq a).symm
  rw [← h.made_eq a, Line.made_eq_iff hn]
  by_cases hzero : t.remaining.get a = 0
  · -- all steps are made, and some events are still to come
    have hnone : t.stepsNext a = false := by simp [stepsNext, hzero]
    have hmore : ((t.eventsDone.toNat + 1) * (l.steps.get a).toNat : Int) ≤
        l.eventCount.toNat * (l.steps.get a).toNat := by
      exact_mod_cast Nat.mul_le_mul_right _ hlt
    have hhalf := Int.natCast_nonneg (l.eventCount.toNat / 2)
    simp only [hnone, hzero, Nat.cast_succ, UInt32.toNat_zero, Nat.cast_zero, Bool.false_eq_true,
      if_false] at hlow hhigh ⊢
    constructor <;> linarith
  · -- the counter says how far the actuator is from its next step
    have hcounter := h.carries.counter_eq a hzero
    rw [h.carries.steps_eq, h.carries.eventCount_eq] at hcounter
    have hnext : t.stepsNext a = true ↔ 0 < t.counters.get a + ((l.steps.get a).toNat : Int) := by
      simp [stepsNext, hzero, h.carries.steps_eq]
    push_cast at hcounter hlow hhigh ⊢
    by_cases hs : t.stepsNext a = true
    · have hpos := hnext.mp hs
      rw [if_pos hs]
      constructor <;> linarith
    · have hneg := mt hnext.mpr hs
      rw [if_neg hs]
      constructor <;> linarith

/-- The next event is that of the line. -/
theorem nextMask_eq (h : t.OnLine l) (hmore : t.isComplete = false) :
    t.nextMask = Line.mask l.steps l.eventCount.toNat t.eventsDone.toNat := by
  have hnext : t.stepsNext = fun a => decide
      (Line.made (l.steps.get a).toNat l.eventCount.toNat t.eventsDone.toNat <
        Line.made (l.steps.get a).toNat l.eventCount.toNat (t.eventsDone.toNat + 1)) := by
    funext a
    rw [h.made_next hmore]
    cases t.stepsNext a <;> simp
  exact congrArg Axis.maskOf hnext

theorem stepEvent (h : t.OnLine l) (hmore : t.isComplete = false) : t.stepEvent.OnLine l := by
  refine ⟨h.carries.stepEvent hmore, fun a => ?_⟩
  rw [eventsDone_stepEvent hmore, h.made_next hmore, ← h.made_eq, Traversal.stepEvent,
    PerAxis.get_ofFn]
  split
  · next hs =>
    have hpos := remaining_of_stepsNext hs
    omega
  · rw [Int.add_zero]

/-- The last event is over when the line is at its end, and not before. -/
theorem eventsDone_eq (h : t.OnLine l) (hn : 0 < l.eventCount.toNat) (hdone : t.isComplete = true) :
    t.eventsDone.toNat = l.eventCount.toNat := by
  obtain ⟨a, ha⟩ := Load.exists_eq_eventCount l.steps
  have hsteps : (l.steps.get a).toNat = l.eventCount.toNat := by rw [ha, ← h.carries.sound]
  have hmade := h.made_eq a
  rw [h.carries.remaining_eq_zero hdone, hsteps, Line.made_self hn] at hmade
  simpa using hmade.symm

end OnLine

/-- The outputs so far are those of the line, up to the last event that is over. -/
structure Draws (s : Segment) (os : List StepOutput) (t : Traversal) : Prop where
  /-- the steps made are those of the line -/
  onLine : t.OnLine s.load
  /-- they are the pulses of the outputs -/
  pulses_add : ∀ a, pulses a os + (t.remaining.get a).toNat = (s.steps.get a).toNat
  /-- the pulses come at the events of the line -/
  masks_eq : os.filter StepOutput.hasSteps = (List.range t.eventsDone.toNat).map fun j =>
    ⟨Line.mask s.steps s.eventCount.toNat j, s.directions⟩

namespace Draws

variable {s : Segment} {os : List StepOutput} {t t' : Traversal}

theorem ofSegment (slot : Nat) (hs : s.load.Sound) (hm : s.hasMotion = true) :
    (Traversal.ofSegment slot s).Draws s [] :=
  ⟨.ofSegment slot hs hm, fun _ => Nat.zero_add _, rfl⟩

theorem sameCourse (h : t.Draws s os) (ht : t.SameCourse t') : t'.Draws s os := by
  refine ⟨h.onLine.sameCourse ht, ?_, ?_⟩ <;> rw [ht]
  · exact h.pulses_add
  · exact h.masks_eq

theorem idle (h : t.Draws s os) : t.Draws s (os ++ [.idle]) := by
  refine ⟨h.onLine, fun a => ?_, ?_⟩
  · rw [pulses_append, pulses_idle]
    exact h.pulses_add a
  · rw [List.filter_append, h.masks_eq]
    exact List.append_nil _

theorem nextMask_eq (h : t.Draws s os) (hmore : t.isComplete = false) :
    t.nextMask = Line.mask s.steps s.eventCount.toNat t.eventsDone.toNat :=
  h.onLine.nextMask_eq hmore

/-- Every event makes a step. -/
theorem hasSteps (h : t.Draws s os) (hmore : t.isComplete = false) :
    StepOutput.hasSteps ⟨t.nextMask, t.directions⟩ = true := by
  obtain ⟨a, ha⟩ := Load.exists_eq_eventCount s.steps
  have hsound : s.eventCount = Planner.eventCount s.steps := h.onLine.carries.sound
  obtain ⟨hlt, -⟩ := t.not_isComplete_iff.mp hmore
  rw [h.onLine.carries.eventCount_eq] at hlt
  rw [StepOutput.hasSteps, bne_iff_ne, h.nextMask_eq hmore]
  exact Line.mask_ne_zero (Nat.zero_lt_of_lt hlt) (by rw [ha, hsound])

theorem stepEvent (h : t.Draws s os) (hmore : t.isComplete = false) :
    t.stepEvent.Draws s (os ++ [⟨t.nextMask, t.directions⟩]) := by
  refine ⟨h.onLine.stepEvent hmore, fun a => ?_, ?_⟩
  · rw [pulses_stepEvent]
    exact h.pulses_add a
  · have hdirections : t.directions = s.directions := h.onLine.carries.directions_eq
    rw [List.filter_append, h.masks_eq, List.filter_cons_of_pos (h.hasSteps hmore),
      h.nextMask_eq hmore, hdirections, eventsDone_stepEvent hmore, List.range_succ,
      List.map_append]
    rfl

end Draws

end Traversal

/-! ## Runs -/

namespace Plant

/-- Some outputs have drawn the first events of a line from a position on. -/
structure Drawn (s : Segment) (origin : PerAxis Int32) (k : Nat) (os : List StepOutput)
    (p : Plant n Stepper) : Prop where
  /-- the pulses come at the events of the line -/
  masks_eq : os.filter StepOutput.hasSteps = (List.range k).map fun j =>
    ⟨Line.mask s.steps s.eventCount.toNat j, s.directions⟩
  /-- they are as many as they have to be -/
  pulses_eq : ∀ a, (pulses a os : Int) = Line.made (s.steps.get a).toNat s.eventCount.toNat k
  /-- which is never more than half a step away from the ideal line -/
  near : ∀ a,
    |(pulses a os : ℚ) - k * (s.steps.get a).toNat / s.eventCount.toNat| ≤ 1 / 2
  /-- the position has moved by them -/
  position_eq : ∀ a, (p.side.position.get a).toInt =
    (origin.get a).toInt + s.directions.signed a (pulses a os)

end Plant

theorem Traversal.Draws.drawn {s : Segment} {os : List StepOutput} {t : Traversal}
    (h : t.Draws s os) (hm : s.hasMotion = true) {origin : PerAxis Int32} {p : Plant n Stepper}
    (hposition : ∀ a, (p.side.position.get a).toInt =
      (origin.get a).toInt + s.directions.signed a (pulses a os)) :
    p.Drawn s origin t.eventsDone.toNat os := by
  have hpos : 0 < s.eventCount.toNat := UInt32.lt_iff_toNat_lt.mp (of_decide_eq_true hm)
  have hpulses : ∀ a, (pulses a os : Int) =
      Line.made (s.steps.get a).toNat s.eventCount.toNat t.eventsDone.toNat := by
    intro a
    have hmade : ((s.steps.get a).toNat - (t.remaining.get a).toNat : Int) =
      Line.made (s.steps.get a).toNat s.eventCount.toNat t.eventsDone.toNat := h.onLine.made_eq a
    have hadd := h.pulses_add a
    omega
  refine ⟨h.masks_eq, hpulses, fun a => ?_, hposition⟩
  have hnear := Line.abs_made_sub_le (s := (s.steps.get a).toNat) (k := t.eventsDone.toNat) hpos
  rwa [← hpulses a] at hnear

namespace Plant

/-- The last event of a segment has been drawn, and the segment is complete. -/
structure Finishes (p : Plant n Stepper) (s : Segment) (origin : PerAxis Int32)
    (os : List StepOutput) (o : StepOutput) (p' : Plant n Stepper) : Prop where
  /-- it is complete with its last pulse -/
  hasSteps : o.hasSteps = true
  /-- the whole line has been drawn -/
  drawn : p'.Drawn s origin s.eventCount.toNat (os ++ [o])
  /-- every actuator has made all of its steps -/
  pulses_eq : ∀ a, pulses a (os ++ [o]) = (s.steps.get a).toNat
  /-- the segment is reported complete -/
  ends : ∃ es, p.Ends s es p'

/-- A tick goes on with the line or is the last one of the segment. -/
theorem Stroke.draws {p p₁ p₂ : Plant n Stepper} {s : Segment} {t t₁ : Traversal} {k : Nat}
    {os : List StepOutput} {o : StepOutput} {es : List Event} (hstroke : p₁.Stroke t₁ o es p₂)
    (hahead : p.Ahead t s.load k os p₁ t₁) (hdraws : t₁.Draws s os) (hm : s.hasMotion = true)
    (hexec : p.ring.executing t.slot = .ok s) (hclear : p₁.stop.isActive = false) :
    (∃ t₂ k', p.Ahead t s.load k' (os ++ [o]) p₂ t₂ ∧ t₂.Draws s (os ++ [o])) ∨
      p.Finishes s p.side.position os o p₂ := by
  have hcut := not_isCutBy_of_clear hclear t₁
  cases hstroke with
  | cancel hstop =>
    rw [hclear] at hstop
    cases hstop
  | turn hturn hlater =>
    exact .inl ⟨_, k, hahead.turn hturn hlater, (hdraws.sameCourse (hturn.sameCourse hcut)).idle⟩
  | strike hturn hpos hmore hlater =>
    have hdraws := hdraws.sameCourse (hturn.sameCourse hcut)
    exact .inl ⟨_, k + 1, hahead.strike hturn hpos hmore hlater,
      hdraws.stepEvent (hturn.tracks hahead.tracks).unfinished⟩
  | cutShort hturn hpos hdone hint =>
    rw [hturn.interrupted_eq, hcut, hdraws.onLine.carries.uncut] at hint
    cases hint
  | @last t₂ position s' next r es' _ hturn hpos hdone hint hexec' hr honward =>
    have hmore := (hturn.tracks hahead.tracks).unfinished
    have hdraws := hdraws.sameCourse (hturn.sameCourse hcut)
    have hlast := hdraws.stepEvent hmore
    obtain ⟨hposition, hevents⟩ := hahead.last hturn hexec hexec' honward
    have hn : 0 < s.eventCount.toNat := UInt32.lt_iff_toNat_lt.mp (of_decide_eq_true hm)
    have hall : t₂.stepEvent.eventsDone.toNat = s.eventCount.toNat :=
      hlast.onLine.eventsDone_eq hn hdone
    refine .inr ⟨hdraws.hasSteps hmore, ?_, fun a => ?_, es', _, hahead.quiet, hevents⟩
    · rw [← hall]
      refine hlast.drawn hm fun a => ?_
      rw [hposition]
      exact hahead.position_struck hturn hpos a
    · rw [← hlast.pulses_add a, hlast.onLine.carries.remaining_eq_zero hdone]
      rfl

/-- Executing a segment draws its line: as long as it is under execution, the outputs have drawn as
many events as are over, and it is complete with the last one. The only thing that may come in
between is the end of the word of a position, on a way that leads out of it. -/
def DrawsLine (p : Plant n Stepper) (slot : Nat) (s : Segment) (bs : List Beat) : Prop :=
  (p.execute slot s).Until
    (fun _ os p' => ∃ t, p'.side.current = some t ∧ t.slot = slot ∧ t.eventsDone < s.eventCount ∧
      p'.Drawn s p.side.position t.eventsDone.toNat os ∧ (p.execute slot s).Quiet p')
    (fun _ os o p' => (p.execute slot s).Finishes s p.side.position os o p')
    (∃ a, ¬ InWord ((p.side.position.get a).toInt + s.load.displacement a)) bs

/-- From the traversal that a segment is begun with on, every stroke goes on with the line or ends
it. -/
theorem Begins.draws {p : Plant n Stepper} {slot : Nat} {s : Segment} (h : p.Begins slot s)
    (hcount : s.eventCount = Planner.eventCount s.steps) {bs : List Beat}
    (hcalm : ∀ b ∈ bs, b.isCalm = true) :
    ∃ t : Traversal, t.slot = slot ∧ t.Tracks s.load ∧ (p.execute slot s).Until
      (fun _ os p' => ∃ t' k, (p.execute slot s).Ahead t s.load k os p' t' ∧ t'.Draws s os ∧
        p'.stop.isActive = false)
      (fun _ os o p' => (p.execute slot s).Finishes s p.side.position os o p')
      (∃ a, ¬ InWord ((p.side.position.get a).toInt + s.load.displacement a)) bs := by
  obtain ⟨⟨held, q, hpoised⟩, hexec, hm, hclear⟩ := h
  have hsound : s.load.Sound := hcount
  obtain ⟨t, ht, hcourse⟩ : ∃ t, (p.execute slot s).side.current = some t ∧
      (Traversal.ofSegment slot s).SameCourse t := ⟨_, rfl, rfl⟩
  have htracks : t.Tracks s.load := (Traversal.Tracks.ofSegment slot hsound hm).sameCourse hcourse
  have hdraws : t.Draws s [] := (Traversal.Draws.ofSegment slot hsound hm).sameCourse hcourse
  have hslot : t.slot = slot := by rw [hcourse]; rfl
  have hremaining : t.remaining = s.steps := by rw [hcourse]; rfl
  have hcoupled : (p.execute slot s).Coupled held q :=
    ⟨hpoised.holds, hpoised.begun_eq, fun t ht => by cases ht; exact hpoised.slot_eq slot rfl⟩
  have hrun : (p.execute slot s).Until
      (fun _ os p' => ∃ t' k, (p.execute slot s).Ahead t s.load k os p' t' ∧ t'.Draws s os ∧
        p'.stop.isActive = false)
      (fun _ os o p' => (p.execute slot s).Finishes s p.side.position os o p')
      ((p.execute slot s).OutOfReach t) bs := by
    refine .of_stroke hcoupled ht htracks ⟨hdraws, hclear⟩ ?_ ?_
    · -- the other timer changes the speed
      rintro bs₁ b bs₂ os p₁ t₁ k p₂ t₂ rfl hb ⟨hdraws, hclear⟩ hsame hstop -
      have hb' := hcalm b (by simp)
      refine ⟨hdraws.sameCourse hsame, ?_⟩
      cases b with
      | step => exact absurd rfl hb
      | ramp => rwa [hstop]
      | trigger i => cases hb'
      | rearm => cases hb'
    · rintro bs₁ bs₂ os p₁ t₁ k o es p₂ - - hahead ⟨hdraws, hclear⟩ hstroke
      refine (hstroke.draws hahead hdraws hm (hslot ▸ hexec) hclear).imp_left ?_
      rintro ⟨t₂, k', hahead₂, hdraws₂⟩
      exact ⟨t₂, k', hahead₂, hdraws₂, by rwa [hstroke.stop_eq]⟩
  refine ⟨t, hslot, htracks, hrun.mono (fun _ _ _ hduring => hduring)
    (fun _ _ _ _ _ _ _ hfinal => hfinal) ?_⟩
  rintro ⟨a, ha⟩
  refine ⟨a, ?_⟩
  rwa [Traversal.left, hremaining, htracks.directions_eq] at ha

theorem Begins.drawsLine {p : Plant n Stepper} {slot : Nat} {s : Segment} (h : p.Begins slot s)
    (hcount : s.eventCount = Planner.eventCount s.steps) {bs : List Beat}
    (hcalm : ∀ b ∈ bs, b.isCalm = true) : p.DrawsLine slot s bs := by
  obtain ⟨t, hslot, -, hrun⟩ := h.draws hcount hcalm
  refine hrun.mono ?_ (fun _ _ _ _ _ _ _ hfinal => hfinal) id
  rintro bs os p' ⟨t', k, hahead, hdraws, -⟩
  have hlt := Traversal.eventsDone_lt hahead.tracks.unfinished
  rw [show t'.eventCount = s.eventCount from hdraws.onLine.carries.eventCount_eq] at hlt
  exact ⟨t', hahead.current_eq, hahead.slot_eq.trans hslot, hlt,
    hdraws.drawn h.hasMotion hahead.position_eq, hahead.quiet⟩

/-- Whenever a tick announces a segment with as many events as its busiest actuator makes steps, it
goes on with executing the segment, or ends with it. From there on, however fast the segment is
executed, its pulses are those of the line as long as no stop is raised. -/
theorem drawsLine_of_began {good : Segment → Prop} {held : List Nat} {p p' : Plant n Stepper}
    (h : Reachable good held p) {o : StepOutput} (htick : p.tick = .ok (o, p')) {es : List Event}
    (hevents : p'.events.toList = p.events.toList ++ es) {s : Segment} (hs : .began s ∈ es)
    (hcount : s.eventCount = Planner.eventCount s.steps) :
    ∃ (p₀ : Plant n Stepper) (slot : Nat),
      (p.tick = (p₀.execute slot s).tick ∨ p' = p₀.execute slot s) ∧
      ∀ bs : List Beat, (∀ b ∈ bs, b.isCalm = true) → p₀.DrawsLine slot s bs := by
  obtain ⟨q, hq⟩ := h.orderly
  obtain ⟨p₀, slot, hbegins, -, hgoes⟩ := hq.coupled.begins_of_tick htick hevents hs
  exact ⟨p₀, slot, hgoes, fun bs hbs => hbegins.drawsLine hcount hbs⟩

/-- Two actuators, of which one steps at every event and the other at two of three, until their
segment is complete. -/
theorem drawsLine_of_two : ∃ (p : Plant 4 Stepper) (slot : Nat) (s : Segment) (bs : List Beat),
    s.steps = ⟨3, 2, 0⟩ ∧ bs = [.step, .ramp, .step, .step, .ramp, .step] ∧
    p.DrawsLine slot s bs ∧ (p.execute slot s).Over
      (fun _ os o p' => (p.execute slot s).Finishes s p.side.position os o p') bs := by
  obtain ⟨bs, hbs⟩ : ∃ bs : List Beat, bs = [.step, .ramp, .step, .step, .ramp, .step] := ⟨_, rfl⟩
  -- the segment is published in an empty ring, and announced by the next tick
  obtain ⟨p, h, htick⟩ : ∃ p : Plant 4 Stepper, Reachable (fun _ => True) [] p ∧
      (match p.tick with
      | .ok (_, p') => p.events.toList.isEmpty &&
        (p'.announced.map Segment.load == some ⟨⟨3, 2, 0⟩, 3, ⟨2⟩, .empty⟩) &&
        [p, p'].all fun p₁ => (p₁.watch bs).toOption.any fun x => x.2.side.current.isNone
      | .error _ => false) = true := by
    have hring : Ring.new 4 3 = .ok (Ring.ofLen 3 (by decide) (by decide)) := rfl
    have hfresh : Reachable (fun _ => True) [] ⟨_, .clear, #[], ⟨10, 10, none, .const 0⟩⟩ :=
      .fresh hring rfl
    have hwritten := hfresh.work (.write (s := { Segment.empty with
      steps := ⟨3, 2, 0⟩, eventCount := 3, directions := ⟨2⟩, initialRate := 10 }) trivial)
    exact ⟨_, (hwritten.work (.publish rfl)).work (.run rfl), by rw [hbs]; decide +kernel⟩
  split at htick
  · next o p' hok =>
    rw [Bool.and_eq_true, Bool.and_eq_true, List.isEmpty_iff, beq_iff_eq, List.all_eq_true] at htick
    obtain ⟨⟨hnone, hannounced⟩, hidle⟩ := htick
    obtain ⟨s, hs, hload⟩ := Option.map_eq_some_iff.mp hannounced
    obtain ⟨e, he, hbegun⟩ := List.mem_filterMap.mp (List.mem_of_getLast? hs)
    obtain rfl : e = .began s := by cases e <;> simp_all [Event.begun?]
    obtain ⟨hsteps, hcount, -, -⟩ := Load.mk.inj hload
    obtain ⟨p₀, slot, hgoes, hline⟩ := drawsLine_of_began h hok (by rw [hnone]; rfl) he
      (by rw [hsteps, hcount]; rfl)
    have hdraws := hline bs (by rw [hbs]; decide)
    -- the beats are those from the plant before the announcement, or from the one after it
    have hfrom : (p₀.execute slot s).watch bs = p.watch bs ∨ p' = p₀.execute slot s := by
      refine hgoes.imp_left fun hsame => ?_
      rw [hbs, watch, watch, react, react, hsame]
    obtain ⟨os, p₁, hwatch, hnone⟩ : ∃ os p₁, (p₀.execute slot s).watch bs = .ok (os, p₁) ∧
        p₁.side.current.isNone = true := by
      obtain hsame | rfl := hfrom
      · obtain ⟨⟨os, p₁⟩, hrun, hnone⟩ := Fault.exists_eq_ok (hidle p List.mem_cons_self)
        exact ⟨os, p₁, hsame.trans hrun, hnone⟩
      · obtain ⟨⟨os, p₁⟩, hrun, hnone⟩ := Fault.exists_eq_ok
          (hidle _ (List.mem_cons_of_mem _ List.mem_cons_self))
        exact ⟨os, p₁, hrun, hnone⟩
    refine ⟨p₀, slot, s, bs, hsteps, hbs, hdraws, hdraws.ends_of_watch hwatch ?_⟩
    rintro ⟨t, hc, -⟩
    rw [hc] at hnone
    cases hnone
  · cases htick

end Plant

end MotionControl
