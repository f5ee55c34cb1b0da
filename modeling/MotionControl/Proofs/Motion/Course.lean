import MotionControl.Stepper.Basic
import MotionControl.Proofs.Motion.Load

/-!
# Every actuator arrives

A traversal spreads the steps of a load over its step events by Bresenham's rule. The invariant
`Traversal.Carries` says how the counter of an actuator follows from the events and steps so far,
and that it is never positive between events. Once all events are over this leaves no room for a
step still to be made (`Traversal.Carries.remaining_eq_zero`): every actuator makes exactly its
steps, whatever the numbers are.
-/

namespace MotionControl

/-- A whole number is a position. -/
def InWord (k : Int) : Prop := Int32.minValue.toInt ≤ k ∧ k ≤ Int32.maxValue.toInt

theorem inWord_toInt (k : Int32) : InWord k.toInt :=
  ⟨Int32.minValue_le_toInt k, Int32.toInt_le k⟩

namespace Directions

theorem signed_succ (d : Directions) (a : Axis) (count : Nat) :
    d.signed a (count + 1) = d.signed a count + d.signed a 1 := by
  unfold signed
  split <;> omega

@[simp] theorem signed_zero (d : Directions) (a : Axis) : d.signed a 0 = 0 := by
  unfold signed
  split <;> rfl

theorem signed_inj (d : Directions) (a : Axis) {j k : Nat} :
    d.signed a j = d.signed a k ↔ j = k := by
  unfold signed
  split <;> omega

end Directions

/-! ## Positions -/

namespace Stepper

theorem toInt_eq_of_inWord {k : Int32} {x : Int} (hk : k.toInt = x.bmod Int32.size)
    (hx : InWord x) : k.toInt = x := by
  obtain ⟨hmin, hmax⟩ := hx
  have h₁ : Int32.minValue.toInt = -2147483648 := rfl
  have h₂ : Int32.maxValue.toInt = 2147483647 := rfl
  have hsize : (Int32.size : Int) = 4294967296 := rfl
  rw [hk]
  apply Int.bmod_eq_of_le <;> omega

theorem stepPosition_eq_ok {position : Int32} {d : Directions} {a : Axis}
    (h : InWord (position.toInt + d.signed a 1)) :
    ∃ position', stepPosition position (d.isNegative a.index) = .ok position' ∧
      position'.toInt = position.toInt + d.signed a 1 := by
  unfold stepPosition
  unfold Directions.signed at h ⊢
  split
  · next hneg =>
    rw [if_pos hneg] at h
    have hne : position ≠ Int32.minValue := by
      rintro rfl
      have := h.1
      omega
    refine ⟨position - 1, if_neg hne, toInt_eq_of_inWord ?_ h⟩
    rw [Int32.toInt_sub]
    rfl
  · next hpos =>
    rw [if_neg hpos] at h
    have hne : position ≠ Int32.maxValue := by
      rintro rfl
      have := h.2
      omega
    refine ⟨position + 1, if_neg hne, toInt_eq_of_inWord ?_ h⟩
    rw [Int32.toInt_add]
    rfl

/-- The step that a mask asks an actuator to make. -/
def maskedStep (mask : UInt8) (d : Directions) (a : Axis) : Int :=
  if a.isIn mask then d.signed a 1 else 0

/-- The part of `movePosition` that is about one actuator. -/
def moveAxis (mask : UInt8) (d : Directions) (position : PerAxis Int32) (a : Axis) :
    Except Fault (PerAxis Int32) :=
  if a.isIn mask then do
    return position.set a (← stepPosition (position.get a) (d.isNegative a.index))
  else .ok position

theorem moveAxis_eq_ok {position : PerAxis Int32} {mask : UInt8} {d : Directions} {b : Axis}
    (h : InWord ((position.get b).toInt + maskedStep mask d b)) :
    ∃ position', moveAxis mask d position b = .ok position' ∧ ∀ a,
      (position'.get a).toInt =
        (position.get a).toInt + if a = b then maskedStep mask d b else 0 := by
  unfold maskedStep at h ⊢
  unfold moveAxis
  by_cases hm : b.isIn mask = true
  · rw [if_pos hm] at h
    obtain ⟨x, hx, hxInt⟩ := stepPosition_eq_ok h
    refine ⟨position.set b x, by rw [if_pos hm, hx]; rfl, ?_⟩
    intro a
    rw [PerAxis.get_set, if_pos hm]
    by_cases hab : b = a
    · subst hab
      rw [if_pos rfl, if_pos rfl, hxInt]
    · rw [if_neg hab, if_neg (Ne.symm hab), Int.add_zero]
  · refine ⟨position, by rw [if_neg hm], ?_⟩
    intro a
    rw [if_neg hm, ite_self, Int.add_zero]

theorem moveAxes_eq_ok {mask : UInt8} {d : Directions} {as : List Axis} (hnodup : as.Nodup)
    {position : PerAxis Int32}
    (h : ∀ a ∈ as, InWord ((position.get a).toInt + maskedStep mask d a)) :
    ∃ position', as.foldlM (moveAxis mask d) position = .ok position' ∧ ∀ a,
      (position'.get a).toInt =
        (position.get a).toInt + if a ∈ as then maskedStep mask d a else 0 := by
  induction as generalizing position with
  | nil => exact ⟨position, rfl, fun a => by simp⟩
  | cons b as ih =>
    obtain ⟨hb, hnodup⟩ := List.nodup_cons.mp hnodup
    -- the first actuator moves, and is not touched again
    obtain ⟨position₁, hok₁, hpos₁⟩ := moveAxis_eq_ok (h b List.mem_cons_self)
    have h₁ : ∀ a ∈ as, InWord ((position₁.get a).toInt + maskedStep mask d a) := by
      intro a ha
      have hab : a ≠ b := fun hab => hb (hab ▸ ha)
      rw [hpos₁, if_neg hab, Int.add_zero]
      exact h a (List.mem_cons_of_mem _ ha)
    obtain ⟨position₂, hok₂, hpos₂⟩ := ih hnodup h₁
    refine ⟨position₂, by rw [List.foldlM_cons, hok₁]; exact hok₂, fun a => ?_⟩
    rw [hpos₂, hpos₁]
    by_cases hab : a = b
    · subst hab
      simp [hb]
    · simp [hab]

/-- A move of all actuators succeeds if none of them leaves its word. -/
theorem movePosition_eq_ok {position : PerAxis Int32} {mask : UInt8} {d : Directions}
    (h : ∀ a, InWord ((position.get a).toInt + maskedStep mask d a)) :
    ∃ position', movePosition position mask d = .ok position' ∧
      ∀ a, (position'.get a).toInt = (position.get a).toInt + maskedStep mask d a := by
  have hnodup : Axis.all.Nodup := by decide
  obtain ⟨position', hok, hpos⟩ := moveAxes_eq_ok hnodup fun a _ => h a
  refine ⟨position', hok, fun a => ?_⟩
  rw [hpos, if_pos (Axis.mem_all a)]

theorem stepPosition_eq_error {position : Int32} {d : Directions} {a : Axis}
    (h : ¬ InWord (position.toInt + d.signed a 1)) :
    stepPosition position (d.isNegative a.index) = .error .addOverflow := by
  obtain ⟨hmin, hmax⟩ := inWord_toInt position
  unfold stepPosition
  unfold InWord Directions.signed at h
  split
  · next hneg =>
    rw [if_pos hneg] at h
    rw [if_pos (Int32.toInt_inj.mp (by omega))]
  · next hpos =>
    rw [if_neg hpos] at h
    rw [if_pos (Int32.toInt_inj.mp (by omega))]

theorem moveAxis_eq_error {position : PerAxis Int32} {mask : UInt8} {d : Directions} {b : Axis}
    (h : ¬ InWord ((position.get b).toInt + maskedStep mask d b)) :
    moveAxis mask d position b = .error .addOverflow := by
  unfold maskedStep at h
  split at h
  · next hm =>
    rw [moveAxis, if_pos hm, stepPosition_eq_error h]
    rfl
  · rw [Int.add_zero] at h
    exact absurd (inWord_toInt _) h

theorem moveAxes_eq_error {mask : UInt8} {d : Directions} {as : List Axis} (hnodup : as.Nodup)
    {position : PerAxis Int32} {a : Axis} (ha : a ∈ as)
    (h : ¬ InWord ((position.get a).toInt + maskedStep mask d a)) :
    as.foldlM (moveAxis mask d) position = .error .addOverflow := by
  induction as generalizing position with
  | nil => cases ha
  | cons b as ih =>
    obtain ⟨hb, hnodup⟩ := List.nodup_cons.mp hnodup
    rw [List.foldlM_cons]
    by_cases hin : InWord ((position.get b).toInt + maskedStep mask d b)
    · -- the first actuator moves, so that it is another one that cannot
      have hab : a ≠ b := by
        rintro rfl
        exact h hin
      obtain ⟨position₁, hok₁, hpos₁⟩ := moveAxis_eq_ok hin
      have h₁ : ¬ InWord ((position₁.get a).toInt + maskedStep mask d a) := by
        rwa [hpos₁, if_neg hab, Int.add_zero]
      rw [hok₁]
      exact ih hnodup ((List.mem_cons.mp ha).resolve_left hab) h₁
    · rw [moveAxis_eq_error hin]
      rfl

/-- A move of all actuators fails only if one of them leaves its word. -/
theorem movePosition_cases (position : PerAxis Int32) (mask : UInt8) (d : Directions) :
    (∃ position', movePosition position mask d = .ok position' ∧
      ∀ a, (position'.get a).toInt = (position.get a).toInt + maskedStep mask d a) ∨
    (movePosition position mask d = .error .addOverflow ∧
      ∃ a, ¬ InWord ((position.get a).toInt + maskedStep mask d a)) := by
  by_cases h : ∀ a, InWord ((position.get a).toInt + maskedStep mask d a)
  · exact .inl (movePosition_eq_ok h)
  · obtain ⟨a, ha⟩ := Classical.not_forall.mp h
    have hnodup : Axis.all.Nodup := by decide
    exact .inr ⟨moveAxes_eq_error hnodup (Axis.mem_all a) ha, a, ha⟩

/-- A move makes the steps of its mask. -/
theorem toInt_movePosition {position position' : PerAxis Int32} {mask : UInt8} {d : Directions}
    (h : movePosition position mask d = .ok position') (a : Axis) :
    (position'.get a).toInt = (position.get a).toInt + maskedStep mask d a := by
  obtain ⟨position₁, hok, hmoved⟩ | ⟨herr, -⟩ := movePosition_cases position mask d
  · rw [h] at hok
    cases hok
    exact hmoved a
  · rw [h] at herr
    cases herr

end Stepper

/-! ## Traversals -/

namespace Axis

/-- The mask of a choice of actuators. -/
def maskOf (f : Axis → Bool) : UInt8 :=
  all.foldl (fun mask a => if f a then mask ||| a.bit else mask) 0

theorem isIn_maskOf (f : Axis → Bool) (a : Axis) : a.isIn (maskOf f) = f a := by
  simp only [maskOf, all, List.foldl_cons, List.foldl_nil]
  cases hx : f .alpha <;> cases hy : f .beta <;> cases hz : f .gamma <;> cases a <;>
    simp only [hx, hy, hz] <;> decide

end Axis

namespace Traversal

/-- The same traversal at another speed or at another phase between two events. -/
def SameCourse (t t' : Traversal) : Prop :=
  t' = { t with rate := t'.rate, increment := t'.increment, phase := t'.phase }

theorem SameCourse.refl (t : Traversal) : t.SameCourse t := rfl

theorem SameCourse.trans {t t' t'' : Traversal} (h : t.SameCourse t') (h' : t'.SameCourse t'') :
    t.SameCourse t'' := by
  unfold SameCourse at h h' ⊢
  rw [h', h]

/-- The steps of an actuator that are still to be made, counted in the direction of the move. -/
def left (t : Traversal) (a : Axis) : Int := t.directions.signed a (t.remaining.get a).toNat

theorem isIn_nextMask (t : Traversal) (a : Axis) : a.isIn t.nextMask = t.stepsNext a :=
  Axis.isIn_maskOf t.stepsNext a

theorem remaining_of_stepsNext {t : Traversal} {a : Axis} (h : t.stepsNext a = true) :
    (t.remaining.get a - 1).toNat + 1 = (t.remaining.get a).toNat := by
  simp only [stepsNext, Bool.and_eq_true, bne_iff_ne] at h
  have hpos : (t.remaining.get a).toNat ≠ 0 := fun hz => h.1 (UInt32.toNat.inj hz)
  rw [UInt32.toNat_sub_of_le]
  · change (t.remaining.get a).toNat - 1 + 1 = _
    omega
  · rw [UInt32.le_iff_toNat_le]
    change 1 ≤ _
    omega

/-- A step event makes the steps of its mask, and no others. -/
theorem left_stepEvent (t : Traversal) (a : Axis) :
    t.stepEvent.left a + Stepper.maskedStep t.nextMask t.directions a = t.left a := by
  unfold left Stepper.maskedStep
  rw [isIn_nextMask]
  simp only [stepEvent, PerAxis.get_ofFn]
  by_cases hs : t.stepsNext a = true
  · have hsucc := t.directions.signed_succ a (t.remaining.get a - 1).toNat
    rw [remaining_of_stepsNext hs] at hsucc
    rw [if_pos hs, if_pos hs, hsucc]
  · rw [if_neg hs, if_neg hs, Int.add_zero]

/-- A step goes towards the end of the way that is left, and not beyond it. -/
theorem maskedStep_between (t : Traversal) (a : Axis) :
    (0 ≤ Stepper.maskedStep t.nextMask t.directions a ∧
      Stepper.maskedStep t.nextMask t.directions a ≤ t.left a) ∨
    (t.left a ≤ Stepper.maskedStep t.nextMask t.directions a ∧
      Stepper.maskedStep t.nextMask t.directions a ≤ 0) := by
  unfold Stepper.maskedStep left Directions.signed
  rw [isIn_nextMask]
  by_cases hs : t.stepsNext a = true
  · have hpos := remaining_of_stepsNext hs
    rw [if_pos hs]
    split <;> omega
  · rw [if_neg hs]
    split <;> omega

/-- A traversal carries a load out: what it has done so far agrees with Bresenham's rule. -/
structure Carries (t : Traversal) (l : Load) : Prop where
  /-- it has the steps of the load -/
  steps_eq : t.steps = l.steps
  /-- it has the events of the load -/
  eventCount_eq : t.eventCount = l.eventCount
  /-- it goes where the load goes -/
  directions_eq : t.directions = l.directions
  /-- the load has enough events for its steps -/
  sound : l.Sound
  /-- no stop has cut it -/
  uncut : t.interrupted = false
  /-- no more events are over than there are -/
  events_le : t.eventsDone.toNat ≤ t.eventCount.toNat
  /-- no more steps are left than there were -/
  remaining_le : ∀ a, (t.remaining.get a).toNat ≤ (t.steps.get a).toNat
  /-- a counter is not positive between events -/
  counter_le : ∀ a, t.remaining.get a ≠ 0 → t.counters.get a ≤ 0
  /-- a counter has gained its steps at every event, and lost all events at every step -/
  counter_eq : ∀ a, t.remaining.get a ≠ 0 →
    t.counters.get a + (t.eventCount.toNat / 2 : Nat) +
        ((t.steps.get a).toNat * t.eventCount.toNat : Nat) =
      (t.eventsDone.toNat * (t.steps.get a).toNat : Nat) +
        ((t.remaining.get a).toNat * t.eventCount.toNat : Nat)

theorem not_isComplete_iff (t : Traversal) : t.isComplete = false ↔
    t.eventsDone.toNat < t.eventCount.toNat ∧ ∃ a, t.remaining.get a ≠ 0 := by
  unfold isComplete
  rw [Bool.or_eq_false_iff, decide_eq_false_iff_not, UInt32.le_iff_toNat_le, Nat.not_le,
    PerAxis.toList_eq_map_get, List.all_map, List.all_eq_false]
  refine and_congr_right fun _ => ⟨?_, ?_⟩
  · rintro ⟨a, -, ha⟩
    exact ⟨a, fun h => ha (by simp [h])⟩
  · rintro ⟨a, ha⟩
    exact ⟨a, Axis.mem_all a, by simpa using ha⟩

theorem eventsDone_lt {t : Traversal} (hc : t.isComplete = false) : t.eventsDone < t.eventCount :=
  UInt32.lt_iff_toNat_lt.mpr (t.not_isComplete_iff.mp hc).1

/-- The count of events does not leave its word, since it is below another count. -/
theorem eventsDone_stepEvent_of_lt {t : Traversal} (hlt : t.eventsDone < t.eventCount) :
    t.stepEvent.eventsDone.toNat = t.eventsDone.toNat + 1 := by
  have hcount := UInt32.toNat_lt t.eventCount
  rw [stepEvent, UInt32.toNat_add]
  exact Nat.mod_eq_of_lt (Nat.lt_of_le_of_lt (UInt32.lt_iff_toNat_lt.mp hlt) hcount)

theorem eventsDone_stepEvent {t : Traversal} (hc : t.isComplete = false) :
    t.stepEvent.eventsDone.toNat = t.eventsDone.toNat + 1 :=
  eventsDone_stepEvent_of_lt (eventsDone_lt hc)

namespace Carries

variable {t t' : Traversal} {l : Load}

theorem sameCourse (h : t.Carries l) (ht : t.SameCourse t') : t'.Carries l := by
  rw [ht]
  exact ⟨h.steps_eq, h.eventCount_eq, h.directions_eq, h.sound, h.uncut, h.events_le,
    h.remaining_le, h.counter_le, h.counter_eq⟩

theorem ofSegment (slot : Nat) {s : Segment} (h : s.load.Sound) :
    (Traversal.ofSegment slot s).Carries s.load where
  steps_eq := rfl
  eventCount_eq := rfl
  directions_eq := rfl
  sound := h
  uncut := rfl
  events_le := Nat.zero_le _
  remaining_le _ := Nat.le_refl _
  counter_le a _ := by
    simp only [Traversal.ofSegment, PerAxis.get_const]
    omega
  counter_eq a _ := by
    simp only [Traversal.ofSegment, PerAxis.get_const, UInt32.toNat_zero, Nat.zero_mul]
    omega

/-- An actuator with steps left after an event had steps left before, and either steps at that
event or gathers towards its next step. -/
theorem stepEvent_cases {a : Axis} (ha : t.stepEvent.remaining.get a ≠ 0) :
    t.remaining.get a ≠ 0 ∧
      (t.stepsNext a = true ∧ 0 < t.counters.get a + (t.steps.get a).toNat ∧
        t.stepEvent.remaining.get a = t.remaining.get a - 1 ∧
        t.stepEvent.counters.get a =
          t.counters.get a + (t.steps.get a).toNat - t.eventCount.toNat ∨
      ¬ 0 < t.counters.get a + (t.steps.get a).toNat ∧
        t.stepEvent.remaining.get a = t.remaining.get a ∧
        t.stepEvent.counters.get a = t.counters.get a + (t.steps.get a).toNat) := by
  simp only [Traversal.stepEvent, PerAxis.get_ofFn] at ha ⊢
  by_cases hs : t.stepsNext a = true
  · have hs' := hs
    simp only [stepsNext, Bool.and_eq_true, bne_iff_ne, decide_eq_true_iff] at hs'
    rw [if_pos hs, if_neg hs'.1, if_pos hs]
    exact ⟨hs'.1, .inl ⟨hs, hs'.2, rfl, rfl⟩⟩
  · rw [if_neg hs] at ha
    rw [if_neg hs, if_neg ha, if_neg hs]
    refine ⟨ha, .inr ⟨fun hpos => hs ?_, rfl, rfl⟩⟩
    simp only [stepsNext, Bool.and_eq_true, bne_iff_ne, decide_eq_true_iff]
    exact ⟨ha, hpos⟩

theorem stepEvent (h : t.Carries l) (hc : t.isComplete = false) : t.stepEvent.Carries l := by
  obtain ⟨hlt, -⟩ := t.not_isComplete_iff.mp hc
  have hsteps := h.sound.steps_le
  rw [← h.steps_eq, ← h.eventCount_eq] at hsteps
  have hdone : (t.eventsDone + 1).toNat = t.eventsDone.toNat + 1 := eventsDone_stepEvent hc
  exact {
    steps_eq := h.steps_eq
    eventCount_eq := h.eventCount_eq
    directions_eq := h.directions_eq
    sound := h.sound
    uncut := h.uncut
    events_le := by
      change (t.eventsDone + 1).toNat ≤ t.eventCount.toNat
      omega
    remaining_le := fun a => by
      have hle := h.remaining_le a
      simp only [Traversal.stepEvent, PerAxis.get_ofFn]
      split
      · next hs =>
        have := remaining_of_stepsNext hs
        omega
      · exact hle
    counter_le := fun a ha => by
      obtain ⟨hne, ⟨-, -, -, hc⟩ | ⟨hpos, -, hc⟩⟩ := stepEvent_cases ha
      · have := h.counter_le a hne
        have := hsteps a
        omega
      · omega
    counter_eq := fun a ha => by
      obtain ⟨hne, hcase⟩ := stepEvent_cases ha
      have heq := h.counter_eq a hne
      have hgain : (t.eventsDone + 1).toNat * (t.steps.get a).toNat =
          t.eventsDone.toNat * (t.steps.get a).toNat + (t.steps.get a).toNat := by
        rw [hdone, Nat.succ_mul]
      change t.stepEvent.counters.get a + (t.eventCount.toNat / 2 : Nat) +
        ((t.steps.get a).toNat * t.eventCount.toNat : Nat) =
          ((t.eventsDone + 1).toNat * (t.steps.get a).toNat : Nat) +
            ((t.stepEvent.remaining.get a).toNat * t.eventCount.toNat : Nat)
      obtain ⟨hs, -, hr, hc⟩ | ⟨-, hr, hc⟩ := hcase
      · have hloss : (t.remaining.get a).toNat * t.eventCount.toNat =
            (t.remaining.get a - 1).toNat * t.eventCount.toNat + t.eventCount.toNat := by
          rw [← remaining_of_stepsNext hs, Nat.succ_mul]
        rw [hr, hc, hgain]
        rw [hloss] at heq
        omega
      · rw [hr, hc, hgain]
        omega }

/-- When all events are over, no steps are left. -/
theorem remaining_eq_zero (h : t.Carries l) (hc : t.isComplete = true) (a : Axis) :
    t.remaining.get a = 0 := by
  apply Classical.byContradiction
  intro hne
  have hover : ¬ t.eventsDone.toNat < t.eventCount.toNat := by
    intro hlt
    have := t.not_isComplete_iff.mpr ⟨hlt, a, hne⟩
    rw [hc] at this
    cases this
  have hall : t.eventsDone.toNat = t.eventCount.toNat := by
    have := h.events_le
    omega
  have hle := h.counter_le a hne
  have heq := h.counter_eq a hne
  rw [hall, Nat.mul_comm t.eventCount.toNat] at heq
  -- the steps left would have to fit into half an event
  have hpos : 0 < (t.remaining.get a).toNat :=
    Nat.pos_of_ne_zero fun hz => hne (UInt32.toNat.inj hz)
  have hfit : t.eventCount.toNat ≤ (t.remaining.get a).toNat * t.eventCount.toNat :=
    Nat.le_mul_of_pos_left _ hpos
  have hcount : (t.remaining.get a).toNat ≤ t.eventCount.toNat := by
    have h₁ := h.remaining_le a
    have h₂ := h.sound.steps_le a
    rw [← h.steps_eq, ← h.eventCount_eq] at h₂
    omega
  omega

end Carries

/-- A load with motion is not over before it has begun. -/
theorem not_isComplete_ofSegment (slot : Nat) {s : Segment} (h : s.load.Sound)
    (hm : s.hasMotion = true) : (Traversal.ofSegment slot s).isComplete = false := by
  have hpos : 0 < s.eventCount.toNat := UInt32.lt_iff_toNat_lt.mp (of_decide_eq_true hm)
  refine (not_isComplete_iff _).mpr ⟨hpos, ?_⟩
  obtain ⟨a, ha⟩ := Load.exists_eq_eventCount s.steps
  refine ⟨a, fun hzero => ?_⟩
  have hcount : s.eventCount = 0 := h.trans (ha.symm.trans hzero)
  rw [hcount] at hpos
  exact Nat.lt_irrefl 0 hpos

end Traversal

end MotionControl
