import MotionControl.Proofs.Motion.Flow

/-!
# Nothing is lost on the way

The destination of a flow is where the actuators will be when all that is on its way has been
carried out: the position reached, the steps left of the traversal, and the displacements of all
waiting loads. No step of the flow changes it (`Flow.Steps.destination_eq`).

This needs every traversal to carry its load out, which `Flow.Sound` says; and that the position
never leaves its word, which follows from where the loads lead in between (`Flow.Bounded`).
-/

namespace MotionControl.Flow

/-- How far some loads move an actuator altogether. -/
def ahead : List Load → Axis → Int
  | [], _ => 0
  | l :: ls, a => l.displacement a + ahead ls a

/-- The signed steps left of the traversal under execution. -/
def underway (f : Flow) (a : Axis) : Int :=
  match f.current with
  | some (t, _) => t.left a
  | none => 0

/-- Where an actuator will be when all loads have been carried out. -/
def destination (f : Flow) (a : Axis) : Int :=
  (f.position.get a).toInt + f.underway a + ahead f.waiting a

@[simp] theorem ahead_nil (a : Axis) : ahead [] a = 0 := rfl

@[simp] theorem ahead_cons (l : Load) (ls : List Load) (a : Axis) :
    ahead (l :: ls) a = l.displacement a + ahead ls a := rfl

theorem ahead_append (ls ls' : List Load) (a : Axis) :
    ahead (ls ++ ls') a = ahead ls a + ahead ls' a := by
  induction ls with
  | nil => rw [List.nil_append, ahead_nil, Int.zero_add]
  | cons l ls ih => rw [List.cons_append, ahead_cons, ih, ahead_cons, Int.add_assoc]

theorem underway_of_none {f : Flow} (h : f.current = none) (a : Axis) : f.underway a = 0 := by
  rw [underway, h]

theorem underway_of_some {f : Flow} {t : Traversal} {l : Load} (h : f.current = some (t, l))
    (a : Axis) : f.underway a = t.left a := by
  rw [underway, h]

/-- Loads and traversals are as the planner and the stepper make them. -/
structure Sound (f : Flow) : Prop where
  /-- every waiting load has enough events for its steps -/
  waiting : ∀ l ∈ f.waiting, l.Sound
  /-- the traversal carries its load out -/
  carries : ∀ t l, f.current = some (t, l) → t.Carries l
  /-- the traversal has something left to do -/
  unfinished : ∀ t l, f.current = some (t, l) → t.isComplete = false

/-- The ways of all loads end at positions. -/
def Bounded (f : Flow) : Prop :=
  ∀ a k, InWord ((f.position.get a).toInt + f.underway a + ahead (f.waiting.take k) a)

theorem left_of_sameCourse {t t' : Traversal} (h : t.SameCourse t') (a : Axis) :
    t'.left a = t.left a := by
  rw [h]
  rfl

/-- A fresh traversal has all steps of its load left. -/
theorem left_ofSegment (slot : Nat) (s : Segment) (a : Axis) :
    (Traversal.ofSegment slot s).left a = s.load.displacement a := rfl

/-- A step event brings the position as much closer as the steps left get fewer. -/
theorem Moves.balance {f : Flow} {t : Traversal} {position : PerAxis Int32}
    (h : f.Moves t position) (a : Axis) :
    (position.get a).toInt + t.stepEvent.left a = (f.position.get a).toInt + t.left a := by
  have hleft := t.left_stepEvent a
  rw [h a]
  omega

/-- When the last event of a load is over, none of its steps is left. -/
theorem left_eq_zero_of_last {t : Traversal} {l : Load} (h : t.Carries l)
    (hc : t.isComplete = false) (hdone : t.stepEvent.isComplete = true) (a : Axis) :
    t.stepEvent.left a = 0 := by
  unfold Traversal.left
  rw [(h.stepEvent hc).remaining_eq_zero hdone a]
  exact Directions.signed_zero _ _

variable {f g : Flow} {hs : List Happening}

theorem Sound.step (h : f.Sound) (hstep : Step f hs g) : g.Sound := by
  cases hstep with
  | @start s rest slot t rate nominal hc hw hm ht =>
    have hwaiting := h.waiting
    rw [hw] at hwaiting
    have hs := hwaiting _ List.mem_cons_self
    refine ⟨fun l hl => hwaiting l (List.mem_cons_of_mem _ hl), ?_, ?_⟩
    · rintro t' l' ⟨⟩
      exact (Traversal.Carries.ofSegment slot hs).sameCourse ht
    · rintro t' l' ⟨⟩
      rw [ht]
      exact Traversal.not_isComplete_ofSegment slot hs hm
  | @pass s rest hc hw hm =>
    have hwaiting := h.waiting
    rw [hw] at hwaiting
    exact ⟨fun l hl => hwaiting l (List.mem_cons_of_mem _ hl), h.carries, h.unfinished⟩
  | @turn t t' l hc ht =>
    refine ⟨h.waiting, ?_, ?_⟩
    · rintro t'' l' ⟨⟩
      exact (h.carries t l hc).sameCourse ht
    · rintro t'' l' ⟨⟩
      rw [ht]
      exact h.unfinished t l hc
  | @ramp t t' l rate nominal hc ht =>
    refine ⟨h.waiting, ?_, ?_⟩
    · rintro t'' l' ⟨⟩
      exact (h.carries t l hc).sameCourse ht
    · rintro t'' l' ⟨⟩
      rw [ht]
      exact h.unfinished t l hc
  | @strike t l position hc hp hmore =>
    refine ⟨h.waiting, ?_, ?_⟩
    · rintro t' l' ⟨⟩
      exact (h.carries t l hc).stepEvent (h.unfinished t l hc)
    · rintro t' l' ⟨⟩
      exact hmore
  | @last t s position hc hp hdone =>
    refine ⟨h.waiting, ?_, ?_⟩
    · rintro t' l' ⟨⟩
    · rintro t' l' ⟨⟩

/-- What a step takes off the waiting loads it puts under way or has no way to go, and what it
takes off the way it adds to the position. -/
theorem Step.balance (hstep : Step f hs g) (hf : f.Sound) :
    ∃ started, f.waiting = started ++ g.waiting ∧
      ∀ a, (g.position.get a).toInt + g.underway a =
        (f.position.get a).toInt + f.underway a + ahead started a := by
  cases hstep with
  | @start s rest slot t rate nominal hc hw hm ht =>
    refine ⟨[s.load], hw, fun a => ?_⟩
    rw [underway_of_none hc, ahead_cons, ahead_nil]
    change (f.position.get a).toInt + t.left a = _
    rw [left_of_sameCourse ht, left_ofSegment]
    omega
  | @pass s rest hc hw hm =>
    have hs : s.load.Sound := hf.waiting _ (by rw [hw]; exact List.mem_cons_self)
    refine ⟨[s.load], hw, fun a => ?_⟩
    rw [ahead_cons, ahead_nil, hs.displacement_eq_zero hm a]
    change (f.position.get a).toInt + f.underway a = _
    omega
  | @turn t t' l hc ht =>
    refine ⟨[], rfl, fun a => ?_⟩
    rw [underway_of_some hc, ahead_nil, ← left_of_sameCourse ht, Int.add_zero]
    rfl
  | @ramp t t' l rate nominal hc ht =>
    refine ⟨[], rfl, fun a => ?_⟩
    rw [underway_of_some hc, ahead_nil, ← left_of_sameCourse ht, Int.add_zero]
    rfl
  | @strike t l position hc hp hmore =>
    refine ⟨[], rfl, fun a => ?_⟩
    rw [underway_of_some hc, ahead_nil, ← hp.balance a, Int.add_zero]
    rfl
  | @last t s position hc hp hdone =>
    refine ⟨[], rfl, fun a => ?_⟩
    have hzero := left_eq_zero_of_last (hf.carries t _ hc) (hf.unfinished t _ hc) hdone a
    rw [underway_of_some hc, ahead_nil, ← hp.balance a, hzero, Int.add_zero]
    rfl

theorem Step.destination_eq (hstep : Step f hs g) (hf : f.Sound) (a : Axis) :
    g.destination a = f.destination a := by
  obtain ⟨started, hw, hbalance⟩ := hstep.balance hf
  rw [destination, destination, hbalance a, hw, ahead_append]
  omega

theorem Bounded.step (h : f.Bounded) (hf : f.Sound) (hstep : Step f hs g) : g.Bounded := by
  obtain ⟨started, hw, hbalance⟩ := hstep.balance hf
  -- the way to `k` loads after the step is the way to as many behind those that have started
  intro a k
  have hin := h a (started.length + k)
  rw [hw, List.take_length_add_append, ahead_append] at hin
  rw [hbalance a]
  have heq : (f.position.get a).toInt + f.underway a + ahead started a +
      ahead (g.waiting.take k) a = (f.position.get a).toInt + f.underway a +
        (ahead started a + ahead (g.waiting.take k) a) := Int.add_assoc _ _ _
  rw [heq]
  exact hin

/-- A position between two positions is one. -/
theorem Bounded.canStrike (h : f.Bounded) : f.CanStrike := by
  intro t l hc a
  have hend := h a 0
  rw [underway_of_some hc, List.take_zero, ahead_nil, Int.add_zero] at hend
  have hstart := inWord_toInt (f.position.get a)
  unfold InWord at hstart hend ⊢
  -- the step lies between where it starts and where the traversal ends
  rcases t.maskedStep_between a with ⟨h₁, h₂⟩ | ⟨h₁, h₂⟩
  · exact ⟨by omega, by omega⟩
  · exact ⟨by omega, by omega⟩

theorem Steps.sound (h : Steps f hs g) (hf : f.Sound) : g.Sound := by
  induction h with
  | refl => exact hf
  | cons first _ ih => exact ih (hf.step first)

theorem Steps.bounded (h : Steps f hs g) (hf : f.Sound) (hb : f.Bounded) : g.Bounded := by
  induction h with
  | refl => exact hb
  | cons first _ ih => exact ih (hf.step first) (hb.step hf first)

/-- Whatever the interrupt does, the destination stays where it is. -/
theorem Steps.destination_eq (h : Steps f hs g) (hf : f.Sound) (a : Axis) :
    g.destination a = f.destination a := by
  induction h with
  | refl => rfl
  | cons first _ ih => rw [ih (hf.step first), first.destination_eq hf a]

end MotionControl.Flow
