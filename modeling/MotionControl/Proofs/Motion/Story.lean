import MotionControl.Proofs.Motion.Balance

/-!
# The story an observer tells

An observer who sees events and pulses can tell which moves have begun, which have made their last
step and which commands have run, and in which order. `Story.ofLog` is this observer. Begins and
commands are events; that a move is done is seen from the pulses alone, by counting them.

The story so far, followed by what the flow still has in store (`Flow.outstanding`), does not
change: no step adds, drops or reorders anything (`Flow.Steps.told`).
-/

namespace MotionControl

/-- How far a load moves every actuator, in steps. -/
def Load.way (l : Load) : PerAxis Int := .ofFn l.displacement

/-- The step of every actuator in a pulse. -/
def StepOutput.way (o : StepOutput) : PerAxis Int :=
  .ofFn fun a => Stepper.maskedStep o.step o.directions a

/-- What becomes of moves and commands. -/
inductive Entry where
  /-- a move of so many steps has begun -/
  | begun (way : PerAxis Int)
  /-- the move has made its last step -/
  | done (way : PerAxis Int)
  /-- a command has run -/
  | ran (c : Command)
  deriving DecidableEq

/-- What an observer has understood so far. -/
structure Story where
  /-- what has become of moves and commands, oldest first -/
  entries : List Entry
  /-- how far the move under way goes, and how far it has come -/
  underway : Option (PerAxis Int × PerAxis Int)

namespace Story

/-- Understand one more happening. -/
def tell (story : Story) : Happening → Story
  | .event (.began s) =>
    ⟨story.entries ++ [.begun s.load.way], some (s.load.way, .const 0)⟩
  | .event (.commandDue c) => { story with entries := story.entries ++ [.ran c] }
  | .event _ => story
  | .pulse o =>
    match story.underway with
    | some (way, made) =>
      let made : PerAxis Int := .ofFn fun a => made.get a + o.way.get a
      if made = way then ⟨story.entries ++ [.done way], none⟩
      else ⟨story.entries, some (way, made)⟩
    | none => story

/-- The story told of some happenings, oldest first. -/
def ofLog (hs : List Happening) : Story := hs.foldl tell ⟨[], none⟩

/-- The commands of a segment that is over run in their order. -/
theorem foldl_completion (story : Story) (s : Segment) :
    (s.completion.map .event).foldl tell story =
      { story with entries := story.entries ++ s.commands.toList.map .ran } := by
  have hcommands : ∀ (cs : List Command) (story : Story),
      ((cs.map Event.commandDue).map Happening.event).foldl tell story =
        { story with entries := story.entries ++ cs.map .ran } := by
    intro cs
    induction cs with
    | nil => intro story; simp
    | cons c cs ih =>
      intro story
      rw [List.map_cons, List.map_cons, List.foldl_cons, ih]
      simp [tell]
  rw [Segment.completion, List.map_append, List.foldl_append, hcommands]
  rfl

/-- A pulse brings the move under way so many steps further, and ends it when it is there. -/
theorem foldl_happenings {story : Story} {way made : PerAxis Int}
    (hu : story.underway = some (way, made)) (hne : made ≠ way) (o : StepOutput) :
    o.happenings.foldl tell story =
      if (PerAxis.ofFn fun a => made.get a + o.way.get a) = way then
        ⟨story.entries ++ [.done way], none⟩
      else ⟨story.entries, some (way, .ofFn fun a => made.get a + o.way.get a)⟩ := by
  unfold StepOutput.happenings
  split
  · rw [List.foldl_cons, List.foldl_nil, tell, hu]
  · next hsteps =>
    -- without a step nothing moves
    have hmask : o.step = 0 := by simpa [StepOutput.hasSteps] using hsteps
    have hstay : (PerAxis.ofFn fun a => made.get a + o.way.get a) = made := by
      apply PerAxis.ext_get
      intro a
      simp only [PerAxis.get_ofFn, StepOutput.way, Stepper.maskedStep, hmask]
      cases a <;> simp [Axis.isIn, Axis.bit]
    rw [hstay, if_neg hne, List.foldl_nil, ← hu]

end Story

/-- What becomes of a load from its publication on. -/
def Load.entries (l : Load) : List Entry :=
  (if l.hasMotion then [.begun l.way, .done l.way] else []) ++ l.commands.toList.map .ran

namespace Flow

/-- What is still to become of the loads of a flow. -/
def outstanding (f : Flow) : List Entry :=
  (match f.current with
    | some (_, l) => .done l.way :: l.commands.toList.map .ran
    | none => []) ++ f.waiting.flatMap Load.entries ++ f.head.entries

/-- A story and what is outstanding are together what has been accepted. -/
structure Told (f : Flow) (story : Story) (accepted : List Entry) : Prop where
  /-- what is outstanding follows what has been told -/
  entries_eq : story.entries ++ f.outstanding = accepted
  /-- the move under way has come as far as the traversal -/
  underway_eq : ∀ t l, f.current = some (t, l) →
    story.underway = some (l.way, .ofFn fun a => l.displacement a - t.left a)

variable {f g : Flow} {hs : List Happening} {story : Story} {accepted : List Entry}

/-- A traversal with steps left has not come as far as its load goes. -/
theorem made_ne_way {t : Traversal} {l : Load} (h : t.isComplete = false) :
    (PerAxis.ofFn fun a => l.displacement a - t.left a) ≠ l.way := by
  obtain ⟨-, a, ha⟩ := t.not_isComplete_iff.mp h
  intro heq
  have hzero := congrArg (fun v => v.get a) heq
  simp only [PerAxis.get_ofFn, Load.way] at hzero
  have hleft : t.left a = t.directions.signed a 0 := by
    rw [Directions.signed_zero]
    omega
  exact ha (UInt32.toNat.inj (t.directions.signed_inj a |>.mp hleft))

/-- The pulses of a step event bring the story as far as the traversal. -/
theorem made_stepEvent (t : Traversal) (l : Load) :
    (PerAxis.ofFn fun a =>
      (PerAxis.ofFn fun a => l.displacement a - t.left a : PerAxis Int).get a +
        (StepOutput.way ⟨t.nextMask, t.directions⟩).get a) =
      .ofFn fun a => l.displacement a - t.stepEvent.left a := by
  apply PerAxis.ext_get
  intro a
  simp only [PerAxis.get_ofFn, StepOutput.way]
  have := t.left_stepEvent a
  omega

theorem Told.step (h : f.Told story accepted) (hf : f.Sound) (hstep : Step f hs g) :
    g.Told (hs.foldl Story.tell story) accepted := by
  obtain ⟨hentries, hunderway⟩ := h
  unfold outstanding at hentries
  cases hstep with
  | @start s rest slot t rate nominal hc hw hm ht =>
    have hmotion : s.load.hasMotion = true := hm
    rw [hc, hw, List.flatMap_cons, Load.entries, if_pos hmotion] at hentries
    refine ⟨?_, ?_⟩
    · rw [← hentries]
      simp [outstanding, Story.tell, Segment.load]
    -- of a fresh traversal nothing has been made
    · rintro t' l' ⟨⟩
      change some (s.load.way, PerAxis.const 0) = _
      congr 2
      apply PerAxis.ext_get
      intro a
      rw [PerAxis.get_const, PerAxis.get_ofFn, left_of_sameCourse ht, left_ofSegment,
        Int.sub_self]
  | @pass s rest hc hw hm =>
    have hmotion : ¬ s.load.hasMotion = true := by
      rw [Bool.not_eq_true]
      exact hm
    rw [hc, hw, List.flatMap_cons, Load.entries, if_neg hmotion] at hentries
    refine ⟨?_, ?_⟩
    · rw [Story.foldl_completion, ← hentries]
      simp [outstanding, hc, Segment.load]
    · intro t l ht
      have ht : f.current = some (t, l) := ht
      rw [hc] at ht
      cases ht
  | @turn t t' l hc ht =>
    rw [hc] at hentries
    refine ⟨hentries, ?_⟩
    rintro t'' l' ⟨⟩
    rw [List.foldl_nil, hunderway t l hc]
    simp only [left_of_sameCourse ht]
  | @ramp t t' l rate nominal hc ht =>
    rw [hc] at hentries
    refine ⟨hentries, ?_⟩
    rintro t'' l' ⟨⟩
    change story.underway = _
    rw [hunderway t l hc]
    simp only [left_of_sameCourse ht]
  | @strike t l position hc hp hmore =>
    rw [hc] at hentries
    rw [Story.foldl_happenings (hunderway t l hc) (made_ne_way (hf.unfinished t l hc)),
      made_stepEvent, if_neg (made_ne_way hmore)]
    refine ⟨hentries, ?_⟩
    rintro t' l' ⟨⟩
    rfl
  | @last t s position hc hp hdone =>
    -- with the last event all steps of the load have been made, so that the story ends the move
    have hunfinished := hf.unfinished t _ hc
    have harrived : (PerAxis.ofFn fun a => s.load.displacement a - t.stepEvent.left a) =
        s.load.way := by
      apply PerAxis.ext_get
      intro a
      rw [PerAxis.get_ofFn, left_eq_zero_of_last (hf.carries t _ hc) hunfinished hdone a,
        Load.way, PerAxis.get_ofFn, Int.sub_zero]
    rw [hc] at hentries
    rw [List.foldl_append, Story.foldl_happenings (hunderway t _ hc) (made_ne_way hunfinished),
      made_stepEvent, if_pos harrived, Story.foldl_completion]
    refine ⟨?_, ?_⟩
    · rw [← hentries]
      simp [outstanding, Segment.load]
    · rintro t' l' ⟨⟩

/-- Whatever the interrupt does, the story goes on as it was bound to. -/
theorem Steps.told (h : Steps f hs g) (hf : f.Sound) (ht : f.Told story accepted) :
    g.Told (hs.foldl Story.tell story) accepted := by
  induction h generalizing story with
  | refl => exact ht
  | cons first _ ih =>
    rw [List.foldl_append]
    exact ih (hf.step first) (ht.step hf first)

end Flow

end MotionControl
