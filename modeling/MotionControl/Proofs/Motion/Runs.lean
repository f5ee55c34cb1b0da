import MotionControl.Proofs.Motion.Pipeline

/-!
# What every run of the pipeline guarantees

Two results about all calm runs, in which moves and commands are requested while the interrupt
does its work in any order. No step is lost, repeated or misdirected: the planner's position is
where everything on its way leads, at every point of the run. And no request is: what has become of
the requests so far, followed by what is still to become of them, is what has been accepted.

Both say as well what a calm run can end with, apart from its end: a wait that is given up, or the
arithmetic of a speed ramp. Neither a step out of the word of a position nor a refused command is
among it.
-/

namespace MotionControl

variable {n : Nat}

/-- The position reached, the steps left of the segment under execution and the steps of all
segments that have not begun add up to the position given. If there are no such segments, it has
been reached. -/
def Audit.balance : Audit n := fun goal _ p =>
  decide (∀ a ∈ Axis.all, (goal.get a).toInt = p.strip.flow.destination a) &&
    (p.ring.hasPending || decide (p.side.stepper.position = goal))

/-- The story that an observer can tell, followed by what is still outstanding, is that of all
requests. -/
def Audit.story : Audit n := fun _ accepted p =>
  decide (p.story.entries ++ p.strip.flow.outstanding = accepted.flatMap Request.entries)

namespace Plant.Keeps

variable {calm : Prop} {g : Ledger} {p : Plant n Scribe}

/-- When nothing is pending, nothing is on its way. -/
theorem flow_of_drained (h : p.Keeps calm g) (hpending : p.ring.hasPending = false) :
    p.strip.flow = ⟨none, [], g.head.load, p.side.stepper.position⟩ := by
  have hnone : p.ring.toFifo.pending = [] := by
    apply Classical.byContradiction
    intro hne
    rw [h.holds.hasPending_iff.mpr hne] at hpending
    cases hpending
  -- what is executed would be pending
  have hcurrent : p.side.stepper.current = none := by
    have hbegun := h.begun_eq
    rw [Fifo.begun, hnone, Stepper.isBusy] at hbegun
    exact Option.isSome_eq_false_iff.mp hbegun.symm |> Option.isNone_iff_eq_none.mp
  rw [h.coupled.flow_of_rest hcurrent, Fifo.restingFlow, Fifo.loads, hnone, h.head_eq]
  rfl

/-- Then the goal has been reached. -/
theorem position_eq (h : p.Keeps calm g) (hcalm : calm) (hpending : p.ring.hasPending = false) :
    p.side.stepper.position = g.goal := by
  apply PerAxis.ext_get
  intro a
  have hdestination := (h.onCourse hcalm).destination_eq a
  rw [h.flow_of_drained hpending, Flow.destination, Flow.underway_of_none rfl, Flow.ahead_nil,
    Int.add_zero, Int.add_zero] at hdestination
  exact Int32.toInt_inj.mp hdestination

end Plant.Keeps

namespace Audit

theorem sound_balance (faithful : Prop) : (balance : Audit n).Sound True faithful := by
  intro _ g p accepted h _
  rw [balance, Bool.and_eq_true, decide_eq_true_iff, Bool.or_eq_true, decide_eq_true_iff]
  refine ⟨fun a _ => ((h.onCourse trivial).destination_eq a).symm, ?_⟩
  cases hpending : p.ring.hasPending with
  | true => exact .inl rfl
  | false => exact .inr (h.position_eq trivial hpending)

theorem sound_story : (story : Audit n).Sound True True := by
  intro _ g p accepted h haccepted
  rw [story, decide_eq_true_iff, ← haccepted trivial]
  exact (h.onCourse trivial).told.entries_eq

end Audit

/-- A flow at rest leads nowhere else, and whatever an observer has seen before is over. -/
theorem Flow.OnCourse.ofRest (head : Load) (position : PerAxis Int32) (story : Story) :
    Flow.OnCourse ⟨none, [], head, position⟩ story position (story.entries ++ head.entries) := by
  have hdestination : ∀ a, (⟨none, [], head, position⟩ : Flow).destination a =
      (position.get a).toInt := by
    intro a
    rw [destination, underway_of_none rfl, ahead_nil, Int.add_zero, Int.add_zero]
  refine ⟨⟨?_, ?_, ?_⟩, ?_, hdestination, rfl, ?_⟩
  · intro l hl
    cases hl
  · intro t l hc
    cases hc
  · intro t l hc
    cases hc
  · intro a k
    rw [List.take_nil]
    have hin := inWord_toInt (position.get a)
    rw [← hdestination a] at hin
    exact hin
  · intro t l hc
    cases hc

namespace Pipeline

variable {faithful : Prop} {origin : PerAxis Int32} {g : Ledger} {l : Pipeline n}

/-- A fresh pipeline keeps a ledger. -/
theorem Keeps.ofRing {len : Nat} {ring : Ring n} (hring : Ring.new n len = .ok ring)
    {stepper : Stepper} (hidle : stepper.isBusy = false) (planner : Planner) :
    (Pipeline.ofRing ring stepper planner).Keeps False faithful origin
      ⟨[], .empty, false, planner.position, []⟩ := by
  unfold Ring.new at hring
  split at hring
  · next hlen =>
    cases hring
    have hr := Ring.Holds.ofLen (n := n) hlen.1 hlen.2
    have hqueue := hr.toFifo_eq
    have hplant : (Pipeline.ofRing (Ring.ofLen len hlen.1 hlen.2) stepper planner).plant.Keeps
        False ⟨[], .empty, false, planner.position, []⟩ := by
      have hcoupled : (Pipeline.ofRing (Ring.ofLen len hlen.1 hlen.2) stepper planner).plant.strip
          |>.Coupled [] (.ofCapacity (len - 1)) := by
        refine ⟨hr, hidle.symm, fun t ht => ?_⟩
        have hcurrent : stepper.current = some t := ht
        rw [Stepper.isBusy, hcurrent] at hidle
        cases hidle
      refine ⟨?_, ?_, ?_, Nat.zero_le _, False.elim, False.elim, False.elim⟩
      · rw [← hqueue] at hcoupled
        exact hcoupled
      · exact congrArg Fifo.head hqueue
      · exact congrArg Fifo.flush hqueue
    exact ⟨⟨hplant, rfl, Load.sound_empty, rfl, False.elim⟩, rfl, rfl, fun _ => rfl, False.elim⟩
  · cases hring

theorem atRest_ofRing {len : Nat} {ring : Ring n} (hring : Ring.new n len = .ok ring)
    {stepper : Stepper} (hidle : stepper.isBusy = false) (planner : Planner) :
    (Pipeline.ofRing ring stepper planner).AtRest := by
  refine ⟨hidle, ?_, rfl, rfl⟩
  unfold Ring.new at hring
  split at hring
  · next hlen =>
    cases hring
    have hpending : (Ring.ofLen len hlen.1 hlen.2 : Ring n).pending = 0 := by
      rw [Ring.pending, Ring.distance, Ring.ofLen, Nat.zero_add, Nat.sub_zero, Nat.mod_self]
    exact decide_eq_false fun hpos => Nat.lt_irrefl 0 (Nat.lt_of_lt_of_eq hpos hpending)
  · cases hring

/-- From rest on a pipeline is on its course, once the planner knows the position reached. Its
requests are on record as a whole if nothing has been seen and nothing waits at the head. -/
theorem Keeps.ofRest {all : Prop} (h : l.Keeps False faithful origin g) (hrest : l.AtRest)
    (hposition : l.planner.position = l.position)
    (hall : all → l.plant.story.entries ++ g.head.load.entries = []) :
    ({ l with accepted := [] } : Pipeline n).Keeps True all l.planner.position
      { g with accepted := l.plant.story.entries ++ g.head.load.entries } := by
  have hd := h.dispatcher
  -- at rest nothing is on its way, so that any position will do that both sides agree on
  have hflow := hd.plant.flow_of_drained hrest.drained
  refine ⟨⟨?_, hd.held_eq, hd.sound, hd.still, fun _ => hrest.active⟩, h.goal_eq, h.unflushed,
    hall, fun _ => rfl⟩
  refine ⟨hd.plant.coupled, hd.plant.head_eq, hd.plant.flush_eq, hd.plant.counted,
    fun _ => hrest.clear, fun _ => h.unflushed, fun _ => ?_⟩
  rw [hflow, h.goal_eq, hposition]
  exact .ofRest _ _ _

/-- What a run of calls from here on says about positions: at every point of it the position
reached and the steps on their way add up to the planner's position, which is the target of the
last move; and when nothing is pending any more, it has been reached. -/
def Conserves (l : Pipeline n) (calls : List Call) : Prop :=
  match ({ l with accepted := [] } : Pipeline n).run Audit.balance calls with
  | .ok l' =>
    (∀ a, (l'.planner.position.get a).toInt = (l'.position.get a).toInt +
      l'.plant.strip.flow.underway a + Flow.ahead l'.plant.strip.flow.waiting a) ∧
    (l'.plant.ring.hasPending = false → l'.position = l'.planner.position) ∧
    l'.planner.position = l'.accepted.foldl Request.leadsTo l.planner.position
  | .error e => e = .waitExhausted ∨ e = .subtractOverflow

theorem Keeps.conserves (h : l.Keeps False faithful origin g) (hrest : l.AtRest)
    (hposition : l.planner.position = l.position) {calls : List Call}
    (hcalls : ∀ c ∈ calls, c.isCalm = true) : l.Conserves calls := by
  have hrun := (h.ofRest hrest hposition False.elim).run (Audit.sound_balance False)
    fun _ => hcalls
  unfold Conserves
  split
  · next l' hl' =>
    rw [hl'] at hrun
    obtain ⟨g', h'⟩ := hrun
    have hplant := h'.dispatcher.plant
    refine ⟨fun a => ?_, fun hpending => ?_, (h'.leads trivial).symm⟩
    · rw [← h'.goal_eq]
      exact ((hplant.onCourse trivial).destination_eq a).symm
    · exact (hplant.position_eq trivial hpending).trans h'.goal_eq
  · next e he =>
    rw [he] at hrun
    exact hrun trivial

/-- Whatever has happened to a pipeline before, stops, halts and skipped motion included, once it
is at rest the planner has only to take over the position reached for no step to be lost from then
on; and if it knows that position already, it need not even do that. -/
theorem conserves_of_calm {len : Nat} {ring : Ring n} (hring : Ring.new n len = .ok ring)
    {stepper : Stepper} (hidle : stepper.isBusy = false) (planner : Planner) {before : List Call}
    (hbefore : (ofRing ring stepper planner).run Audit.none before = .ok l)
    (hrest : l.AtRest) {calls : List Call} (hcalls : ∀ c ∈ calls, c.isCalm = true) :
    l.resync.Conserves calls ∧ (l.planner.position = l.position → l.Conserves calls) := by
  have hfresh : (ofRing ring stepper planner).Keeps False True planner.position _ :=
    .ofRing hring hidle planner
  have hrun : Plant.Safely False (fun l' => ∃ g, l'.Keeps False True planner.position g)
      ((ofRing ring stepper planner).run Audit.none before) :=
    hfresh.run Audit.sound_none False.elim
  rw [hbefore] at hrun
  obtain ⟨g, h⟩ := hrun
  obtain ⟨g', h'⟩ := h.resync not_false
  have hrest' : l.resync.AtRest := ⟨hrest.idle, hrest.drained, hrest.active, hrest.clear⟩
  exact ⟨h'.conserves hrest' rfl hcalls, fun hposition => h.conserves hrest hposition hcalls⟩

/-- A stop may cut a move short, so that the planner is wrong about the position. -/
theorem conserves_after_stop :
    ∃ l, (ofRing (Ring.ofLen 3 (by decide) (by decide) : Ring 4) ⟨10, 10, none, .const 0⟩
        (.ofTuning ⟨1000, 4, 0, 100⟩)).run Audit.none
          [.append ⟨⟨40, -7, 0⟩, 20, 1, .const 0⟩ [] [] [], .ensureRunning,
            .beats [.step, .step, .step, .trigger 0, .trigger 1, .step, .rearm]] = .ok l ∧
      l.AtRest ∧ l.position ≠ l.planner.position ∧
      l.resync.Conserves [.append ⟨⟨0, 0, 5⟩, 20, 1, .const 0⟩ [[.step, .ramp]] [.step] [.step],
        .command ⟨"M107", by decide⟩ [[.step]], .beats [.step, .ramp, .step]] := by
  have hstopped : (match (ofRing (Ring.ofLen 3 (by decide) (by decide) : Ring 4)
      ⟨10, 10, none, .const 0⟩ (.ofTuning ⟨1000, 4, 0, 100⟩)).run Audit.none
        [.append ⟨⟨40, -7, 0⟩, 20, 1, .const 0⟩ [] [] [], .ensureRunning,
          .beats [.step, .step, .step, .trigger 0, .trigger 1, .step, .rearm]] with
      | .ok l => decide (l.AtRest ∧ l.position ≠ l.planner.position)
      | .error _ => false) = true := by decide +kernel
  cases hbefore : (ofRing (Ring.ofLen 3 (by decide) (by decide) : Ring 4)
      ⟨10, 10, none, .const 0⟩ (.ofTuning ⟨1000, 4, 0, 100⟩)).run Audit.none
        [.append ⟨⟨40, -7, 0⟩, 20, 1, .const 0⟩ [] [] [], .ensureRunning,
          .beats [.step, .step, .step, .trigger 0, .trigger 1, .step, .rearm]] with
  | error e =>
    rw [hbefore] at hstopped
    cases hstopped
  | ok l =>
    rw [hbefore] at hstopped
    obtain ⟨hrest, hlost⟩ := of_decide_eq_true hstopped
    refine ⟨l, rfl, hrest, hlost, ?_⟩
    exact (conserves_of_calm (show Ring.new 4 3 = .ok _ from rfl) rfl _ hbefore hrest
      (by decide)).1

/-- What a run of calls says about requests: at every point of it the commands that have run and
the moves that have begun and ended, followed by what is still to come, are the requests accepted
so far in their order. -/
def Honours (l : Pipeline n) (calls : List Call) : Prop :=
  match l.run Audit.story calls with
  | .ok l' => l'.plant.story.entries ++ l'.plant.strip.flow.outstanding =
      l'.accepted.flatMap Request.entries
  | .error e => e = .waitExhausted ∨ e = .subtractOverflow

/-- Commands are neither lost nor repeated nor reordered against motion, and none is refused. -/
theorem honours_of_calm {len : Nat} {ring : Ring n} (hring : Ring.new n len = .ok ring)
    {stepper : Stepper} (hidle : stepper.isBusy = false) {planner : Planner}
    (hposition : planner.position = stepper.position) {calls : List Call}
    (hcalls : ∀ c ∈ calls, c.isCalm = true) : (ofRing ring stepper planner).Honours calls := by
  have hfresh : (ofRing ring stepper planner).Keeps False True planner.position _ :=
    .ofRing hring hidle planner
  have hstart : (ofRing ring stepper planner).Keeps True True planner.position _ :=
    hfresh.ofRest (atRest_ofRing hring hidle planner) hposition fun _ => rfl
  have hrun := hstart.run Audit.sound_story fun _ => hcalls
  unfold Honours
  split
  · next l' hl' =>
    rw [hl'] at hrun
    obtain ⟨g', h'⟩ := hrun
    rw [← h'.accepted_eq trivial]
    exact (h'.dispatcher.plant.onCourse trivial).told.entries_eq
  · next e he =>
    rw [he] at hrun
    exact hrun trivial

/-- The commands of this run ride on the first move, wait at the head behind it, and are carried
ahead of the second one. -/
theorem honours_commands_around_moves :
    ∃ ring : Ring 4, Ring.new 4 2 = .ok ring ∧
      (ofRing ring ⟨10, 10, none, .const 0⟩ (.ofTuning ⟨1000, 4, 0, 100⟩)).Honours
        [.append ⟨⟨4, -1, 0⟩, 20, 1, .const 0⟩ [] [.step] [.step],
          .command ⟨"M106", by decide⟩ [], .ensureRunning, .beats [.step, .step],
          .command ⟨"M107", by decide⟩ [],
          .append ⟨⟨0, 2, 0⟩, 20, 1, .const 0⟩ (List.replicate 9 [.step]) [.step] [.step]] := by
  obtain ⟨ring, hring⟩ : ∃ ring : Ring 4, Ring.new 4 2 = .ok ring := ⟨_, rfl⟩
  exact ⟨ring, hring, honours_of_calm hring rfl rfl (by decide)⟩

end Pipeline

end MotionControl
