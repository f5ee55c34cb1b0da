import MotionControl.Proofs.Lookahead.Planned
import MotionControl.Proofs.Motion.Sending

/-!
# Moves after a standstill

A move that is queued while nothing is pending starts from rest: its junction allows half the jerk,
whatever move came before it (`Pipeline.append_starts_from_rest`). The same goes for a move that is
queued when there is no earlier one to take into account.

But a carrier is pending as well. If commands were attached while the machine was at rest, queueing
the move first publishes them, and only then looks whether anything is pending. So the move takes
the one before the standstill for its neighbour, and its junction may allow any speed
(`Pipeline.append_starts_at_speed_behind_command`).
-/

namespace MotionControl

variable {n : Nat}

/-- What the junction of a move allows is written into its segment. -/
theorem Planner.maxEntrySpeed_segmentOf {p : Planner} {m : Move} {fromRest : Bool} {s : Segment}
    (hok : p.segmentOf m fromRest = .ok s) : s.maxEntrySpeed = p.junctionSpeed m fromRest := by
  obtain ⟨initial, final, up, down, rfl⟩ := Lookahead.planTrapezoid_eq hok
  rfl

/-- From rest on, the junction allows half the jerk. -/
theorem Planner.junctionSpeed_of_rest {p : Planner} {m : Move} {fromRest : Bool}
    (hrest : fromRest = true) :
    p.junctionSpeed m fromRest = Single.min (p.tuning.maxJerk / 2) m.feed := by
  rw [junctionSpeed, if_pos hrest]

theorem Ring.queued_eq_nil_iff {r : Ring n} : r.queued = [] ↔ r.hasPending = false := by
  rw [← List.length_eq_zero_iff, length_queued, hasPending, decide_eq_false_iff_not, Nat.not_lt,
    Nat.le_zero]

/-- Where nothing was pending and nothing has been sent, nothing is pending. -/
theorem Dispatcher.Sends.hasPending_eq_false {l : Pipeline n} {head : Segment}
    {d : Dispatcher n Scribe} (h : d.Sends l.moment [] head)
    (hnone : l.plant.ring.hasPending = false) :
    d.ring.hasPending = false := by
  obtain ⟨past, h⟩ := h
  have hempty : l.moment.plant.ring.queued = [] := Ring.queued_eq_nil_iff.mpr hnone
  have hqueued := h.queued_eq
  rw [hempty] at hqueued
  have hnil := List.map_eq_nil_iff.mp hqueued.symm
  exact Ring.queued_eq_nil_iff.mp (List.append_eq_nil_iff.mp hnil).2

namespace Pipeline

/-- Whatever a pipeline has been called for before, stops, halts and skipped motion included, and
whatever the interrupt does meanwhile: a move that is accepted is published, unless the machine is
halted, and it starts from rest if nothing is pending and no command waits at the head when it is
queued, or if there is no move before it to take into account. In general this is decided when the
commands have been published and there is room. -/
theorem append_starts_from_rest {len : Nat} {ring : Ring n} (hring : Ring.new n len = .ok ring)
    {stepper : Stepper} (hidle : stepper.isBusy = false) {planner : Planner} {before : List Call}
    {l : Pipeline n} (hbefore : (ofRing ring stepper planner).run Audit.none before = .ok l)
    (m : Move) (idle : List (List Beat)) (locked revised : List Beat) :
    Fault.Blameless (fun x => ∃ sent head, x.2.2.2.Sends l.moment sent head ∧
      (x.1 = true → l.dispatcher.halted = false → ∃ s ∈ sent, s.hasMotion = true) ∧
      ∀ s ∈ sent, s.hasMotion = true →
        (l.plant.ring.hasPending = false → l.dispatcher.carrier = [] →
          s.maxEntrySpeed = Single.min (l.planner.tuning.maxJerk / 2) m.feed) ∧
        (l.planner.previousNominalSpeed ≤ 0 →
          s.maxEntrySpeed = Single.min (l.planner.tuning.maxJerk / 2) m.feed) ∧
        ∃ rest d, l.dispatcher.makeWay (l.script Audit.none idle) = .ok (rest, d) ∧
          s.maxEntrySpeed = l.planner.junctionSpeed m
            (!d.ring.hasPending || l.planner.previousNominalSpeed ≤ 0))
      (l.planner.appendWith (Plant.beats (fun _ => true) locked)
        (Plant.beats (fun _ => true) revised) m (l.script Audit.none idle) l.dispatcher) := by
  obtain ⟨hsends, hstill⟩ := sends_of_run hring hidle hbefore
  by_cases hm : l.planner.accepts m = true
  · refine (hsends.appendWith hm (Plant.beats_sendsNothing _ locked)
      (Plant.beats_sendsNothing _ revised) (script_sendsNothing _ l idle)).mono ?_
    rintro x ⟨-, -, rest, d, head, s, hway, hd, hs, hmotion, -, hsends'⟩
    refine ⟨_, _, hsends', fun _ hactive => ⟨s, ?_, hmotion⟩, fun s' hs' hmotion' => ?_⟩
    · have hactive : l.moment.halted = false := hactive
      rw [hactive, if_neg Bool.false_ne_true]
      exact List.mem_append_right _ (List.mem_append_right _ List.mem_cons_self)
    -- of what is sent, only the move has motion
    have heq : s' = s := by
      rw [List.nil_append] at hs'
      split at hs'
      · cases hs'
      · rcases List.mem_append.mp hs' with hs' | hs'
        · exact absurd hmotion' (Dispatcher.not_hasMotion_of_mem_carrier hstill _ hs')
        · exact List.mem_singleton.mp hs'
    have hspeed := Planner.maxEntrySpeed_segmentOf hs
    rw [← heq] at hspeed
    refine ⟨fun hnone hcarrier => ?_, fun hprevious => ?_, rest, d, hway, hspeed⟩
    · rw [hcarrier, ite_self, List.append_nil] at hd
      rw [hspeed, Planner.junctionSpeed_of_rest]
      rw [hd.hasPending_eq_false hnone]
      rfl
    · rw [hspeed, Planner.junctionSpeed_of_rest]
      rw [decide_eq_true hprevious, Bool.or_true]
  · rw [Planner.appendWith, if_neg hm]
    exact ⟨[], _, hsends, fun hmoved => Bool.noConfusion hmoved, fun s hs => by cases hs⟩

/-- A pipeline that has come to rest after a move at 20 mm/s, and some calls after that. -/
def rested (calls : List Call) : Except Fault (Pipeline 4) :=
  (ofRing .four ⟨10, 10, none, .const 0⟩ (.ofTuning ⟨1000, 4, 0, 100⟩)).run Audit.none
    ([.append ⟨⟨3, 0, 0⟩, 20, 1, ⟨20, 0, 0⟩⟩ [] [] [], .ensureRunning,
      .beats (List.replicate 6 .step)] ++ calls)

/-- The next move in the same direction starts from rest. -/
theorem append_starts_from_rest_after_move : ∃ (l : Pipeline 4) (m : Move)
    (x : Bool × Planner × Idle 4 Scribe × Dispatcher 4 Scribe),
    rested [] = .ok l ∧ l.plant.ring.hasPending = false ∧ l.dispatcher.carrier = [] ∧
    ¬ l.planner.previousNominalSpeed ≤ 0 ∧
    l.planner.appendWith (Plant.beats (fun _ => true) []) (Plant.beats (fun _ => true) []) m []
      l.dispatcher = .ok x ∧
    x.2.2.2.ring.queued.map Segment.hasMotion = [true] ∧
    ∃ sent head, x.2.2.2.Sends l.moment sent head ∧ ∀ s ∈ sent, s.hasMotion = true →
      s.maxEntrySpeed = Single.min (l.planner.tuning.maxJerk / 2) m.feed := by
  obtain ⟨m, htest⟩ : ∃ m : Move, (do
      let l ← rested []
      let x ← l.planner.appendWith (Plant.beats (fun _ => true) [])
        (Plant.beats (fun _ => true) []) m [] l.dispatcher
      return (l, x)).toOption.any (fun y : Pipeline 4 × Bool × Planner × Idle 4 Scribe ×
          Dispatcher 4 Scribe =>
        !y.1.plant.ring.hasPending && y.1.dispatcher.carrier.isEmpty &&
          !decide (y.1.planner.previousNominalSpeed ≤ 0) &&
          y.2.2.2.2.ring.queued.map Segment.hasMotion == [true]) = true :=
    ⟨⟨⟨6, 0, 0⟩, 20, 1, ⟨20, 0, 0⟩⟩, by decide +kernel⟩
  obtain ⟨⟨l, x⟩, hok, htest⟩ := Fault.exists_eq_ok htest
  obtain ⟨_, hrested, hok⟩ := Fault.bind_eq_ok.mp hok
  obtain ⟨_, happend, hok⟩ := Fault.bind_eq_ok.mp hok
  cases hok
  simp only [Bool.and_eq_true, Bool.not_eq_true', decide_eq_false_iff_not, List.isEmpty_iff,
    beq_iff_eq] at htest
  obtain ⟨⟨⟨hnone, hcarrier⟩, hprevious⟩, hqueued⟩ := htest
  have hspeeds := append_starts_from_rest Ring.new_four rfl hrested m [] [] []
  rw [show l.script Audit.none [] = [] from rfl, happend] at hspeeds
  obtain ⟨sent, head, hsends, -, hspeed⟩ := hspeeds
  exact ⟨l, m, x, hrested, hnone, hcarrier, hprevious, happend, hqueued, sent, head, hsends,
    fun s hs hmotion => (hspeed s hs hmotion).1 hnone hcarrier⟩

/-- With a command attached at rest, the same move may be entered at more than half the jerk. -/
theorem append_starts_at_speed_behind_command : ∃ (l : Pipeline 4) (c : Command) (m : Move)
    (x : Bool × Planner × Idle 4 Scribe × Dispatcher 4 Scribe),
    rested [.command c []] = .ok l ∧ l.plant.ring.hasPending = false ∧
    l.plant.side.stepper.isBusy = false ∧ l.planner.append m [] l.dispatcher = .ok x ∧
    (x.2.2.2.ring.queued.filter Segment.hasMotion).map (fun s =>
      decide (Single.min (l.planner.tuning.maxJerk / 2) m.feed < s.maxEntrySpeed)) = [true] := by
  obtain ⟨c, m, htest⟩ : ∃ (c : Command) (m : Move), (do
      let l ← rested [.command c []]
      let x ← l.planner.append m [] l.dispatcher
      return (l, x)).toOption.any (fun y : Pipeline 4 × Bool × Planner × Idle 4 Scribe ×
          Dispatcher 4 Scribe =>
        !y.1.plant.ring.hasPending && !y.1.plant.side.stepper.isBusy &&
          (y.2.2.2.2.ring.queued.filter Segment.hasMotion).map (fun s : Segment =>
            decide (Single.min (y.1.planner.tuning.maxJerk / 2) m.feed < s.maxEntrySpeed)) ==
              [true]) = true :=
    ⟨⟨"M106", by decide⟩, ⟨⟨6, 0, 0⟩, 20, 1, ⟨20, 0, 0⟩⟩, by decide +kernel⟩
  obtain ⟨⟨l, x⟩, hok, htest⟩ := Fault.exists_eq_ok htest
  obtain ⟨_, hrested, hok⟩ := Fault.bind_eq_ok.mp hok
  obtain ⟨_, happend, hok⟩ := Fault.bind_eq_ok.mp hok
  cases hok
  simp only [Bool.and_eq_true, Bool.not_eq_true', beq_iff_eq] at htest
  exact ⟨l, c, m, x, hrested, htest.1.1, htest.1.2, happend, htest.2⟩

end Pipeline

end MotionControl
