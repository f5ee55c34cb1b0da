import MotionControl.Proofs.Motion.Sending

/-!
# What the answer to a move says

The planner answers whether there was anything to move. Unless the machine is halted, this tells
what has happened: the move has been published as one segment, and the planner takes its target for
its position, or nothing at all has happened (`Pipeline.append_answers`). While the machine is
halted, a move that goes somewhere is answered with the same yes, and its target becomes the
position, although nothing is published: the position is no longer the one after the last queued
move (`Pipeline.append_answers_while_halted`), and has to be taken over from the stepper.
-/

namespace MotionControl

variable {n : Nat}

/-- Of what queueing a move sends, only the move itself has motion. -/
theorem Dispatcher.filter_carrier {d : Dispatcher n Scribe}
    (hstill : d.ring.headSegment.hasMotion = false) {s : Segment} (hs : s.hasMotion = true) :
    (d.carrier ++ [s]).filter Segment.hasMotion = [s] := by
  rw [List.filter_append, List.filter_eq_nil_iff.mpr (not_hasMotion_of_mem_carrier hstill),
    List.nil_append, List.filter_cons_of_pos hs, List.filter_nil]

namespace Pipeline

/-- Whatever a pipeline has been called for before, stops, halts and skipped motion included, and
whatever the interrupt does meanwhile: a move that goes nowhere is refused at once, and nothing
happens; any other move is accepted, and its target becomes the planner's position. Unless the
machine is halted, a move is accepted exactly if one segment with motion has been published, which
leads from the position before to the target. While the machine is halted nothing is published, so
that what is accepted then takes the position away from where the queued moves lead. -/
theorem append_answers {len : Nat} {ring : Ring n} (hring : Ring.new n len = .ok ring)
    {stepper : Stepper} (hidle : stepper.isBusy = false) {planner : Planner} {before : List Call}
    {l : Pipeline n} (hbefore : (ofRing ring stepper planner).run Audit.none before = .ok l)
    (m : Move) (idle : List (List Beat)) (locked revised : List Beat) :
    (l.planner.accepts m = false →
      l.planner.appendWith (Plant.beats (fun _ => true) locked)
        (Plant.beats (fun _ => true) revised) m (l.script Audit.none idle) l.dispatcher =
          .ok (false, l.planner, l.script Audit.none idle, l.dispatcher)) ∧
    Fault.Blameless (fun x => ∃ sent head, x.2.2.2.Sends l.moment sent head ∧
      x.1 = l.planner.accepts m ∧
      (l.dispatcher.halted = false → (x.1 = true ↔ ∃ s, sent.filter Segment.hasMotion = [s] ∧
        ∀ a, s.load.displacement a =
          (m.target.get a).toInt - (l.planner.position.get a).toInt)) ∧
      (l.dispatcher.halted = true → sent = []) ∧
      (x.1 = true → x.2.1 = { l.planner with
        position := m.target, previousSpeeds := m.speeds, previousNominalSpeed := m.feed }) ∧
      (x.1 = false → x.2 = (l.planner, l.script Audit.none idle, l.dispatcher) ∧ sent = []))
      (l.planner.appendWith (Plant.beats (fun _ => true) locked)
        (Plant.beats (fun _ => true) revised) m (l.script Audit.none idle) l.dispatcher) := by
  obtain ⟨hsends, hstill⟩ := sends_of_run hring hidle hbefore
  have hrefused : l.planner.accepts m = false →
      l.planner.appendWith (Plant.beats (fun _ => true) locked)
        (Plant.beats (fun _ => true) revised) m (l.script Audit.none idle) l.dispatcher =
          .ok (false, l.planner, l.script Audit.none idle, l.dispatcher) := by
    intro hm
    rw [Planner.appendWith, if_neg (Bool.eq_false_iff.mp hm)]
  refine ⟨hrefused, ?_⟩
  cases hm : l.planner.accepts m with
  | false =>
    rw [hrefused hm]
    refine ⟨[], _, hsends, rfl, fun _ => ⟨fun hmoved => Bool.noConfusion hmoved, ?_⟩, fun _ => rfl,
      fun hmoved => Bool.noConfusion hmoved, fun _ => ⟨rfl, rfl⟩⟩
    rintro ⟨s, hs, -⟩
    cases hs
  | true =>
    refine (hsends.appendWith hm (Plant.beats_sendsNothing _ locked)
      (Plant.beats_sendsNothing _ revised) (script_sendsNothing _ l idle)).mono ?_
    rintro ⟨moved, p', rest, d'⟩ ⟨rfl, rfl, -, -, -, s, -, -, -, hmotion, hway, hsends'⟩
    refine ⟨_, _, hsends', rfl, fun hactive => ⟨fun _ => ⟨s, ?_, hway⟩, fun _ => rfl⟩,
      hsends'.eq_nil_of_halted, fun _ => rfl, fun hmoved => Bool.noConfusion hmoved⟩
    -- besides the move at most a carrier has been sent
    have hactive : l.moment.halted = false := hactive
    rw [hactive, if_neg Bool.false_ne_true, List.nil_append]
    exact Dispatcher.filter_carrier hstill hmotion

/-- A move behind a carrier that has to wait for room, on a ring of a single segment. -/
theorem append_answers_behind_carrier : ∃ (l : Pipeline 4) (m : Move) (idle : List (List Beat))
    (x : Bool × Planner × Idle 4 Scribe × Dispatcher 4 Scribe),
    l.dispatcher.carrier.length = 1 ∧ l.plant.ring.isFull = true ∧ l.dispatcher.halted = false ∧
    l.planner.appendWith (Plant.beats (fun _ => true) [.step])
      (Plant.beats (fun _ => true) [.step]) m (l.script Audit.none idle) l.dispatcher = .ok x ∧
    x.1 = true ∧ x.2.2.1.length < idle.length ∧
    ∃ sent head s, x.2.2.2.Sends l.moment sent head ∧ sent.filter Segment.hasMotion = [s] ∧
      ∀ a, s.load.displacement a = (m.target.get a).toInt - (l.planner.position.get a).toInt := by
  obtain ⟨ring, hring⟩ : ∃ ring : Ring 4, Ring.new 4 2 = .ok ring ∧
      ring = .ofLen 2 (by decide) (by decide) := ⟨_, rfl, rfl⟩
  obtain ⟨before, m, idle, htest⟩ : ∃ (before : List Call) (m : Move) (idle : List (List Beat)), (do
      let l ← (ofRing ring ⟨10, 10, none, .const 0⟩ (.ofTuning ⟨1000, 4, 0, 100⟩)).run
        Audit.none before
      let x ← l.planner.appendWith (Plant.beats (fun _ => true) [.step])
        (Plant.beats (fun _ => true) [.step]) m (l.script Audit.none idle) l.dispatcher
      return (l, x)).toOption.any (fun y : Pipeline 4 × Bool × Planner × Idle 4 Scribe ×
          Dispatcher 4 Scribe =>
        y.1.dispatcher.carrier.length == 1 && y.1.plant.ring.isFull && !y.1.dispatcher.halted &&
          y.2.1 && decide (y.2.2.2.1.length < idle.length)) = true := by
    rw [hring.2]
    exact ⟨[.append ⟨⟨4, -1, 0⟩, 20, 1, .const 0⟩ [] [.step] [.step],
      .command ⟨"M106", by decide⟩ [], .ensureRunning, .beats [.step, .step],
      .command ⟨"M107", by decide⟩ []], ⟨⟨0, 2, 0⟩, 20, 1, .const 0⟩, List.replicate 9 [.step],
      by decide +kernel⟩
  obtain ⟨⟨l, x⟩, hok, htest⟩ := Fault.exists_eq_ok htest
  obtain ⟨_, hbefore, hok⟩ := Fault.bind_eq_ok.mp hok
  obtain ⟨_, happend, hok⟩ := Fault.bind_eq_ok.mp hok
  cases hok
  simp only [Bool.and_eq_true, beq_iff_eq, Bool.not_eq_true', decide_eq_true_iff] at htest
  obtain ⟨⟨⟨⟨hcarrier, hfull⟩, hactive⟩, hmoved⟩, hidle⟩ := htest
  obtain ⟨-, hanswers⟩ := append_answers hring.1 rfl hbefore m idle [.step] [.step]
  rw [happend] at hanswers
  obtain ⟨sent, head, hsends, -, hiff, -⟩ := hanswers
  obtain ⟨s, hs, hway⟩ := (hiff hactive).mp hmoved
  exact ⟨l, m, idle, x, hcarrier, hfull, hactive, happend, hmoved, hidle, sent, head, s, hsends, hs,
    hway⟩

/-- While the machine is halted, a move is accepted and its target becomes the position, although
nothing is published. -/
theorem append_answers_while_halted : ∃ (l : Pipeline 4) (m : Move)
    (x : Bool × Planner × Idle 4 Scribe × Dispatcher 4 Scribe),
    (ofRing .four ⟨10, 10, none, .const 0⟩ (.ofTuning ⟨1000, 4, 0, 100⟩)).run Audit.none [.halt] =
      .ok l ∧
    l.planner.append m [] l.dispatcher = .ok x ∧ x.1 = true ∧ x.2.1.position = m.target ∧
    m.target ≠ l.planner.position ∧ x.2.2.2.ring.isEmpty = true ∧
    ∀ sent head, x.2.2.2.Sends l.moment sent head → sent = [] := by
  obtain ⟨m, htest⟩ : ∃ m : Move, (do
      let l ← (ofRing .four ⟨10, 10, none, .const 0⟩ (.ofTuning ⟨1000, 4, 0, 100⟩)).run
        Audit.none [.halt]
      let x ← l.planner.append m [] l.dispatcher
      return (l, x)).toOption.any (fun y : Pipeline 4 × Bool × Planner × Idle 4 Scribe ×
          Dispatcher 4 Scribe =>
        y.1.dispatcher.halted && y.2.1 && decide (y.2.2.1.position = m.target) &&
          decide (m.target ≠ y.1.planner.position) && y.2.2.2.2.ring.isEmpty) = true :=
    ⟨⟨⟨4, -1, 0⟩, 20, 1, .const 0⟩, by decide +kernel⟩
  obtain ⟨⟨l, x⟩, hok, htest⟩ := Fault.exists_eq_ok htest
  obtain ⟨_, hrun, hok⟩ := Fault.bind_eq_ok.mp hok
  obtain ⟨_, happend, hok⟩ := Fault.bind_eq_ok.mp hok
  cases hok
  simp only [Bool.and_eq_true, decide_eq_true_iff] at htest
  obtain ⟨⟨⟨⟨hhalted, hmoved⟩, hposition⟩, htarget⟩, hempty⟩ := htest
  exact ⟨l, m, x, hrun, happend, hmoved, hposition, htarget, hempty,
    fun sent head hsends => hsends.eq_nil_of_halted hhalted⟩

end Pipeline

end MotionControl
