import MotionControl.Proofs.Motion.Groups
import MotionControl.Proofs.Motion.Stopping

/-!
# Halts

A halt stops all actuators and drops the segment that is being prepared. It takes effect with the
next tick, in whatever state it finds the machine: a segment under execution always has steps left
on some actuator, so the stop cuts it short, and with it everything that is pending goes
(`Plant.Orderly.tick_of_halted`). From then on nothing gets past the halt until it is left or the
stops are taken back: the main loop publishes nothing and does not let the ring run, and the
interrupt begins nothing (`Moment.After.halted`).

It is the tick that discards what is pending. If the halt is left before one has come, the machine
goes on as if nothing had happened, and only a tick in between makes sure that nothing of what was
halted is ever seen again.
-/

namespace MotionControl

variable {n : Nat}

/-! ## The next tick -/

namespace Plant

/-- All motion has ended: nothing is executed and nothing is pending, and nobody is told. -/
structure Ceased (p p' : Plant n Stepper) : Prop where
  /-- nothing is published -/
  events_eq : p'.events = p.events
  /-- nothing is executed -/
  current_eq : p'.side.current = none
  /-- nothing is pending -/
  emptied : p'.ring.Emptied
  /-- nothing has been published to the ring -/
  head_eq : p'.ring.head = p.ring.head
  /-- the stops stay latched -/
  stop_eq : p'.stop = p.stop

/-- The next tick makes no step and ends all motion. -/
def Ceases (p : Plant n Stepper) : Prop := ∃ p', p.tick = .ok (.idle, p') ∧ p.Ceased p'

theorem Ceased.isBusy_eq {p p' : Plant n Stepper} (h : p.Ceased p') : p'.side.isBusy = false := by
  rw [Stepper.isBusy, h.current_eq]
  rfl

theorem ceased_cancel (p : Plant n Stepper) : p.Ceased p.cancel :=
  ⟨rfl, rfl, p.ring.emptied_abort, rfl, rfl⟩

/-- With all actuators stopped, a tick ends all motion. -/
theorem Orderly.tick_of_halted {p : Plant n Stepper} {held : List Nat} {q : Fifo}
    (h : p.Orderly (fun s => s.load.Sound) held q) (hstop : ∀ a, p.stop.has a = true) :
    p.Ceases := by
  have hactive : p.stop.isActive = true := StopMask.isActive_of_has (hstop .alpha)
  cases hc : p.side.current with
  | none =>
    refine ⟨_, tick_of_still hc hactive, ?_⟩
    split
    · exact ⟨rfl, hc, p.ring.emptied_abort, rfl, rfl⟩
    · next hpending =>
      -- a ring with nothing pending does not run
      refine ⟨rfl, hc, ⟨Bool.eq_false_iff.mpr hpending, Bool.eq_false_iff.mpr fun hrun => ?_⟩, rfl,
        rfl⟩
      rw [h.attended.holds.running_eq] at hrun
      exact hpending (h.attended.holds.hasPending_iff.mpr (h.attended.pending hrun))
  | some t =>
    obtain ⟨s, -, htracks⟩ := h.tracks hc
    obtain ⟨-, a, ha⟩ := t.not_isComplete_iff.mp htracks.unfinished
    -- some steps are left, and now they are cut off
    have hcut : t.isCutBy p.stop.bits = true := by
      rw [← Bool.not_eq_false, Traversal.isCutBy_eq_false_iff]
      exact fun hspared => ha (hspared a (hstop a))
    have hint : (t.cut p.stop.bits).interrupted = true := by
      rw [Traversal.cut, hcut, Bool.or_true]
    have hdone : (t.cut p.stop.bits).isComplete = true := by
      rw [← Bool.not_eq_false]
      intro hmore
      obtain ⟨-, b, hb⟩ := (Traversal.not_isComplete_iff _).mp hmore
      rw [Traversal.cut, PerAxis.get_ofFn] at hb
      exact hb (if_pos (hstop b))
    refine ⟨p.cancel, ?_, p.ceased_cancel⟩
    rw [tick_of_busy hc, traverse, hactive, hint, hdone]
    rfl

/-- For a tick that makes no step there is nothing to note. -/
theorem recordTick_of_idle {p : Plant n Scribe} {q : Plant n Stepper}
    (htick : p.strip.tick = .ok (.idle, q)) : ∃ p', p.recordTick = .ok p' ∧ p'.strip = q ∧
      p'.side.told = p.side.told ∧ p'.side.count = p.side.count := by
  cases hready : p.strip.prepare with
  | error e =>
    rw [tick_eq_prepare, hready] at htick
    cases htick
  | ok ready =>
    refine ⟨q.dress (p.side.note q.side ready.events.toList .idle), ?_, rfl, rfl, rfl⟩
    rw [recordTick, hready, htick]
    rfl

theorem news_of_quiet {es : List Event} (h : ∀ e ∈ es, e.kind = .speedChanged) :
    news (es.map .event) = [] := by
  refine List.filter_eq_nil_iff.mpr fun x hx => ?_
  obtain ⟨e, he, rfl⟩ := List.mem_map.mp hx
  have hkind := h e he
  cases e with
  | speedChanged => exact Bool.false_ne_true
  | _ => cases hkind

/-- From one plant to another nothing has been published to the ring, and nothing has been seen of
any segment. -/
structure Hushed (p p' : Plant n Scribe) : Prop where
  /-- nothing has been published to the ring -/
  head_eq : p'.ring.head = p.ring.head
  /-- nothing has been seen of any segment -/
  quiet : ∃ hs, p'.log = p.log ++ hs ∧ news hs = []

theorem Hushed.news_eq {p p' : Plant n Scribe} (h : p.Hushed p') : news p'.log = news p.log := by
  obtain ⟨hs, hlog, hquiet⟩ := h.quiet
  rw [hlog, news_append, hquiet, List.append_nil]

end Plant

/-! ## Until the halt is left -/

namespace Moment

/-- The machine has been halted since it was a certain plant. -/
structure Halted (p : Plant n Scribe) (m : Moment n) : Prop where
  /-- it is still halted -/
  halted : m.halted = true
  /-- all actuators are stopped -/
  stopped : ∀ a, m.plant.stop.has a = true
  /-- the record is one of this plant -/
  counted : m.plant.Counted
  /-- nothing has happened since -/
  hushed : p.Hushed m.plant

variable {m₀ m m' : Moment n} {p : Plant n Scribe}

theorem Halted.unseen (h : m.Halted p) (hhalted : m'.halted = true)
    (hstopped : ∀ a, m'.plant.stop.has a = true) (hhead : m'.plant.ring.head = m.plant.ring.head)
    {es : List Event} (hevents : m'.plant.events.toList = m.plant.events.toList ++ es)
    (htold : m'.plant.side.told = m.plant.side.told)
    (hcount : m'.plant.side.count = m.plant.side.count) (hnews : news (es.map .event) = []) :
    m'.Halted p := by
  obtain ⟨hcounted, hlog⟩ := Plant.log_of_events h.counted m'.plant hevents htold hcount
  obtain ⟨hs, hseen, hquiet⟩ := h.hushed.quiet
  refine ⟨hhalted, hstopped, hcounted, hhead.trans h.hushed.head_eq, hs ++ es.map .event, ?_, ?_⟩
  · rw [hlog, hseen, List.append_assoc]
  · rw [news_append, hquiet, hnews]
    rfl

theorem Halted.silent (h : m.Halted p) (hhalted : m'.halted = true)
    (hstopped : ∀ a, m'.plant.stop.has a = true) (hhead : m'.plant.ring.head = m.plant.ring.head)
    (hevents : m'.plant.events = m.plant.events) (htold : m'.plant.side.told = m.plant.side.told)
    (hcount : m'.plant.side.count = m.plant.side.count) : m'.Halted p :=
  h.unseen hhalted hstopped hhead (by rw [hevents, List.append_nil]) htold hcount rfl

theorem Deed.halted (hd : Deed (fun s => s.load.Sound) False m m')
    (h : Plant.Reachable (fun s => s.load.Sound) m.held m.plant.strip) (hm : m.Halted p) :
    m'.Halted p := by
  cases hd with
  | publish hactive =>
    rw [hm.halted] at hactive
    cases hactive
  | run hactive =>
    rw [hm.halted] at hactive
    cases hactive
  | work hw hstill => exact hm.silent hm.halted hm.stopped hstill.head_eq rfl rfl rfl
  | wakeUp => exact hm.unseen hm.halted hm.stopped rfl Array.toList_push rfl rfl rfl
  | halt => exact hm.silent rfl StopMask.has_halt rfl rfl rfl rfl
  | clearHalt hlowers => exact hlowers.elim
  | setPosition position => exact hm.silent hm.halted hm.stopped rfl rfl rfl rfl
  | @beat b p' hb hlowers =>
    cases b with
    | step =>
      obtain ⟨q, hq⟩ := h.orderly
      obtain ⟨p₁, htick, hceased⟩ := hq.tick_of_halted hm.stopped
      obtain ⟨p₂, hrecord, hstrip, htold, hcount⟩ := Plant.recordTick_of_idle htick
      rw [show m.plant.recordTick = .ok p' from hb] at hrecord
      cases hrecord
      refine hm.silent hm.halted ?_ ?_ ?_ htold hcount
      · change ∀ a, p'.strip.stop.has a = true
        rw [hstrip, hceased.stop_eq]
        exact hm.stopped
      · change p'.strip.ring.head = _
        rw [hstrip, hceased.head_eq]
        rfl
      · change p'.strip.events = _
        rw [hstrip, hceased.events_eq]
        rfl
    | ramp =>
      cases hb
      obtain ⟨es, hevents, hquiet⟩ := Plant.Quiet.rampTick m.plant.strip
      refine hm.unseen hm.halted ?_ ?_ hevents rfl rfl (Plant.news_of_quiet hquiet)
      · change ∀ a, m.plant.strip.rampTick.stop.has a = true
        rw [Plant.stop_rampTick]
        exact hm.stopped
      · exact congrArg Ring.head m.plant.strip.ring_rampTick
    | trigger i =>
      cases hb
      refine hm.silent hm.halted (fun a => ?_) rfl rfl rfl rfl
      exact Beat.has_leaves (b := .trigger i) (hm.stopped a) (by simp)
    | rearm => exact (hlowers rfl).elim

/-- Nothing gets past a halt. -/
theorem After.halted (h : After (fun s => s.load.Sound) False m₀ m) (h₀ : m₀.Halted p) :
    m.Halted p := by
  induction h with
  | start _ => exact h₀
  | deed h hdeed ih => exact hdeed.halted h.reachable ih

end Moment

/-! ## Whole runs -/

namespace Pipeline

variable {l : Pipeline n}

/-- A pipeline that has just been halted. -/
def halt (l : Pipeline n) : Pipeline n := { l with dispatcher := l.dispatcher.halt }

theorem call_halt (l : Pipeline n) (audit : Audit n) : l.call audit .halt = .ok l.halt := rfl

theorem Serves.halt (h : l.Serves fun s => s.load.Sound) :
    l.halt.Serves fun s => s.load.Sound :=
  (h.setStop .halt).work (.write Load.sound_empty)

theorem halted_halt (hcounted : l.plant.Counted) : l.halt.moment.Halted l.plant where
  halted := rfl
  stopped := StopMask.has_halt
  counted := hcounted
  hushed := ⟨rfl, [], (List.append_nil _).symm, rfl⟩

/-- Between two errands a pipeline keeps its record. -/
theorem counted_of_errands {len : Nat} {ring : Ring n} (hring : Ring.new n len = .ok ring)
    {stepper : Stepper} (hidle : stepper.isBusy = false) {planner : Planner} {es : List Errand}
    (hes : ∀ e ∈ es, e.Writes fun s => s.load.Sound)
    (hrun : (ofRing ring stepper planner).errands Audit.none es = .ok l) :
    (l.Serves fun s => s.load.Sound) ∧ l.plant.Counted := by
  have hstart : (ofRing ring stepper planner).Follows (fun s => s.load.Sound) True
      (ofRing ring stepper planner).moment := (serves_ofRing hring hidle planner).follows
  have hafter := errands_after Segment.closed_sound Audit.holds_none.after
    (fun e he => ⟨hes e he, fun _ => trivial⟩) hstart
  rw [hrun] at hafter
  obtain ⟨past, hm⟩ := hafter
  exact ⟨hm.reachable, (hm.chronicled (chronicled_ofRing hring hidle planner)).counted⟩

/-- From a halt on, whatever the main loop does and the interrupt does meanwhile, the next tick
makes no step and ends all motion, nothing is published to the ring, and nothing is seen of any
segment, until the halt is left or the stops are taken back. -/
theorem halted_of_errands {len : Nat} {ring : Ring n} (hring : Ring.new n len = .ok ring)
    {stepper : Stepper} (hidle : stepper.isBusy = false) {planner : Planner} {es : List Errand}
    (hes : ∀ e ∈ es, e.Writes fun s => s.load.Sound)
    (hrun : (ofRing ring stepper planner).errands Audit.none es = .ok l) {es' : List Errand}
    (hes' : ∀ e ∈ es', (e.Writes fun s => s.load.Sound) ∧ ¬ e.Lowers) :
    Fault.Blameless (fun l' => l'.plant.strip.Ceases ∧ l.plant.Hushed l'.plant)
      (l.halt.errands (.of fun p => p.strip.Ceases ∧ l.plant.Hushed p) es') := by
  obtain ⟨hserves, hcounted⟩ := counted_of_errands hring hidle hes hrun
  have hstart : l.halt.Follows (fun s => s.load.Sound) False l.halt.moment := hserves.halt.follows
  refine errands_of_after Segment.closed_sound (fun m hm => ?_) hes' hstart
  have hhalted := hm.halted (halted_halt hcounted)
  obtain ⟨q, hq⟩ := hm.reachable.orderly
  exact ⟨hq.tick_of_halted hhalted.stopped, hhalted.hushed⟩

/-- A pipeline in the middle of a move, with another move and a command behind it. -/
def halfway : Except Fault (Pipeline 4) :=
  (ofRing .four ⟨10, 10, none, .const 0⟩
    (.ofTuning ⟨1000, 4, 0, 100⟩)).errands Audit.none
    [.call (.append ⟨⟨3, -1, 0⟩, 20, 1, .const 0⟩ [] [] []),
      .call (.append ⟨⟨5, -1, 0⟩, 20, 1, .const 0⟩ [] [] []),
      .call (.command ⟨"M106", by decide⟩ []), .call .ensureRunning,
      .call (.beats [.step, .step, .trigger 1])]

/-- Neither new moves and commands nor waits and housekeeping get past a halt. -/
theorem halted_halfway : ∃ (l : Pipeline 4) (es : List Errand), halfway = .ok l ∧
    l.plant.side.stepper.isBusy = true ∧ l.plant.ring.pending = 2 ∧
    (l.halt.errands Audit.none es).isOk = true ∧ es.length = 9 ∧
    Fault.Blameless (fun l' => l'.plant.strip.Ceases ∧ l.plant.Hushed l'.plant)
      (l.halt.errands (.of fun p => p.strip.Ceases ∧ l.plant.Hushed p) es) := by
  obtain ⟨es, hes, hlength, hrun⟩ : ∃ es : List Errand,
      (∀ e ∈ es, (e.Writes fun s => s.load.Sound) ∧ ¬ e.Lowers) ∧ es.length = 9 ∧
      (halfway.toOption.any fun l => l.plant.side.stepper.isBusy && l.plant.ring.pending == 2 &&
        (l.halt.errands Audit.none es).isOk) = true :=
    ⟨[.call (.append ⟨⟨9, -1, 0⟩, 20, 1, .const 0⟩ [[], [.step]] [.trigger 0] [.step]),
      .call (.command ⟨"M107", by decide⟩ []), .queueHead [], .call .onMainLoop,
      .call .ensureRunning, .call (.beats [.ramp, .step, .trigger 0]), .call (.hold [.step]),
      .call .onIdle, .call (.flush [[.step], [], [.step]])],
      by simp [Errand.Writes, Errand.Lowers, Call.Lowers], rfl, by decide +kernel⟩
  obtain ⟨l, hl, htest⟩ := Fault.exists_eq_ok hrun
  simp only [Bool.and_eq_true, beq_iff_eq] at htest
  exact ⟨l, es, hl, htest.1.1, htest.1.2, htest.2, hlength,
    halted_of_errands Ring.new_four rfl (by simp [Errand.Writes]) hl hes⟩

/-- A tick between a halt and its end makes sure that nothing of what was halted comes back: up to
the tick nothing is seen of any segment, then nothing is pending, and whatever is seen later belongs
to segments published since. -/
theorem tells_of_tick_after_halt {len : Nat} {ring : Ring n} (hring : Ring.new n len = .ok ring)
    {stepper : Stepper} (hidle : stepper.isBusy = false) {planner : Planner} {es : List Errand}
    (hes : ∀ e ∈ es, e.Writes fun s => s.load.Sound)
    (hrun : (ofRing ring stepper planner).errands Audit.none es = .ok l) {es₁ : List Errand}
    (hes₁ : ∀ e ∈ es₁, (e.Writes fun s => s.load.Sound) ∧ ¬ e.Lowers) {l₁ : Pipeline n}
    (hrun₁ : l.halt.errands Audit.none es₁ = .ok l₁) :
    ∃ l₂, l₁.call Audit.none (.beats [.step]) = .ok l₂ ∧ l.plant.Hushed l₂.plant ∧
      l₂.plant.side.stepper.isBusy = false ∧ l₂.plant.ring.Emptied ∧
      ∀ es₂ : List Errand, (∀ e ∈ es₂, e.Writes fun s => s.load.Sound) →
        Fault.Blameless (fun l₃ => l₂.Tells l₃.plant) (l₂.errands (.of l₂.Tells) es₂) := by
  obtain ⟨hserves, hcounted⟩ := counted_of_errands hring hidle hes hrun
  have hstart : l.halt.Follows (fun s => s.load.Sound) False l.halt.moment := hserves.halt.follows
  have hafter := errands_after Segment.closed_sound Audit.holds_none.after hes₁ hstart
  rw [hrun₁] at hafter
  obtain ⟨past, hm⟩ := hafter
  obtain ⟨q, hq⟩ := hm.reachable.orderly
  obtain ⟨p, htick, hceased⟩ := hq.tick_of_halted (hm.halted (halted_halt hcounted)).stopped
  obtain ⟨p', hrecord, rfl, -⟩ := Plant.recordTick_of_idle htick
  have hbeat : l₁.plant.beat .step = .ok p' := hrecord
  have hm' := hm.deed (.beat hbeat fun h => by cases h)
  have hhalted := hm'.halted (halted_halt hcounted)
  obtain ⟨l₂, hcall, rfl⟩ : ∃ l₂, l₁.call Audit.none (.beats [.step]) = .ok l₂ ∧
      l₂.plant = p' := by
    have hbeats : l₁.audited Audit.none [.step] l₁.plant = .ok p' :=
      congrArg (· >>= Plant.beats (Audit.none l₁.planner.position l₁.accepted) []) hbeat
    exact ⟨_, by rw [call, onPlant, hbeats]; rfl, rfl⟩
  have hserves₂ : l₂.Serves fun s => s.load.Sound := hm'.reachable
  have hl₂ : l₂.moment.Chronicled (news l₂.plant.log) :=
    .start l₂.moment hhalted.counted hceased.current_eq hceased.emptied.hasPending rfl
  exact ⟨l₂, hcall, hhalted.hushed, hceased.isBusy_eq, hceased.emptied,
    fun es₂ hes₂ => tells_of_serves hserves₂ hl₂ hes₂⟩

/-- After the tick a new move is all that is seen. -/
theorem tells_halfway : ∃ l l₁ l₂ : Pipeline 4, halfway = .ok l ∧
    l.halt.errands Audit.none [.call .ensureRunning] = .ok l₁ ∧
    l₁.call Audit.none (.beats [.step]) = .ok l₂ ∧ l.plant.Hushed l₂.plant ∧
    Fault.Blameless (fun l₃ => l₂.Tells l₃.plant) (l₂.errands (.of l₂.Tells)
      [.call .clearHalt, .call (.append ⟨⟨9, -1, 0⟩, 20, 1, .const 0⟩ [] [] []),
        .call .ensureRunning, .call (.beats [.step, .step])]) := by
  have hrun : (halfway.toOption.any fun l =>
      (l.halt.errands Audit.none [.call .ensureRunning]).toOption.any fun l₁ =>
        l₁.plant.ring.pending == 2) = true := by decide +kernel
  obtain ⟨l, hl, htest⟩ := Fault.exists_eq_ok hrun
  obtain ⟨l₁, hl₁, -⟩ := Fault.exists_eq_ok htest
  obtain ⟨l₂, hcall, hhushed, -, -, htells⟩ := tells_of_tick_after_halt Ring.new_four rfl
    (by simp [Errand.Writes]) hl (by simp [Errand.Writes, Errand.Lowers, Call.Lowers]) hl₁
  exact ⟨l, l₁, l₂, hl, hl₁, hcall, hhushed, htells _ (by simp [Errand.Writes])⟩

/-- If the halt is left before a tick has come, everything goes on: although nothing has been
published since, the move under execution is completed, and the one behind it begins and ends. -/
theorem goes_on_without_tick : ∃ l l' : Pipeline 4, halfway = .ok l ∧
    l.halt.errands Audit.none [.call .clearHalt, .call (.beats [.step, .step, .step, .step])] =
      .ok l' ∧ l'.plant.ring.head = l.plant.ring.head ∧ ¬ l.plant.Hushed l'.plant ∧
    (l'.plant.events.toList.drop l.plant.events.size).map Event.kind =
      [.ended, .began, .speedChanged, .commandDue, .ended] := by
  have hrun : (halfway.toOption.any fun l => (l.halt.errands Audit.none
      [.call .clearHalt, .call (.beats [.step, .step, .step, .step])]).toOption.any fun l' =>
        l'.plant.ring.head == l.plant.ring.head &&
        (news l'.plant.log).length != (news l.plant.log).length &&
        (l'.plant.events.toList.drop l.plant.events.size).map Event.kind ==
          [.ended, .began, .speedChanged, .commandDue, .ended]) = true := by decide +kernel
  obtain ⟨l, hl, htest⟩ := Fault.exists_eq_ok hrun
  obtain ⟨l', hl', htest'⟩ := Fault.exists_eq_ok htest
  simp only [Bool.and_eq_true, beq_iff_eq, bne_iff_ne] at htest'
  refine ⟨l, l', hl, hl', htest'.1.1, fun hhushed => htest'.1.2 ?_, htest'.2⟩
  rw [hhushed.news_eq]

end Pipeline

end MotionControl
