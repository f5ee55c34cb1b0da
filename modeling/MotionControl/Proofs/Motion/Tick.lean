import MotionControl.Proofs.Motion.Flow

/-!
# What a tick does to the flow

Every function of the stepper is described once: it keeps stepper and ring coupled, it leaves the
stop mask and the segment being prepared alone, and as long as no stop is latched it takes the
flow along `Flow.Steps`. The only way for a tick to fail is a step out of the word of a position.
-/

namespace MotionControl.Plant

variable {n : Nat}

/-- A plant after some of its interrupt's work, with the events published meanwhile. -/
structure Outcome (p : Plant n Stepper) (held : List Nat) (q : Fifo) (p' : Plant n Stepper)
    (q' : Fifo) (es : List Event) : Prop where
  /-- stepper and ring are coupled -/
  coupled : p'.Coupled held q'
  /-- the interrupt does not touch the stop mask -/
  stop_eq : p'.stop = p.stop
  /-- the interrupt does not touch the segment being prepared -/
  head_eq : q'.head = q.head
  /-- the interrupt does not touch the request to flush -/
  flush_eq : q'.flush = q.flush
  /-- these events are published -/
  events_eq : p'.events.toList = p.events.toList ++ es

/-- No stop is latched, and segments are not skipped. -/
structure Calm (p : Plant n Stepper) (q : Fifo) : Prop where
  /-- no stop is latched -/
  clear : p.stop.isActive = false
  /-- segments are not skipped -/
  unflushed : q.flush = false

theorem Outcome.refl {p : Plant n Stepper} {held : List Nat} {q : Fifo} (h : p.Coupled held q) :
    p.Outcome held q p q [] :=
  ⟨h, rfl, rfl, rfl, (List.append_nil _).symm⟩

theorem Outcome.trans {p p' p'' : Plant n Stepper} {held : List Nat} {q q' q'' : Fifo}
    {es es' : List Event} (h : p.Outcome held q p' q' es) (h' : p'.Outcome held q' p'' q'' es') :
    p.Outcome held q p'' q'' (es ++ es') :=
  ⟨h'.coupled, h'.stop_eq.trans h.stop_eq, h'.head_eq.trans h.head_eq,
    h'.flush_eq.trans h.flush_eq, by rw [h'.events_eq, h.events_eq, List.append_assoc]⟩

theorem Outcome.calm {p p' : Plant n Stepper} {held : List Nat} {q q' : Fifo} {es : List Event}
    (h : p.Outcome held q p' q' es) (hcalm : p.Calm q) : p'.Calm q' :=
  ⟨by rw [h.stop_eq]; exact hcalm.clear, by rw [h.flush_eq]; exact hcalm.unflushed⟩

/-! ## Between two segments -/

theorem publishCompletion_eq (p : Plant n Stepper) (s : Segment) :
    ∃ events : Array Event, p.publishCompletion s = { p with events := events } ∧
      events.toList = p.events.toList ++ s.completion := by
  have hfold : ∀ (cs : List Command) (p : Plant n Stepper), ∃ events : Array Event,
      cs.foldl (fun p c => p.publish (.commandDue c)) p = { p with events := events } ∧
        events.toList = p.events.toList ++ cs.map Event.commandDue := by
    intro cs
    induction cs with
    | nil => exact fun p => ⟨p.events, rfl, by simp⟩
    | cons c cs ih =>
      intro p
      obtain ⟨events, heq, hevents⟩ := ih (p.publish (.commandDue c))
      refine ⟨events, heq, ?_⟩
      rw [hevents]
      simp [Plant.publish]
  obtain ⟨events, heq, hevents⟩ := hfold s.commands.toList p
  refine ⟨events.push (.ended s), ?_, ?_⟩
  · rw [publishCompletion, heq]
    rfl
  · rw [Array.toList_push, hevents, List.append_assoc]
    rfl

/-- A segment with motion that has begun is executed. -/
theorem execute_eq {p : Plant n Stepper} {held : List Nat} {q : Fifo} {slot : Nat}
    (h : p.Poised held q (some slot)) {s : Segment} {rest : List Slot}
    (hp : q.pending = ⟨s, .executing⟩ :: rest) (hm : s.hasMotion = true) :
    ∃ es, p.Outcome held q (p.execute slot s) q es ∧
      (q.restingFlow p.side.position).Steps (es.map .event) (p.execute slot s).flow := by
  have hcoupled : (p.execute slot s).Coupled held q := by
    refine ⟨h.holds, h.begun_eq, ?_⟩
    intro t ht
    cases ht
    exact h.slot_eq slot rfl
  obtain ⟨t, ht, hcourse⟩ : ∃ t, (p.execute slot s).side.current = some t ∧
      (Traversal.ofSegment slot s).SameCourse t := ⟨_, rfl, rfl⟩
  refine ⟨[.began s, .speedChanged (Single.ceilCount (p.side.entryRate s)) s.nominalRate],
    ⟨hcoupled, rfl, rfl, rfl, ?_⟩, ?_⟩
  · simp [execute, runAt, publish, setCurrent, Traversal.ofSegment]
  · have hloads : q.loads = s.load :: rest.map fun e => e.segment.load := by
      rw [Fifo.loads, hp, List.map_cons]
    rw [hcoupled.flow_of_busy ht hp]
    exact (Flow.Step.start (f := q.restingFlow p.side.position) rfl hloads hm hcourse).steps

theorem passCarriers_eq {fuel : Nat} {next : Option Nat} {p : Plant n Stepper}
    {held : List Nat} {q : Fifo} (h : p.Poised held q next) (hfuel : q.pending.length < fuel) :
    ∃ p' q' es, passCarriers fuel next p = .ok p' ∧ p.Outcome held q p' q' es ∧
      (q.flush = false → (q.restingFlow p.side.position).Steps (es.map .event) p'.flow) := by
  -- on the fuel, which stays above the number of pending segments: each carrier passed is one less
  induction fuel generalizing next p q with
  | zero => exact absurd hfuel (Nat.not_lt_zero _)
  | succ fuel ih =>
    cases next with
    | none =>
      have hcoupled : (p.setCurrent none).Coupled held q :=
        ⟨h.holds, h.begun_eq, fun t ht => by cases ht⟩
      refine ⟨_, q, [], rfl, ⟨hcoupled, rfl, rfl, rfl, (List.append_nil _).symm⟩, fun _ => ?_⟩
      rw [hcoupled.flow_of_rest rfl]
      exact .refl _
    | some slot =>
      obtain ⟨s, rest, hp⟩ := Fifo.pending_of_begun h.begun_eq
      have hslot := h.slot_eq slot rfl
      have hexec : p.ring.executing slot = .ok s := by
        rw [hslot]
        exact h.holds.executing_front hp
      by_cases hm : s.hasMotion = true
      · obtain ⟨es, hout, hsteps⟩ := execute_eq h hp hm
        refine ⟨_, q, es, ?_, hout, fun _ => hsteps⟩
        simp only [passCarriers, hexec, bind, Except.bind, hm, if_true]
        rfl
      · -- a carrier is over at once
        obtain ⟨next', r', q₁, hr', hholds, hbegun, hslots, hloads, hlt, hhead, hflush⟩ :=
          h.holds.release_eq h.begun_eq
        obtain ⟨events, hcompletion, hevents⟩ := p.publishCompletion_eq s
        have hpoised : ({ p with ring := r', events := events } : Plant n Stepper).Poised held q₁
            next' := ⟨hholds, hbegun, hslots⟩
        obtain ⟨p', q', es, hok, hout, hsteps⟩ := ih hpoised (by omega)
        refine ⟨p', q', s.completion ++ es, ?_, ?_, ?_⟩
        · rw [hslot] at hexec ⊢
          simp only [passCarriers, hexec, bind, Except.bind, hm, hcompletion, hr']
          exact hok
        · refine ⟨hout.coupled, hout.stop_eq, hout.head_eq.trans hhead,
            hout.flush_eq.trans hflush, ?_⟩
          rw [hout.events_eq, ← List.append_assoc, ← hevents]
        · intro hf
          have hwaiting : q.loads = s.load :: rest.map fun e => e.segment.load := by
            rw [Fifo.loads, hp, List.map_cons]
          have hnext : q₁.restingFlow p.side.position =
              { q.restingFlow p.side.position with
                waiting := rest.map fun e => e.segment.load } := by
            rw [Fifo.restingFlow, hloads hf, hwaiting, hhead]
            rfl
          have hrest := hsteps (by rw [hflush]; exact hf)
          rw [List.map_append]
          refine .cons (.pass (f := q.restingFlow p.side.position) rfl hwaiting
            (Bool.eq_false_iff.mpr hm)) ?_
          rw [← hnext]
          exact hrest

theorem cancel_coupled {p : Plant n Stepper} {held : List Nat} {q : Fifo}
    (h : p.ring.Holds held q) : p.cancel.Coupled held q.abort :=
  ⟨h.abort, rfl, fun t ht => by cases ht⟩

/-- Whatever has begun is executed in the end, unless a stop is latched. -/
theorem advance_eq {next : Option Nat} {p : Plant n Stepper} {held : List Nat} {q : Fifo}
    (h : p.Poised held q next) :
    ∃ p' q' es, advance next p = .ok p' ∧ p.Outcome held q p' q' es ∧
      (p.Calm q → (q.restingFlow p.side.position).Steps (es.map .event) p'.flow) := by
  unfold advance
  by_cases hstop : (next.isSome && p.stop.isActive) = true
  · rw [if_pos hstop]
    refine ⟨_, q.abort, [], rfl, ⟨cancel_coupled h.holds, rfl, rfl, rfl,
      (List.append_nil _).symm⟩, ?_⟩
    intro hcalm
    rw [hcalm.clear, Bool.and_false] at hstop
    cases hstop
  · rw [if_neg hstop]
    have hlen := h.holds.head_place_lt
    have hbuilt := p.ring.len_le
    -- there is fuel for every slot that is built in
    have hfuel : q.pending.length < n + 2 := by omega
    obtain ⟨p', q', es, hok, hout, hsteps⟩ := passCarriers_eq h hfuel
    exact ⟨p', q', es, hok, hout, fun hcalm => hsteps hcalm.unflushed⟩

/-- Completing a segment runs its commands, and goes on with what waits behind it. -/
theorem complete_eq {p : Plant n Stepper} {held : List Nat} {q : Fifo} {t : Traversal}
    (h : p.Coupled held q) (hc : p.side.current = some t) {s : Segment} {rest : List Slot}
    (hp : q.pending = ⟨s, .executing⟩ :: rest) :
    ∃ p' q' es, p.complete t = .ok p' ∧ p.Outcome held q p' q' (s.completion ++ es) ∧
      (p.Calm q → Flow.Steps ⟨none, rest.map fun e => e.segment.load, q.head.load,
        p.side.position⟩ (es.map .event) p'.flow) := by
  have hbegun := h.begun_of_busy hc
  have hexec : p.ring.executing t.slot = .ok s := by
    rw [h.slot_eq t hc]
    exact h.holds.executing_front hp
  obtain ⟨next, r', q₁, hr', hholds, hbegun₁, hslots, hloads, -, hhead, hflush⟩ :=
    h.holds.release_eq hbegun
  obtain ⟨events, hcompletion, hevents⟩ := (p.setCurrent none).publishCompletion_eq s
  have hpoised : ({ p.setCurrent none with ring := r', events := events } :
      Plant n Stepper).Poised held q₁ next := ⟨hholds, hbegun₁, hslots⟩
  obtain ⟨p', q', es, hok, hout, hsteps⟩ := advance_eq hpoised
  refine ⟨p', q', es, ?_, ?_, ?_⟩
  · have hslot := h.slot_eq t hc
    rw [hslot] at hexec
    have hexec : (p.setCurrent none).ring.executing p.ring.front = .ok s := hexec
    have hr' : (p.setCurrent none).ring.release p.ring.front = .ok (next, r') := hr'
    simp only [complete, hslot, hexec, bind, Except.bind, hcompletion, hr']
    exact hok
  · refine ⟨hout.coupled, hout.stop_eq, hout.head_eq.trans hhead, hout.flush_eq.trans hflush, ?_⟩
    rw [hout.events_eq, ← List.append_assoc]
    exact congrArg (· ++ es) hevents
  · intro hcalm
    have hrest := hsteps ⟨hcalm.clear, hflush.trans hcalm.unflushed⟩
    have hloads := hloads hcalm.unflushed
    rw [Fifo.loads, Fifo.loads, hp] at hloads
    rw [Fifo.restingFlow, Fifo.loads, hloads, hhead] at hrest
    exact hrest

/-! ## The beginning of a tick -/

/-- The part of a tick before the traversal is advanced: with nothing to execute, the next segment
begins. -/
def prepare (p : Plant n Stepper) : Except Fault (Plant n Stepper) :=
  match p.side.current with
  | some _ => .ok p
  | none =>
    if p.stop.isActive then .ok (if p.ring.hasPending then p.abort else p) else p.beginNext

theorem tick_eq_prepare (p : Plant n Stepper) : p.tick = (do
    let ready ← p.prepare
    match ready.side.current with
    | some t => ready.traverse t
    | none => return (.idle, ready)) := by
  unfold tick prepare
  cases hc : p.side.current with
  | some t => simp only [bind, Except.bind, hc]
  | none =>
    dsimp only
    split
    · -- nothing begins while a stop is latched
      have hnone : (if p.ring.hasPending then p.abort else p).side.current = none := by
        split <;> exact hc
      simp only [bind, Except.bind, hnone]
      rfl
    · rfl

theorem beginNext_eq {p : Plant n Stepper} {held : List Nat} {q : Fifo} (h : p.Coupled held q)
    (hc : p.side.current = none) :
    ∃ p' q' es, p.beginNext = .ok p' ∧ p.Outcome held q p' q' es ∧
      (p.Calm q → p.flow.Steps (es.map .event) p'.flow) := by
  have hbegun := h.begun_of_idle hc
  have hnone : p.Poised held q none := ⟨h.holds, hbegun, fun i hi => by cases hi⟩
  rw [h.flow_of_rest hc]
  unfold beginNext Ring.start?
  split
  · next slot ring hstart =>
    split at hstart
    · obtain ⟨r', q₁, hr', hholds, hbegun₁, hfront, hloads, hhead, hflush⟩ | hr' :=
        h.holds.begin?_eq
      · rw [hr'] at hstart
        cases hstart
        have hpoised : ({ p with ring := ring } : Plant n Stepper).Poised held q₁
            (some p.ring.front) :=
          ⟨hholds, hbegun₁, fun i hi => by rw [← Option.some.inj hi]; exact hfront.symm⟩
        obtain ⟨p', q', es, hok, hout, hsteps⟩ := advance_eq hpoised
        refine ⟨p', q', es, hok, ⟨hout.coupled, hout.stop_eq, hout.head_eq.trans hhead,
          hout.flush_eq.trans hflush, hout.events_eq⟩, ?_⟩
        intro hcalm
        have hrest := hsteps ⟨hcalm.clear, hflush.trans hcalm.unflushed⟩
        rw [Fifo.restingFlow, hloads, hhead] at hrest
        exact hrest
      · rw [hr'] at hstart
        cases hstart
    · cases hstart
  · exact advance_eq hnone

theorem prepare_eq {p : Plant n Stepper} {held : List Nat} {q : Fifo} (h : p.Coupled held q) :
    ∃ p' q' es, p.prepare = .ok p' ∧ p.Outcome held q p' q' es ∧
      (p.Calm q → p.flow.Steps (es.map .event) p'.flow) := by
  unfold prepare
  cases hc : p.side.current with
  | some t => exact ⟨p, q, [], rfl, .refl h, fun _ => .refl _⟩
  | none =>
    dsimp only
    by_cases hstop : p.stop.isActive = true
    · rw [if_pos hstop]
      have hnot : p.Calm q → False := by
        intro hcalm
        rw [hcalm.clear] at hstop
        cases hstop
      split
      · have hcoupled : p.abort.Coupled held q.abort :=
          ⟨h.holds.abort, by rw [abort, Stepper.isBusy, hc]; rfl,
            fun t ht => by rw [abort, hc] at ht; cases ht⟩
        exact ⟨_, q.abort, [], rfl, ⟨hcoupled, rfl, rfl, rfl, (List.append_nil _).symm⟩,
          fun hcalm => (hnot hcalm).elim⟩
      · exact ⟨p, q, [], rfl, .refl h, fun _ => .refl _⟩
    · rw [if_neg hstop]
      exact beginNext_eq h hc

/-! ## The rest of a tick -/

/-- The part of `performEvent` after the step event: the traversal may be over. -/
def settle (p : Plant n Stepper) (t : Traversal) : Except Fault (Plant n Stepper) :=
  if t.isComplete then (if t.interrupted then .ok p.cancel else p.complete t) else .ok p

theorem performEvent_eq_settle (p : Plant n Stepper) (t : Traversal) :
    p.performEvent t = (do
      let position ← Stepper.movePosition p.side.position t.nextMask t.directions
      let struck : Plant n Stepper :=
        { p with side := { p.side with position := position, current := some t.stepEvent } }
      let settled ← struck.settle t.stepEvent
      return (⟨t.nextMask, t.directions⟩, settled)) := by
  unfold performEvent
  dsimp only
  congr 1
  funext position
  unfold settle
  split
  · split <;> rfl
  · rfl

/-- Settling a traversal ends a flow where completing its load does if it is over, and where the
flow is if it is not. -/
theorem settle_eq {p : Plant n Stepper} {held : List Nat} {q : Fifo} {t : Traversal}
    (h : p.Coupled held q) (hc : p.side.current = some t) {s : Segment} {rest : List Slot}
    (hp : q.pending = ⟨s, .executing⟩ :: rest) :
    ∃ p' q' es, p.settle t = .ok p' ∧ p.Outcome held q p' q' es ∧
      (p.Calm q → t.interrupted = false → ∀ (f : Flow) hs,
        (t.isComplete = true → f.Steps (hs ++ s.completion.map .event) ⟨none,
          rest.map fun e => e.segment.load, q.head.load, p.side.position⟩) →
        (t.isComplete = false → f.Steps hs p.flow) → f.Steps (hs ++ es.map .event) p'.flow) := by
  unfold settle
  by_cases hdone : t.isComplete = true
  · rw [if_pos hdone]
    by_cases hint : t.interrupted = true
    -- only a stop interrupts a traversal
    · rw [if_pos hint]
      refine ⟨_, q.abort, [], rfl,
        ⟨cancel_coupled h.holds, rfl, rfl, rfl, (List.append_nil _).symm⟩, ?_⟩
      intro _ hun
      rw [hint] at hun
      cases hun
    · rw [if_neg hint]
      obtain ⟨p', q', es, hok, hout, hsteps⟩ := complete_eq h hc hp
      refine ⟨p', q', s.completion ++ es, hok, hout, ?_⟩
      intro hcalm _ f hs hlast _
      have hall := (hlast hdone).trans (hsteps hcalm)
      rw [List.append_assoc, ← List.map_append] at hall
      exact hall
  · rw [if_neg hdone]
    refine ⟨p, q, [], rfl, .refl h, ?_⟩
    intro _ _ f hs _ hmore
    rw [List.map_nil, List.append_nil]
    exact hmore (Bool.eq_false_iff.mpr hdone)

/-- Performing a step event fails if it leads out of the word of a position. Otherwise the flow
goes on by that event, and completes the load if it was the last one. -/
theorem performEvent_eq {p : Plant n Stepper} {held : List Nat} {q : Fifo} {t₀ t : Traversal}
    (h : p.Coupled held q) (hc : p.side.current = some t₀) (hslot : t.slot = t₀.slot) :
    (∃ p' q' es, p.performEvent t = .ok (⟨t.nextMask, t.directions⟩, p') ∧
      p.Outcome held q p' q' es ∧
      (p.Calm q → t₀.SameCourse t → t.interrupted = false → p.flow.CanStrike →
        p.flow.Steps (StepOutput.happenings ⟨t.nextMask, t.directions⟩ ++ es.map .event)
          p'.flow)) ∨
      ∃ e, p.performEvent t = .error e ∧ (t₀.SameCourse t → ¬ p.flow.CanStrike) := by
  obtain ⟨s, rest, hp⟩ := h.exists_executing hc
  have hflow := h.flow_of_busy hc hp
  -- from a course that the flow can go on with, the positions are known to fit
  have hfits : t₀.SameCourse t → p.flow.CanStrike → ∃ position,
      Stepper.movePosition p.side.position t.nextMask t.directions = .ok position ∧
        ∀ a, (position.get a).toInt =
          (p.side.position.get a).toInt + Stepper.maskedStep t.nextMask t.directions a := by
    intro hcourse hcan
    apply Stepper.movePosition_eq_ok
    intro a
    rw [hflow] at hcan
    have hin := hcan t₀ s.load rfl a
    rw [hcourse]
    exact hin
  rw [performEvent_eq_settle]
  cases hmove : Stepper.movePosition p.side.position t.nextMask t.directions with
  | error e =>
    refine .inr ⟨e, rfl, fun hcourse hcan => ?_⟩
    obtain ⟨position, hok, -⟩ := hfits hcourse hcan
    rw [hmove] at hok
    cases hok
  | ok position =>
    dsimp only [bind, Except.bind]
    have hcoupled : ({ p with side := { p.side with
        position := position, current := some t.stepEvent } } : Plant n Stepper).Coupled held q :=
      h.proceed hc rfl rfl hslot
    obtain ⟨p', q', es, hok, hout, hsteps⟩ := settle_eq hcoupled rfl hp
    refine .inl ⟨p', q', es, by rw [hok]; rfl, ⟨hout.coupled, hout.stop_eq, hout.head_eq,
      hout.flush_eq, hout.events_eq⟩, fun hcalm hcourse hun hcan => ?_⟩
    obtain ⟨position', hok', hpos⟩ := hfits hcourse hcan
    rw [hmove] at hok'
    cases hok'
    -- the phase has proceeded since the flow was read, which is a turn of its own
    have hturn : p.flow.Steps [] ⟨some (t, s.load), rest.map fun e => e.segment.load, q.head.load,
        p.side.position⟩ := by
      rw [hflow]
      exact (Flow.Step.turn (f := ⟨some (t₀, s.load), _, _, _⟩) rfl hcourse).steps
    refine hsteps ⟨hcalm.clear, hcalm.unflushed⟩ hun p.flow _ (fun hdone => ?_) fun hmore => ?_
    · exact hturn.trans (Flow.Step.last (f := ⟨some (t, s.load), _, _, _⟩) rfl hpos hdone).steps
    · rw [hcoupled.flow_of_busy rfl hp]
      exact hturn.trans
        (Flow.Step.strike (f := ⟨some (t, s.load), _, _, _⟩) rfl hpos hmore).steps

theorem advancePhase_eq {p : Plant n Stepper} {held : List Nat} {q : Fifo} {t₀ t : Traversal}
    (h : p.Coupled held q) (hc : p.side.current = some t₀) (hslot : t.slot = t₀.slot) :
    (∃ o p' q' es, p.advancePhase t = .ok (o, p') ∧ p.Outcome held q p' q' es ∧
      (p.Calm q → t₀.SameCourse t → t.interrupted = false → p.flow.CanStrike →
        p.flow.Steps (o.happenings ++ es.map .event) p'.flow)) ∨
      ∃ e, p.advancePhase t = .error e ∧ (t₀.SameCourse t → ¬ p.flow.CanStrike) := by
  unfold advancePhase
  dsimp only
  split
  · obtain ⟨p', q', es, hok, hout, hsteps⟩ | ⟨e, herr, hnot⟩ :=
      performEvent_eq (t := t.advancePhase.wrapPhase) h hc hslot
    · exact .inl ⟨_, p', q', es, hok, hout, fun hcalm hcourse hun hcan =>
        hsteps hcalm (hcourse.trans rfl) hun hcan⟩
    · exact .inr ⟨e, herr, fun hcourse => hnot (hcourse.trans rfl)⟩
  · obtain ⟨s, rest, hp⟩ := h.exists_executing hc
    have hcoupled : (p.setCurrent (some t.advancePhase)).Coupled held q :=
      h.proceed hc rfl rfl hslot
    refine .inl ⟨.idle, _, q, [], rfl, ⟨hcoupled, rfl, rfl, rfl, (List.append_nil _).symm⟩, ?_⟩
    intro _ hcourse _ _
    have hcourse : t₀.SameCourse t.advancePhase := hcourse.trans rfl
    rw [h.flow_of_busy hc hp, hcoupled.flow_of_busy rfl hp]
    exact (Flow.Step.turn (f := ⟨some (t₀, s.load), _, _, _⟩) rfl hcourse).steps

theorem cut_of_clear {t : Traversal} {stop : StopMask} (h : stop.isActive = false) :
    t.cut stop.bits = t := by
  have hbits : stop.bits = 0 := by simpa [StopMask.isActive] using h
  have hin : ∀ a : Axis, a.isIn 0 = false := by
    intro a
    cases a <;> decide
  rcases t with ⟨slot, steps, ⟨x, y, z⟩⟩
  simp [hbits, Traversal.cut, Traversal.isCutBy, hin, PerAxis.ofFn, PerAxis.get]

theorem traverse_eq {p : Plant n Stepper} {held : List Nat} {q : Fifo} {t : Traversal}
    (h : p.Coupled held q) (hc : p.side.current = some t) :
    (∃ o p' q' es, p.traverse t = .ok (o, p') ∧ p.Outcome held q p' q' es ∧
      (p.Calm q → t.interrupted = false → p.flow.CanStrike →
        p.flow.Steps (o.happenings ++ es.map .event) p'.flow)) ∨
      ∃ e, p.traverse t = .error e ∧ (p.Calm q → ¬ p.flow.CanStrike) := by
  unfold traverse
  dsimp only
  split
  · next hstop =>
    refine .inl ⟨.idle, _, q.abort, [], rfl, ⟨cancel_coupled h.holds, rfl, rfl, rfl,
      (List.append_nil _).symm⟩, ?_⟩
    intro hcalm
    rw [hcalm.clear] at hstop
    cases hstop
  · have hcourse : p.Calm q → t.SameCourse (t.cut p.stop.bits) := by
      intro hcalm
      rw [cut_of_clear hcalm.clear]
      exact .refl t
    obtain ⟨o, p', q', es, hok, hout, hsteps⟩ | ⟨e, herr, hnot⟩ :=
      advancePhase_eq (t := t.cut p.stop.bits) h hc rfl
    · refine .inl ⟨o, p', q', es, hok, hout, fun hcalm hun hcan => ?_⟩
      have hun : (t.cut p.stop.bits).interrupted = false := by
        rw [cut_of_clear hcalm.clear]
        exact hun
      exact hsteps hcalm (hcourse hcalm) hun hcan
    · exact .inr ⟨e, herr, fun hcalm => hnot (hcourse hcalm)⟩

/-- A tick of the step timer. The events before the step of the tick are those that `prepare`
publishes; the tick fails only where the flow could not go on. -/
theorem tick_eq {p : Plant n Stepper} {held : List Nat} {q : Fifo} (h : p.Coupled held q) :
    (∃ ready o p' q' es es', p.prepare = .ok ready ∧
      ready.events.toList = p.events.toList ++ es ∧ p.tick = .ok (o, p') ∧
      p.Outcome held q p' q' (es ++ es') ∧
      (p.Calm q → (∀ f hs, p.flow.Steps hs f → f.CanStrike) →
        (∀ f hs t l, p.flow.Steps hs f → f.current = some (t, l) → t.interrupted = false) →
        p.flow.Steps (es.map .event ++ o.happenings ++ es'.map .event) p'.flow)) ∨
      ∃ e, p.tick = .error e ∧
        (p.Calm q → ∃ f hs, p.flow.Steps hs f ∧ ¬ f.CanStrike) := by
  obtain ⟨ready, q₁, es, hready, hout, hsteps⟩ := prepare_eq h
  rw [tick_eq_prepare, hready]
  dsimp only [bind, Except.bind]
  cases hc : ready.side.current with
  | none =>
    refine .inl ⟨ready, .idle, ready, q₁, es, [], rfl, hout.events_eq, rfl, ?_, ?_⟩
    · rw [List.append_nil]
      exact hout
    · intro hcalm _ _
      have := hsteps hcalm
      simpa [StepOutput.happenings, StepOutput.idle, StepOutput.hasSteps] using this
  | some t =>
    obtain ⟨o, p', q', es', hok, hout', hsteps'⟩ | ⟨e, herr, hnot⟩ :=
      traverse_eq hout.coupled hc
    · refine .inl ⟨ready, o, p', q', es, es', rfl, hout.events_eq, hok, hout.trans hout', ?_⟩
      intro hcalm hcan hun
      have hfirst := hsteps hcalm
      obtain ⟨s, rest, hp⟩ := hout.coupled.exists_executing hc
      have hflow := hout.coupled.flow_of_busy hc hp
      have huncut := hun _ _ t s.load hfirst (by rw [hflow])
      have hrest := hsteps' (hout.calm hcalm) huncut (hcan _ _ hfirst)
      rw [List.append_assoc]
      exact hfirst.trans hrest
    · exact .inr ⟨e, herr, fun hcalm => ⟨ready.flow, _, hsteps hcalm, hnot (hout.calm hcalm)⟩⟩

/-- A tick of the ramp timer changes the speed and nothing else. -/
theorem rampTick_eq {p : Plant n Stepper} {held : List Nat} {q : Fifo} (h : p.Coupled held q) :
    ∃ es, p.Outcome held q p.rampTick q es ∧
      p.flow.Steps (es.map .event) p.rampTick.flow := by
  unfold rampTick
  cases hc : p.side.current with
  | none => exact ⟨[], .refl h, .refl _⟩
  | some t =>
    dsimp only
    split
    · exact ⟨[], .refl h, .refl _⟩
    · obtain ⟨s, rest, hp⟩ := h.exists_executing hc
      obtain ⟨t', ht', hslot, hcourse⟩ : ∃ t',
          (p.runAt t (p.side.nextRate t)).side.current = some t' ∧ t'.slot = t.slot ∧
            t.SameCourse t' := ⟨_, rfl, rfl, rfl⟩
      have hcoupled : (p.runAt t (p.side.nextRate t)).Coupled held q :=
        h.proceed hc rfl ht' hslot
      refine ⟨[.speedChanged (Single.ceilCount (p.side.nextRate t)) t.nominalRate],
        ⟨hcoupled, rfl, rfl, rfl, ?_⟩, ?_⟩
      · rw [runAt, publish, Array.toList_push]
        rfl
      · rw [h.flow_of_busy hc hp, hcoupled.flow_of_busy ht' hp]
        exact (Flow.Step.ramp (f := ⟨some (t, s.load), _, _, _⟩) rfl hcourse).steps

end MotionControl.Plant
