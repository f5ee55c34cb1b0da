import MotionControl.Proofs.Motion.Clock
import MotionControl.Proofs.Motion.Tick

/-!
# What a tick is made of

A tick of the step timer comes in parts, and each part is described here by what it does to the
plant, stops included:

* `Plant.Onward` goes on from a segment that has begun: carriers are passed over until a segment
  with motion starts, or everything is dropped because a stop is latched;
* `Plant.Stroke` is what a tick does to a traversal: it obeys the stop mask and then goes on by one
  tick, which may make a step event, and the event may be the last one;
* `Plant.Ticks` puts them together: a tick of a stepper at rest first goes on from the segment that
  it takes from the ring, if it takes any.

As long as stepper and ring are coupled, a tick is one of these unless it would lead out of the word
of a position, which is an overflow (`Plant.Coupled.ticks`). Nothing else can go wrong.
-/

namespace MotionControl

variable {n : Nat}

/-- The slot taken from a running ring, if any, and the ring afterwards. -/
def Ring.taken (r : Ring n) : Option Nat × Ring n :=
  match r.start? with
  | some (slot, r') => (some slot, r')
  | none => (none, r)

namespace Plant

/-- Going on from a segment that has begun, with the events published meanwhile. -/
inductive Onward : Option Nat → Plant n Stepper → List Event → Plant n Stepper → Prop
  | rest {p : Plant n Stepper} : Onward none p [] (p.setCurrent none)
  | discard {p : Plant n Stepper} {slot : Nat} (hstop : p.stop.isActive = true) :
      Onward (some slot) p [] p.cancel
  | start {p : Plant n Stepper} {slot : Nat} {s : Segment} (hclear : p.stop.isActive = false)
      (hexec : p.ring.executing slot = .ok s) (hm : s.hasMotion = true) :
      Onward (some slot) p
        [.began s, .speedChanged (Single.ceilCount (p.side.entryRate s)) s.nominalRate]
        (p.execute slot s)
  | pass {p p' : Plant n Stepper} {slot : Nat} {s : Segment} {next : Option Nat} {r : Ring n}
      {es : List Event} (hclear : p.stop.isActive = false)
      (hexec : p.ring.executing slot = .ok s) (hm : s.hasMotion = false)
      (hr : p.ring.release slot = .ok (next, r))
      (honward : Onward next { p.publishCompletion s with ring := r } es p') :
      Onward (some slot) p (s.completion ++ es) p'

/-- A traversal that a tick of the step timer has brought on by its time, but not by an event: it
has obeyed the stop mask, and has not been cancelled for it. -/
structure Turns (p : Plant n Stepper) (t t' : Traversal) : Prop where
  /-- the stop mask is obeyed -/
  course : (t.cut p.stop.bits).SameCourse t'
  /-- something is left to do, unless everything was done before -/
  lasts : p.stop.isActive = true → t'.interrupted = true → t'.isComplete = false

/-- The plant after a step event. -/
def struck (p : Plant n Stepper) (position : PerAxis Int32) (t : Traversal) : Plant n Stepper :=
  { p with side := { p.side with position := position, current := some t } }

/-- What performing a step event of a traversal does, with its output and the events published. -/
inductive Performs (p : Plant n Stepper) (t : Traversal) :
    StepOutput → List Event → Plant n Stepper → Prop
  | goesOn {position : PerAxis Int32}
      (hpos : Stepper.movePosition p.side.position t.nextMask t.directions = .ok position)
      (hmore : t.stepEvent.isComplete = false) :
      Performs p t ⟨t.nextMask, t.directions⟩ [] (p.struck position t.stepEvent)
  | cutShort {position : PerAxis Int32}
      (hpos : Stepper.movePosition p.side.position t.nextMask t.directions = .ok position)
      (hdone : t.stepEvent.isComplete = true) (hint : t.interrupted = true) :
      Performs p t ⟨t.nextMask, t.directions⟩ [] (p.struck position t.stepEvent).cancel
  | last {position : PerAxis Int32} {s : Segment} {next : Option Nat} {r : Ring n}
      {es : List Event} {p' : Plant n Stepper}
      (hpos : Stepper.movePosition p.side.position t.nextMask t.directions = .ok position)
      (hdone : t.stepEvent.isComplete = true) (hint : t.interrupted = false)
      (hexec : p.ring.executing t.slot = .ok s) (hr : p.ring.release t.slot = .ok (next, r))
      (honward : Onward next
        { ((p.struck position t.stepEvent).setCurrent none).publishCompletion s with ring := r }
        es p') :
      Performs p t ⟨t.nextMask, t.directions⟩ (s.completion ++ es) p'

/-- What a tick of the step timer does to a traversal, with its output and the events published. A
traversal that it leaves under execution is later than before. -/
inductive Stroke (p : Plant n Stepper) (t : Traversal) :
    StepOutput → List Event → Plant n Stepper → Prop
  | cancel (hstop : p.stop.isActive = true) (hint : (t.cut p.stop.bits).interrupted = true)
      (hdone : (t.cut p.stop.bits).isComplete = true) : Stroke p t .idle [] p.cancel
  | turn {t' : Traversal} (hturn : p.Turns t t') (hlater : t.Later t') :
      Stroke p t .idle [] (p.setCurrent (some t'))
  | strike {t' : Traversal} {position : PerAxis Int32} (hturn : p.Turns t t')
      (hpos : Stepper.movePosition p.side.position t'.nextMask t'.directions = .ok position)
      (hmore : t'.stepEvent.isComplete = false) (hlater : t.Later t'.stepEvent) :
      Stroke p t ⟨t'.nextMask, t'.directions⟩ [] (p.struck position t'.stepEvent)
  | cutShort {t' : Traversal} {position : PerAxis Int32} (hturn : p.Turns t t')
      (hpos : Stepper.movePosition p.side.position t'.nextMask t'.directions = .ok position)
      (hdone : t'.stepEvent.isComplete = true) (hint : t'.interrupted = true) :
      Stroke p t ⟨t'.nextMask, t'.directions⟩ [] (p.struck position t'.stepEvent).cancel
  | last {t' : Traversal} {position : PerAxis Int32} {s : Segment} {next : Option Nat} {r : Ring n}
      {es : List Event} {p' : Plant n Stepper} (hturn : p.Turns t t')
      (hpos : Stepper.movePosition p.side.position t'.nextMask t'.directions = .ok position)
      (hdone : t'.stepEvent.isComplete = true) (hint : t'.interrupted = false)
      (hexec : p.ring.executing t'.slot = .ok s) (hr : p.ring.release t'.slot = .ok (next, r))
      (honward : Onward next
        { ((p.struck position t'.stepEvent).setCurrent none).publishCompletion s with ring := r }
        es p') :
      Stroke p t ⟨t'.nextMask, t'.directions⟩ (s.completion ++ es) p'

/-- A tick of the step timer, with its output and the events published. -/
inductive Ticks (p : Plant n Stepper) : StepOutput → List Event → Plant n Stepper → Prop
  | busy {t : Traversal} {o : StepOutput} {es : List Event} {p' : Plant n Stepper}
      (hc : p.side.current = some t) (hstroke : p.Stroke t o es p') : Ticks p o es p'
  | still (hc : p.side.current = none) (hstop : p.stop.isActive = true) :
      Ticks p .idle [] (if p.ring.hasPending then p.abort else p)
  | rest {ready : Plant n Stepper} {es : List Event} (hc : p.side.current = none)
      (hclear : p.stop.isActive = false)
      (honward : Onward p.ring.taken.1 { p with ring := p.ring.taken.2 } es ready)
      (hnone : ready.side.current = none) : Ticks p .idle es ready
  | begins {ready : Plant n Stepper} {t : Traversal} {o : StepOutput} {es es' : List Event}
      {p' : Plant n Stepper} (hc : p.side.current = none) (hclear : p.stop.isActive = false)
      (honward : Onward p.ring.taken.1 { p with ring := p.ring.taken.2 } es ready)
      (ht : ready.side.current = some t) (hsame : p.tick = ready.tick)
      (hstroke : ready.Stroke t o es' p') : Ticks p o (es ++ es') p'

/-! ## Every tick is one -/

@[simp] theorem ring_publishCompletion (p : Plant n Stepper) (s : Segment) :
    (p.publishCompletion s).ring = p.ring := by
  obtain ⟨events, hcompletion, -⟩ := p.publishCompletion_eq s
  rw [hcompletion]

@[simp] theorem stop_publishCompletion (p : Plant n Stepper) (s : Segment) :
    (p.publishCompletion s).stop = p.stop := by
  obtain ⟨events, hcompletion, -⟩ := p.publishCompletion_eq s
  rw [hcompletion]

@[simp] theorem side_publishCompletion (p : Plant n Stepper) (s : Segment) :
    (p.publishCompletion s).side = p.side := by
  obtain ⟨events, hcompletion, -⟩ := p.publishCompletion_eq s
  rw [hcompletion]

@[simp] theorem events_publishCompletion (p : Plant n Stepper) (s : Segment) :
    (p.publishCompletion s).events.toList = p.events.toList ++ s.completion := by
  obtain ⟨events, hcompletion, hevents⟩ := p.publishCompletion_eq s
  rw [hcompletion, hevents]

theorem Poised.onward_passCarriers {fuel : Nat} {next : Option Nat} {p : Plant n Stepper}
    {held : List Nat} {q : Fifo} (h : p.Poised held q next) (hfuel : q.pending.length < fuel)
    (hclear : next.isSome = true → p.stop.isActive = false) :
    ∃ p' es, passCarriers fuel next p = .ok p' ∧ Onward next p es p' := by
  -- on the fuel, as for `passCarriers_eq`
  induction fuel generalizing next p q with
  | zero => exact absurd hfuel (Nat.not_lt_zero _)
  | succ fuel ih =>
    cases next with
    | none => exact ⟨_, _, rfl, .rest⟩
    | some slot =>
      obtain ⟨s, rest, hp⟩ := Fifo.pending_of_begun h.begun_eq
      obtain rfl := h.slot_eq slot rfl
      have hexec := h.holds.executing_front hp
      by_cases hm : s.hasMotion = true
      · refine ⟨_, _, ?_, .start (hclear rfl) hexec hm⟩
        simp only [passCarriers, hexec, bind, Except.bind, hm, if_true]
        rfl
      · obtain ⟨next', r', q₁, hr', hholds, hbegun, hslots, -, hlt, -, -⟩ :=
          h.holds.release_eq h.begun_eq
        have hpoised : ({ p.publishCompletion s with ring := r' } : Plant n Stepper).Poised
            held q₁ next' := ⟨hholds, hbegun, hslots⟩
        obtain ⟨p', es, hok, honward⟩ := ih hpoised (by omega) fun _ => by simpa using hclear rfl
        refine ⟨p', _, ?_, .pass (hclear rfl) hexec (Bool.eq_false_iff.mpr hm) hr' honward⟩
        simp only [passCarriers, hexec, bind, Except.bind, hm, ring_publishCompletion, hr']
        exact hok

theorem Poised.onward {next : Option Nat} {p : Plant n Stepper} {held : List Nat} {q : Fifo}
    (h : p.Poised held q next) : ∃ p' es, advance next p = .ok p' ∧ Onward next p es p' := by
  unfold advance
  split
  · next hstop =>
    rw [Bool.and_eq_true] at hstop
    obtain ⟨slot, rfl⟩ := Option.isSome_iff_exists.mp hstop.1
    exact ⟨_, _, rfl, .discard hstop.2⟩
  · next hstop =>
    have hlen := h.holds.head_place_lt
    have hbuilt := p.ring.len_le
    refine h.onward_passCarriers (by omega) fun hsome => ?_
    rwa [hsome, Bool.true_and, Bool.not_eq_true] at hstop

theorem Onward.coupled {next : Option Nat} {p p' : Plant n Stepper} {es : List Event}
    (h : Onward next p es p') {held : List Nat} {q : Fifo} (hp : p.Poised held q next) :
    ∃ q', p'.Coupled held q' := by
  induction h generalizing q with
  | rest => exact ⟨q, hp.holds, hp.begun_eq, fun t ht => by cases ht⟩
  | discard hstop => exact ⟨q.abort, cancel_coupled hp.holds⟩
  | @start p slot s hclear hexec hm =>
    exact ⟨q, hp.holds, hp.begun_eq, fun t ht => by cases ht; exact hp.slot_eq slot rfl⟩
  | @pass p p' slot s next r es hclear hexec hm hr honward ih =>
    obtain ⟨next', r', q', hr', hholds, hbegun, hslots, -⟩ := hp.holds.release_eq hp.begun_eq
    obtain rfl := hp.slot_eq slot rfl
    rw [hr] at hr'
    cases hr'
    exact ih ⟨hholds, hbegun, hslots⟩

theorem Turns.slot_eq {p : Plant n Stepper} {t t' : Traversal} (h : p.Turns t t') :
    t'.slot = t.slot := by
  rw [h.course]
  rfl

/-- Completing a traversal reports its segment, and goes on from the next one. -/
theorem Coupled.onward {p : Plant n Stepper} {held : List Nat} {q : Fifo} {t : Traversal}
    (h : p.Coupled held q) (hc : p.side.current = some t) :
    ∃ s next r es p', p.ring.executing t.slot = .ok s ∧ p.ring.release t.slot = .ok (next, r) ∧
      p.complete t = .ok p' ∧
      Onward next { (p.setCurrent none).publishCompletion s with ring := r } es p' := by
  obtain ⟨s, rest, hp⟩ := h.exists_executing hc
  obtain ⟨next, r, q₁, hr, hholds, hbegun, hslots, -⟩ := h.holds.release_eq (h.begun_of_busy hc)
  have hexec := h.holds.executing_front hp
  rw [← h.slot_eq t hc] at hexec hr
  have hpoised : ({ (p.setCurrent none).publishCompletion s with ring := r } :
      Plant n Stepper).Poised held q₁ next := ⟨hholds, hbegun, hslots⟩
  obtain ⟨p', es, hok, honward⟩ := hpoised.onward
  refine ⟨s, next, r, es, p', hexec, hr, ?_, honward⟩
  have hexec' : (p.setCurrent none).ring.executing t.slot = .ok s := hexec
  have hr' : (p.setCurrent none).ring.release t.slot = .ok (next, r) := hr
  simp only [complete, bind, Except.bind, hexec', ring_publishCompletion, hr']
  exact hok

/-- A step event is performed unless it leads out of the word of a position. -/
theorem Coupled.performs {p : Plant n Stepper} {held : List Nat} {q : Fifo} {t t' : Traversal}
    (h : p.Coupled held q) (hc : p.side.current = some t) (hslot : t'.slot = t.slot) :
    (∃ o es p', p.performEvent t' = .ok (o, p') ∧ p.Performs t' o es p') ∨
    (p.performEvent t' = .error .addOverflow ∧ ∃ a,
      ¬ InWord ((p.side.position.get a).toInt +
        Stepper.maskedStep t'.nextMask t'.directions a)) := by
  rw [performEvent_eq_settle]
  obtain ⟨position, hmove, -⟩ | ⟨hmove, hout⟩ :=
    Stepper.movePosition_cases p.side.position t'.nextMask t'.directions
  · left
    have hstruck : (p.struck position t'.stepEvent).Coupled held q :=
      h.proceed hc rfl rfl hslot
    simp only [hmove, bind, Except.bind, settle]
    by_cases hdone : t'.stepEvent.isComplete = true
    · by_cases hint : t'.interrupted = true
      · have hint' : t'.stepEvent.interrupted = true := hint
        simp only [hdone, hint', if_true]
        exact ⟨_, _, _, rfl, .cutShort hmove hdone hint⟩
      · have hint' : ¬ t'.stepEvent.interrupted = true := hint
        obtain ⟨s, next, r, es, p', hexec, hr, hcomplete, honward⟩ := hstruck.onward rfl
        change (p.struck position t'.stepEvent).complete t'.stepEvent = .ok p' at hcomplete
        refine ⟨_, _, p', ?_, .last hmove hdone (Bool.eq_false_iff.mpr hint) hexec hr honward⟩
        rw [if_pos hdone, if_neg hint']
        exact congrArg (fun x => x >>= fun settled => pure (_, settled)) hcomplete
    · rw [if_neg hdone]
      exact ⟨_, _, _, rfl, .goesOn hmove (Bool.eq_false_iff.mpr hdone)⟩
  · rw [hmove]
    exact .inr ⟨rfl, hout⟩

/-- The step event that is due after the stop mask has been obeyed. -/
theorem Performs.stroke {p p' : Plant n Stepper} {t t' : Traversal} {o : StepOutput}
    {es : List Event} (h : p.Performs t' o es p') (hturn : p.Turns t t')
    (hlater : t.Later t'.stepEvent) : p.Stroke t o es p' := by
  cases h with
  | goesOn hpos hmore => exact .strike hturn hpos hmore hlater
  | cutShort hpos hdone hint => exact .cutShort hturn hpos hdone hint
  | last hpos hdone hint hexec hr honward => exact .last hturn hpos hdone hint hexec hr honward

/-- A tick of a traversal is a stroke, unless its event leads out of the word of a position. -/
theorem Coupled.stroke {p : Plant n Stepper} {held : List Nat} {q : Fifo} {t : Traversal}
    (h : p.Coupled held q) (hc : p.side.current = some t) :
    (∃ o es p', p.traverse t = .ok (o, p') ∧ p.Stroke t o es p') ∨
    (p.traverse t = .error .addOverflow ∧ ∃ t' a, p.Turns t t' ∧
      ¬ InWord ((p.side.position.get a).toInt +
        Stepper.maskedStep t'.nextMask t'.directions a)) := by
  unfold traverse
  dsimp only
  split
  · next hstop =>
    rw [Bool.and_eq_true, Bool.and_eq_true] at hstop
    exact .inl ⟨_, _, _, rfl, .cancel hstop.1.1 hstop.1.2 hstop.2⟩
  · next hgo =>
    have hlasts : p.stop.isActive = true → (t.cut p.stop.bits).interrupted = true →
        (t.cut p.stop.bits).isComplete = false := by
      intro hstop hint
      rwa [hstop, hint, Bool.true_and, Bool.true_and, Bool.not_eq_true] at hgo
    unfold advancePhase
    dsimp only
    split
    · next hdue =>
      have hturn : p.Turns t (t.cut p.stop.bits).advancePhase.wrapPhase := ⟨rfl, hlasts⟩
      obtain ⟨o, es, p', hok, hperforms⟩ | ⟨herr, a, ha⟩ := h.performs hc hturn.slot_eq
      · exact .inl ⟨o, es, p', hok, hperforms.stroke hturn (.of_cut (.stepEvent hdue))⟩
      · exact .inr ⟨herr, _, a, hturn, ha⟩
    · next hdue =>
      have hlater := Traversal.Later.of_cut (.advancePhase (Bool.eq_false_iff.mpr hdue))
      exact .inl ⟨_, _, _, rfl, .turn ⟨rfl, hlasts⟩ hlater⟩

theorem tick_of_busy {p : Plant n Stepper} {t : Traversal} (hc : p.side.current = some t) :
    p.tick = p.traverse t := by
  rw [tick, hc]

/-- With no stop latched, a tick just advances the traversal. -/
theorem tick_of_clear {p : Plant n Stepper} {t : Traversal} (hc : p.side.current = some t)
    (hclear : p.stop.isActive = false) : p.tick = p.advancePhase t := by
  rw [tick_of_busy hc, traverse, cut_of_clear hclear]
  simp only [hclear, Bool.false_and]
  rfl

theorem rampTick_of_current {p : Plant n Stepper} {t : Traversal}
    (hc : p.side.current = some t) : p.rampTick =
      if p.side.nextRate t == t.rate then p else p.runAt t (p.side.nextRate t) := by
  rw [rampTick, hc]

theorem tick_of_still {p : Plant n Stepper} (hc : p.side.current = none)
    (hstop : p.stop.isActive = true) :
    p.tick = .ok (.idle, if p.ring.hasPending then p.abort else p) := by
  rw [tick, hc]
  exact if_pos hstop

theorem beginNext_eq_advance (p : Plant n Stepper) :
    p.beginNext = advance p.ring.taken.1 { p with ring := p.ring.taken.2 } := by
  unfold beginNext Ring.taken
  cases p.ring.start? <;> rfl

/-- What is taken from the ring has begun. -/
theorem Coupled.taken {p : Plant n Stepper} {held : List Nat} {q : Fifo} (h : p.Coupled held q)
    (hc : p.side.current = none) :
    ∃ q', ({ p with ring := p.ring.taken.2 } : Plant n Stepper).Poised held q' p.ring.taken.1 := by
  have hnone : p.Poised held q none := ⟨h.holds, h.begun_of_idle hc, fun i hi => by cases hi⟩
  unfold Ring.taken Ring.start?
  by_cases hrun : p.ring.running = true
  · rw [if_pos hrun]
    obtain ⟨r', q', hr', hholds, hbegun, hfront, -⟩ | hr' := h.holds.begin?_eq
    · rw [hr']
      exact ⟨q', hholds, hbegun, fun i hi => by rw [← Option.some.inj hi]; exact hfront.symm⟩
    · rw [hr']
      exact ⟨q, hnone⟩
  · rw [if_neg hrun]
    exact ⟨q, hnone⟩

/-- The only way for a tick to fail is a step out of the word of a position. -/
theorem Coupled.ticks {p : Plant n Stepper} {held : List Nat} {q : Fifo} (h : p.Coupled held q) :
    (∃ o es p', p.tick = .ok (o, p') ∧ p.Ticks o es p') ∨ p.tick = .error .addOverflow := by
  cases hc : p.side.current with
  | some t =>
    rw [tick_of_busy hc]
    obtain ⟨o, es, p', hok, hstroke⟩ | ⟨herr, -⟩ := h.stroke hc
    · exact .inl ⟨o, es, p', hok, .busy hc hstroke⟩
    · exact .inr herr
  | none =>
    by_cases hstop : p.stop.isActive = true
    · exact .inl ⟨_, _, _, tick_of_still hc hstop, .still hc hstop⟩
    · have hclear := Bool.eq_false_iff.mpr hstop
      obtain ⟨q₁, hpoised⟩ := h.taken hc
      obtain ⟨ready, es, hready, honward⟩ := hpoised.onward
      rw [← beginNext_eq_advance] at hready
      obtain ⟨q₂, hcoupled⟩ := honward.coupled hpoised
      have htick : p.tick = ready.side.current.elim (.ok (.idle, ready)) ready.traverse := by
        simp only [tick, hc, hclear, Bool.false_eq_true, if_false, hready, bind, Except.bind]
        cases ready.side.current <;> rfl
      cases ht : ready.side.current with
      | none =>
        rw [ht] at htick
        exact .inl ⟨_, _, _, htick, .rest hc hclear honward ht⟩
      | some t =>
        rw [ht] at htick
        have hsame : p.tick = ready.tick := htick.trans (tick_of_busy ht).symm
        rw [htick]
        obtain ⟨o, es', p', hok, hstroke⟩ | ⟨herr, -⟩ := hcoupled.stroke ht
        · exact .inl ⟨o, _, p', hok, .begins hc hclear honward ht hsame hstroke⟩
        · exact .inr herr

/-! ## What a tick leaves alone -/

@[simp] theorem ring_rampTick (p : Plant n Stepper) : p.rampTick.ring = p.ring := by
  unfold rampTick
  split
  · dsimp only
    split <;> rfl
  · rfl

@[simp] theorem stop_rampTick (p : Plant n Stepper) : p.rampTick.stop = p.stop := by
  unfold rampTick
  split
  · dsimp only
    split <;> rfl
  · rfl

theorem Onward.stop_eq {next : Option Nat} {p p' : Plant n Stepper} {es : List Event}
    (h : Onward next p es p') : p'.stop = p.stop := by
  induction h with
  | pass hclear hexec hm hr honward ih => rw [ih, stop_publishCompletion]
  | _ => rfl

theorem Onward.position_eq {next : Option Nat} {p p' : Plant n Stepper} {es : List Event}
    (h : Onward next p es p') : p'.side.position = p.side.position := by
  induction h with
  | pass hclear hexec hm hr honward ih => rw [ih, side_publishCompletion]
  | _ => rfl

theorem Onward.events_eq {next : Option Nat} {p p' : Plant n Stepper} {es : List Event}
    (h : Onward next p es p') : p'.events.toList = p.events.toList ++ es := by
  induction h with
  | rest => exact (List.append_nil _).symm
  | discard hstop => exact (List.append_nil _).symm
  | start hclear hexec hm => simp [execute, runAt, publish, setCurrent, Traversal.ofSegment]
  | pass hclear hexec hm hr honward ih => rw [ih, events_publishCompletion, List.append_assoc]

theorem Stroke.stop_eq {p p' : Plant n Stepper} {t : Traversal} {o : StepOutput} {es : List Event}
    (h : p.Stroke t o es p') : p'.stop = p.stop := by
  cases h with
  | last hturn hpos hdone hint hexec hr honward => rw [honward.stop_eq, stop_publishCompletion]; rfl
  | _ => rfl

theorem Stroke.events_eq {p p' : Plant n Stepper} {t : Traversal} {o : StepOutput}
    {es : List Event} (h : p.Stroke t o es p') : p'.events.toList = p.events.toList ++ es := by
  cases h with
  | last hturn hpos hdone hint hexec hr honward =>
    rw [honward.events_eq, events_publishCompletion, List.append_assoc]
    rfl
  | _ => exact (List.append_nil _).symm

theorem Ticks.stop_eq {p p' : Plant n Stepper} {o : StepOutput} {es : List Event}
    (h : p.Ticks o es p') : p'.stop = p.stop := by
  cases h with
  | busy hc hstroke => exact hstroke.stop_eq
  | still hc hstop => split <;> rfl
  | rest hc hclear honward hnone => exact honward.stop_eq
  | begins hc hclear honward ht hsame hstroke => exact hstroke.stop_eq.trans honward.stop_eq

theorem Ticks.events_eq {p p' : Plant n Stepper} {o : StepOutput} {es : List Event}
    (h : p.Ticks o es p') : p'.events.toList = p.events.toList ++ es := by
  cases h with
  | busy hc hstroke => exact hstroke.events_eq
  | still hc hstop => split <;> exact (List.append_nil _).symm
  | rest hc hclear honward hnone => exact honward.events_eq
  | begins hc hclear honward ht hsame hstroke =>
    rw [hstroke.events_eq, honward.events_eq, List.append_assoc]

/-! ## How a segment begins -/

/-- A segment with motion has begun, and may be executed. -/
structure Begins (p : Plant n Stepper) (slot : Nat) (s : Segment) : Prop where
  /-- its slot is the one at the front -/
  poised : ∃ held q, p.Poised held q (some slot)
  /-- it is in the slot -/
  executing_eq : p.ring.executing slot = .ok s
  /-- it moves something -/
  hasMotion : s.hasMotion = true
  /-- no stop is latched -/
  clear : p.stop.isActive = false

/-- Two plants have the same timers: what their steppers execute and where they are may differ. -/
def SameTimers (p p' : Plant n Stepper) : Prop :=
  p'.side = { p.side with current := p'.side.current, position := p'.side.position }

theorem not_began_mem_completion (s s' : Segment) : Event.began s ∉ s'.completion := by
  simp [Segment.completion]

/-- What is announced is executed. -/
theorem Onward.execute_of_began {next : Option Nat} {p p' : Plant n Stepper} {es : List Event}
    (h : Onward next p es p') {held : List Nat} {q : Fifo} (hp : p.Poised held q next)
    {s : Segment} (hs : .began s ∈ es) : ∃ (p₀ : Plant n Stepper) (slot : Nat),
      p₀.Begins slot s ∧ p.SameTimers p₀ ∧ p' = p₀.execute slot s := by
  induction h generalizing q with
  | rest => cases hs
  | discard hstop => cases hs
  | @start p slot s' hclear hexec hm =>
    obtain rfl : s = s' := by simpa using hs
    exact ⟨p, slot, ⟨⟨held, q, hp⟩, hexec, hm, hclear⟩, rfl, rfl⟩
  | @pass p p' slot s' next r es hclear hexec hm hr honward ih =>
    obtain ⟨next', r', q', hr', hholds, hbegun, hslots, -⟩ := hp.holds.release_eq hp.begun_eq
    obtain rfl := hp.slot_eq slot rfl
    rw [hr] at hr'
    cases hr'
    have hlater := (List.mem_append.mp hs).resolve_left (not_began_mem_completion s s')
    obtain ⟨p₀, slot, hbegins, htimers, heq⟩ := ih ⟨hholds, hbegun, hslots⟩ hlater
    refine ⟨p₀, slot, hbegins, ?_, heq⟩
    rwa [SameTimers, side_publishCompletion] at htimers

theorem Stroke.execute_of_began {p p' : Plant n Stepper} {t : Traversal} {o : StepOutput}
    {es : List Event} (h : p.Stroke t o es p') {held : List Nat} {q : Fifo}
    (hp : p.Coupled held q) (hc : p.side.current = some t) {s : Segment} (hs : .began s ∈ es) :
    ∃ (p₀ : Plant n Stepper) (slot : Nat),
      p₀.Begins slot s ∧ p.SameTimers p₀ ∧ p' = p₀.execute slot s := by
  cases h with
  | @last t' position s' next r es p' hturn hpos hdone hint hexec hr honward =>
    obtain ⟨next', r', q', hr', hholds, hbegun, hslots, -⟩ :=
      hp.holds.release_eq (hp.begun_of_busy hc)
    rw [hturn.slot_eq, hp.slot_eq t hc, hr'] at hr
    cases hr
    have hlater := (List.mem_append.mp hs).resolve_left (not_began_mem_completion s s')
    obtain ⟨p₀, slot, hbegins, htimers, heq⟩ :=
      honward.execute_of_began ⟨hholds, hbegun, hslots⟩ hlater
    refine ⟨p₀, slot, hbegins, ?_, heq⟩
    rwa [SameTimers, side_publishCompletion] at htimers
  | _ => cases hs

theorem Onward.sameTimers {next : Option Nat} {p p' : Plant n Stepper} {es : List Event}
    (h : Onward next p es p') : p.SameTimers p' := by
  induction h with
  | pass hclear hexec hm hr honward ih => rwa [SameTimers, side_publishCompletion] at ih
  | _ => rfl

theorem SameTimers.trans {p p' p'' : Plant n Stepper} (h : p.SameTimers p')
    (h' : p'.SameTimers p'') : p.SameTimers p'' := by
  unfold SameTimers at h h' ⊢
  rw [h', h]

/-- A tick that announces a segment goes on with executing it, or ends with it, and the timers are
still the same. -/
theorem Ticks.begins_of_began {p p' : Plant n Stepper} {o : StepOutput} {es : List Event}
    (h : p.Ticks o es p') {held : List Nat} {q : Fifo} (hp : p.Coupled held q) {s : Segment}
    (hs : .began s ∈ es) : ∃ (p₀ : Plant n Stepper) (slot : Nat), p₀.Begins slot s ∧
      p.SameTimers p₀ ∧ (p.tick = (p₀.execute slot s).tick ∨ p' = p₀.execute slot s) := by
  cases h with
  | busy hc hstroke =>
    obtain ⟨p₀, slot, hbegins, htimers, heq⟩ := hstroke.execute_of_began hp hc hs
    exact ⟨p₀, slot, hbegins, htimers, .inr heq⟩
  | still hc hstop => cases hs
  | rest hc hclear honward hnone =>
    obtain ⟨q₁, hpoised⟩ := hp.taken hc
    obtain ⟨p₀, slot, hbegins, htimers, heq⟩ := honward.execute_of_began hpoised hs
    exact ⟨p₀, slot, hbegins, htimers, .inr heq⟩
  | begins hc hclear honward ht hsame hstroke =>
    obtain ⟨q₁, hpoised⟩ := hp.taken hc
    rcases List.mem_append.mp hs with hs | hs
    · obtain ⟨p₀, slot, hbegins, htimers, heq⟩ := honward.execute_of_began hpoised hs
      exact ⟨p₀, slot, hbegins, htimers, .inl (heq ▸ hsame)⟩
    · obtain ⟨q₂, hcoupled⟩ := honward.coupled hpoised
      obtain ⟨p₀, slot, hbegins, htimers, heq⟩ := hstroke.execute_of_began hcoupled ht hs
      exact ⟨p₀, slot, hbegins, SameTimers.trans honward.sameTimers htimers, .inr heq⟩

/-- A tick that announces a segment goes on with executing it, or ends with it. -/
theorem Coupled.begins_of_tick {p p' : Plant n Stepper} {held : List Nat} {q : Fifo}
    (h : p.Coupled held q) {o : StepOutput} (htick : p.tick = .ok (o, p')) {es : List Event}
    (hevents : p'.events.toList = p.events.toList ++ es) {s : Segment} (hs : .began s ∈ es) :
    ∃ (p₀ : Plant n Stepper) (slot : Nat), p₀.Begins slot s ∧ p.SameTimers p₀ ∧
      (p.tick = (p₀.execute slot s).tick ∨ p' = p₀.execute slot s) := by
  obtain ⟨o', es', p₁, hok, hticks⟩ | herr := h.ticks
  · rw [htick] at hok
    cases hok
    have hes := hticks.events_eq
    rw [hevents, List.append_cancel_left_eq] at hes
    exact hticks.begins_of_began h (hes ▸ hs)
  · rw [htick] at herr
    cases herr

end Plant

end MotionControl
