import MotionControl.Proofs.Motion.Scribe

/-!
# What the main loop changes

The main loop changes the ring while the interrupt may be at work in it. Each change is described
once, by what it does to the ledger that a plant keeps: running the ring, clearing it, holding
segments and revising their speeds leave the ledger as it is, except for what is held; publishing
the prepared segment and attaching commands change the head and what has been accepted.
-/

namespace MotionControl

/-- A segment with one more command has one more entry. -/
theorem Segment.attach_eq_ok {s s' : Segment} {c : Command} (h : s.attach c = .ok s') :
    (∃ l, s' = { s with commands := l }) ∧ s'.load.entries = s.load.entries ++ [.ran c] := by
  unfold attach at h
  split at h
  · next l hl =>
    cases h
    exact ⟨⟨l, rfl⟩, Load.entries_of_attach rfl rfl rfl (CommandList.toList_of_push? hl)⟩
  · cases h

/-! ## What the main loop does to a queue -/

namespace Fifo

theorem loads_eq (q : Fifo) : q.loads = q.queued.map Segment.load := by
  rw [loads, queued, List.map_map]
  rfl

theorem queued_lockWindow (q : Fifo) : q.lockWindow.queued = q.queued := by
  rw [queued, lockWindow, List.map_map]
  exact List.map_congr_left fun e _ => e.segment_lock

theorem queued_unlock (q : Fifo) : q.unlock.queued = q.queued := by
  rw [queued, unlock, List.map_map]
  exact List.map_congr_left fun e _ => e.segment_unlock

theorem loads_lockWindow (q : Fifo) : q.lockWindow.loads = q.loads := by
  rw [loads_eq, queued_lockWindow, ← loads_eq]

theorem loads_unlock (q : Fifo) : q.unlock.loads = q.loads := by
  rw [loads_eq, queued_unlock, ← loads_eq]

/-- Refilling the locked slots of a list changes nothing about their segments that the new ones have
in common with them. -/
theorem map_refill {α : Type} (f : Segment → α) {ss : List Segment} {es : List Slot}
    (h : ss.map f = (es.filter Slot.isLocked).map fun e => f e.segment) :
    (Slot.refill ss es).map (fun e => f e.segment) = es.map fun e => f e.segment := by
  induction es generalizing ss with
  | nil => cases ss <;> rfl
  | cons e es ih =>
    cases ss with
    | nil => rw [Slot.refill_nil_left]
    | cons s ss =>
      rw [Slot.refill]
      by_cases hl : e.isLocked = true
      · rw [List.filter_cons_of_pos hl, List.map_cons, List.map_cons] at h
        obtain ⟨hs, hss⟩ := List.cons.inj h
        rw [if_pos hl, List.map_cons, List.map_cons, ih hss, hs]
      · rw [List.filter_cons_of_neg hl] at h
        rw [if_neg hl, List.map_cons, List.map_cons, ih h]

/-- Revising what is held changes nothing that the new segments have in common with it. -/
theorem map_queued_revise {α : Type} (f : Segment → α) {q : Fifo} {ss : List Segment}
    (h : ss.map f = q.held.map f) : (q.revise ss).queued.map f = q.queued.map f := by
  rw [held, List.map_map] at h
  have hall : (Slot.refill ss q.entries).map (fun e => f e.segment) =
      q.entries.map fun e => f e.segment := map_refill f h
  rw [entries, Slot.refill_append, List.map_append, List.map_append] at hall
  rw [queued, queued, List.map_map, List.map_map]
  refine (List.append_inj hall ?_).2
  rw [List.length_map, List.length_map, Slot.length_refill]

/-- Revising the speeds of what is held changes no load. -/
theorem loads_revise {q : Fifo} {ss : List Segment}
    (h : ss.map Segment.load = q.held.map Segment.load) : (q.revise ss).loads = q.loads := by
  rw [loads_eq, loads_eq, map_queued_revise Segment.load h]

/-- Revising the newest pending segment while it alone is locked. -/
theorem unlock_revise_newest {q : Fifo} {before : List Slot} {s : Segment}
    (hp : q.pending = before ++ [⟨s, .ready⟩]) (hnone : ∀ e ∈ q.entries, e.state ≠ .locked)
    (s' : Segment) :
    ({ q with pending := before ++ [⟨s, .locked⟩] } : Fifo).held = [s] ∧
      (({ q with pending := before ++ [⟨s, .locked⟩] } : Fifo).revise [s']).unlock =
        { q with pending := before ++ [⟨s', .ready⟩] } := by
  have hfinished : ∀ e ∈ q.finished, ¬ e.isLocked = true := fun e he =>
    fun hl => hnone e (List.mem_append_left _ he) (of_decide_eq_true hl)
  have hbefore : ∀ e ∈ before, ¬ e.isLocked = true := by
    intro e he hl
    refine hnone e (List.mem_append_right _ ?_) (of_decide_eq_true hl)
    rw [hp]
    exact List.mem_append_left _ he
  have hunlock : ∀ es : List Slot, (∀ e ∈ es, ¬ e.isLocked = true) → es.map Slot.unlock = es := by
    intro es hes
    refine (List.map_congr_left fun e he => ?_).trans (List.map_id es)
    rw [Slot.unlock, if_neg fun hl => hes e he (decide_eq_true hl)]
    rfl
  have hf := List.countP_eq_zero.mpr hfinished
  have hb := List.countP_eq_zero.mpr hbefore
  refine ⟨?_, ?_⟩
  · rw [held, entries, List.filter_append, List.filter_append,
      List.filter_eq_nil_iff.mpr hfinished, List.filter_eq_nil_iff.mpr hbefore]
    rfl
  · rw [revise, unlock, hf, List.drop_zero, Slot.refill_of_not_locked _ hf, Slot.refill_append, hb,
      List.drop_zero, Slot.refill_of_not_locked _ hb, List.map_append, hunlock _ hfinished,
      hunlock _ hbefore]
    rfl

/-- What is published waits behind everything else. -/
theorem flow_push {q : Fifo} {s : Stepper} (hb : q.begun = s.isBusy) :
    q.push.flow s = { q.flow s with
      waiting := (q.flow s).waiting ++ [q.head.load], head := .empty } := by
  have hloads : q.push.loads = q.loads ++ [q.head.load] := by
    rw [loads, push, List.map_append]
    rfl
  have hbegun := q.begun_push
  cases hc : s.current with
  | none =>
    rw [Stepper.isBusy, hc] at hb
    rw [flow_of_current_none hb hc, flow_of_current_none (hbegun.trans hb) hc, restingFlow, hloads]
    rfl
  | some t =>
    rw [Stepper.isBusy, hc] at hb
    obtain ⟨e, rest, hp⟩ := pending_of_begun hb
    have hl : q.loads = e.load :: rest.map fun e => e.segment.load := by
      rw [loads, hp, List.map_cons]
    rw [hl, List.cons_append] at hloads
    rw [flow_of_current_some hb hc hl, flow_of_current_some (hbegun.trans hb) hc hloads]
    rfl

/-- What is published last waits behind everything else, whatever it is. -/
theorem flow_newest {q : Fifo} {stepper : Stepper} (hb : q.begun = stepper.isBusy)
    {before : List Slot} {s : Segment} (hp : q.pending = before ++ [⟨s, .ready⟩]) :
    ∃ ls, (q.flow stepper).waiting = ls ++ [s.load] ∧
      ∀ s', ({ q with pending := before ++ [⟨s', .ready⟩] } : Fifo).begun = q.begun ∧
        ({ q with pending := before ++ [⟨s', .ready⟩] } : Fifo).flow stepper =
          { q.flow stepper with waiting := ls ++ [s'.load] } := by
  have hq : ({ q with pending := before ++ [⟨s, .ready⟩] } : Fifo) = q := by rw [← hp]
  have hbegun : ∀ s', ({ q with pending := before ++ [⟨s', .ready⟩] } : Fifo).begun =
      ({ q with pending := before } : Fifo).begun := fun s' =>
    begun_push { q with pending := before, head := s' }
  have hbefore : q.begun = ({ q with pending := before } : Fifo).begun := by
    rw [← hbegun s, hq]
  -- the queue is what publishing the newest segment makes of the others
  have hflow : ∀ s', ({ q with pending := before ++ [⟨s', .ready⟩] } : Fifo).flow stepper =
      { ({ q with pending := before } : Fifo).flow stepper with
        waiting := (({ q with pending := before } : Fifo).flow stepper).waiting ++ [s'.load] } := by
    intro s'
    have hpush := flow_push (q := { q with pending := before, head := s' }) (hbefore.symm.trans hb)
    exact congrArg (fun f : Flow => { f with head := q.head.load }) hpush
  have hwaiting := hflow s
  rw [hq] at hwaiting
  refine ⟨(({ q with pending := before } : Fifo).flow stepper).waiting, ?_, fun s' => ⟨?_, ?_⟩⟩
  · rw [hwaiting]
  · rw [hbegun s', hbefore]
  · rw [hflow s', hwaiting]

end Fifo

/-- The newest pending segment may be revised if it can be locked. -/
theorem Ring.Holds.reviseNewest {n : Nat} {r locked : Ring n} {q : Fifo} (h : r.Holds [] q)
    {i : Nat} (hlock : r.lockNewest = some (i, locked)) :
    ∃ before s, q.pending = before ++ [⟨s, .ready⟩] ∧ locked.segment i = s ∧
      ∀ s', ((locked.setSegment i s').unlock [i]).Holds []
        { q with pending := before ++ [⟨s', .ready⟩] } := by
  -- it is ready, or it would not have been locked
  obtain ⟨before, s, hp⟩ : ∃ before s, q.pending = before ++ [⟨s, .ready⟩] := by
    apply Classical.byContradiction
    intro hnone
    rw [h.lockNewest_of_not_ready fun before s hp => hnone ⟨before, s, hp⟩] at hlock
    cases hlock
  obtain ⟨i', locked', hlock', hlocked⟩ := h.lockNewest_of_ready hp
  rw [hlock] at hlock'
  cases hlock'
  refine ⟨before, s, hp, ?_, fun s' => ?_⟩
  · have hsegments := hlocked.segments_held
    rw [(Fifo.unlock_revise_newest hp h.not_locked s).1] at hsegments
    exact (List.cons.inj hsegments).1
  · obtain ⟨hheld, hunlocked⟩ := Fifo.unlock_revise_newest hp h.not_locked s'
    have hset := (hlocked.setSegment (k := 0) Nat.zero_lt_one s').unlock
    rw [hheld, List.set_cons_zero, hunlocked] at hset
    exact hset

/-! ## Changes to the ring -/

namespace Plant.Keeps

variable {n : Nat} {calm : Prop} {g : Ledger} {p : Plant n Scribe}

/-- The main loop may change the ring as long as it leaves what is executed alone and the flow
stays on its course. -/
theorem setRing (h : p.Keeps calm g) {r : Ring n} {q : Fifo} {l : Ledger}
    (hr : r.Holds l.held q) (hbegun : q.begun = p.ring.toFifo.begun)
    (hfront : r.front = p.ring.front) (hhead : q.head = l.head) (hflush : q.flush = l.flush)
    (hunflushed : calm → l.flush = false)
    (hcourse : calm → (q.flow p.side.stepper).OnCourse p.story l.goal l.accepted) :
    ({ p with ring := r } : Plant n Scribe).Keeps calm l := by
  have hqueue : r.toFifo = q := hr.toFifo_eq
  have hcoupled : ({ p with ring := r } : Plant n Scribe).strip.Coupled l.held q :=
    ⟨hr, hbegun.trans h.coupled.begun_eq,
      fun t ht => (h.coupled.slot_eq t ht).trans hfront.symm⟩
  refine ⟨?_, ?_, ?_, h.counted, h.clear, hunflushed, ?_⟩
  · dsimp only
    rw [hqueue]
    exact hcoupled
  · dsimp only
    rw [hqueue]
    exact hhead
  · dsimp only
    rw [hqueue]
    exact hflush
  · intro hcalm
    rw [hcoupled.flow_eq]
    exact hcourse hcalm

/-- A change to the ring that changes neither loads nor what has begun keeps the ledger, except
perhaps for what is held. -/
theorem setRingStill (h : p.Keeps calm g) {r : Ring n} {q : Fifo} {held : List Nat}
    (hr : r.Holds held q) (hbegun : q.begun = p.ring.toFifo.begun)
    (hfront : r.front = p.ring.front) (hloads : q.loads = p.ring.toFifo.loads)
    (hhead : q.head = p.ring.toFifo.head) (hflush : q.flush = p.ring.toFifo.flush) :
    ({ p with ring := r } : Plant n Scribe).Keeps calm { g with held := held } := by
  refine h.setRing (l := { g with held := held }) hr hbegun hfront (hhead.trans h.head_eq)
    (hflush.trans h.flush_eq) h.unflushed fun hcalm => ?_
  have hflow : q.flow p.side.stepper = p.strip.flow :=
    Fifo.flow_congr _ hloads hbegun (congrArg Segment.load hhead)
  rw [hflow]
  exact h.onCourse hcalm

theorem holds (h : p.Keeps calm g) : p.ring.Holds g.held p.ring.toFifo := h.coupled.holds

theorem begun_eq (h : p.Keeps calm g) : p.ring.toFifo.begun = p.side.stepper.isBusy :=
  h.coupled.begun_eq

theorem setRunning (h : p.Keeps calm g) (b : Bool) :
    ({ p with ring := p.ring.setRunning b } : Plant n Scribe).Keeps calm g :=
  h.setRingStill (h.holds.setRunning b) rfl rfl rfl rfl rfl

theorem reclaim (h : p.Keeps calm g) (hheld : g.held = []) (hfinished : p.ring.hasFinished = true) :
    ∃ r, p.ring.reclaim = .ok r ∧ ({ p with ring := r } : Plant n Scribe).Keeps calm g := by
  have hr := h.holds
  rw [hheld] at hr
  obtain ⟨-, -, -, r, -, hok, hholds⟩ := hr.reclaim_of_finished hfinished
  refine ⟨r, hok, ?_⟩
  have hkeeps := h.setRingStill hholds rfl (Ring.front_reclaim hok) rfl rfl rfl
  rw [← hheld] at hkeeps
  exact hkeeps

/-- The prepared segment may get more commands. -/
theorem setHead (h : p.Keeps calm g) (s : Segment) (extra : List Entry)
    (hentries : calm → s.load.entries = g.head.load.entries ++ extra) :
    ({ p with ring := p.ring.setHead s } : Plant n Scribe).Keeps calm
      { g with head := s, accepted := g.accepted ++ extra } := by
  refine h.setRing (l := { g with head := s, accepted := g.accepted ++ extra })
    (h.holds.setHead s) rfl rfl rfl h.flush_eq h.unflushed fun hcalm => ?_
  have hhead : p.strip.flow.head = g.head.load := congrArg Segment.load h.head_eq
  exact (h.onCourse hcalm).setHead (by rw [hhead]; exact hentries hcalm)

/-- A segment that is prepared in place of the head may be published if there is room. -/
theorem publish (h : p.Keeps calm g) (hheld : g.held = []) {r : Ring n} (s : Segment)
    (goal : PerAxis Int32) (extra : List Entry) (hr : r.Holds [] (p.ring.toFifo.setHead s))
    (hfront : r.front = p.ring.front) (hroom : r.isFull = false)
    (hload : calm → s.load.Sound ∧ s.load.entries = g.head.load.entries ++ extra ∧
      ∀ a, (goal.get a).toInt = (g.goal.get a).toInt + s.load.displacement a) :
    ∃ r', r.publish = .ok r' ∧ ({ p with ring := r' } : Plant n Scribe).Keeps calm
      { g with head := .empty, goal := goal, accepted := g.accepted ++ extra } := by
  obtain ⟨r', hok, hholds⟩ := hr.publish_of_not_full hroom
  refine ⟨r', hok, ?_⟩
  rw [← hheld] at hholds
  refine h.setRing (q := (p.ring.toFifo.setHead s).push) hholds (Fifo.begun_push _)
    ((Ring.front_publish hok).trans hfront) rfl h.flush_eq h.unflushed fun hcalm => ?_
  obtain ⟨hsound, hentries, hgoal⟩ := hload hcalm
  have hhead : p.strip.flow.head = g.head.load := congrArg Segment.load h.head_eq
  have hb : (p.ring.toFifo.setHead s).begun = p.side.stepper.isBusy := h.begun_eq
  rw [Fifo.flow_push hb]
  exact (h.onCourse hcalm).enqueue hsound (by rw [hhead]; exact hentries) hgoal

/-- A command may be attached to the newest pending segment if none waits at the head. -/
theorem attachToNewest (h : p.Keeps calm g) (hheld : g.held = []) {c : Command}
    (hhead : calm → g.head.load.entries = []) {i : Nat} {locked : Ring n} {s : Segment}
    (hlock : p.ring.lockNewest = some (i, locked)) (hs : (locked.segment i).attach c = .ok s) :
    ({ p with ring := (locked.setSegment i s).unlock [i] } : Plant n Scribe).Keeps calm
      { g with accepted := g.accepted ++ [.ran c] } := by
  obtain ⟨held, head, flush, goal, accepted⟩ := g
  obtain rfl : held = [] := hheld
  obtain ⟨before, s₀, hp, hseg, hrevised⟩ := h.holds.reviseNewest hlock
  have hset := hrevised s
  obtain ⟨ls, hwaiting, hnewest⟩ := Fifo.flow_newest h.begun_eq hp
  obtain ⟨hbegun, hflow⟩ := hnewest s
  have hfront : ((locked.setSegment i s).unlock [i]).front = p.ring.front := by
    obtain ⟨slots, hslots⟩ := (locked.setSegment i s).unlock_eq [i]
    obtain ⟨slots', hslots'⟩ := Ring.lockNewest_eq hlock
    rw [hslots, hslots']
    rfl
  refine h.setRing hset hbegun hfront h.head_eq h.flush_eq h.unflushed fun hcalm => ?_
  have hheadload : p.strip.flow.head = head.load := congrArg Segment.load h.head_eq
  rw [hseg] at hs
  obtain ⟨⟨l, rfl⟩, hentries⟩ := Segment.attach_eq_ok hs
  rw [hflow]
  exact (h.onCourse hcalm).attach hwaiting rfl rfl rfl hentries
    (by rw [hheadload]; exact hhead hcalm)

/-! ## Windows -/

theorem lockWindow (h : p.Keeps calm g) (hheld : g.held = []) :
    ({ p with ring := p.ring.lockWindow.2 } : Plant n Scribe).Keeps calm
      { g with held := p.ring.lockWindow.1.slots } := by
  have hr := h.holds
  rw [hheld] at hr
  obtain ⟨slots, hslots⟩ := p.ring.lockWindow_eq
  exact h.setRingStill hr.lockWindow (Fifo.begun_lockWindow _) (by rw [hslots])
    (Fifo.loads_lockWindow _) rfl rfl

/-- Whatever is done to the speeds of the segments held, their loads stay. -/
theorem revise (h : p.Keeps calm g) {ss : List Segment}
    (hss : ss.map Segment.load = (p.ring.segments g.held).map Segment.load) :
    ({ p with ring := p.ring.setSegments g.held ss } : Plant n Scribe).Keeps calm g := by
  rw [h.holds.segments_held] at hss
  obtain ⟨slots, hslots⟩ := p.ring.setSegments_eq g.held ss
  exact h.setRingStill (h.holds.setSegments ss) (Fifo.begun_revise _ _) (by rw [hslots])
    (Fifo.loads_revise hss) rfl rfl

theorem unlock (h : p.Keeps calm g) :
    ({ p with ring := p.ring.unlock g.held } : Plant n Scribe).Keeps calm
      { g with held := [] } := by
  obtain ⟨slots, hslots⟩ := p.ring.unlock_eq g.held
  exact h.setRingStill h.holds.unlock (Fifo.begun_unlock _) (by rw [hslots])
    (Fifo.loads_unlock _) rfl rfl

/-! ## What happens to a machine that is not calm

Where such a machine leads does not matter. -/

theorem relabel (h : p.Keeps calm g) (hnot : ¬ calm) (goal : PerAxis Int32)
    (accepted : List Entry) : p.Keeps calm { g with goal := goal, accepted := accepted } :=
  ⟨h.coupled, h.head_eq, h.flush_eq, h.counted, h.clear, h.unflushed,
    fun hcalm => (hnot hcalm).elim⟩

theorem setStop (h : p.Keeps calm g) (hnot : ¬ calm) (stop : StopMask) :
    ({ p with stop := stop } : Plant n Scribe).Keeps calm g :=
  ⟨⟨h.coupled.holds, h.coupled.begun_eq, h.coupled.slot_eq⟩, h.head_eq, h.flush_eq, h.counted,
    fun hcalm => (hnot hcalm).elim, h.unflushed, fun hcalm => (hnot hcalm).elim⟩

theorem setFlush (h : p.Keeps calm g) (hnot : ¬ calm) (flush : Bool) :
    ({ p with ring := p.ring.setFlush flush } : Plant n Scribe).Keeps calm
      { g with flush := flush } :=
  h.setRing (l := { g with flush := flush }) (h.holds.setFlush flush) rfl rfl h.head_eq rfl
    (fun hcalm => (hnot hcalm).elim) fun hcalm => (hnot hcalm).elim

theorem setPosition (h : p.Keeps calm g) (hnot : ¬ calm) (position : PerAxis Int32) :
    ({ p with side := { p.side with
      stepper := { p.side.stepper with position := position } } } : Plant n Scribe).Keeps calm g :=
  ⟨⟨h.coupled.holds, h.coupled.begun_eq, h.coupled.slot_eq⟩, h.head_eq, h.flush_eq, h.counted,
    h.clear, h.unflushed, fun hcalm => (hnot hcalm).elim⟩

end Plant.Keeps

end MotionControl
