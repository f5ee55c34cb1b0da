import MotionControl.Proofs.Motion.Errands
import MotionControl.Proofs.Motion.Passing

/-!
# The roster of a plant

A `Roster` lists the segments that have begun, in the order in which they were reported, and those
that wait, and the one being prepared. `Plant.Matches` says that it is the one of a plant. What the
main loop does to the ring is described here by what it does to the roster, and what the interrupt
does by `Roster.Passes`: the first of the waiting segments begin.

No segment that is locked begins. So the roster stays as it is while all that waits is held for
revision.
-/

namespace MotionControl

variable {n : Nat}

/-- What is known of the segments of a plant. -/
structure Roster where
  /-- the slots held for revision -/
  held : List Nat
  /-- the segments that have begun, oldest first -/
  started : List Segment
  /-- the segments that wait, oldest first -/
  waiting : List Slot
  /-- the segment being prepared -/
  head : Segment

namespace Roster

/-- The exit speed of the segment that has begun last; before the first one it is zero. -/
def boundary (r : Roster) : Float32 := Segment.endOf 0 r.started

/-- The segments that wait. -/
def segments (r : Roster) : List Segment := r.waiting.map Slot.segment

/-- All that waits is held for revision, and nothing else is. -/
structure Locked (r : Roster) : Prop where
  /-- what waits is locked -/
  locked : ∀ e ∈ r.waiting, e.state = .locked
  /-- there are no other locks -/
  length_held : r.held.length = r.waiting.length

/-- The first of the waiting segments have begun. -/
inductive Passes (r : Roster) : Roster → Prop
  | mk {gone rest : List Slot} (hwaiting : r.waiting = gone ++ rest)
      (hready : ∀ e ∈ gone, e.state = .ready) :
      Passes r { r with started := r.started ++ gone.map Slot.segment, waiting := rest }

/-- Nothing begins while all that waits is locked. -/
theorem Passes.eq_of_locked {r r' : Roster} (h : r.Passes r') (hlocked : r.Locked) : r' = r := by
  obtain ⟨hwaiting, hready⟩ := h
  next gone rest =>
  cases gone with
  | nil =>
    rw [List.nil_append] at hwaiting
    rw [← hwaiting, List.map_nil, List.append_nil]
  | cons e gone =>
    have hl := hlocked.locked e (by rw [hwaiting]; exact List.mem_cons_self)
    rw [hready e List.mem_cons_self] at hl
    cases hl

end Roster

namespace Plant

/-- The roster is the one of the plant. No stop is latched, and nothing is skipped. -/
structure Matches (p : Plant n Scribe) (r : Roster) : Prop where
  /-- the plant is in one of the states of the machine -/
  reachable : Reachable (fun s => s.load.Sound) r.held p.strip
  /-- no stop is latched -/
  clear : p.stop.isActive = false
  /-- nothing is skipped -/
  unflushed : p.ring.flush = false
  /-- no stop has cut anything off what is executed -/
  uncut : p.side.stepper.Uncut
  /-- what has begun has been reported -/
  started_eq : p.reported = r.started
  /-- the rest waits -/
  waiting_eq : p.ring.toFifo.waiting = r.waiting
  /-- the prepared segment is at the head -/
  head_eq : p.ring.toFifo.head = r.head
  /-- the ring remembers where the last segment ends -/
  boundary_eq : p.ring.toFifo.boundary = r.boundary

namespace Matches

variable {p p' : Plant n Scribe} {r : Roster}

theorem holds (h : p.Matches r) : p.ring.Holds r.held p.ring.toFifo := by
  obtain ⟨q, hq⟩ := h.reachable.orderly
  have hholds : p.ring.Holds r.held q := hq.attended.holds
  rwa [hholds.toFifo_eq]

theorem headSegment_eq (h : p.Matches r) : p.ring.headSegment = r.head :=
  h.holds.headSegment_eq.trans h.head_eq

/-- All segments are sound. -/
theorem sound (h : p.Matches r) : r.head.load.Sound ∧ ∀ s ∈ r.segments, s.load.Sound := by
  obtain ⟨q, hq⟩ := h.reachable.orderly
  have hholds : p.ring.Holds r.held q := hq.attended.holds
  obtain ⟨hhead, hentries⟩ := hq.attended.all Load.sound_empty
  rw [← hholds.toFifo_eq] at hhead hentries
  refine ⟨h.head_eq ▸ hhead, fun s hs => ?_⟩
  obtain ⟨e, he, rfl⟩ := List.mem_map.mp hs
  refine hentries e ?_
  rw [Fifo.entries_eq, h.waiting_eq]
  exact List.mem_append_right _ he

/-- Nothing is known of a plant that starts. -/
theorem fresh {len : Nat} {ring : Ring n} (hring : Ring.new n len = .ok ring) {stepper : Stepper}
    (hidle : stepper.isBusy = false) :
    (⟨ring, .clear, #[], .ofStepper stepper⟩ : Plant n Scribe).Matches ⟨[], [], [], .empty⟩ := by
  have hreachable : Reachable (fun s => s.load.Sound) [] ⟨ring, .clear, #[], stepper⟩ :=
    .fresh hring hidle
  have hnone : stepper.current = none := by simpa [Stepper.isBusy] using hidle
  unfold Ring.new at hring
  split at hring
  · next hlen =>
    cases hring
    have hfifo := (Ring.Holds.ofLen hlen.1 hlen.2).toFifo_eq
    exact ⟨hreachable, rfl, rfl, .of_none hnone, rfl, by rw [hfifo]; rfl, by rw [hfifo]; rfl,
      by rw [hfifo]; rfl⟩
  · cases hring

/-! ## The interrupt -/

/-- A tick that publishes events. -/
theorem of_passes (h : p.Matches r) {es : List Event}
    (hreachable : Reachable (fun s => s.load.Sound) r.held p'.strip)
    (hstop : p'.stop = p.stop) (huncut : p'.side.stepper.Uncut)
    (hevents : p'.events.toList = p.events.toList ++ es) (hpasses : p.strip.Passes es p'.strip) :
    ∃ r', r.Passes r' ∧ p'.Matches r' := by
  obtain ⟨gone, hgone, hes⟩ := hpasses
  have hwaiting : r.waiting = gone ++ p'.ring.toFifo.waiting :=
    h.waiting_eq.symm.trans hgone.waiting_eq
  refine ⟨_, .mk hwaiting hgone.ready, hreachable, hstop ▸ h.clear, ?_, huncut, ?_, rfl,
    hgone.head_eq.trans h.head_eq, ?_⟩
  · exact hgone.flush_eq.trans h.unflushed
  · rw [reported_append hevents, h.started_eq, hes]
  · refine hgone.boundary_eq.trans ?_
    rw [Roster.boundary, Segment.endOf_append]
    exact congrArg (Segment.endOf · _) h.boundary_eq

theorem recordTick (h : p.Matches r) (hok : p.recordTick = .ok p') :
    ∃ r', r.Passes r' ∧ p'.Matches r' := by
  obtain ⟨o, htick⟩ := tick_of_recordTick hok
  obtain ⟨q, hq⟩ := h.reachable.orderly
  obtain ⟨o', es, p₁, hok', hticks⟩ | herr := hq.coupled.ticks
  · rw [htick] at hok'
    cases hok'
    have hflush : q.flush = false := hq.attended.holds.flush_eq.symm.trans h.unflushed
    obtain ⟨hpasses, huncut⟩ := hticks.passes hq h.clear hflush h.uncut
    exact h.of_passes (h.reachable.tick htick) hticks.stop_eq huncut hticks.events_eq hpasses
  · rw [htick] at herr
    cases herr

theorem recordRamp (h : p.Matches r) : ∃ r', r.Passes r' ∧ p.recordRamp.Matches r' := by
  have hramp : ∃ es, p.strip.rampTick.events.toList = p.strip.events.toList ++ es ∧
      es.filterMap Event.starts? = [] ∧ p.strip.rampTick.side.Uncut := by
    unfold rampTick
    cases hc : p.strip.side.current with
    | none => exact ⟨[], (List.append_nil _).symm, rfl, .of_none hc⟩
    | some t =>
      dsimp only
      split
      · exact ⟨[], (List.append_nil _).symm, rfl, h.uncut⟩
      · refine ⟨_, Array.toList_push, rfl, fun t' ht' => ?_⟩
        cases ht'
        exact h.uncut t hc
  obtain ⟨es, hevents, hes, huncut⟩ := hramp
  exact h.of_passes h.reachable.rampTick (stop_rampTick _) huncut hevents
    (.of_ring (ring_rampTick _) hes)

/-- A beat does not fail but by a step out of the word of a position. -/
theorem beat (h : p.Matches r) {b : Beat} (hb : b.isCalm = true) :
    Fault.Blameless (fun p' => ∃ r', r.Passes r' ∧ p'.Matches r') (p.beat b) := by
  cases hbeat : p.beat b with
  | error e =>
    rw [h.reachable.error_of_beat hbeat]
    rfl
  | ok p' =>
    cases b with
    | step => exact h.recordTick hbeat
    | ramp =>
      cases hbeat
      exact h.recordRamp
    | trigger i => cases hb
    | rearm => cases hb

/-- Beats keep what is kept by the begin of waiting segments. -/
theorem beats {inv : Roster → Prop} (hinv : ∀ r r', inv r → r.Passes r' → inv r')
    {inspect : Plant n Scribe → Bool} (hinspect : ∀ p r, inv r → p.Matches r → inspect p = true)
    {bs : List Beat} (hbs : bs.all Beat.isCalm = true) (h : p.Matches r) (hr : inv r) :
    Fault.Blameless (fun p' => ∃ r', inv r' ∧ p'.Matches r') (Plant.beats inspect bs p) := by
  induction bs generalizing p r with
  | nil =>
    rw [Plant.beats, if_pos (hinspect p r hr h)]
    exact ⟨r, hr, h⟩
  | cons b bs ih =>
    rw [List.all_cons, Bool.and_eq_true] at hbs
    rw [Plant.beats, if_pos (hinspect p r hr h)]
    refine (h.beat hbs.1).bind ?_
    rintro p' ⟨r', hpasses, h'⟩
    exact ih hbs.2 h' (hinv r r' hr hpasses)

/-- Beats change nothing about the roster while all that waits is locked. -/
theorem beats_locked {inspect : Plant n Scribe → Bool}
    (hinspect : ∀ p : Plant n Scribe, p.Matches r → inspect p = true) {bs : List Beat}
    (hbs : bs.all Beat.isCalm = true) (h : p.Matches r) (hlocked : r.Locked) :
    Fault.Blameless (Matches · r) (Plant.beats inspect bs p) := by
  have hstays : ∀ r₁ r₂ : Roster, r₁ = r → r₁.Passes r₂ → r₂ = r := by
    rintro r₁ r₂ rfl hpasses
    exact hpasses.eq_of_locked hlocked
  refine (h.beats hstays (fun p r' hr h' => ?_) hbs rfl).mono ?_
  · subst hr
    exact hinspect p h'
  · rintro p' ⟨r', rfl, h'⟩
    exact h'

/-! ## The main loop -/

/-- The ring has been changed. -/
theorem of_ring (h : p.Matches r) {held : List Nat} {ring : Ring n}
    (hreachable : Reachable (fun s => s.load.Sound) held { p.strip with ring := ring }) {q : Fifo}
    (hq : ring.Holds held q) {waiting : List Slot} {head : Segment}
    (hflush : q.flush = p.ring.toFifo.flush) (hwaiting : q.waiting = waiting)
    (hhead : q.head = head) (hboundary : q.boundary = p.ring.toFifo.boundary) :
    ({ p with ring := ring } : Plant n Scribe).Matches
      { r with held := held, waiting := waiting, head := head } := by
  have hfifo : ring.toFifo = q := hq.toFifo_eq
  refine ⟨hreachable, h.clear, ?_, h.uncut, h.started_eq, ?_, ?_, ?_⟩
  · exact hq.flush_eq.trans (hflush.trans h.unflushed)
  · rw [hfifo, hwaiting]
  · rw [hfifo, hhead]
  · rw [hfifo, hboundary]
    exact h.boundary_eq

theorem setRunning (h : p.Matches r) (hpending : p.ring.hasPending = true) :
    ({ p with ring := p.ring.setRunning true } : Plant n Scribe).Matches r :=
  h.of_ring (h.reachable.work (.run hpending)) (h.holds.setRunning true) rfl h.waiting_eq h.head_eq
    rfl

theorem setHead (h : p.Matches r) {s : Segment} (hs : s.load.Sound) :
    ({ p with ring := p.ring.setHead s } : Plant n Scribe).Matches { r with head := s } :=
  h.of_ring (h.reachable.work (.write hs)) (h.holds.setHead s) rfl h.waiting_eq rfl rfl

/-- Clearing never fails where nothing is held. -/
theorem reclaim (h : p.Matches r) (hheld : r.held = []) (hfinished : p.ring.hasFinished = true) :
    p.ring.isEmpty = false ∧ ∃ ring, p.ring.reclaim = .ok ring ∧
      ({ p with ring := ring } : Plant n Scribe).Matches r := by
  obtain ⟨held, started, waiting, head⟩ := r
  obtain rfl : held = [] := hheld
  obtain ⟨hempty, e, rest, ring, hf, hring, hreclaimed⟩ := h.holds.reclaim_of_finished hfinished
  exact ⟨hempty, ring, hring, h.of_ring (h.reachable.work (.reclaim hring)) hreclaimed rfl
    h.waiting_eq h.head_eq (Fifo.boundary_reclaim hf)⟩

/-- Where there is room, the prepared segment goes behind all others and leaves an empty one. -/
theorem publish (h : p.Matches r) (hroom : p.ring.isFull = false) :
    ∃ ring, p.ring.publish = .ok ring ∧ ({ p with ring := ring } : Plant n Scribe).Matches
      { r with waiting := r.waiting ++ [⟨r.head, .ready⟩], head := .empty } := by
  obtain ⟨ring, hring, hpushed⟩ := h.holds.publish_of_not_full hroom
  obtain ⟨hstarted, hwaiting⟩ := p.ring.toFifo.parts_push
  refine ⟨ring, hring, h.of_ring (h.reachable.work (.publish hring)) hpushed rfl ?_ rfl ?_⟩
  · rw [hwaiting, h.waiting_eq, h.head_eq]
  · rw [Fifo.boundary, Fifo.boundary, hstarted]
    rfl

/-- The newest segment may be revised while it waits. -/
theorem reviseNewest (h : p.Matches r) (hheld : r.held = []) {i : Nat} {locked : Ring n}
    (hlock : p.ring.lockNewest = some (i, locked)) : ∃ before s,
      r.waiting = before ++ [⟨s, .ready⟩] ∧ locked.segment i = s ∧
      ∀ s' : Segment, (s.load.Sound → s'.load.Sound) →
        ({ p with ring := (locked.setSegment i s').unlock [i] } : Plant n Scribe).Matches
          { r with waiting := before ++ [⟨s', .ready⟩] } := by
  obtain ⟨held, started, waiting, head⟩ := r
  obtain rfl : held = [] := hheld
  obtain ⟨before, s, hp, hseg, hrevised⟩ := h.holds.reviseNewest hlock
  obtain ⟨ws, hwaiting, -⟩ := Fifo.parts_newest hp (e := ⟨s, .ready⟩) (by simp)
  have hsound : s.load.Sound := h.sound.2 s (by
    rw [Roster.segments, ← h.waiting_eq, hwaiting, List.map_append]
    exact List.mem_append_right _ List.mem_cons_self)
  refine ⟨ws, s, h.waiting_eq.symm.trans hwaiting, hseg, fun s' hs' => ?_⟩
  obtain ⟨ws', hwaiting', hnew, hstarted⟩ := Fifo.parts_newest hp (e := ⟨s', .ready⟩) (by simp)
  obtain rfl : ws' = ws := List.append_cancel_right (hwaiting'.symm.trans hwaiting)
  have hrevise : Ring.Work (fun s => s.load.Sound) [i] locked [i] (locked.setSegments [i] [s']) :=
    .revise (by simpa using hs' hsound)
  have hwork := ((h.reachable.work (.lockNewest hlock)).work hrevise).work .unlock
  refine h.of_ring hwork (hrevised s') rfl hnew h.head_eq ?_
  rw [Fifo.boundary, Fifo.boundary, hstarted]

theorem wakeUp (h : p.Matches r) : (p.publish .wokeUp).Matches r := by
  have hevents : (p.publish .wokeUp).events.toList = p.events.toList ++ [.wokeUp] :=
    Array.toList_push
  refine ⟨h.reachable.wakeUp, h.clear, h.unflushed, h.uncut, ?_, h.waiting_eq, h.head_eq,
    h.boundary_eq⟩
  rw [reported_append hevents, h.started_eq]
  exact List.append_nil _

/-! ## Windows -/

/-- Everything that waits is locked, and the window starts with the speed before it. -/
theorem lockWindow (h : p.Matches r) (hheld : r.held = []) : ∃ r' : Roster,
    ({ p with ring := p.ring.lockWindow.2 } : Plant n Scribe).Matches r' ∧ r'.Locked ∧
      r'.held = p.ring.lockWindow.1.slots ∧ r'.segments = r.segments ∧
      r'.started = r.started ∧ r'.head = r.head ∧
      (r.segments ≠ [] → p.ring.lockWindow.1.boundary = r.boundary) := by
  obtain ⟨held, started, waiting, head⟩ := r
  obtain rfl : held = [] := hheld
  have hholds := h.holds
  obtain ⟨hstarted, hwaiting⟩ := p.ring.toFifo.parts_lockWindow
  have hlocked : ∀ e ∈ p.ring.toFifo.lockWindow.waiting, e.state = .locked := by
    intro e he
    rw [hwaiting] at he
    obtain ⟨e₀, he₀, rfl⟩ := List.mem_map.mp he
    rw [Slot.lock_of_ready (hholds.ready_of_waiting e₀ he₀)]
  have hnot : ∀ e ∈ p.ring.toFifo.lockWindow.started, e.state ≠ .locked := by
    intro e he
    rw [hstarted] at he
    exact hholds.not_locked e (by rw [Fifo.entries_eq]; exact List.mem_append_left _ he)
  have hsegments := hholds.lockWindow.segments_eq_waiting hlocked hnot
  have hlen := congrArg List.length hsegments
  rw [Ring.segments, List.length_map, List.length_map] at hlen
  have hmatches := h.of_ring (h.reachable.work .lockWindow) hholds.lockWindow rfl rfl
    h.head_eq (by rw [Fifo.boundary, Fifo.boundary, hstarted]; rfl)
  refine ⟨_, hmatches, ⟨hlocked, hlen⟩, rfl, ?_, rfl, rfl, fun hne => ?_⟩
  · rw [Roster.segments, hwaiting, List.map_map]
    exact (List.map_congr_left fun e _ => e.segment_lock).trans
      (congrArg (List.map Slot.segment) h.waiting_eq)
  · refine (hholds.boundary_lockWindow fun hnil => hne ?_).trans h.boundary_eq
    rw [Roster.segments, ← h.waiting_eq, hnil]
    rfl

theorem segments_held (h : p.Matches r) (hlocked : r.Locked) :
    p.ring.segments r.held = r.segments := by
  have hwaiting : ∀ e ∈ p.ring.toFifo.waiting, e.state = .locked := h.waiting_eq ▸ hlocked.locked
  have hstarted := h.holds.not_locked_of_started hwaiting (h.waiting_eq ▸ hlocked.length_held)
  rw [h.holds.segments_eq_waiting hwaiting hstarted, h.waiting_eq]
  rfl

/-- What is locked is revised as a whole. -/
theorem revise (h : p.Matches r) (hlocked : r.Locked) {ss : List Segment}
    (hss : ∀ s ∈ ss, s.load.Sound) (hlen : ss.length = r.segments.length) : ∃ r' : Roster,
    ({ p with ring := p.ring.setSegments r.held ss } : Plant n Scribe).Matches r' ∧ r'.Locked ∧
      r'.held = r.held ∧ r'.segments = ss ∧ r'.started = r.started ∧ r'.head = r.head := by
  have hwaiting : ∀ e ∈ p.ring.toFifo.waiting, e.state = .locked := h.waiting_eq ▸ hlocked.locked
  have hstarted := h.holds.not_locked_of_started hwaiting (h.waiting_eq ▸ hlocked.length_held)
  obtain ⟨hstarted', hrevised⟩ := Fifo.parts_revise hstarted ss
  rw [h.waiting_eq] at hrevised
  rw [Roster.segments, List.length_map] at hlen
  obtain ⟨hmap, hlocked'⟩ := Slot.refill_of_locked hlocked.locked hlen
  have hmatches := h.of_ring (h.reachable.work (.revise hss)) (h.holds.setSegments ss) rfl hrevised
    h.head_eq (by rw [Fifo.boundary, Fifo.boundary, hstarted']; rfl)
  refine ⟨_, hmatches, ⟨hlocked', ?_⟩, rfl, hmap, rfl, rfl⟩
  exact hlocked.length_held.trans (Slot.length_refill _ _).symm

theorem unlock (h : p.Matches r) : ∃ r' : Roster,
    ({ p with ring := p.ring.unlock r.held } : Plant n Scribe).Matches r' ∧ r'.held = [] ∧
      r'.segments = r.segments ∧ r'.started = r.started ∧ r'.head = r.head := by
  obtain ⟨hstarted, hwaiting⟩ := p.ring.toFifo.parts_unlock
  rw [h.waiting_eq] at hwaiting
  have hsame : p.ring.toFifo.unlock.boundary = p.ring.toFifo.boundary := by
    rw [Fifo.boundary, Fifo.boundary, hstarted, List.map_map]
    exact congrArg (Segment.endOf _) (List.map_congr_left fun e _ => e.segment_unlock)
  refine ⟨_, h.of_ring (h.reachable.work .unlock) h.holds.unlock rfl hwaiting h.head_eq hsame, rfl,
    ?_, rfl, rfl⟩
  rw [Roster.segments, List.map_map]
  exact List.map_congr_left fun e _ => e.segment_unlock

end Matches

end Plant

end MotionControl
