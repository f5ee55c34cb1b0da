import MotionControl.Hand
import MotionControl.Proofs.Motion.Errands

/-!
# An interrupt's side that keeps a record

An `Act` is what an interrupt's side may do with the ring. A `Clerk` performs acts by hand, and
writes down which segments begin, with their slots. Otherwise it does what a `Hand` does
(`Act.byHand_note`).

A `Duty` is one call of the dispatcher, together with what the interrupt does in the meantime: in
the idle calls of a wait, and while segments are held for revision. Whatever the duties are, the
clerk attends to the ring between them, nothing is held, and the ring is not flushing
(`Dispatcher.tended_of_duties`).
-/

namespace MotionControl

variable {n : Nat}

/-- The state of an interrupt's side that is driven by hand and keeps a record of what begins. -/
structure Clerk extends Hand where
  /-- the segments begun so far with their slots, oldest first -/
  begun : List (Nat × Segment)

/-- Nothing is executed, and nothing has begun or ended. -/
def Clerk.atRest : Clerk := ⟨.atRest, []⟩

namespace Plant

/-- The plant without the record of what has begun. -/
def byHand (p : Plant n Clerk) : Plant n Hand := ⟨p.ring, p.stop, p.events, p.side.toHand⟩

/-- What a hand has made of a plant, with a note that the segment in some slot has begun. -/
def noting (p : Plant n Clerk) (p' : Plant n Hand) (slot : Option Nat) : Plant n Clerk :=
  ⟨p'.ring, p'.stop, p'.events,
    ⟨p'.side, p.side.begun ++ (slot.map fun i => (i, p'.ring.segment i)).toList⟩⟩

/-- Begin the next segment, unless one is under execution. -/
def startNoted (p : Plant n Clerk) : Plant n Clerk :=
  let p' := p.byHand.startByHand
  p.noting p' (if p.side.current.isSome then none else p'.side.current)

/-- End the segment under execution, if any. What is under execution afterwards has just begun. -/
def finishNoted (p : Plant n Clerk) : Except Fault (Plant n Clerk) := do
  let p' ← p.byHand.finishByHand
  return p.noting p' p'.side.current

/-- Drop everything. -/
def abortNoted (p : Plant n Clerk) : Plant n Clerk := p.noting p.byHand.abortByHand none

end Plant

/-- Perform an act and note what begins. -/
def Act.note (act : Act) (p : Plant n Clerk) : Except Fault (Plant n Clerk) :=
  match act with
  | pass => .ok p
  | start => .ok p.startNoted
  | finish => p.finishNoted
  | step => p.startNoted.finishNoted
  | abort => .ok p.abortNoted

theorem Plant.byHand_finishNoted (p : Plant n Clerk) :
    p.finishNoted.map byHand = p.byHand.finishByHand := by
  unfold finishNoted
  cases p.byHand.finishByHand <;> rfl

/-- The record changes nothing. -/
theorem Act.byHand_note (act : Act) (p : Plant n Clerk) :
    (act.note p).map Plant.byHand = act.perform p.byHand := by
  cases act with
  | finish => exact p.byHand_finishNoted
  | step => exact p.startNoted.byHand_finishNoted
  | _ => rfl

/-- Perform some acts. -/
def Plant.acts : List Act → Plant n Clerk → Except Fault (Plant n Clerk)
  | [], p => .ok p
  | act :: rest, p => do acts rest (← act.note p)

/-- To hand a segment back is to finish it and to begin the next one, if any. -/
theorem Ring.release_of_finish {r r' : Ring n} {slot : Nat}
    (h : r.finish slot = .ok (r'.running, r')) :
    r.release slot = .ok (r'.start?.elim (none, r') fun x => (some x.1, x.2)) := by
  rw [release, h, start?]
  dsimp only [bind, Except.bind]
  split
  · cases r'.begin? <;> rfl
  · rfl

/-! ## The single acts -/

namespace Plant

section

variable {p : Plant n Hand}

theorem startByHand_of_busy {slot : Nat} (hc : p.side.current = some slot) : p.startByHand = p := by
  rw [startByHand, hc]

theorem startByHand_of_none (hc : p.side.current = none) (hs : p.ring.start? = none) :
    p.startByHand = p := by
  rw [startByHand, hc, hs]

theorem startByHand_of_some (hc : p.side.current = none) {slot : Nat} {r : Ring n}
    (hs : p.ring.start? = some (slot, r)) :
    p.startByHand = { p with ring := r, side := { p.side with current := some slot } } := by
  rw [startByHand, hc, hs]

theorem finishByHand_of_none (hc : p.side.current = none) : p.finishByHand = .ok p := by
  rw [finishByHand, hc]

/-- To end a segment is to finish it and to begin the next one, if any. -/
theorem finishByHand_of_some {slot : Nat} {s : Segment} {r : Ring n}
    (hc : p.side.current = some slot) (hexec : p.ring.executing slot = .ok s)
    (hr : p.ring.finish slot = .ok (r.running, r)) :
    p.finishByHand = .ok { p with
      ring := r
      side := ⟨none, p.side.ended.push (slot, s)⟩ : Plant n Hand }.startByHand := by
  simp only [finishByHand, hc, hexec, Ring.release_of_finish hr, startByHand]
  cases r.start? <;> rfl

end

variable {good : Segment → Prop} {held : List Nat} {p : Plant n Clerk} {q : Fifo}

/-- The segment at the front has begun, which leaves a ring. -/
def beginning (p : Plant n Clerk) (r : Ring n) (s : Segment) : Plant n Clerk :=
  { p with
    ring := r
    side := { p.side with
      current := some p.ring.front
      begun := p.side.begun ++ [(p.ring.front, s)] } }

/-- The segment at the front is over, which leaves a ring. -/
def ending (p : Plant n Clerk) (r : Ring n) (s : Segment) : Plant n Clerk :=
  { p with
    ring := r
    side := { p.side with current := none, ended := p.side.ended.push (p.ring.front, s) } }

theorem noting_byHand (p : Plant n Clerk) : p.noting p.byHand none = p := by
  rw [noting, Option.map_none, Option.toList_none, List.append_nil]
  rfl

/-- Nothing begins, or the first segment does. -/
theorem startNoted_cases (h : p.ring.Attended good held q p.side.current) :
    (p.startNoted = p ∧ (p.side.current = none → q.running = true →
      ∀ s rest, q.pending ≠ ⟨s, .ready⟩ :: rest)) ∨
    ∃ s rest r, q.pending = ⟨s, .ready⟩ :: rest ∧ p.side.current = none ∧
      p.startNoted = p.beginning r s ∧ r.front = p.ring.front ∧
      r.Attended good held { q with pending := ⟨s, .executing⟩ :: rest } (some p.ring.front) := by
  cases hc : p.side.current with
  | some slot =>
    refine .inl ⟨?_, fun hnone => by cases hnone⟩
    rw [startNoted, startByHand_of_busy hc, hc]
    exact p.noting_byHand
  | none =>
    have hstill : p.ring.start? = none → p.startNoted = p := by
      intro hs
      have hc' : p.byHand.side.current = none := hc
      rw [startNoted, startByHand_of_none hc' hs, hc, hc']
      exact p.noting_byHand
    rw [hc] at h
    by_cases hrun : p.ring.running = true
    · have hstart : p.ring.start? = p.ring.begin? := if_pos hrun
      obtain ⟨hnone, hnot⟩ | ⟨s, rest, r, hp, hr, hfront, -, h'⟩ := h.begin_cases
      · exact .inl ⟨hstill (hstart.trans hnone), fun _ _ => hnot⟩
      · have hsegment : r.segment p.ring.front = s := by
          rw [← hfront, Ring.segment, (h' hrun).holds.slot_front rfl]
        refine .inr ⟨s, rest, r, hp, rfl, ?_, hfront, h' hrun⟩
        rw [startNoted, startByHand_of_some hc (hstart.trans hr), hc, ← hsegment]
        rfl
    · refine .inl ⟨hstill (if_neg hrun), fun _ hrun' => absurd ?_ hrun⟩
      rw [h.holds.running_eq, hrun']

theorem finishNoted_of_none (hc : p.side.current = none) : p.finishNoted = .ok p := by
  have hc' : p.byHand.side.current = none := hc
  rw [finishNoted, finishByHand_of_none hc']
  change Except.ok (p.noting p.byHand p.byHand.side.current) = .ok p
  rw [hc', p.noting_byHand]

/-- The segment under execution is the first pending one. It is over, and the next one may begin. -/
theorem finishNoted_of_some {slot : Nat} (hc : p.side.current = some slot)
    (h : p.ring.Attended good held q (some slot)) : ∃ s rest r,
      q.pending = ⟨s, .executing⟩ :: rest ∧ r.Attended good held q.finish.2 none ∧
      p.finishNoted = .ok (p.ending r s).startNoted := by
  obtain ⟨s, rest, hp, hexec⟩ := h.executing
  obtain ⟨r, hr, h'⟩ := h.finish
  obtain rfl := h.slot_eq slot rfl
  refine ⟨s, rest, r, hp, h', ?_⟩
  have hhand : p.byHand.finishByHand = .ok (p.ending r s).byHand.startByHand :=
    finishByHand_of_some hc hexec hr
  rw [finishNoted, hhand]
  rfl

/-! ## What acts keep -/

/-- A property of a plant and the queue of its ring is kept by a clerk, who does three things: the
first segment begins, it is over, or everything is dropped. -/
structure Handled (held : List Nat) (inv : Plant n Clerk → Fifo → Prop) : Prop where
  /-- the clerk attends to the ring -/
  attended {p : Plant n Clerk} {q : Fifo} (h : inv p q) :
    p.ring.Attended (fun _ => True) held q p.side.current
  /-- the first segment may begin -/
  begins {p : Plant n Clerk} {q : Fifo} (h : inv p q) {s : Segment} {rest : List Slot} {r : Ring n}
    (hc : p.side.current = none) (hp : q.pending = ⟨s, .ready⟩ :: rest)
    (hfront : r.front = p.ring.front)
    (hr : r.Attended (fun _ => True) held { q with pending := ⟨s, .executing⟩ :: rest }
      (some p.ring.front)) :
    inv (p.beginning r s) { q with pending := ⟨s, .executing⟩ :: rest }
  /-- it may be over -/
  ends {p : Plant n Clerk} {q : Fifo} (h : inv p q) {s : Segment} {rest : List Slot} {r : Ring n}
    (hp : q.pending = ⟨s, .executing⟩ :: rest)
    (hr : r.Attended (fun _ => True) held q.finish.2 none) : inv (p.ending r s) q.finish.2
  /-- everything may be dropped -/
  aborts {p : Plant n Clerk} {q : Fifo} (h : inv p q) : inv p.abortNoted q.abort

namespace Handled

variable {inv : Plant n Clerk → Fifo → Prop}

theorem start (hi : Handled held inv) (h : inv p q) : ∃ q', inv p.startNoted q' := by
  obtain ⟨hstill, -⟩ | ⟨s, rest, r, hp, hc, hbegun, hfront, hr⟩ := startNoted_cases (hi.attended h)
  · rw [hstill]
    exact ⟨q, h⟩
  · rw [hbegun]
    exact ⟨_, hi.begins h hc hp hfront hr⟩

/-- Ending a segment never fails. -/
theorem finish (hi : Handled held inv) (h : inv p q) :
    ∃ p' q', p.finishNoted = .ok p' ∧ inv p' q' := by
  cases hc : p.side.current with
  | none => exact ⟨p, q, finishNoted_of_none hc, h⟩
  | some slot =>
    have hattended := hi.attended h
    rw [hc] at hattended
    obtain ⟨s, rest, r, hp, hr, hfinish⟩ := finishNoted_of_some hc hattended
    obtain ⟨q', h'⟩ := hi.start (hi.ends h hp hr)
    exact ⟨_, q', hfinish, h'⟩

theorem note (hi : Handled held inv) (h : inv p q) (act : Act) :
    ∃ p' q', act.note p = .ok p' ∧ inv p' q' := by
  cases act with
  | pass => exact ⟨p, q, rfl, h⟩
  | start =>
    obtain ⟨q', h'⟩ := hi.start h
    exact ⟨_, q', rfl, h'⟩
  | finish => exact hi.finish h
  | step =>
    obtain ⟨q', h'⟩ := hi.start h
    exact hi.finish h'
  | abort => exact ⟨_, q.abort, rfl, hi.aborts h⟩

theorem acts (hi : Handled held inv) (h : inv p q) (as : List Act) :
    ∃ p' q', Plant.acts as p = .ok p' ∧ inv p' q' := by
  induction as generalizing p q with
  | nil => exact ⟨p, q, rfl, h⟩
  | cons act rest ih =>
    obtain ⟨p₁, q₁, hp₁, h₁⟩ := hi.note h act
    rw [Plant.acts, hp₁]
    exact ih h₁

end Handled

/-- The clerk attends to the ring, which is flushing or not. -/
structure Tended (held : List Nat) (flush : Bool) (p : Plant n Clerk) (q : Fifo) : Prop where
  /-- the clerk attends to the ring -/
  attended : p.ring.Attended (fun _ => True) held q p.side.current
  /-- the ring is flushing or not -/
  flush_eq : q.flush = flush

theorem handled_tended (held : List Nat) (flush : Bool) :
    Handled (n := n) held (Tended held flush) where
  attended h := h.attended
  begins h _ _ _ _ _ _ hr := ⟨hr, h.flush_eq⟩
  ends h _ _ _ _ hr := ⟨hr, h.flush_eq⟩
  aborts h := ⟨h.attended.abort, h.flush_eq⟩

theorem Tended.acts {flush : Bool} (h : p.Tended held flush q) (as : List Act) :
    Fault.Blameless (fun p' => ∃ q', p'.Tended held flush q') (Plant.acts as p) := by
  obtain ⟨p', q', hp', h'⟩ := (handled_tended held flush).acts h as
  rw [hp']
  exact ⟨q', h'⟩

/-- What the main loop does to the ring leaves the clerk attending to it. -/
theorem Tended.work {flush : Bool} (h : p.Tended held flush q) {held' : List Nat} {r : Ring n}
    (hw : Ring.Work (fun _ => True) held p.ring held' r) (hflush : r.flush = p.ring.flush) :
    ∃ q', ({ p with ring := r } : Plant n Clerk).Tended held' flush q' := by
  obtain ⟨q', hr, -⟩ := h.attended.work hw
  refine ⟨q', hr, ?_⟩
  rw [← h.flush_eq, ← h.attended.holds.flush_eq, ← hflush, hr.holds.flush_eq]

end Plant

theorem Ring.flush_publish {r r' : Ring n} (h : r.publish = .ok r') : r'.flush = r.flush := by
  unfold Ring.publish at h
  split at h
  · cases h
  · cases h
    rfl

theorem Ring.flush_reclaim {r r' : Ring n} (h : r.reclaim = .ok r') : r'.flush = r.flush := by
  unfold Ring.reclaim at h
  split at h
  · cases h
  split at h
  · cases h
  · cases h
    rfl

theorem Ring.flush_of_slots {r r' : Ring n} (h : ∃ slots, r' = { r with slots := slots }) :
    r'.flush = r.flush := by
  obtain ⟨slots, rfl⟩ := h
  rfl

/-! ## Duties -/

/-- One call of the dispatcher, with what the interrupt does in the meantime. -/
inductive Duty where
  /-- change the segment being prepared -/
  | write (f : Segment → Segment)
  /-- publish it, waiting for room -/
  | queueHead (idle : List (List Act))
  /-- publish it if it carries commands -/
  | pushCarrier (idle : List (List Act))
  /-- attach a command -/
  | command (c : Command) (idle : List (List Act))
  /-- revise what has not begun -/
  | revise (edit : List Segment → List Segment) (locked revised : List Act)
  /-- wait for room -/
  | waitForSpace (idle : List (List Act))
  /-- wait for the end of all motion -/
  | waitForEmpty (idle : List (List Act))
  /-- skip all that waits -/
  | flush (idle : List (List Act))
  /-- clear one finished segment -/
  | onIdle
  /-- housekeeping -/
  | onMainLoop
  /-- let the interrupt consume the ring -/
  | ensureRunning
  /-- stop all motion -/
  | halt
  /-- leave the halt -/
  | clearHalt
  /-- raise or lower stop requests -/
  | setStop (stop : StopMask)
  /-- leave the interrupt to itself -/
  | acts (as : List Act)

namespace Dispatcher

/-- Idle calls in which a clerk performs acts. -/
def script (idle : List (List Act)) : Idle n Clerk := idle.map Plant.acts

/-- One call. -/
def duty (d : Dispatcher n Clerk) : Duty → Except Fault (Dispatcher n Clerk)
  | .write f => .ok (d.setHead (f d.ring.headSegment))
  | .queueHead idle => do return (← d.queueHead (script idle)).2
  | .pushCarrier idle => do return (← d.pushCarrier (script idle)).2
  | .command c idle => do return (← d.appendCommand c (script idle)).2.2
  | .revise edit locked revised =>
    d.reviseWith (fun _ ss => .ok (edit ss)) (Plant.acts locked) (Plant.acts revised)
  | .waitForSpace idle => do return (← d.waitForSpace (script idle)).2
  | .waitForEmpty idle => do return (← d.waitForEmpty (script idle)).2
  | .flush idle => do return (← d.flush (script idle)).2
  | .onIdle => d.onIdle
  | .onMainLoop => d.onMainLoop
  | .ensureRunning => .ok d.ensureRunning
  | .halt => .ok d.halt
  | .clearHalt => .ok d.clearHalt
  | .setStop stop => .ok (d.setStop stop)
  | .acts as => do return { d with plant := ← Plant.acts as d.plant }

/-- One call after another. -/
def duties : List Duty → Dispatcher n Clerk → Except Fault (Dispatcher n Clerk)
  | [], d => .ok d
  | c :: cs, d => do duties cs (← d.duty c)

/-- What withstands all acts withstands the idle calls of a wait. -/
theorem withstands_script {inv : Dispatcher n Clerk → Prop}
    (h : ∀ as, Withstands inv (Plant.acts as)) (idle : List (List Act)) :
    ∀ act ∈ script (n := n) idle, Withstands inv act := by
  intro act hact
  obtain ⟨as, -, rfl⟩ := List.mem_map.mp hact
  exact h as

/-- The clerk attends to the ring, of which nothing is held. -/
def Tended (flushing : Bool) (d : Dispatcher n Clerk) : Prop := ∃ q, d.plant.Tended [] flushing q

namespace Tended

variable {d : Dispatcher n Clerk} {flushing : Bool}

theorem work (h : d.Tended flushing) {r : Ring n}
    (hw : Ring.Work (fun _ => True) [] d.ring [] r) (hflush : r.flush = d.ring.flush) :
    (d.setRing r).Tended flushing := by
  obtain ⟨q, h⟩ := h
  exact h.work hw hflush

theorem kept : Kept (Tended (n := n) flushing) where
  run h _ hpending := h.work (.run hpending) rfl
  reclaim h hfinished := by
    obtain ⟨q, hq⟩ := h
    obtain ⟨hempty, -, -, r, -, hr, -⟩ := hq.attended.holds.reclaim_of_finished hfinished
    exact ⟨hempty, r, hr, work ⟨q, hq⟩ (.reclaim hr) (Ring.flush_reclaim hr)⟩
  publish h _ hroom := by
    obtain ⟨q, hq⟩ := h
    obtain ⟨r, hr, hholds⟩ := hq.attended.holds.publish_of_not_full hroom
    exact ⟨r, hr, work ⟨q, hq⟩ (.publish hr) (Ring.flush_publish hr), hholds.headSegment_eq⟩
  drop h _ := by
    obtain ⟨q, hq⟩ := h
    exact ⟨work ⟨q, hq⟩ (.write trivial) rfl,
      (hq.attended.holds.setHead .empty).headSegment_eq⟩
  attachToNewest {d} h {c i locked s} hlock hs := by
    obtain ⟨q, hq⟩ := h
    obtain ⟨q₁, h₁⟩ := hq.work (.lockNewest hlock) (Ring.flush_of_slots (Ring.lockNewest_eq hlock))
    have hall : ∀ s' ∈ [s], True := fun _ _ => trivial
    obtain ⟨q₂, h₂⟩ := h₁.work (.revise hall) (Ring.flush_of_slots (Ring.setSegments_eq _ _ _))
    exact h₂.work .unlock (Ring.flush_of_slots (Ring.unlock_eq _ _))
  attachToHead {d} h {c s} _ := h.work (.write trivial) rfl

theorem setStop (h : d.Tended flushing) (halted : Bool) (stop : StopMask) :
    ({ d with halted := halted }.setStop stop).Tended flushing := by
  obtain ⟨q, h⟩ := h
  exact ⟨q, h.attended, h.flush_eq⟩

theorem withstands (as : List Act) : Withstands (Tended (n := n) flushing) (Plant.acts as) :=
  fun _ ⟨_, h⟩ => h.acts as

theorem script (idle : List (List Act)) :
    ∀ act ∈ Dispatcher.script (n := n) idle, Withstands (Tended flushing) act :=
  withstands_script withstands idle

theorem setFlush (h : d.Tended flushing) (flushing' : Bool) :
    (d.setRing (d.ring.setFlush flushing')).Tended flushing' := by
  obtain ⟨q, h⟩ := h
  obtain ⟨q', hr, -⟩ := h.attended.work (.setFlush flushing')
  exact ⟨q', hr, by rw [← hr.holds.flush_eq]; rfl⟩

theorem flush (h : d.Tended false) (idle : List (List Act)) :
    Fault.Blameless (fun x => x.2.Tended false) (d.flush (Dispatcher.script idle)) :=
  (kept.waitUntil (h.setFlush true) _ (script idle)).bind fun _ hx => hx.1.setFlush false

theorem reviseWith (h : d.Tended flushing) (edit : List Segment → List Segment)
    (locked revised : List Act) : Fault.Blameless (Tended flushing)
      (d.reviseWith (fun _ ss => .ok (edit ss)) (Plant.acts locked) (Plant.acts revised)) := by
  obtain ⟨q, h⟩ := h
  obtain ⟨q₁, h₁⟩ := h.work .lockWindow (Ring.flush_of_slots (Ring.lockWindow_eq _))
  refine (h₁.acts locked).bind fun p₂ ⟨q₂, h₂⟩ => ?_
  have hall : ∀ s ∈ edit (p₂.ring.segments d.ring.lockWindow.1.slots), True := fun _ _ => trivial
  obtain ⟨q₃, h₃⟩ := h₂.work (.revise hall) (Ring.flush_of_slots (Ring.setSegments_eq _ _ _))
  refine (h₃.acts revised).bind fun p₄ ⟨q₄, h₄⟩ => ?_
  exact h₄.work .unlock (Ring.flush_of_slots (Ring.unlock_eq _ _))

theorem duty (h : d.Tended false) (c : Duty) : Fault.Blameless (Tended false) (d.duty c) := by
  cases c with
  | write f => exact h.work (.write trivial) rfl
  | queueHead idle => exact (kept.queueHead h (script idle)).bind fun _ hx => hx.1
  | pushCarrier idle => exact (kept.pushCarrier h (script idle)).bind fun _ hx => hx.1
  | command c idle => exact (kept.appendCommand h c (script idle)).bind fun _ hx => hx.2
  | revise edit locked revised => exact h.reviseWith edit locked revised
  | waitForSpace idle => exact (kept.waitUntil h _ (script idle)).bind fun _ hx => hx.1
  | waitForEmpty idle => exact (kept.waitUntil h _ (script idle)).bind fun _ hx => hx.1
  | flush idle => exact (h.flush idle).bind fun _ hx => hx
  | onIdle =>
    obtain ⟨d', hd', h'⟩ := kept.onIdle h
    rw [Dispatcher.duty, hd']
    exact h'
  | onMainLoop =>
    obtain ⟨d', hd', h'⟩ := kept.onMainLoop h
    rw [Dispatcher.duty, hd']
    exact h'
  | ensureRunning => exact kept.ensureRunning h
  | halt => exact (h.setStop true .halt).work (.write trivial) rfl
  | clearHalt => exact h.setStop false .clear
  | setStop stop => exact h.setStop d.halted stop
  | acts as => exact (withstands as d h).bind fun _ hp => hp

theorem duties (h : d.Tended false) (cs : List Duty) :
    Fault.Blameless (Tended false) (d.duties cs) := by
  induction cs generalizing d with
  | nil => exact h
  | cons c cs ih => exact (h.duty c).bind fun _ h' => ih h'

end Tended

/-- Between two calls the clerk attends to the ring, nothing is held, and the ring is not
flushing. -/
theorem tended_of_duties {len : Nat} {ring : Ring n} (hring : Ring.new n len = .ok ring)
    {cs : List Duty} {d : Dispatcher n Clerk} (hd : (ofRing ring .atRest).duties cs = .ok d) :
    d.Tended false := by
  have hfresh : (ofRing ring .atRest : Dispatcher n Clerk).Tended false := by
    unfold Ring.new at hring
    split at hring
    · next hlen =>
      cases hring
      exact ⟨_, .ofLen hlen.1 hlen.2, rfl⟩
    · cases hring
  have h := hfresh.duties cs
  rwa [hd] at h

end Dispatcher

end MotionControl
