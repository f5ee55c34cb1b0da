import MotionControl.Proofs.Lookahead.Memory
import MotionControl.Proofs.Motion.Groups

/-!
# What is sent

A `Moment.Trace` is a history since some moment, with the segments that are published in it, and
`Moment.Sends` says besides that they have come into the queue, that nothing else has, and which
segment is being prepared. Waiting, clearing and replanning publish nothing, and neither does the
interrupt, so that publishing the head is all that adds to what is sent.

Queueing a move first sends the commands that wait at the head, and then the move itself, after a
wait for room between them (`Dispatcher.makeWay`). While halted it sends nothing at all
(`Dispatcher.Sends.appendWith`).
-/

namespace MotionControl

variable {n : Nat}

/-- A beat does not touch the segment being prepared. -/
theorem Plant.Reachable.headSegment_beat {good : Segment → Prop} {held : List Nat}
    {p p' : Plant n Scribe} (h : Reachable good held p.strip) {b : Beat} (hb : p.beat b = .ok p') :
    p'.ring.headSegment = p.ring.headSegment := by
  cases b with
  | step =>
    obtain ⟨q, hq⟩ := h.orderly
    obtain ⟨o, htick⟩ := tick_of_recordTick hb
    obtain ⟨_, _, _, _, _, _, _, _, hok, hout, -⟩ | ⟨e, herr, -⟩ := tick_eq hq.coupled
    · rw [htick] at hok
      cases hok
      exact hout.coupled.holds.headSegment_eq.trans
        (hout.head_eq.trans hq.coupled.holds.headSegment_eq.symm)
    · rw [htick] at herr
      cases herr
  | ramp =>
    cases hb
    exact congrArg Ring.headSegment (ring_rampTick p.strip)
  | trigger i =>
    cases hb
    rfl
  | rearm =>
    cases hb
    rfl

/-! ## From one moment to another -/

namespace Moment

/-- A history since some moment in which the machine is neither halted nor brought back from a halt,
with the segments that are published in it. -/
inductive Trace (m₀ : Moment n) : List Segment → Moment n → Prop
  | start (h : Plant.Reachable (fun s => s.load.Sound) m₀.held m₀.plant.strip) : Trace m₀ [] m₀
  | publish {sent : List Segment} {m : Moment n} {r : Ring n} (h : Trace m₀ sent m)
      (hactive : m.halted = false) (hr : m.plant.ring.publish = .ok r) :
      Trace m₀ (sent ++ [m.plant.ring.headSegment]) { m with
        plant := { m.plant with ring := r }
        past := { m.past with published := m.past.published + 1 } }
  | deed {sent : List Segment} {m m' : Moment n} (h : Trace m₀ sent m)
      (hd : Deed (fun s => s.load.Sound) True m m') (hhalted : m'.halted = m.halted)
      (hpublished : m'.past.published = m.past.published) : Trace m₀ sent m'

namespace Trace

variable {m₀ m : Moment n} {sent : List Segment}

theorem after (h : m₀.Trace sent m) : After (fun s => s.load.Sound) True m₀ m := by
  induction h with
  | start h => exact .start h
  | publish h hactive hr ih => exact ih.deed (.publish hactive hr)
  | deed h hd _ _ ih => exact ih.deed hd

theorem halted_eq (h : m₀.Trace sent m) : m.halted = m₀.halted := by
  induction h with
  | start h => rfl
  | publish h hactive hr ih => exact ih
  | deed h hd hhalted _ ih => exact hhalted.trans ih

/-- A machine that is halted publishes nothing. -/
theorem eq_nil_of_halted (h : m₀.Trace sent m) (hhalted : m₀.halted = true) : sent = [] := by
  induction h with
  | start h => rfl
  | publish h hactive hr ih =>
    rw [h.halted_eq, hhalted] at hactive
    cases hactive
  | deed h hd _ _ ih => exact ih

end Trace

/-- Since some moment given segments have been published, and no others: the queue of that time,
followed by them, is what has left it, followed by the queue of now, but for plans. Another segment
is being prepared. -/
structure Sends (m₀ : Moment n) (sent : List Segment) (head : Segment) (m : Moment n) : Prop where
  /-- there is a history -/
  trace : m₀.Trace sent m
  /-- no segment is lost, and none comes from elsewhere -/
  queued_eq : (m₀.past.gone ++ m₀.plant.ring.queued ++ sent).map Segment.unplanned =
    (m.past.gone ++ m.plant.ring.queued).map Segment.unplanned
  /-- what is being prepared -/
  head_eq : m.plant.ring.headSegment = head
  /-- the record is one of this plant -/
  counted : m.plant.Counted
  /-- what is under execution has been seen from its begin on -/
  opened : ∃ hs, m.plant.strip.Opened hs

namespace Sends

variable {m₀ m : Moment n} {sent : List Segment} {head : Segment}

theorem refl (h : Plant.Reachable (fun s => s.load.Sound) m.held m.plant.strip)
    (hcounted : m.plant.Counted) (hopened : ∃ hs, m.plant.strip.Opened hs) :
    m.Sends [] m.plant.ring.headSegment m :=
  ⟨.start h, by rw [List.append_nil], rfl, hcounted, hopened⟩

theorem reachable (h : m₀.Sends sent head m) :
    Plant.Reachable (fun s => s.load.Sound) m.held m.plant.strip :=
  h.trace.after.reachable

theorem holds (h : m₀.Sends sent head m) : ∃ q, m.plant.ring.Holds m.held q := by
  obtain ⟨q, hq⟩ := h.reachable.orderly
  exact ⟨q, hq.attended.holds⟩

theorem opened_work (h : m₀.Sends sent head m) {held : List Nat} {r : Ring n}
    (hw : Ring.Work (fun s => s.load.Sound) m.held m.plant.ring held r) :
    ∃ hs, ({ m.plant with ring := r } : Plant n Scribe).strip.Opened hs := by
  obtain ⟨q, hq⟩ := h.reachable.orderly
  obtain ⟨hs, hopened⟩ := h.opened
  exact ⟨hs, hopened.work hq hw⟩

/-- The work of the main loop on the queue sends nothing as long as it does not move the cursors. -/
theorem work (h : m₀.Sends sent head m) {held : List Nat} {r : Ring n} {q q' : Fifo}
    (hw : Ring.Work (fun s => s.load.Sound) m.held m.plant.ring held r)
    (hstill : m.plant.ring.Still r) (hq : m.plant.ring.Holds m.held q) (hq' : r.Holds held q')
    (hqueued : q'.queued.map Segment.unplanned = q.queued.map Segment.unplanned) :
    m₀.Sends sent q'.head { m with held := held, plant := { m.plant with ring := r } } where
  trace := h.trace.deed (.work hw hstill) rfl rfl
  queued_eq := by
    rw [h.queued_eq, List.map_append, List.map_append, hq.queued_eq, ← hqueued, ← hq'.queued_eq]
  head_eq := hq'.headSegment_eq
  counted := h.counted
  opened := h.opened_work hw

/-- What leaves the head alone goes on preparing the same segment. -/
theorem keep (h : m₀.Sends sent head m) {held : List Nat} {r : Ring n} {q q' : Fifo}
    (hw : Ring.Work (fun s => s.load.Sound) m.held m.plant.ring held r)
    (hstill : m.plant.ring.Still r) (hq : m.plant.ring.Holds m.held q) (hq' : r.Holds held q')
    (hhead : q'.head = q.head)
    (hqueued : q'.queued.map Segment.unplanned = q.queued.map Segment.unplanned) :
    m₀.Sends sent head { m with held := held, plant := { m.plant with ring := r } } := by
  have hsends := h.work hw hstill hq hq' hqueued
  rwa [hhead, ← hq.headSegment_eq, h.head_eq] at hsends

theorem run (h : m₀.Sends sent head m) (hactive : m.halted = false)
    (hpending : m.plant.ring.hasPending = true) : m₀.Sends sent head
      { m with plant := { m.plant with ring := m.plant.ring.setRunning true } } where
  trace := h.trace.deed (.run hactive hpending) rfl rfl
  queued_eq := h.queued_eq
  head_eq := h.head_eq
  counted := h.counted
  opened := h.opened_work (.run hpending)

/-- What is published is sent, and leaves an empty segment behind. -/
theorem publish (h : m₀.Sends sent head m) (hactive : m.halted = false) {r : Ring n}
    (hr : m.plant.ring.publish = .ok r) {q : Fifo} (hq : m.plant.ring.Holds m.held q)
    (hq' : r.Holds m.held q.push) : m₀.Sends (sent ++ [head]) .empty { m with
      plant := { m.plant with ring := r }
      past := { m.past with published := m.past.published + 1 } } where
  trace := by
    rw [← h.head_eq]
    exact h.trace.publish hactive hr
  queued_eq := by
    have hqueued : r.queued = m.plant.ring.queued ++ [head] := by
      rw [hq'.queued_eq, hq.queued_eq, ← h.head_eq, hq.headSegment_eq, Fifo.queued, Fifo.push,
        List.map_append]
      rfl
    rw [hqueued, ← List.append_assoc, ← List.append_assoc, List.map_append, h.queued_eq,
      ← List.map_append]
  head_eq := hq'.headSegment_eq
  counted := h.counted
  opened := h.opened_work (.publish hr)

theorem wakeUp (h : m₀.Sends sent head m) :
    m₀.Sends sent head { m with plant := m.plant.publish .wokeUp } where
  trace := h.trace.deed .wakeUp rfl rfl
  queued_eq := h.queued_eq
  head_eq := h.head_eq
  counted := (Plant.log_of_events h.counted (m.plant.publish .wokeUp) Array.toList_push rfl rfl).1
  opened := by
    obtain ⟨hs, hopened⟩ := h.opened
    exact ⟨hs, hopened.congr rfl rfl⟩

/-- What leaves the queue in a beat is on record. -/
theorem spares (b : Beat) : Plant.Spares (m₀.Sends sent head) (Plant.beat · b) := by
  intro m h
  dsimp only
  cases hbeat : m.plant.beat b with
  | error e =>
    rw [h.reachable.error_of_beat hbeat]
    rfl
  | ok p =>
    obtain ⟨before, hopened⟩ := h.opened
    obtain ⟨hs, hcounted, -, haccounts⟩ := h.reachable.accounts_beat h.counted hbeat
    obtain ⟨gone, -, after, hgone, -, -, hopened'⟩ := haccounts before hopened
    have hgone : m.plant.ring.queued = gone ++ p.ring.queued := hgone
    refine ⟨_, h.trace.deed (.beat hbeat fun _ => trivial) rfl rfl, ?_, ?_, hcounted, after,
      hopened'⟩
    · rw [h.queued_eq, Ring.departed_of_append hgone, hgone, List.append_assoc]
    · exact (h.reachable.headSegment_beat hbeat).trans h.head_eq

end Sends

end Moment

/-- What is done to the plant sends nothing. -/
def Plant.SendsNothing (m₀ : Moment n) (act : Plant n Scribe → Except Fault (Plant n Scribe)) :
    Prop :=
  ∀ sent head, Spares (m₀.Sends sent head) act

theorem Plant.beats_sendsNothing (m₀ : Moment n) (bs : List Beat) :
    SendsNothing m₀ (beats (fun _ => true) bs) :=
  fun _ _ => beats_spares (fun _ _ => rfl) fun b _ => Moment.Sends.spares b

/-! ## The dispatcher -/

namespace Dispatcher

variable {σ : Type}

/-- What queueing a move does before it looks whether the move starts from rest: the commands that
wait at the head are published, and there is room for the move. -/
def makeWay (idle : Idle n σ) (d : Dispatcher n σ) : Except Fault (Idle n σ × Dispatcher n σ) := do
  let (idle, d) ← d.pushCarrier idle
  d.waitForSpace idle

/-- The segment being prepared, if it carries commands. -/
def carrier (d : Dispatcher n σ) : List Segment :=
  if d.ring.headSegment.hasCommands then [d.ring.headSegment] else []

theorem not_hasMotion_of_mem_carrier {d : Dispatcher n σ}
    (hstill : d.ring.headSegment.hasMotion = false) : ∀ s ∈ d.carrier, ¬ s.hasMotion = true := by
  intro s hs
  unfold carrier at hs
  split at hs
  · rw [List.mem_singleton.mp hs, hstill]
    exact Bool.false_ne_true
  · cases hs

/-- A dispatcher between two of its functions, with what has been sent since some moment. -/
def Sends (m₀ : Moment n) (sent : List Segment) (head : Segment) (d : Dispatcher n Scribe) : Prop :=
  ∃ past, m₀.Sends sent head ⟨d.halted, [], d.plant, past⟩

namespace Sends

variable {m₀ : Moment n} {sent : List Segment} {head : Segment} {d : Dispatcher n Scribe}
  {idle : Idle n Scribe}

theorem halted_eq (h : d.Sends m₀ sent head) : d.halted = m₀.halted := by
  obtain ⟨past, h⟩ := h
  exact h.trace.halted_eq

theorem head_eq (h : d.Sends m₀ sent head) : d.ring.headSegment = head := by
  obtain ⟨past, h⟩ := h
  exact h.head_eq

theorem eq_nil_of_halted (h : d.Sends m₀ sent head) (hhalted : m₀.halted = true) : sent = [] := by
  obtain ⟨past, h⟩ := h
  exact h.trace.eq_nil_of_halted hhalted

theorem write (h : d.Sends m₀ sent head) {s : Segment} (hs : s.load.Sound) :
    (d.setHead s).Sends m₀ sent s := by
  obtain ⟨past, h⟩ := h
  obtain ⟨q, hq⟩ := h.holds
  exact ⟨past, h.work (.write hs) (.setHead _ s) hq (hq.setHead s) rfl⟩

/-- Waiting sends nothing. -/
theorem upkeep : Upkeep (Sends (n := n) m₀ sent head) where
  run h hactive hpending := by
    obtain ⟨past, h⟩ := h
    exact ⟨past, h.run hactive hpending⟩
  reclaim h hfinished := by
    obtain ⟨past, h⟩ := h
    obtain ⟨q, hq⟩ := h.holds
    obtain ⟨hempty, -, -, r, -, hr, hq'⟩ := hq.reclaim_of_finished hfinished
    exact ⟨hempty, r, hr, past, h.keep (.reclaim hr) (.reclaim hr) hq hq' rfl rfl⟩

theorem withstands {act : Plant n Scribe → Except Fault (Plant n Scribe)}
    (hact : Plant.SendsNothing m₀ act) : Withstands (Sends m₀ sent head) act := by
  rintro d ⟨past, h⟩
  exact hact sent head _ h

theorem waitForSpace (h : d.Sends m₀ sent head) (hidle : ∀ act ∈ idle, Plant.SendsNothing m₀ act) :
    Fault.Blameless (fun x => x.2.Sends m₀ sent head ∧ x.2.ring.isFull = false ∧ x.1 ⊆ idle)
      (d.waitForSpace idle) := by
  refine (upkeep.waitUntil h _ fun act hact => withstands (hidle act hact)).mono ?_
  rintro x ⟨hx, hroom, hsub⟩
  exact ⟨hx, by simpa using hroom, hsub⟩

/-- Publishing the head sends it, unless the machine is halted. -/
theorem queueHead (h : d.Sends m₀ sent head) (hidle : ∀ act ∈ idle, Plant.SendsNothing m₀ act) :
    Fault.Blameless (fun x => x.2.Sends m₀ (sent ++ if m₀.halted then [] else [head]) .empty ∧
      x.1 ⊆ idle) (d.queueHead idle) := by
  refine (h.waitForSpace hidle).bind ?_
  rintro ⟨idle₁, d₁⟩ ⟨h₁, hroom, hsub⟩
  dsimp only at h₁ hroom hsub ⊢
  rw [← h₁.halted_eq]
  split
  · rw [List.append_nil]
    exact ⟨h₁.write Load.sound_empty, hsub⟩
  · next hactive =>
    obtain ⟨past, h₁⟩ := h₁
    obtain ⟨q, hq⟩ := h₁.holds
    obtain ⟨r, hr, hq'⟩ := hq.publish_of_not_full hroom
    have hr : d₁.ring.publish = .ok r := hr
    rw [Dispatcher.publish, hr]
    exact ⟨⟨_, h₁.publish (Bool.eq_false_iff.mpr hactive) hr hq hq'⟩, hsub⟩

theorem pushCarrier (h : d.Sends m₀ sent head) (hidle : ∀ act ∈ idle, Plant.SendsNothing m₀ act) :
    Fault.Blameless (fun x =>
      (∃ s, x.2.Sends m₀ (sent ++ if m₀.halted then [] else d.carrier) s) ∧ x.1 ⊆ idle)
      (d.pushCarrier idle) := by
  unfold Dispatcher.pushCarrier carrier
  by_cases hcommands : d.ring.headSegment.hasCommands = true
  · rw [if_pos hcommands, if_pos hcommands, h.head_eq]
    exact (h.queueHead hidle).mono fun x hx => ⟨⟨_, hx.1⟩, hx.2⟩
  · rw [if_neg hcommands, if_neg hcommands, ite_self, List.append_nil]
    exact ⟨⟨_, h⟩, List.Subset.refl _⟩

/-- Replanning sends nothing. -/
theorem recalculateWith (h : d.Sends m₀ sent head) (p : Planner)
    {locked revised : Plant n Scribe → Except Fault (Plant n Scribe)}
    (hlocked : Plant.SendsNothing m₀ locked) (hrevised : Plant.SendsNothing m₀ revised) :
    Fault.Blameless (Sends m₀ sent head) (p.recalculateWith locked revised d) := by
  obtain ⟨past, h⟩ := h
  obtain ⟨q, hq⟩ := h.holds
  have hwindow := h.keep .lockWindow (.of_slots (Ring.lockWindow_eq _)) hq hq.lockWindow rfl
    (by rw [Fifo.queued_lockWindow])
  refine (hlocked _ _ _ hwindow).bind ?_
  rintro p₁ ⟨past₁, h₁⟩
  obtain ⟨q₁, hq₁⟩ := h₁.holds
  obtain ⟨ss, hss, -⟩ | herr := Lookahead.replan_eq_ok_or d.ring.lockWindow.1.boundary
    p.tuning.minimumSpeed (p₁.ring.segments d.ring.lockWindow.1.slots)
  · have hsound := Segment.closed_sound.replanned
      (Dispatcher.Follows.segments_good h₁.trace.after Load.sound_empty) hss
    have hheld : p₁.ring.segments d.ring.lockWindow.1.slots = q₁.held := hq₁.segments_held
    have hsame : ss.map Segment.unplanned = q₁.held.map Segment.unplanned := by
      rw [Lookahead.unplanned_replan hss, hheld]
    have hset := h₁.keep (.revise hsound) (.of_slots (Ring.setSegments_eq _ _ ss)) hq₁
      (hq₁.setSegments ss) rfl (Fifo.map_queued_revise _ hsame)
    rw [hss]
    refine (hrevised _ _ _ hset).bind ?_
    rintro p₂ ⟨past₂, h₂⟩
    obtain ⟨q₂, hq₂⟩ := h₂.holds
    exact ⟨past₂, h₂.keep .unlock (.of_slots (Ring.unlock_eq _ _)) hq₂ hq₂.unlock rfl
      (by rw [Fifo.queued_unlock])⟩
  · rw [herr]
    rfl

/-- Commands that wait at the head are all that is sent ahead of a move. -/
theorem makeWay (h : d.Sends m₀ sent head) (hidle : ∀ act ∈ idle, Plant.SendsNothing m₀ act) :
    Fault.Blameless (fun x =>
      (∃ s, x.2.Sends m₀ (sent ++ if m₀.halted then [] else d.carrier) s) ∧
      x.2.ring.isFull = false ∧ x.1 ⊆ idle) (d.makeWay idle) := by
  refine (h.pushCarrier hidle).bind ?_
  rintro ⟨idle₁, d₁⟩ ⟨⟨s, h₁⟩, hsub⟩
  refine (h₁.waitForSpace fun act hact => hidle act (hsub hact)).mono ?_
  rintro x ⟨hx, hroom, hsub'⟩
  exact ⟨⟨s, hx⟩, hroom, List.Subset.trans hsub' hsub⟩

/-- An accepted move becomes the planner's last one, and its segment is sent behind the commands
that were waiting, unless the machine is halted. Whether it starts from rest is seen in between. -/
theorem appendWith (h : d.Sends m₀ sent head) {p : Planner} {m : Move} (hm : p.accepts m = true)
    {locked revised : Plant n Scribe → Except Fault (Plant n Scribe)}
    (hlocked : Plant.SendsNothing m₀ locked) (hrevised : Plant.SendsNothing m₀ revised)
    (hidle : ∀ act ∈ idle, Plant.SendsNothing m₀ act) :
    Fault.Blameless (fun x => x.1 = true ∧
      x.2.1 = { p with
        position := m.target, previousSpeeds := m.speeds, previousNominalSpeed := m.feed } ∧
      ∃ rest d₁ head₁ s, d.makeWay idle = .ok (rest, d₁) ∧
        d₁.Sends m₀ (sent ++ if m₀.halted then [] else d.carrier) head₁ ∧
        p.segmentOf m (!d₁.ring.hasPending || p.previousNominalSpeed ≤ 0) = .ok s ∧
        s.hasMotion = true ∧ (∀ a, s.load.displacement a = p.delta m.target a) ∧
        x.2.2.2.Sends m₀ (sent ++ if m₀.halted then [] else d.carrier ++ [s]) .empty)
      (p.appendWith locked revised m idle d) := by
  have hway : p.appendWith locked revised m idle d = (d.makeWay idle >>= fun x => do
      let segment ← p.segmentOf m (!x.2.ring.hasPending || p.previousNominalSpeed ≤ 0)
      let p := { p with
        position := m.target, previousSpeeds := m.speeds, previousNominalSpeed := m.feed }
      let (idle, d) ← (x.2.setHead segment).queueHead x.1
      let d ← p.recalculateWith locked revised d
      return (true, p, idle, { d with plant := d.plant.publish .wokeUp })) := by
    rw [Planner.appendWith, if_pos hm, Dispatcher.makeWay, bind_assoc]
  rw [hway]
  refine (h.makeWay hidle).attach.bind ?_
  rintro ⟨rest, d₁⟩ ⟨hmakeWay, ⟨head₁, h₁⟩, -, hsub⟩
  dsimp only at h₁ hsub ⊢
  obtain ⟨s, hs, hsound, -, hdelta⟩ | hs := p.segmentOf_eq_ok_or m
    (!d₁.ring.hasPending || p.previousNominalSpeed ≤ 0)
  · have hmotion : s.hasMotion = true := Planner.hasMotion_segment hm hsound hdelta
    rw [hs]
    refine ((h₁.write hsound).queueHead fun act hact => hidle act (hsub hact)).bind ?_
    rintro ⟨idle₂, d₂⟩ ⟨h₂, -⟩
    refine (h₂.recalculateWith _ hlocked hrevised).bind ?_
    rintro d₃ ⟨past, h₃⟩
    refine ⟨rfl, rfl, rest, d₁, head₁, s, hmakeWay, h₁, hs, hmotion, hdelta, past, ?_⟩
    have hsent : (sent ++ if m₀.halted then [] else d.carrier) ++ (if m₀.halted then [] else [s]) =
        sent ++ if m₀.halted then [] else d.carrier ++ [s] := by
      split <;> simp
    rw [← hsent]
    exact h₃.wakeUp
  · rw [hs]
    rfl

end Sends

end Dispatcher

/-! ## Runs -/

namespace Pipeline

/-- Between two calls nothing is sent yet, and what is being prepared has no motion. -/
theorem sends_of_run {len : Nat} {ring : Ring n} (hring : Ring.new n len = .ok ring)
    {stepper : Stepper} (hidle : stepper.isBusy = false) {planner : Planner} {before : List Call}
    {l : Pipeline n} (hbefore : (ofRing ring stepper planner).run Audit.none before = .ok l) :
    l.dispatcher.Sends l.moment [] l.dispatcher.ring.headSegment ∧
      l.dispatcher.ring.headSegment.hasMotion = false := by
  refine ⟨?_, ?_⟩
  · have hstart : (ofRing ring stepper planner).Follows (fun s => s.load.Sound) True
        (ofRing ring stepper planner).moment := (serves_ofRing hring hidle planner).follows
    have hwrites : ∀ e ∈ before.map Errand.call,
        (e.Writes fun s => s.load.Sound) ∧ (e.Lowers → True) := by
      intro e he
      obtain ⟨c, -, rfl⟩ := List.mem_map.mp he
      exact ⟨trivial, fun _ => trivial⟩
    have hafter := errands_after Segment.closed_sound Audit.holds_none.after hwrites hstart
    rw [errands_call, hbefore] at hafter
    obtain ⟨past, hm⟩ := hafter
    obtain ⟨hcounted, -, -, after, -, -, hopened⟩ :=
      hm.chronicled (chronicled_ofRing hring hidle planner)
    exact ⟨⟨0, []⟩, .refl hm.reachable hcounted ⟨after, hopened⟩⟩
  · have hfresh : (ofRing ring stepper planner).Keeps False True planner.position _ :=
      .ofRing hring hidle planner
    have hrun : Plant.Safely False (fun l' => ∃ g, l'.Keeps False True planner.position g)
        ((ofRing ring stepper planner).run Audit.none before) :=
      hfresh.run Audit.sound_none False.elim
    rw [hbefore] at hrun
    obtain ⟨g, h⟩ := hrun
    rw [h.dispatcher.headSegment_eq]
    exact h.dispatcher.still

theorem script_sendsNothing (m₀ : Moment n) (l : Pipeline n) (idle : List (List Beat)) :
    ∀ act ∈ l.script Audit.none idle, Plant.SendsNothing m₀ act := by
  intro act hact
  obtain ⟨bs, -, rfl⟩ := List.mem_map.mp hact
  exact Plant.beats_sendsNothing m₀ bs

end Pipeline

end MotionControl
