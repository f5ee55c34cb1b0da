import MotionControl.Proofs.Motion.Reach
import MotionControl.Proofs.Motion.Scribe
import MotionControl.Proofs.Ring.Ownership

/-!
# From one moment to another

`Plant.Reachable` says which states a machine may be in. What has happened on the way there is said
by `Moment.After`, which leads from one `Moment` of the machine to all later ones. It is made of
deeds, each of which is a single access to what the two contexts share:

* the main loop publishes a segment, asks the interrupt to run, or does some other work on the ring;
* it reports new work, halts, leaves the halt, or declares the position to be another one;
* the interrupt does its work for one beat.

A moment knows what has become of the segments published since the first one: those that have left
the queue are on record in the order in which they left, and as they were then. Whether stop
requests may be lowered on the way is a parameter.
-/

namespace MotionControl

variable {n : Nat} {good : Segment → Prop} {lowers : Prop}

/-! ## The queue of a ring -/

namespace Ring

/-- The pending segments, oldest first. -/
def queued (r : Ring n) : List Segment := r.pendingSlots.map r.segment

/-- The segments by which the queue of a ring has become shorter. -/
def departed (r r' : Ring n) : List Segment :=
  r.queued.take (r.queued.length - r'.queued.length)

theorem Holds.queued_eq {r : Ring n} {held : List Nat} {q : Fifo} (h : r.Holds held q) :
    r.queued = q.queued := by
  rw [Fifo.queued, ← h.map_slot_pendingSlots, List.map_map]
  rfl

/-- Publishing makes the queue longer by one. -/
theorem Holds.pending_publish {r r' : Ring n} {held : List Nat} {q : Fifo} (h : r.Holds held q)
    (hr : r.publish = .ok r') : r'.pending = r.pending + 1 := by
  by_cases hroom : q.finished.length + q.pending.length < q.capacity
  · obtain ⟨r₁, hr₁, h₁⟩ := h.publish_of_room hroom
    rw [hr] at hr₁
    cases hr₁
    rw [h₁.pending_eq, h.pending_eq, Fifo.push, List.length_append]
    rfl
  · rw [h.publish_of_full hroom] at hr
    cases hr

theorem length_queued (r : Ring n) : r.queued.length = r.pending := by
  rw [queued, List.length_map, pendingSlots, List.length_map, List.length_range]

@[simp] theorem queued_abort (r : Ring n) : r.abort.queued = [] := by
  rw [← List.length_eq_zero_iff, length_queued]
  simp [abort, pending, distance]

theorem departed_of_append {r r' : Ring n} {gone : List Segment}
    (h : r.queued = gone ++ r'.queued) : r.departed r' = gone := by
  rw [departed, h, List.length_append, Nat.add_sub_cancel, List.take_left]

/-- Neither do the cursors move, nor is the ring asked to run or to rest. -/
structure Still (r r' : Ring n) : Prop where
  /-- the size stays -/
  len_eq : r'.len = r.len
  /-- the head stays -/
  head_eq : r'.head = r.head
  /-- the front stays -/
  front_eq : r'.front = r.front
  /-- the ring goes on running or resting -/
  running_eq : r'.running = r.running

namespace Still

variable {r r' : Ring n}

theorem of_slots (h : ∃ slots, r' = { r with slots := slots }) : r.Still r' := by
  obtain ⟨slots, rfl⟩ := h
  exact ⟨rfl, rfl, rfl, rfl⟩

theorem setHead (r : Ring n) (s : Segment) : r.Still (r.setHead s) := .of_slots ⟨_, rfl⟩

theorem setFlush (r : Ring n) (flush : Bool) : r.Still (r.setFlush flush) := ⟨rfl, rfl, rfl, rfl⟩

theorem reclaim (h : r.reclaim = .ok r') : r.Still r' := by
  unfold Ring.reclaim at h
  split at h
  · cases h
  split at h
  · cases h
  · cases h
    exact ⟨rfl, rfl, rfl, rfl⟩

theorem pending_eq (h : r.Still r') : r'.pending = r.pending := by
  rw [Ring.pending, distance, h.len_eq, h.head_eq, h.front_eq]
  rfl

end Still

end Ring

/-! ## Moments -/

/-- What has become of segments. -/
structure Past where
  /-- how many have been published -/
  published : Nat
  /-- those that have left the queue, oldest first, each as it was then -/
  gone : List Segment

/-- A machine at some moment. -/
structure Moment (n : Nat) where
  /-- new segments are dropped -/
  halted : Bool
  /-- the slots held for revision -/
  held : List Nat
  /-- ring, stops, events and stepper, with the pulses on record -/
  plant : Plant n Scribe
  /-- what has become of the segments published so far -/
  past : Past

namespace Moment

/-- One access to what main loop and interrupt share. While the machine is halted, nothing is
published and the ring is not asked to run. -/
inductive Deed (good : Segment → Prop) (lowers : Prop) : Moment n → Moment n → Prop
  | publish {m : Moment n} {r : Ring n} (hactive : m.halted = false)
      (hr : m.plant.ring.publish = .ok r) :
      Deed good lowers m { m with
        plant := { m.plant with ring := r }
        past := { m.past with published := m.past.published + 1 } }
  | run {m : Moment n} (hactive : m.halted = false) (hr : m.plant.ring.hasPending = true) :
      Deed good lowers m
        { m with plant := { m.plant with ring := m.plant.ring.setRunning true } }
  | work {m : Moment n} {held : List Nat} {r : Ring n}
      (hw : Ring.Work good m.held m.plant.ring held r) (hstill : m.plant.ring.Still r) :
      Deed good lowers m { m with held := held, plant := { m.plant with ring := r } }
  | wakeUp {m : Moment n} : Deed good lowers m { m with plant := m.plant.publish .wokeUp }
  | halt {m : Moment n} :
      Deed good lowers m { m with halted := true, plant := { m.plant with stop := .halt } }
  | clearHalt {m : Moment n} (hlowers : lowers) :
      Deed good lowers m { m with halted := false, plant := { m.plant with stop := .clear } }
  | setPosition {m : Moment n} (position : PerAxis Int32) :
      Deed good lowers m { m with plant := { m.plant with side := { m.plant.side with
        stepper := { m.plant.side.stepper with position := position } } } }
  | beat {m : Moment n} {b : Beat} {p : Plant n Scribe} (hb : m.plant.beat b = .ok p)
      (hlowers : b = .rearm → lowers) :
      Deed good lowers m { m with
        plant := p
        past := { m.past with gone := m.past.gone ++ m.plant.ring.departed p.ring } }

/-- What a machine may have come to after some moment in one of its states. -/
inductive After (good : Segment → Prop) (lowers : Prop) (m₀ : Moment n) : Moment n → Prop
  | start (h : Plant.Reachable good m₀.held m₀.plant.strip) : After good lowers m₀ m₀
  | deed {m m' : Moment n} (h : After good lowers m₀ m) (hdeed : Deed good lowers m m') :
      After good lowers m₀ m'

end Moment

/-! ## It is always in one of its states -/

namespace Plant

variable {p p' : Plant n Scribe} {held : List Nat}

/-- A tick on record is a tick. -/
theorem tick_of_recordTick (h : p.recordTick = .ok p') : ∃ o, p.strip.tick = .ok (o, p'.strip) := by
  have hstrip := p.strip_recordTick
  rw [h] at hstrip
  cases htick : p.strip.tick with
  | ok x =>
    rw [htick] at hstrip
    exact ⟨x.1, by rw [Except.ok.inj hstrip]⟩
  | error e =>
    rw [htick] at hstrip
    cases hstrip

theorem Reachable.beat (h : Reachable good held p.strip) {b : Beat} (hb : p.beat b = .ok p') :
    Reachable good held p'.strip := by
  cases b with
  | step =>
    obtain ⟨o, htick⟩ := tick_of_recordTick hb
    exact h.tick htick
  | ramp =>
    cases hb
    exact h.rampTick
  | trigger i =>
    cases hb
    exact h.setStop _
  | rearm =>
    cases hb
    exact h.setStop .clear

/-- A beat does not fail but by a step out of the word of a position. -/
theorem Reachable.error_of_beat (h : Reachable good held p.strip) {b : Beat} {e : Fault}
    (hb : p.beat b = .error e) : e = .addOverflow := by
  cases b with
  | step =>
    have hstrip := p.strip_recordTick
    rw [show p.recordTick = .error e from hb] at hstrip
    cases htick : p.strip.tick with
    | ok x =>
      rw [htick] at hstrip
      cases hstrip
    | error e' =>
      rw [htick] at hstrip
      cases hstrip
      exact h.error_of_tick htick
  | _ => cases hb

end Plant

namespace Moment

variable {m₀ m m' : Moment n}

theorem Deed.reachable (hd : Deed good lowers m m')
    (h : Plant.Reachable good m.held m.plant.strip) :
    Plant.Reachable good m'.held m'.plant.strip := by
  cases hd with
  | publish hactive hr => exact h.work (.publish hr)
  | run hactive hr => exact h.work (.run hr)
  | work hw hstill => exact h.work hw
  | wakeUp => exact h.wakeUp
  | halt => exact h.setStop .halt
  | clearHalt hlowers => exact h.setStop .clear
  | setPosition position => exact h.setPosition position
  | beat hb hlowers => exact h.beat hb

theorem After.reachable (h : After good lowers m₀ m) :
    Plant.Reachable good m.held m.plant.strip := by
  induction h with
  | start h => exact h
  | deed h hdeed ih => exact hdeed.reachable ih

end Moment

end MotionControl
