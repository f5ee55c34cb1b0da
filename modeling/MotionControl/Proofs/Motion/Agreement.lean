import MotionControl.Proofs.Motion.Errands
import MotionControl.Proofs.Ring.Ownership

/-!
# Stepper and ring agree

Two results about everything that may be done to a pipeline, arbitrary segments, stops, halts and
skipped motion included, while the interrupt does its work in any order.

* Stepper and ring stay in step (`Plant.InStep`), and no part of the machine ever finds another in a
  state that it does not expect.
* A segment belongs to the interrupt from the moment it begins until it is over, and to the main
  loop while it is held for revision.
-/

namespace MotionControl

variable {n : Nat} {good : Segment → Prop}

namespace Plant

/-- The stepper and the ring agree on what is being executed. -/
structure InStep (p : Plant n Stepper) : Prop where
  /-- the stepper is busy while some pending segment is executing -/
  busy_iff : p.side.isBusy = true ↔ ∃ i ∈ p.ring.pendingSlots, p.ring.state i = .executing
  /-- that is the one at the front -/
  first : ∀ i ∈ p.ring.pendingSlots, p.ring.state i = .executing → i = p.ring.front
  /-- and the one that the stepper executes -/
  slot_eq : ∀ t ∈ p.side.current, t.slot = p.ring.front
  /-- the ring is running meanwhile -/
  running : p.side.isBusy = true → p.ring.running = true
  /-- a running ring has something pending -/
  pending : p.ring.running = true → p.ring.hasPending = true

/-- A segment under execution is the one that was announced when it began. -/
def Untouched (p : Plant n Stepper) : Prop :=
  ∀ t ∈ p.side.current, p.announced.map (⟨·, .executing⟩) = some (p.ring.slot t.slot)

instance (p : Plant n Stepper) : Decidable p.InStep :=
  decidable_of_iff
    ((p.side.isBusy = true ↔ ∃ i ∈ p.ring.pendingSlots, p.ring.state i = .executing) ∧
      (∀ i ∈ p.ring.pendingSlots, p.ring.state i = .executing → i = p.ring.front) ∧
      (∀ t ∈ p.side.current, t.slot = p.ring.front) ∧
      (p.side.isBusy = true → p.ring.running = true) ∧
      (p.ring.running = true → p.ring.hasPending = true))
    ⟨fun h => ⟨h.1, h.2.1, h.2.2.1, h.2.2.2.1, h.2.2.2.2⟩,
      fun h => ⟨h.busy_iff, h.first, h.slot_eq, h.running, h.pending⟩⟩

instance (p : Plant n Stepper) : Decidable p.Untouched :=
  inferInstanceAs (Decidable (∀ t ∈ p.side.current, _ = _))

namespace Orderly

variable {p : Plant n Stepper} {held : List Nat} {q : Fifo}

theorem inStep (h : p.Orderly good held q) : p.InStep where
  busy_iff := by
    rw [← h.coupled.begun_eq]
    constructor
    · intro hbegun
      obtain ⟨s, rest, hp⟩ := Fifo.pending_of_begun hbegun
      refine ⟨p.ring.front, h.attended.holds.front_mem_pendingSlots (by simp [hp]), ?_⟩
      rw [Ring.state, h.attended.holds.slot_front hp]
    · rintro ⟨i, hi, hstate⟩
      rw [h.attended.holds.eq_front_of_executing hi hstate, Ring.state] at hstate
      cases hp : q.pending with
      | nil =>
        rw [h.attended.holds.pendingSlots_eq, hp] at hi
        cases hi
      | cons e rest =>
        rw [h.attended.holds.slot_front hp] at hstate
        simp [Fifo.begun, hp, hstate]
  first i hi hstate := h.attended.holds.eq_front_of_executing hi hstate
  slot_eq t ht := h.coupled.slot_eq t ht
  running hbusy := by
    rw [h.attended.holds.running_eq]
    exact h.attended.running (h.coupled.begun_eq.trans hbusy)
  pending hrun := by
    rw [h.attended.holds.hasPending_iff]
    exact h.attended.pending (h.attended.holds.running_eq ▸ hrun)

theorem untouched (h : p.Orderly good held q) : p.Untouched := by
  intro t ht
  obtain ⟨s, rest, hp, hs, -⟩ := h.engaged t ht
  rw [hs, h.coupled.slot_eq t ht, h.attended.holds.slot_front hp]
  rfl

end Orderly

end Plant

namespace Audit

/-- Stepper and ring are in step. -/
def inStep : Audit n := fun _ _ p => decide p.strip.InStep

/-- What is under execution has not been touched. -/
def untouched : Audit n := fun _ _ p => decide p.strip.Untouched

theorem holds_inStep : (inStep : Audit n).Holds good := by
  intro goal accepted held p h
  obtain ⟨q, hq⟩ := h.orderly
  exact decide_eq_true hq.inStep

theorem holds_untouched : (untouched : Audit n).Holds good := by
  intro goal accepted held p h
  obtain ⟨q, hq⟩ := h.orderly
  exact decide_eq_true hq.untouched

end Audit

namespace Pipeline

/-- From a fresh pipeline on, every run passes an audit that holds in all states of the machine,
and ends with no fault that the machine would be to blame for. -/
theorem errands_ofRing {len : Nat} {ring : Ring n} (hring : Ring.new n len = .ok ring)
    {stepper : Stepper} (hidle : stepper.isBusy = false) (planner : Planner) {audit : Audit n}
    (haudit : audit.Holds fun _ => True) (es : List Errand) :
    Fault.Blameless (Serves fun _ => True) ((ofRing ring stepper planner).errands audit es) := by
  refine errands_reachable Segment.closed_all haudit (fun e _ => ?_)
    (serves_ofRing hring hidle planner)
  cases e with
  | write f => exact fun _ _ => trivial
  | revise edit locked revised => exact fun _ _ _ _ => trivial
  | _ => trivial

/-- Whatever is done to a pipeline, at every point of it stepper and ring are in step, and no part
of the machine finds another in a state that it does not expect. -/
theorem inStep_of_errands {len : Nat} {ring : Ring n} (hring : Ring.new n len = .ok ring)
    {stepper : Stepper} (hidle : stepper.isBusy = false) (planner : Planner) (es : List Errand) :
    Fault.Blameless (fun l => l.plant.strip.InStep)
      ((ofRing ring stepper planner).errands Audit.inStep es) := by
  refine (errands_ofRing hring hidle planner Audit.holds_inStep es).mono fun l hl => ?_
  obtain ⟨q, hq⟩ := Plant.Reachable.orderly hl
  exact hq.inStep

/-- A segment with more steps than events, a stop while it is revised, and a halt. -/
theorem inStep_through_stop_and_halt : ∃ ring : Ring 4, Ring.new 4 3 = .ok ring ∧
    Fault.Blameless (fun l => l.plant.strip.InStep)
      ((ofRing ring ⟨10, 10, none, .const 0⟩ (.ofTuning ⟨1000, 4, 0, 100⟩)).errands Audit.inStep
      [.write fun s => { s with steps := ⟨9, 0, 2⟩, eventCount := 5, initialRate := 10 },
        .queueHead [], .call .ensureRunning, .call (.beats [.step, .step]), .queueHead [],
        .revise (List.map fun s => { s with eventCount := 1 }) [.step, .trigger 2] [.step, .rearm],
        .call (.append ⟨⟨4, -1, 0⟩, 20, 1, .const 0⟩ [[.step]] [.step] [.step]),
        .call .halt, .queueHead [[.step]], .call .clearHalt, .call (.flush [[.step], []])]) := by
  obtain ⟨ring, hring⟩ : ∃ ring : Ring 4, Ring.new 4 3 = .ok ring := ⟨_, rfl⟩
  exact ⟨ring, hring, inStep_of_errands hring rfl _ _⟩

/-- Of a ring that is used properly, nobody touches what the other side owns. And the functions of
dispatcher and planner use it properly: while a segment is executed, it is the one that has begun,
whatever is done to the pipeline meanwhile. -/
theorem owned_by_one_side {len : Nat} {ring : Ring n} (hring : Ring.new n len = .ok ring) :
    (∀ us, (Session.ofRing ring).Disciplined us →
      ∃ answers s, (Session.ofRing ring).run us = .ok (answers, s) ∧ s.Owns) ∧
    ∀ stepper : Stepper, stepper.isBusy = false → ∀ planner es,
      Fault.Blameless (fun l => l.plant.strip.Untouched)
        ((ofRing ring stepper planner).errands Audit.untouched es) := by
  refine ⟨fun us hus => Session.owns_of_disciplined hring hus, fun stepper hidle planner es => ?_⟩
  refine (errands_ofRing hring hidle planner Audit.holds_untouched es).mono fun l hl => ?_
  obtain ⟨q, hq⟩ := Plant.Reachable.orderly hl
  exact hq.untouched

/-- A segment that is held does not begin; once it is given up it does, and stays as it is when the
window is opened again. -/
theorem owned_while_held_and_executed : ∃ ring : Ring 4, Ring.new 4 3 = .ok ring ∧
    (∃ answers s, (Session.ofRing ring).run
      [.write fun s => { s with eventCount := 3 }, .publish, .lockWindow, .begin] =
        .ok (answers, s) ∧ s.Owns) ∧
    Fault.Blameless (fun l => l.plant.strip.Untouched)
      ((ofRing ring ⟨10, 10, none, .const 0⟩ (.ofTuning ⟨1000, 4, 0, 100⟩)).errands Audit.untouched
      [.call (.append ⟨⟨4, -1, 0⟩, 20, 1, .const 0⟩ [] [] []), .call .ensureRunning,
        .revise (List.map fun s => { s with eventCount := 9 }) [.step] [],
        .call (.beats [.step]), .revise (List.map fun s => { s with eventCount := 1 }) [] [.step],
        .call (.command ⟨"M106", by decide⟩ [])]) := by
  obtain ⟨ring, hring⟩ : ∃ ring : Ring 4, Ring.new 4 3 = .ok ring := ⟨_, rfl⟩
  have howned := owned_by_one_side hring
  refine ⟨ring, hring, howned.1 _ ?_, howned.2 _ rfl _ _⟩
  cases hring
  exact ⟨trivial, trivial, rfl, trivial, trivial⟩

end Pipeline

end MotionControl
