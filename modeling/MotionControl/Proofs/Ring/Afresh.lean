import MotionControl.Proofs.Ring.Parts
import MotionControl.Proofs.Ring.Simulation

/-!
# An empty ring is as good as a new one

A ring that is empty and at rest may have a past: its cursors stand anywhere, and it remembers the
exit speed of the segment cleared last. No answer depends on either. So however such a ring is used
from then on, if properly, it answers as a new queue does, in which the same segment is prepared
(`Ring.asNew_of_isEmpty`).

It also passes over nothing: as long as nobody asks it to skip what waits, the segments published
from then on begin in order and without a gap.
-/

namespace MotionControl

variable {n : Nat}

/-! ## What no answer depends on -/

namespace Fifo

/-- The exit speed that a queue remembers does not matter for anything else. -/
theorem step_lastExitSpeed (q : Fifo) (speed : Float32) (built : Nat) (u : Use) :
    ∃ speed', { q with lastExitSpeed := speed }.step built u =
      ((q.step built u).1, { (q.step built u).2 with lastExitSpeed := speed' }) := by
  cases u with
  | publish =>
    refine ⟨speed, ?_⟩
    simp only [Fifo.step, Fifo.publish]
    by_cases hroom : q.finished.length + q.pending.length < q.capacity
    · simp only [hroom, if_true]
      rfl
    · simp only [hroom, if_false]
  | lockNewest =>
    refine ⟨speed, ?_⟩
    rcases hlast : q.pending.getLast? with - | ⟨s, state⟩
    · simp only [Fifo.step, Fifo.lockNewest, hlast]
    · cases state <;> simp only [Fifo.step, Fifo.lockNewest, hlast]
      rfl
  | begin =>
    refine ⟨speed, ?_⟩
    cases hp : q.pending with
    | nil => simp only [Fifo.step, Fifo.begin?, hp]
    | cons e rest =>
      by_cases he : e.state = .locked ∨ e.state = .executing
      · simp only [Fifo.step, Fifo.begin?, hp, he, if_true]
      · simp only [Fifo.step, Fifo.begin?, hp, he, if_false]
  | reclaim => exact ⟨_, rfl⟩
  | resize len =>
    refine ⟨speed, ?_⟩
    rw [Fifo.step, Fifo.step]
    change (if q.entries ≠ [] then _ else _) = _
    by_cases hentries : q.entries = []
    · by_cases hlen : 2 ≤ len ∧ len ≤ built
      · simp only [hentries, hlen, ne_eq, not_true_eq_false, if_false, and_self, if_true]
        rfl
      · simp only [hentries, hlen, ne_eq, not_true_eq_false, if_false]
    · simp only [hentries, ne_eq, not_false_eq_true, if_true]
  | _ => exact ⟨speed, rfl⟩

theorem run_lastExitSpeed (q : Fifo) (speed : Float32) (built : Nat) (us : List Use) :
    ({ q with lastExitSpeed := speed }.run built us).1 = (q.run built us).1 := by
  induction us generalizing q speed with
  | nil => rfl
  | cons u us ih =>
    obtain ⟨speed', hstep⟩ := q.step_lastExitSpeed speed built u
    rw [Fifo.run, Fifo.run, hstep]
    exact congrArg ((q.step built u).1 :: ·) (ih (q.step built u).2 speed')

end Fifo

/-! ## What is passed over -/

/-- Whether a use may take segments off the queue that have not begun. -/
def Use.skips : Use → Bool
  | .abort => true
  | .setFlush flush => flush
  | _ => false

namespace Fifo

variable {q : Fifo} {u : Use}

theorem length_waiting_congr {q' : Fifo} (hp : q'.pending.length = q.pending.length)
    (hb : q'.begun = q.begun) : q'.waiting.length = q.waiting.length := by
  have h := q.length_waiting
  have h' := q'.length_waiting
  rw [hb] at h'
  omega

/-- As long as nothing is skipped, what waits becomes more by publishing and less by beginning
only. -/
theorem length_waiting_step (hvalid : q.Valid) (hflush : q.flush = false)
    (hskips : u.skips = false) (hpublish : u ≠ .publish) (hbegin : u ≠ .begin)
    (hfinish : ∀ i, u = .finish i → q.begun = true) (built : Nat) :
    (q.step built u).2.waiting.length = q.waiting.length ∧ (q.step built u).2.flush = false := by
  cases u with
  | publish => exact absurd rfl hpublish
  | begin => exact absurd rfl hbegin
  | abort => cases hskips
  | setFlush flush => exact ⟨rfl, hskips⟩
  | lockNewest =>
    rw [Fifo.step, Fifo.lockNewest]
    rcases q.pending.eq_nil_or_concat with hp | ⟨before, ⟨s, state⟩, hp⟩
    · rw [hp]
      exact ⟨rfl, hflush⟩
    · rw [hp, List.concat_eq_append, List.getLast?_concat, List.dropLast_concat]
      rw [List.concat_eq_append] at hp
      cases state with
      | ready =>
        exact ⟨length_waiting_congr (by simp [hp]) (begun_newest hp (by simp)), hflush⟩
      | _ => exact ⟨rfl, hflush⟩
  | lockWindow => exact ⟨length_waiting_congr (List.length_map _) q.begun_lockWindow, hflush⟩
  | revise k f =>
    exact ⟨length_waiting_congr (Slot.length_refill _ _) (q.begun_revise _), hflush⟩
  | unlock => exact ⟨length_waiting_congr (List.length_map _) q.begun_unlock, hflush⟩
  | finish i =>
    obtain ⟨s, rest, hp⟩ := pending_of_begun (hfinish i rfl)
    refine ⟨?_, hflush⟩
    change q.finish.2.waiting.length = _
    rw [(parts_of_begun hp).2, (parts_of_not_begun hvalid.begun_finish).2]
    simp [Fifo.finish, afterFinish, hflush, hp]
  | resize len =>
    rw [Fifo.step]
    split
    · exact ⟨rfl, hflush⟩
    · next hentries =>
      split
      · have hwaiting : q.waiting = [] := by
          rw [ne_eq, Decidable.not_not, q.entries_eq, List.append_eq_nil_iff] at hentries
          exact hentries.2
        rw [hwaiting]
        exact ⟨rfl, hflush⟩
      · exact ⟨rfl, hflush⟩
  | _ => exact ⟨rfl, hflush⟩

end Fifo

namespace Session

variable {s s' : Session n} {q : Fifo} {u : Use} {answer : Answer}

/-- How many of the published segments are waiting. -/
def waiting (s : Session n) : Nat := s.ring.pending - s.begun.length

theorem Keeps.waiting_eq (h : s.Keeps q) : s.waiting = q.waiting.length := by
  have hlength := q.length_waiting
  rw [waiting, h.holds.pending_eq, h.begun_eq]
  split at hlength
  · next hb =>
    rw [if_pos hb, List.length_singleton]
    omega
  · next hb =>
    rw [if_neg hb, List.length_nil]
    omega

/-- Nothing has been passed over: all segments have begun in order but those that wait. -/
structure Complete (s : Session n) (q : Fifo) : Prop where
  /-- the oldest segments have begun, in order -/
  started_eq : s.started = List.range (s.published - q.waiting.length)
  /-- nothing is going to be skipped -/
  flush_eq : q.flush = false

namespace Complete

theorem publish (hc : s.Complete q) (h : s.Keeps q) (hs : s.step .publish = .ok (answer, s')) :
    s'.Complete (q.step n .publish).2 := by
  rw [Session.step] at hs
  rw [Fifo.step, Fifo.publish]
  by_cases hroom : q.finished.length + q.pending.length < q.capacity
  · obtain ⟨r', hr', -⟩ := h.holds.publish_of_room hroom
    rw [hr'] at hs
    rw [if_pos hroom]
    cases hs
    refine ⟨?_, hc.flush_eq⟩
    change s.started = List.range (s.published + 1 - q.push.waiting.length)
    rw [q.parts_push.2, List.length_append, List.length_singleton, Nat.add_sub_add_right,
      hc.started_eq]
  · rw [h.holds.publish_of_full hroom] at hs
    rw [if_neg hroom]
    cases hs
    exact hc

theorem begin (hc : s.Complete q) (h : s.Keeps q) (hs : s.step .begin = .ok (answer, s')) :
    s'.Complete (q.step n .begin).2 := by
  rw [Session.step] at hs
  by_cases hready : ∃ segment rest, q.pending = ⟨segment, .ready⟩ :: rest
  · obtain ⟨segment, rest, hp⟩ := hready
    obtain ⟨r', hr', hfront, hholds⟩ := h.holds.begin?_of_ready hp
    have hbegun : q.begun = false := by
      rw [Fifo.begun, hp]
      rfl
    have hstep : (q.step n .begin).2 = { q with pending := ⟨segment, .executing⟩ :: rest } := by
      rw [Fifo.step, Fifo.begin?, hp]
      rfl
    have hnumber := h.stamp_front (by rw [hp]; exact List.cons_ne_nil _ _)
    rw [hr'] at hs
    cases hs
    rw [hstep]
    refine ⟨?_, hc.flush_eq⟩
    -- the one that begins has the number after all that have begun
    have hwaiting : ({ q with pending := ⟨segment, .executing⟩ :: rest } : Fifo).waiting = rest :=
      (Fifo.parts_of_begun rfl).2
    rw [hp, List.length_cons] at hnumber
    change s.started ++ [s.stamp s.ring.front] = _
    rw [hwaiting, hc.started_eq, (Fifo.parts_of_not_begun hbegun).2, hp, List.length_cons,
      show s.published - (rest.length + 1) = s.stamp s.ring.front by omega,
      show s.published - rest.length = s.stamp s.ring.front + 1 by omega, List.range_succ]
  · have hnone : ∀ segment rest, q.pending ≠ ⟨segment, .ready⟩ :: rest :=
      fun segment rest hp => hready ⟨segment, rest, hp⟩
    obtain ⟨s₁, hs₁, h₁⟩ := h.begin
    rw [Session.step, h.holds.begin?_of_not_ready hnone] at hs₁
    rw [h.holds.begin?_of_not_ready hnone] at hs
    cases hs
    obtain ⟨-, rfl⟩ := Prod.mk.inj (Except.ok.inj hs₁)
    have hsame : (q.step n .begin).2 = q := h₁.holds.toFifo_eq.symm.trans h.holds.toFifo_eq
    rwa [hsame]

theorem step (hc : s.Complete q) (h : s.Keeps q) (hu : s.Allows u) (hskips : u.skips = false)
    (hs : s.step u = .ok (answer, s')) : s'.Complete (q.step n u).2 := by
  by_cases hpublish : u = .publish
  · subst hpublish
    exact hc.publish h hs
  by_cases hbegin : u = .begin
  · subst hbegin
    exact hc.begin h hs
  have hfinish : ∀ i, u = .finish i → q.begun = true := by
    rintro i rfl
    obtain ⟨-, segment, rest, hp⟩ := h.of_mem_begun hu
    rw [Fifo.begun, hp]
    rfl
  have hpublished := ((numbers_step hs).1 hpublish).2
  have hstarted := (numbers_step hs).2 hbegin
  obtain ⟨hwaiting, hflush⟩ :=
    Fifo.length_waiting_step h.holds.valid hc.flush_eq hskips hpublish hbegin hfinish n
  exact ⟨by rw [hstarted, hpublished, hwaiting, hc.started_eq], hflush⟩

theorem run (hc : s.Complete q) (h : s.Keeps q) {us : List Use} (hus : s.Disciplined us)
    (hskips : ∀ u ∈ us, u.skips = false) {answers : List Answer}
    (hs : s.run us = .ok (answers, s')) : s'.Complete (q.run n us).2 := by
  induction us generalizing s q answers with
  | nil =>
    cases hs
    exact hc
  | cons u us ih =>
    obtain ⟨hu, hrest⟩ := hus
    obtain ⟨hskip, hskips⟩ := List.forall_mem_cons.mp hskips
    obtain ⟨s₁, hs₁, h₁⟩ := h.step hu
    rw [hs₁] at hrest
    rw [Session.run] at hs
    obtain ⟨⟨answer, s₁'⟩, hs₁', hs⟩ := Fault.bind_eq_ok.mp hs
    obtain ⟨⟨answers₂, s₂⟩, hs₂, hs⟩ := Fault.bind_eq_ok.mp hs
    cases hs
    rw [hs₁] at hs₁'
    obtain ⟨-, rfl⟩ := Prod.mk.inj (Except.ok.inj hs₁')
    exact ih (hc.step h hu hskip hs₁) h₁ hrest hskips hs₂

end Complete

/-- An empty ring in use for the first time, as far as its users know. -/
theorem Keeps.ofEmpty {r : Ring n} (h : r.Holds [] q) (hempty : r.isEmpty = true) :
    (Session.ofRing r).Keeps q := by
  obtain ⟨hf, hp⟩ := h.isEmpty_iff.mp hempty
  have hbegun : q.begun = false := by
    rw [Fifo.begun, hp]
    rfl
  refine ⟨h, by rw [hbegun]; rfl, ?_, ?_, List.Pairwise.nil, fun k hk => (by cases hk)⟩
  · intro k hk hk'
    rw [hp, List.length_nil] at hk'
    omega
  · rw [hp]
    exact Nat.le_refl 0

end Session

namespace Ring

/-- A ring is as good as a new one: however it is used, if properly, it answers as a new queue does
in which the same segment is prepared; and as long as nothing is skipped, segments begin in order
and without a gap. -/
def AsNew (r : Ring n) : Prop :=
  ∀ us, (Session.ofRing r).Disciplined us →
    ∃ s, (Session.ofRing r).run us =
        .ok ((((Fifo.ofCapacity (r.len - 1)).setHead r.headSegment).run n us).1, s) ∧
      ((∀ u ∈ us, u.skips = false) → s.started = List.range (s.published - s.waiting))

/-- A ring that is empty and at rest is as good as a new one. -/
theorem asNew_of_isEmpty {r : Ring n} {q : Fifo} (h : r.Holds [] q) (hempty : r.isEmpty = true)
    (hrunning : r.running = false) (hflush : r.flush = false) : r.AsNew := by
  obtain ⟨hf, hp⟩ := h.isEmpty_iff.mp hempty
  have hq : q = { (Fifo.ofCapacity (r.len - 1)).setHead r.headSegment with
      lastExitSpeed := q.lastExitSpeed } := by
    have hrunning' := h.running_eq.symm.trans hrunning
    have hflush' := h.flush_eq.symm.trans hflush
    have hcapacity := h.len_eq
    have hhead := h.headSegment_eq
    cases q
    simp_all [Fifo.ofCapacity, Fifo.setHead]
  intro us hus
  have hkeeps := Session.Keeps.ofEmpty h hempty
  obtain ⟨s, hs, hs'⟩ := hkeeps.run hus
  refine ⟨s, ?_, fun hskips => ?_⟩
  · rw [hs, hq, Fifo.run_lastExitSpeed]
  · have hcomplete : (Session.ofRing r).Complete q := by
      refine ⟨?_, h.flush_eq.symm.trans hflush⟩
      change [] = List.range (0 - q.waiting.length)
      rw [Nat.zero_sub, List.range_zero]
    rw [hs'.waiting_eq]
    exact (hcomplete.run hkeeps hus hskips hs).started_eq

end Ring

end MotionControl
