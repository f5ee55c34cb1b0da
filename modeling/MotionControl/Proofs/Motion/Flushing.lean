import MotionControl.Proofs.Motion.Clerk
import MotionControl.Proofs.Ring.Afresh

/-!
# What a flush skips

To flush the ring is to ask the interrupt to take all that waits along with the next segment that is
over, and then to wait until everything has been cleared. The interrupt may do anything in the
meantime. Whatever it does, if the wait comes to an end, nothing has begun in the course of it but
the segment that waited at the front, and that only if nothing was under execution when the flush
was called for (`Dispatcher.flushed_of_duties`). So all others have been skipped. What is left is a
ring that is as good as a new one.

`Plant.Skipping` is what holds in the course of the wait: as long as anything is pending, it is what
was pending at the call.
-/

namespace MotionControl

variable {n : Nat}

namespace Ring

/-- The main loop's work, where one knows what it does to the queue. -/
theorem Attended.work_holds {good : Segment → Prop} {r r' : Ring n} {held held' : List Nat}
    {q q' : Fifo} {next : Option Nat} (h : r.Attended good held q next)
    (hw : Ring.Work good held r held' r') (hr : r'.Holds held' q') :
    r'.Attended good held' q' next := by
  obtain ⟨q₁, h₁, -⟩ := h.work hw
  obtain rfl : q₁ = q' := h₁.holds.toFifo_eq.symm.trans hr.toFifo_eq
  exact h₁

namespace Holds

variable {r : Ring n} {held : List Nat} {q : Fifo}

/-- What waits at the front is the first segment of the queue. -/
theorem segment_front (h : r.Holds held q) {s : Segment} {rest : List Segment}
    (hqueued : r.queued = s :: rest) : r.segment r.front = s ∧ r.hasPending = true := by
  rw [h.queued_eq, Fifo.queued, List.map_eq_cons_iff] at hqueued
  obtain ⟨e, rest', hp, rfl, -⟩ := hqueued
  refine ⟨by rw [segment, h.slot_front hp], ?_⟩
  rw [h.hasPending_iff, hp]
  exact List.cons_ne_nil _ _

/-- All slots of an empty ring are free. -/
theorem state_of_isEmpty (h : r.Holds held q) (hempty : r.isEmpty = true) (i : Nat) :
    r.state i = .free := by
  obtain ⟨hf, hp⟩ := h.isEmpty_iff.mp hempty
  have hhead : r.head = r.place 0 := by rw [h.head_eq, hf, hp]; rfl
  rcases Nat.lt_or_ge i r.len with hi | hi
  · obtain ⟨k, hk, rfl⟩ := exists_place_eq h.tail_lt hi
    rcases Nat.eq_zero_or_pos k with rfl | hpos
    · rw [← hhead, state, h.slot_head]
    · rw [state, h.slot_unused (by rw [hf, hp]; exact hpos) hk]
      rfl
  · rw [state, h.spare i hi]
    rfl

end Holds

end Ring

/-! ## In the course of a flush -/

namespace Plant

variable {p₀ p : Plant n Clerk} {q : Fifo}

/-- A plant in the course of a flush, and the plant at the call. -/
structure Skipping (p₀ p : Plant n Clerk) (q : Fifo) : Prop where
  /-- the clerk attends to the ring -/
  attended : p.ring.Attended (fun _ => True) [] q p.side.current
  /-- the ring is flushing -/
  flush_eq : q.flush = true
  /-- what is pending is where it was -/
  front_eq : q.pending ≠ [] → p.ring.front = p₀.ring.front
  /-- what is pending is all that was -/
  queued_eq : q.pending ≠ [] → q.queued = p₀.ring.queued
  /-- nothing has begun but perhaps the first of it -/
  begun_eq : p.side.begun = p₀.side.begun ∨ p₀.side.current = none ∧ p₀.ring.hasPending = true ∧
    p.side.begun = p₀.side.begun ++ [(p₀.ring.front, p₀.ring.segment p₀.ring.front)]
  /-- it has not begun while it waits -/
  unbegun : q.pending ≠ [] → p.side.current = none →
    p₀.side.current = none ∧ p.side.begun = p₀.side.begun

/-- When nothing is pending any more, nothing can begin. -/
theorem Skipping.over (h : Skipping p₀ p q) {p' : Plant n Clerk} {q' : Fifo}
    (hr : p'.ring.Attended (fun _ => True) [] q' p'.side.current) (hflush : q'.flush = true)
    (hbegun : p'.side.begun = p.side.begun) (hp : q'.pending = []) : Skipping p₀ p' q' where
  attended := hr
  flush_eq := hflush
  front_eq hne := absurd hp hne
  queued_eq hne := absurd hp hne
  begun_eq := by rw [hbegun]; exact h.begun_eq
  unbegun hne := absurd hp hne

theorem handled_skipping {held : List Nat} {q₀ : Fifo} (h₀ : p₀.ring.Holds held q₀) :
    Handled [] (Skipping p₀) where
  attended h := h.attended
  begins {p q} h {s rest r} hc hp hfront hr := by
    have hne : q.pending ≠ [] := by simp [hp]
    obtain ⟨hc₀, hbegun⟩ := h.unbegun hne hc
    have hqueued := (h.queued_eq hne).symm
    rw [Fifo.queued, hp, List.map_cons] at hqueued
    obtain ⟨hsegment, hpending⟩ := h₀.segment_front hqueued
    refine ⟨hr, h.flush_eq, fun _ => hfront.trans (h.front_eq hne), fun _ => hqueued.symm,
      .inr ⟨hc₀, hpending, ?_⟩, fun _ hnone => by cases hnone⟩
    rw [beginning, hbegun, h.front_eq hne, hsegment]
  ends {p q} h {s rest r} hp hr := h.over hr h.flush_eq rfl (if_pos h.flush_eq)
  aborts {p q} h := h.over h.attended.abort h.flush_eq (List.append_nil _) rfl

end Plant

namespace Dispatcher

/-- A dispatcher in the course of a flush. -/
def Skipping (p₀ : Plant n Clerk) (d : Dispatcher n Clerk) : Prop := ∃ q, p₀.Skipping d.plant q

theorem upkeep_skipping (p₀ : Plant n Clerk) : Upkeep (Skipping p₀) where
  run {d} h _ hpending := by
    obtain ⟨q, h⟩ := h
    exact ⟨q.setRunning true,
      { h with attended := h.attended.work_holds (.run hpending) (h.attended.holds.setRunning _) }⟩
  reclaim {d} h hfinished := by
    obtain ⟨q, h⟩ := h
    obtain ⟨hempty, -, -, r, -, hr, hholds⟩ := h.attended.holds.reclaim_of_finished hfinished
    refine ⟨hempty, r, hr, q.reclaim, { h with
      attended := h.attended.work_holds (.reclaim hr) hholds
      front_eq := fun hne => (Ring.front_reclaim hr).trans (h.front_eq hne) }⟩

theorem withstands_skipping {p₀ : Plant n Clerk} {held : List Nat} {q₀ : Fifo}
    (h₀ : p₀.ring.Holds held q₀) (as : List Act) : Withstands (Skipping p₀) (Plant.acts as) := by
  rintro d ⟨q, h⟩
  obtain ⟨p, q', hp, h'⟩ := (Plant.handled_skipping h₀).acts h as
  rw [hp]
  exact ⟨q', h'⟩

/-- At the call. -/
theorem Tended.skipping {d : Dispatcher n Clerk} (h : d.Tended false) :
    Skipping d.plant (d.setRing (d.ring.setFlush true)) := by
  obtain ⟨q, h⟩ := h
  exact ⟨q.setFlush true,
    { attended := h.attended.work_holds (.setFlush true) (h.attended.holds.setFlush true)
      flush_eq := rfl
      front_eq := fun _ => rfl
      queued_eq := fun _ => h.attended.holds.queued_eq.symm
      begun_eq := .inl rfl
      unbegun := fun _ hc => ⟨hc, rfl⟩ }⟩

/-! ## After a flush -/

/-- What a flush has done. -/
structure Flushed (d d' : Dispatcher n Clerk) : Prop where
  /-- nothing has begun but the segment at the front, and that only if none was under execution -/
  begun_eq : d'.plant.side.begun = d.plant.side.begun ∨
    d.plant.side.current = none ∧ d.ring.hasPending = true ∧
      d'.plant.side.begun = d.plant.side.begun ++ [(d.ring.front, d.ring.segment d.ring.front)]
  /-- nothing is under execution -/
  current_eq : d'.plant.side.current = none
  /-- nothing is queued, executing or awaiting cleanup -/
  isEmpty_eq : d'.ring.isEmpty = true
  /-- the ring does not run -/
  running_eq : d'.ring.running = false
  /-- segments that come are not skipped -/
  flush_eq : d'.ring.flush = false
  /-- all slots are free -/
  state_eq : ∀ i, d'.ring.state i = .free
  /-- what comes is treated as if the ring were new -/
  asNew : d'.ring.AsNew

/-- When nothing is left in the course of a flush, it has done its work. -/
theorem Skipping.flushed {d d' : Dispatcher n Clerk} (h : Skipping d.plant d')
    (hempty : d'.ring.isEmpty = true) : d.Flushed (d'.setRing (d'.ring.setFlush false)) := by
  obtain ⟨q, h⟩ := h
  have hp := (h.attended.holds.isEmpty_iff.mp hempty).2
  have hrunning : d'.ring.running = false := by
    change d'.plant.ring.running = false
    rw [h.attended.holds.running_eq, Bool.eq_false_iff]
    exact fun hrun => h.attended.pending hrun hp
  have hcurrent : d'.plant.side.current = none := by
    have hbegun := h.attended.begun_eq
    rw [Fifo.begun, hp] at hbegun
    exact Option.isNone_iff_eq_none.mp (Option.isSome_eq_false_iff.mp hbegun.symm)
  have hholds := h.attended.holds.setFlush false
  exact ⟨h.begun_eq, hcurrent, hempty, hrunning, rfl, hholds.state_of_isEmpty hempty,
    Ring.asNew_of_isEmpty hholds hempty hrunning rfl⟩

/-- A flush that comes to an end has skipped all that waited but perhaps the first segment. Before
it the dispatcher may have been used in any way, and the interrupt may do anything meanwhile. -/
theorem flushed_of_duties {len : Nat} {ring : Ring n} (hring : Ring.new n len = .ok ring)
    {cs : List Duty} {d : Dispatcher n Clerk} (hd : (ofRing ring .atRest).duties cs = .ok d)
    {idle : List (List Act)} {rest : Idle n Clerk} {d' : Dispatcher n Clerk}
    (hflush : d.flush (script idle) = .ok (rest, d')) : d.Flushed d' := by
  have htended := tended_of_duties hring hd
  obtain ⟨q, h⟩ := id htended
  rw [flush] at hflush
  obtain ⟨⟨rest₁, d₁⟩, hwait, hflush⟩ := Fault.bind_eq_ok.mp hflush
  cases hflush
  have hover := (upkeep_skipping d.plant).waitUntil htended.skipping Ring.isEmpty
    (withstands_script (withstands_skipping h.attended.holds) idle)
  rw [show waitUntil Ring.isEmpty _ _ = _ from hwait] at hover
  exact hover.1.flushed hover.2.1

/-- Of three segments that wait, the first begins and ends, and the others are skipped. -/
theorem flushed_of_three : ∃ d rest d',
    (ofRing (Ring.ofLen 4 (by decide) (by decide)) .atRest : Dispatcher 4 Clerk).duties
        [.queueHead [], .queueHead [], .queueHead []] = .ok d ∧
      d.flush (script [[], [.start], [.finish], [.step], [.start, .finish], []]) = .ok (rest, d') ∧
      d.Flushed d' := by
  refine ⟨?d, ?rest, ?d', ?hd, ?hflush,
    flushed_of_duties (show Ring.new 4 4 = .ok _ from rfl) ?hd ?hflush⟩
  case hd => rfl
  case hflush => rfl

end Dispatcher

end MotionControl
