import MotionControl.Proofs.Ring.Locks

/-!
# The main loop's work on the ring

`Ring.Work` is everything that the main loop does to the ring, one operation at a time, with the
slots that it holds before and after. What it writes may be restricted to segments of some kind,
such as those that the planner makes.

The interrupt relies on very little of it, which is `Fifo.Worked`: nothing begins or ends, what
has begun stays as it is, nothing pending is taken away, and the ring is asked to run only when
something is pending.
-/

namespace MotionControl

variable {n : Nat} {good : Segment → Prop}

/-- One operation of the main loop, which writes only segments of some kind. -/
inductive Ring.Work (good : Segment → Prop) : List Nat → Ring n → List Nat → Ring n → Prop
  | write {held : List Nat} {r : Ring n} {s : Segment} (hs : good s) :
      Work good held r held (r.setHead s)
  | publish {held : List Nat} {r r' : Ring n} (hr : r.publish = .ok r') : Work good held r held r'
  | run {held : List Nat} {r : Ring n} (hr : r.hasPending = true) :
      Work good held r held (r.setRunning true)
  | setFlush {held : List Nat} {r : Ring n} (flush : Bool) :
      Work good held r held (r.setFlush flush)
  | lockNewest {r r' : Ring n} {i : Nat} (hr : r.lockNewest = some (i, r')) :
      Work good [] r [i] r'
  | lockWindow {r : Ring n} : Work good [] r r.lockWindow.1.slots r.lockWindow.2
  | revise {held : List Nat} {r : Ring n} {ss : List Segment} (hss : ∀ s ∈ ss, good s) :
      Work good held r held (r.setSegments held ss)
  | unlock {held : List Nat} {r : Ring n} : Work good held r [] (r.unlock held)
  | reclaim {held : List Nat} {r r' : Ring n} (hr : r.reclaim = .ok r') : Work good held r held r'

/-- All segments of a queue are of some kind. -/
structure Fifo.All (good : Segment → Prop) (q : Fifo) : Prop where
  /-- the segment being prepared is -/
  head : good q.head
  /-- the published segments are -/
  entries : ∀ e ∈ q.entries, good e.segment

/-- What the interrupt may rely on when the main loop has been at work. -/
structure Fifo.Worked (good : Segment → Prop) (q q' : Fifo) : Prop where
  /-- nothing begins or ends -/
  begun_eq : q'.begun = q.begun
  /-- what has begun stays as it is -/
  first_eq : q.begun = true → q'.pending.head? = q.pending.head?
  /-- nothing pending is taken away -/
  pending_ne : q.pending ≠ [] → q'.pending ≠ []
  /-- the ring is asked to run only when something is pending -/
  running : q'.running = true → q.running = true ∨ q'.pending ≠ []
  /-- and it is never asked to stop -/
  stays : q.running = true → q'.running = true
  /-- what is written is of the given kind -/
  all : good .empty → q.All good → q'.All good

namespace Fifo.Worked

variable {q q' : Fifo}

/-- Segments that come from others are of the same kind. -/
theorem allOf (h : q.All good) (hh : q'.head = q.head ∨ good q'.head)
    (hf : ∀ e ∈ q'.entries, ∃ a ∈ q.entries, e.segment = a.segment) : q'.All good := by
  refine ⟨hh.elim (fun heq => heq ▸ h.head) id, fun e he => ?_⟩
  obtain ⟨a, ha, heq⟩ := hf e he
  rw [heq]
  exact h.entries a ha

/-- Work that touches no pending segment. -/
theorem ofPending (hp : q'.pending = q.pending) (hf : ∀ e ∈ q'.finished, e ∈ q.finished)
    (hr : q'.running = true → q.running = true ∨ q'.pending ≠ [])
    (hs : q.running = true → q'.running = true) (hh : q'.head = q.head ∨ good q'.head) :
    q.Worked good q' where
  begun_eq := by rw [Fifo.begun, hp, Fifo.begun]
  first_eq _ := by rw [hp]
  pending_ne hne := by rwa [hp]
  running := hr
  stays := hs
  all _ h := allOf h hh fun e he => by
    refine ⟨e, ?_, rfl⟩
    rw [Fifo.entries, hp] at he
    exact (List.mem_append.mp he).elim (fun he => List.mem_append_left _ (hf e he))
      (List.mem_append_right _)

/-- Work that changes the states of published segments one by one, but not of one that has begun. -/
theorem ofMap {f g : Slot → Slot} (hf : q'.finished = q.finished.map g)
    (hp : q'.pending = q.pending.map f) (hb : q'.begun = q.begun)
    (hsegment : ∀ e, (f e).segment = e.segment ∧ (g e).segment = e.segment)
    (hkept : ∀ e, e.state = .executing → f e = e)
    (hr : q'.running = q.running) (hh : q'.head = q.head) : q.Worked good q' where
  begun_eq := hb
  first_eq hbegun := by
    obtain ⟨s, rest, hq⟩ := Fifo.pending_of_begun hbegun
    rw [hp, hq, List.map_cons, hkept _ rfl]
    rfl
  pending_ne hne := by rw [hp]; simpa using hne
  running hrun := .inl (hr ▸ hrun)
  stays hrun := hr ▸ hrun
  all _ h := allOf h (.inl hh) fun e he => by
    rw [Fifo.entries, hf, hp] at he
    rcases List.mem_append.mp he with he | he <;> obtain ⟨a, ha, rfl⟩ := List.mem_map.mp he
    · exact ⟨a, List.mem_append_left _ ha, (hsegment a).2⟩
    · exact ⟨a, List.mem_append_right _ ha, (hsegment a).1⟩

theorem push (q : Fifo) : q.Worked good q.push where
  begun_eq := q.begun_push
  first_eq hbegun := by
    obtain ⟨s, rest, hq⟩ := Fifo.pending_of_begun hbegun
    rw [Fifo.push, hq]
    rfl
  pending_ne _ := by simp [Fifo.push]
  running hrun := .inl hrun
  stays hrun := hrun
  all hempty h := by
    refine ⟨hempty, fun e he => ?_⟩
    rw [Fifo.entries, Fifo.push, ← List.append_assoc] at he
    rcases List.mem_append.mp he with he | he
    · exact h.entries e he
    · rw [List.mem_singleton.mp he]
      exact h.head

theorem revise (q : Fifo) {ss : List Segment} (hss : ∀ s ∈ ss, good s) :
    q.Worked good (q.revise ss) where
  begun_eq := q.begun_revise ss
  first_eq hbegun := by
    obtain ⟨s, rest, hq⟩ := Fifo.pending_of_begun hbegun
    obtain ⟨e', rest', heq, -, hkept⟩ := Slot.refill_cons
      (ss.drop (q.finished.countP Slot.isLocked)) ⟨s, .executing⟩ rest
    rw [Fifo.revise, hq, heq, hkept (by simp)]
    rfl
  pending_ne hne := by
    rw [← List.length_pos_iff] at hne ⊢
    rwa [Fifo.revise, Slot.length_refill]
  running hrun := .inl hrun
  stays hrun := hrun
  all _ h := by
    refine ⟨h.head, fun e he => ?_⟩
    rcases List.mem_append.mp he with he | he <;> rcases Slot.segment_mem_refill he with he | he
    · exact hss _ he
    · exact h.entries e (List.mem_append_left _ he)
    · exact hss _ (List.mem_of_mem_drop he)
    · exact h.entries e (List.mem_append_right _ he)

theorem lockNewest {before : List Slot} {s : Segment} (hp : q.pending = before ++ [⟨s, .ready⟩]) :
    q.Worked good { q with pending := before ++ [⟨s, .locked⟩] } where
  begun_eq := begun_newest hp (by simp)
  first_eq hbegun := by
    rw [Fifo.begun, hp] at hbegun
    rw [hp]
    cases before with
    | nil => cases hbegun
    | cons e before => rfl
  pending_ne _ := by simp
  running hrun := .inl hrun
  stays hrun := hrun
  all _ h := allOf h (.inl rfl) fun e he => by
    rw [Fifo.entries, ← List.append_assoc] at he
    rw [Fifo.entries, hp, ← List.append_assoc]
    rcases List.mem_append.mp he with he | he
    · exact ⟨e, List.mem_append_left _ he, rfl⟩
    · rw [List.mem_singleton.mp he]
      exact ⟨⟨s, .ready⟩, List.mem_append_right _ (List.mem_singleton_self _), rfl⟩

end Fifo.Worked

/-- The ring goes on standing for a queue when the main loop is at work. -/
theorem Ring.Holds.work {r r' : Ring n} {held held' : List Nat} {q : Fifo} (h : r.Holds held q)
    (hw : Ring.Work good held r held' r') :
    ∃ q', r'.Holds held' q' ∧ r'.front = r.front ∧ q.Worked good q' := by
  cases hw with
  | @write _ _ s hs =>
    exact ⟨_, h.setHead s, rfl, .ofPending rfl (fun _ he => he) .inl id (.inr hs)⟩
  | publish hr =>
    by_cases hroom : q.finished.length + q.pending.length < q.capacity
    · obtain ⟨r₁, hr₁, h₁⟩ := h.publish_of_room hroom
      rw [hr] at hr₁
      cases hr₁
      exact ⟨_, h₁, Ring.front_publish hr, .push q⟩
    · rw [h.publish_of_full hroom] at hr
      cases hr
  | run hr =>
    refine ⟨_, h.setRunning true, rfl, .ofPending rfl (fun _ he => he) (fun _ => .inr ?_)
      (fun _ => rfl) (.inl rfl)⟩
    exact h.hasPending_iff.mp hr
  | setFlush flush =>
    exact ⟨_, h.setFlush flush, rfl, .ofPending rfl (fun _ he => he) .inl id (.inl rfl)⟩
  | @lockNewest _ _ i hr =>
    by_cases hnewest : ∃ before s, q.pending = before ++ [⟨s, .ready⟩]
    · obtain ⟨before, s, hp⟩ := hnewest
      obtain ⟨i', r₁, hr₁, h₁⟩ := h.lockNewest_of_ready hp
      rw [hr] at hr₁
      cases hr₁
      obtain ⟨slots, hslots⟩ := Ring.lockNewest_eq hr
      exact ⟨_, h₁, by rw [hslots], .lockNewest hp⟩
    · have hnone := h.lockNewest_of_not_ready fun before s hp => hnewest ⟨before, s, hp⟩
      rw [hr] at hnone
      cases hnone
  | lockWindow =>
    obtain ⟨slots, hslots⟩ := r.lockWindow_eq
    refine ⟨_, h.lockWindow, by rw [hslots], .ofMap (f := Slot.lock) (g := id)
      (List.map_id _).symm rfl q.begun_lockWindow (fun e => ⟨e.segment_lock, rfl⟩)
      (fun e he => ?_) rfl rfl⟩
    exact Slot.lock_of_not_ready (by simp [he])
  | @revise _ _ ss hss =>
    obtain ⟨slots, hslots⟩ := r.setSegments_eq held ss
    exact ⟨_, h.setSegments ss, by rw [hslots], .revise q hss⟩
  | unlock =>
    obtain ⟨slots, hslots⟩ := r.unlock_eq held
    refine ⟨_, h.unlock, by rw [hslots], .ofMap (f := Slot.unlock) (g := Slot.unlock)
      rfl rfl q.begun_unlock (fun e => ⟨e.segment_unlock, e.segment_unlock⟩)
      (fun e he => ?_) rfl rfl⟩
    simp [Slot.unlock, he]
  | reclaim hr =>
    cases hf : q.finished with
    | nil =>
      have hnone : r.hasFinished = false := by
        rw [← Bool.not_eq_true, h.hasFinished_iff]
        exact not_not_intro hf
      rw [Ring.reclaim, hnone] at hr
      cases hr
    | cons e rest =>
      have hstate : e.state ≠ .locked := by
        intro hl
        have htail : r.state r.tail = .locked := by rw [Ring.state, h.slot_tail hf, hl]
        rw [Ring.reclaim, if_pos htail, ite_self] at hr
        cases hr
      obtain ⟨r₁, hr₁, h₁⟩ := h.reclaim hf hstate
      rw [hr] at hr₁
      cases hr₁
      exact ⟨_, h₁, Ring.front_reclaim hr, .ofPending rfl (fun _ he => List.mem_of_mem_tail he)
        .inl id (.inl rfl)⟩

end MotionControl
