import MotionControl.Proofs.Ring.Simulation

/-!
# What every run of a ring guarantees

Two results about all disciplined sequences of uses, from a fresh ring of any size on. The ring
stays well-formed, said in terms of cursors and slots alone (`Session.WellFormed`); and it cannot
be told from a queue that makes the same uses, which is what the slots read as (`Ring.toFifo`).
-/

namespace MotionControl

namespace Session

variable {n : Nat}

/-- What the users of a ring may rely on. -/
structure WellFormed (s : Session n) : Prop where
  /-- the tail is a slot in use -/
  tail_lt : s.ring.tail < s.ring.len
  /-- the front is a slot in use -/
  front_lt : s.ring.front < s.ring.len
  /-- the head is a slot in use -/
  head_lt : s.ring.head < s.ring.len
  /-- going round from the tail, the front comes no later than the head -/
  ordered : s.ring.ordered = true
  /-- a slot from the head on is free -/
  free_outside : ∀ i, i < s.ring.len →
    s.ring.distance s.ring.tail s.ring.head ≤ s.ring.distance s.ring.tail i →
    s.ring.state i = .free
  /-- a slot behind the head is cleared -/
  empty_outside : ∀ i, i < s.ring.len →
    s.ring.distance s.ring.tail s.ring.head ≤ s.ring.distance s.ring.tail i →
    i ≠ s.ring.head → s.ring.segment i = .empty
  /-- a slot before the head is not free -/
  used_inside : ∀ i, i < s.ring.len →
    s.ring.distance s.ring.tail i < s.ring.distance s.ring.tail s.ring.head →
    s.ring.state i ≠ .free
  /-- the locked slots are those held for revision -/
  locked_iff : ∀ i, s.ring.state i = .locked ↔ i ∈ s.held
  /-- of the pending segments only the first may have begun -/
  executing_front : ∀ i, i < s.ring.len →
    s.ring.distance s.ring.front i < s.ring.distance s.ring.front s.ring.head →
    s.ring.state i = .executing → i = s.ring.front
  /-- a ring with one slot left takes no more, and asking it to changes nothing -/
  publish_full : s.ring.distance s.ring.tail s.ring.head = s.ring.len - 1 →
    s.step .publish = .ok (.refused .full, s)
  /-- any other ring takes one more -/
  publish_room : s.ring.distance s.ring.tail s.ring.head ≠ s.ring.len - 1 →
    ∃ s', s.step .publish = .ok (.done, s')

theorem Keeps.wellFormed {s : Session n} {q : Fifo} (h : s.Keeps q) : s.WellFormed := by
  have hr := h.holds
  have ht := hr.tail_lt
  have hlen := hr.len_eq
  have hhead := hr.head_place_lt
  have hfront := hr.front_place_lt
  -- a slot in use is so many steps after the tail
  have hplace : ∀ i, i < s.ring.len →
      ∃ k, k < s.ring.len ∧ i = s.ring.place k ∧ s.ring.distance s.ring.tail i = k := by
    intro i hi
    obtain ⟨k, hk, rfl⟩ := Ring.exists_place_eq ht hi
    exact ⟨k, hk, rfl, Ring.distance_tail_place ht hk⟩
  refine {
    tail_lt := ht
    front_lt := by
      rw [hr.front_eq]
      exact Ring.place_lt ht (Nat.le_of_lt hfront)
    head_lt := by
      rw [hr.head_eq]
      exact Ring.place_lt ht (Nat.le_of_lt hhead)
    ordered := ?_, free_outside := ?_, empty_outside := ?_, used_inside := ?_, locked_iff := ?_
    executing_front := ?_, publish_full := ?_, publish_room := ?_ }
  · have hpending := hr.pending_eq
    rw [Ring.pending] at hpending
    rw [Ring.ordered, hr.distance_tail_front, hpending, hr.distance_tail_head]
    exact beq_self_eq_true _
  · intro i hi hout
    obtain ⟨k, hk, rfl, hdist⟩ := hplace i hi
    rw [hdist, hr.distance_tail_head] at hout
    rcases Nat.eq_or_lt_of_le hout with heq | hlt
    · rw [← heq, ← hr.head_eq, Ring.state, hr.slot_head]
    · rw [Ring.state, hr.slot_unused hlt hk]
      rfl
  · intro i hi hout hne
    obtain ⟨k, hk, rfl, hdist⟩ := hplace i hi
    rw [hdist, hr.distance_tail_head] at hout
    rcases Nat.eq_or_lt_of_le hout with heq | hlt
    · exact absurd (by rw [hr.head_eq, heq]) hne
    · rw [Ring.segment, hr.slot_unused hlt hk]
      rfl
  · intro i hi hin
    obtain ⟨k, hk, rfl, hdist⟩ := hplace i hi
    rw [hdist, hr.distance_tail_head] at hin
    exact hr.valid.used _ (hr.slot_mem_entries hin)
  · intro i
    rcases Nat.lt_or_ge i s.ring.len with hi | hi
    · exact (hr.mem_held ((Ring.mem_order ht).mpr hi)).symm
    · refine ⟨fun hl => ?_, fun hm => absurd hm (hr.not_mem_held_of_len_le hi)⟩
      rw [Ring.state, hr.spare i hi] at hl
      cases hl
  · intro i hi hin hexec
    obtain ⟨k, hk, rfl, -⟩ := hplace i hi
    have hpending := hr.pending_eq
    rw [Ring.pending] at hpending
    rw [hpending, hr.front_eq] at hin
    rw [hr.front_eq]
    -- behind the front none has begun, and a slot before it is reached only beyond the head
    rcases Nat.lt_trichotomy k q.finished.length with hlt | heq | hgt
    · rw [Ring.distance_place_wrap ht hlt hfront] at hin
      omega
    · rw [heq]
    · rw [Ring.distance_place ht (Nat.le_of_lt hgt) hk] at hin
      have hmem := hr.slot_mem_pending_tail hgt (by omega)
      exact absurd hexec (hr.valid.begun_first _ hmem)
  · intro hfull
    rw [hr.distance_tail_head] at hfull
    rw [Session.step, hr.publish_of_full (by omega)]
  · intro hroom
    rw [hr.distance_tail_head] at hroom
    have hfits := hr.fits
    obtain ⟨r', hr', -⟩ := hr.publish_of_room (by omega)
    exact ⟨_, by rw [Session.step, hr']⟩

/-- A new ring stands for an empty queue. -/
theorem Keeps.ofNew {len : Nat} {r : Ring n} (hr : Ring.new n len = .ok r) :
    (Session.ofRing r).Keeps (.ofCapacity (len - 1)) := by
  unfold Ring.new at hr
  split at hr
  · next hlen =>
    cases hr
    exact .ofRing hlen.1 hlen.2
  · cases hr

/-- However a ring is used, if properly, every use succeeds and the ring stays well-formed. -/
theorem wellFormed_of_disciplined {len : Nat} {r : Ring n} (hr : Ring.new n len = .ok r)
    {us : List Use} (hus : (Session.ofRing r).Disciplined us) :
    ∃ answers s, (Session.ofRing r).run us = .ok (answers, s) ∧ s.WellFormed := by
  obtain ⟨s, hs, h⟩ := (Keeps.ofNew hr).run hus
  exact ⟨_, s, hs, h.wellFormed⟩

/-- The interrupt may drop a segment that is held for revision, and the room it leaves is used
again before the revision is over. -/
theorem wellFormed_after_abort_while_locked :
    ∃ answers s, (Session.ofRing (Ring.ofLen 2 (by decide) (by decide) : Ring 3)).run
      [.publish, .lockNewest, .begin, .abort, .unlock, .reclaim, .publish, .publish] =
        .ok (answers, s) ∧ s.WellFormed :=
  wellFormed_of_disciplined (show Ring.new 3 2 = .ok _ from rfl) (by decide)

/-- However a ring is used, if properly, it answers as a queue does and reads as the queue
afterwards; and segments begin in the order of their publication, each at most once. -/
theorem run_refines_fifo {len : Nat} {r : Ring n} (hr : Ring.new n len = .ok r)
    {us : List Use} (hus : (Session.ofRing r).Disciplined us) :
    ∃ s, (Session.ofRing r).run us = .ok (((Fifo.ofCapacity (len - 1)).run n us).1, s) ∧
      s.ring.toFifo = ((Fifo.ofCapacity (len - 1)).run n us).2 ∧
      s.started.Pairwise (· < ·) ∧ ∀ k ∈ s.started, k < s.published := by
  obtain ⟨s, hs, h⟩ := (Keeps.ofNew hr).run hus
  refine ⟨s, hs, h.holds.toFifo_eq, h.numbered.started_sorted, ?_⟩
  intro k hk
  exact Nat.lt_of_le_of_lt (Nat.le_add_right k _) (h.numbered.started_lt k hk)

/-- A segment that is held for revision does not begin, and begins once it is given up. -/
theorem run_refines_fifo_begin_after_unlock :
    ∃ s, (Session.ofRing (Ring.ofLen 3 (by decide) (by decide) : Ring 3)).run
      [.publish, .publish, .lockWindow, .begin, .unlock, .begin, .finish 0, .begin] =
        .ok (((Fifo.ofCapacity 2).run 3
          [.publish, .publish, .lockWindow, .begin, .unlock, .begin, .finish 0, .begin]).1, s) ∧
      s.ring.toFifo = ((Fifo.ofCapacity 2).run 3
        [.publish, .publish, .lockWindow, .begin, .unlock, .begin, .finish 0, .begin]).2 ∧
      s.started.Pairwise (· < ·) ∧ ∀ k ∈ s.started, k < s.published :=
  run_refines_fifo (show Ring.new 3 3 = .ok _ from rfl) (by decide)

end Session

end MotionControl
