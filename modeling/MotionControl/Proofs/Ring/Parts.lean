import MotionControl.Proofs.Ring.Locks

/-!
# Segments that have begun and segments that wait

Seen from the planner, the published segments of a queue come in two parts: those that have begun,
whether they are over or not, and those that wait. Only the latter can be revised. `Fifo.boundary`
is the exit speed of the last one of the former, which the ring remembers beyond its removal. A
window that is locked starts with it (`Ring.Holds.boundary_lockWindow`).

Whatever the main loop does to a queue, nothing moves from one part to the other. What the interrupt
does is to take segments from the second part to the first one, from the front on and without a gap
(`Fifo.Passes`), and it takes none that is locked.
-/

namespace MotionControl

/-- The speed at the end of some segments that follow a speed. -/
def Segment.endOf (speed : Float32) (ss : List Segment) : Float32 :=
  ss.foldl (fun _ s => s.exitSpeed) speed

theorem Segment.endOf_append (speed : Float32) (ss ss' : List Segment) :
    endOf speed (ss ++ ss') = endOf (endOf speed ss) ss' :=
  List.foldl_append

namespace Slot

/-- Refilling slots that are all locked puts one segment into each. -/
theorem refill_of_locked {ss : List Segment} {es : List Slot} (h : ∀ e ∈ es, e.state = .locked)
    (hlen : ss.length = es.length) :
    (refill ss es).map Slot.segment = ss ∧ ∀ e ∈ refill ss es, e.state = .locked := by
  induction es generalizing ss with
  | nil =>
    rw [List.length_nil, List.length_eq_zero_iff] at hlen
    rw [hlen]
    exact ⟨rfl, fun e he => absurd he List.not_mem_nil⟩
  | cons e es ih =>
    obtain ⟨he, hes⟩ := List.forall_mem_cons.mp h
    cases ss with
    | nil => cases hlen
    | cons s ss =>
      obtain ⟨hmap, hlocked⟩ := ih hes (Nat.succ.inj hlen)
      have hl : e.isLocked = true := decide_eq_true he
      rw [refill, if_pos hl, List.map_cons, hmap]
      exact ⟨rfl, List.forall_mem_cons.mpr ⟨he, hlocked⟩⟩

end Slot

namespace Fifo

variable {q q' q'' : Fifo} {s : Segment} {rest : List Slot}

/-- The segments that have begun, whether they are over or not, oldest first. -/
def started (q : Fifo) : List Slot := q.finished ++ if q.begun then q.pending.take 1 else []

/-- The exit speed of the segment that has begun last. -/
def boundary (q : Fifo) : Float32 := Segment.endOf q.lastExitSpeed (q.started.map Slot.segment)

theorem entries_eq (q : Fifo) : q.entries = q.started ++ q.waiting := by
  unfold entries started waiting
  split
  · rw [List.append_assoc, ← List.drop_one, List.take_append_drop]
  · rw [List.append_nil]

theorem parts_of_begun (hp : q.pending = ⟨s, .executing⟩ :: rest) :
    q.started = q.finished ++ [⟨s, .executing⟩] ∧ q.waiting = rest := by
  have hbegun : q.begun = true := by
    rw [begun, hp]
    rfl
  rw [started, waiting, hbegun, hp]
  exact ⟨rfl, rfl⟩

theorem parts_of_not_begun (h : q.begun = false) :
    q.started = q.finished ∧ q.waiting = q.pending := by
  rw [started, waiting, h]
  exact ⟨List.append_nil _, rfl⟩

theorem Valid.not_executing (h : q.Valid) : ∀ e ∈ q.waiting, e.state ≠ .executing := by
  intro e he
  unfold waiting at he
  split at he
  · exact h.begun_first e he
  · next hbegun =>
    cases hp : q.pending with
    | nil =>
      rw [hp] at he
      exact absurd he List.not_mem_nil
    | cons a rest =>
      rw [hp] at he
      obtain rfl | he := List.mem_cons.mp he
      · intro hexec
        rw [begun, hp] at hbegun
        exact hbegun (decide_eq_true hexec)
      · exact h.begun_first e (by rwa [hp])

/-! ## The main loop

Only publishing adds to what waits, and nothing is taken away. -/

theorem parts_push (q : Fifo) :
    q.push.started = q.started ∧ q.push.waiting = q.waiting ++ [⟨q.head, .ready⟩] := by
  have hbegun := q.begun_push
  by_cases h : q.begun = true
  · obtain ⟨s, rest, hp⟩ := pending_of_begun h
    have hp' : q.push.pending = ⟨s, .executing⟩ :: (rest ++ [⟨q.head, .ready⟩]) := by
      rw [push, hp]
      rfl
    rw [(parts_of_begun hp).1, (parts_of_begun hp).2, (parts_of_begun hp').1,
      (parts_of_begun hp').2]
    exact ⟨rfl, rfl⟩
  · rw [Bool.not_eq_true] at h
    rw [(parts_of_not_begun h).1, (parts_of_not_begun h).2,
      (parts_of_not_begun (hbegun.trans h)).1, (parts_of_not_begun (hbegun.trans h)).2]
    exact ⟨rfl, rfl⟩

/-- Work that changes slots one by one, and treats one that has begun like those that are over. -/
theorem parts_map {f g : Slot → Slot} (hf : q'.finished = q.finished.map g)
    (hp : q'.pending = q.pending.map f) (hb : q'.begun = q.begun)
    (hfirst : ∀ s, f ⟨s, .executing⟩ = g ⟨s, .executing⟩) :
    q'.started = q.started.map g ∧ q'.waiting = q.waiting.map f := by
  by_cases h : q.begun = true
  · obtain ⟨s, rest, hpending⟩ := pending_of_begun h
    rw [started, started, waiting, waiting, hb, h, hf, hp, hpending, List.map_append]
    exact ⟨congrArg (fun e => _ ++ [e]) (hfirst s), rfl⟩
  · rw [Bool.not_eq_true] at h
    rw [(parts_of_not_begun h).1, (parts_of_not_begun h).2, (parts_of_not_begun (hb.trans h)).1,
      (parts_of_not_begun (hb.trans h)).2]
    exact ⟨hf, hp⟩

theorem parts_lockWindow (q : Fifo) :
    q.lockWindow.started = q.started ∧ q.lockWindow.waiting = q.waiting.map Slot.lock := by
  have h : q.lockWindow.started = q.started.map id ∧
      q.lockWindow.waiting = q.waiting.map Slot.lock :=
    parts_map (List.map_id _).symm rfl q.begun_lockWindow
      fun s => Slot.lock_of_not_ready (by simp)
  rwa [List.map_id] at h

theorem parts_unlock (q : Fifo) :
    q.unlock.started = q.started.map Slot.unlock ∧ q.unlock.waiting = q.waiting.map Slot.unlock :=
  parts_map rfl rfl q.begun_unlock fun _ => rfl

/-- Of a queue of which all that waits is locked, all that waits is revised. -/
theorem parts_revise (hstarted : ∀ e ∈ q.started, e.state ≠ .locked) (ss : List Segment) :
    (q.revise ss).started = q.started ∧ (q.revise ss).waiting = Slot.refill ss q.waiting := by
  have hcount : q.finished.countP Slot.isLocked = 0 := by
    rw [List.countP_eq_zero]
    intro e he hl
    exact hstarted e (List.mem_append_left _ he) (of_decide_eq_true hl)
  have hfinished : (q.revise ss).finished = q.finished := Slot.refill_of_not_locked ss hcount
  have hpending : (q.revise ss).pending = Slot.refill ss q.pending := by
    rw [revise, hcount, List.drop_zero]
  have hbegun := q.begun_revise ss
  by_cases h : q.begun = true
  · obtain ⟨s, rest, hp⟩ := pending_of_begun h
    have hp' : (q.revise ss).pending = ⟨s, .executing⟩ :: Slot.refill ss rest := by
      rw [hpending, hp]
      cases ss with
      | nil => rw [Slot.refill_nil_left, Slot.refill_nil_left]
      | cons s' ss => exact if_neg (by simp [Slot.isLocked])
    rw [(parts_of_begun hp).1, (parts_of_begun hp).2, (parts_of_begun hp').1,
      (parts_of_begun hp').2, hfinished]
    exact ⟨rfl, rfl⟩
  · rw [Bool.not_eq_true] at h
    rw [(parts_of_not_begun h).1, (parts_of_not_begun h).2,
      (parts_of_not_begun (hbegun.trans h)).1, (parts_of_not_begun (hbegun.trans h)).2, hfinished,
      hpending]
    exact ⟨rfl, rfl⟩

/-- Locking or revising the newest pending segment while it waits. -/
theorem parts_newest {before : List Slot} (hp : q.pending = before ++ [⟨s, .ready⟩]) {e : Slot}
    (he : e.state ≠ .executing) : ∃ ws, q.waiting = ws ++ [⟨s, .ready⟩] ∧
      ({ q with pending := before ++ [e] } : Fifo).waiting = ws ++ [e] ∧
      ({ q with pending := before ++ [e] } : Fifo).started = q.started := by
  have hbegun := begun_newest hp he
  by_cases h : q.begun = true
  · rw [started, started, waiting, waiting, hbegun, h, hp]
    cases before with
    | nil =>
      rw [begun, hp] at h
      cases h
    | cons e' before => exact ⟨before, rfl, rfl, rfl⟩
  · rw [Bool.not_eq_true] at h
    rw [started, started, waiting, waiting, hbegun, h, hp]
    exact ⟨before, rfl, rfl, rfl⟩

/-- A queue remembers the exit speed of what is dropped. -/
theorem boundary_reclaim {e : Slot} (hf : q.finished = e :: rest) :
    q.reclaim.boundary = q.boundary := by
  have hbegun : q.reclaim.begun = q.begun := rfl
  rw [boundary, boundary, started, started, hbegun, reclaim, hf]
  rfl

/-! ## The interrupt -/

/-- Some waiting segments have begun, from the front on, and some may be over. -/
structure Passes (q : Fifo) (gone : List Slot) (q' : Fifo) : Prop where
  /-- they are no longer waiting -/
  waiting_eq : q.waiting = gone ++ q'.waiting
  /-- they were ready -/
  ready : ∀ e ∈ gone, e.state = .ready
  /-- they have begun after all others -/
  started_eq : q'.started.map Slot.segment = (q.started ++ gone).map Slot.segment
  /-- nothing has been dropped -/
  lastExitSpeed_eq : q'.lastExitSpeed = q.lastExitSpeed
  /-- nothing is skipped that would not have been -/
  flush_eq : q'.flush = q.flush
  /-- the segment being prepared stays -/
  head_eq : q'.head = q.head

namespace Passes

variable {gone gone' : List Slot}

theorem refl (q : Fifo) : q.Passes [] q where
  waiting_eq := rfl
  ready e he := absurd he List.not_mem_nil
  started_eq := by rw [List.append_nil]
  lastExitSpeed_eq := rfl
  flush_eq := rfl
  head_eq := rfl

theorem trans (h : q.Passes gone q') (h' : q'.Passes gone' q'') : q.Passes (gone ++ gone') q'' where
  waiting_eq := by rw [h.waiting_eq, h'.waiting_eq, List.append_assoc]
  ready e he := (List.mem_append.mp he).elim (h.ready e) (h'.ready e)
  started_eq := by
    rw [h'.started_eq, List.map_append, h.started_eq, ← List.map_append, List.append_assoc]
  lastExitSpeed_eq := h'.lastExitSpeed_eq.trans h.lastExitSpeed_eq
  flush_eq := h'.flush_eq.trans h.flush_eq
  head_eq := h'.head_eq.trans h.head_eq

theorem boundary_eq (h : q.Passes gone q') :
    q'.boundary = Segment.endOf q.boundary (gone.map Slot.segment) := by
  rw [boundary, h.lastExitSpeed_eq, h.started_eq, List.map_append, Segment.endOf_append]
  rfl

/-- The first waiting segment begins. -/
theorem begin (hp : q.pending = ⟨s, .ready⟩ :: rest) :
    q.Passes [⟨s, .ready⟩] { q with pending := ⟨s, .executing⟩ :: rest } := by
  have hbegun : q.begun = false := by
    rw [begun, hp]
    rfl
  have hstarted := (parts_of_begun (q := { q with pending := ⟨s, .executing⟩ :: rest }) rfl).1
  have hwaiting := (parts_of_begun (q := { q with pending := ⟨s, .executing⟩ :: rest }) rfl).2
  refine ⟨?_, fun e he => by rw [List.mem_singleton.mp he], ?_, rfl, rfl, rfl⟩
  · rw [hwaiting, (parts_of_not_begun hbegun).2, hp]
    rfl
  · rw [hstarted, (parts_of_not_begun hbegun).1, List.map_append, List.map_append]
    rfl

/-- The segment under execution is over. -/
theorem finish (hvalid : q.Valid) (hflush : q.flush = false)
    (hp : q.pending = ⟨s, .executing⟩ :: rest) : q.Passes [] q.finish.2 := by
  have hbegun := hvalid.begun_finish
  have hfinished : q.finish.2.finished = q.finished ++ [⟨s, .executing⟩] := by
    simp [Fifo.finish, overAtFinish, hflush, hp]
  have hpending : q.finish.2.pending = rest := by
    simp [Fifo.finish, afterFinish, hflush, hp]
  refine ⟨?_, fun e he => absurd he List.not_mem_nil, ?_, rfl, rfl, rfl⟩
  · rw [(parts_of_begun hp).2, (parts_of_not_begun hbegun).2, hpending]
    rfl
  · rw [(parts_of_begun hp).1, (parts_of_not_begun hbegun).1, hfinished, List.append_nil]

end Passes

end Fifo

/-! ## The boundary of a window -/

namespace Ring

variable {n : Nat} {r : Ring n} {held : List Nat} {q : Fifo} {before after : List Slot} {e : Slot}

/-- The oldest slot that is held is that of the first entry that is locked. -/
theorem Holds.head?_held (h : r.Holds held q) (hentries : q.entries = before ++ e :: after)
    (hbefore : ∀ a ∈ before, a.state ≠ .locked) (he : e.state = .locked) :
    held.head? = some (r.place before.length) := by
  have hcells : q.cells = before ++ (e :: (after ++
      ⟨q.head, .free⟩ :: List.replicate (q.capacity - q.entries.length) .cleared)) := by
    rw [Fifo.cells, ← List.append_assoc, ← Fifo.entries, hentries, List.append_assoc,
      List.cons_append]
  have hlen : before.length < q.cells.length := by
    rw [hcells, List.length_append, List.length_cons]
    omega
  have horder : r.order.length = q.cells.length := by
    rw [← h.layout_eq, layout, List.length_map]
  have hplace : ∀ k, (hk : k < r.order.length) → r.order[k] = r.place k := by
    intro k hk
    simp only [order, List.getElem_map, List.getElem_range]
  rw [h.held_eq, lockedSlots, List.head?_filter, List.find?_eq_some_iff_getElem]
  refine ⟨?_, before.length, by omega, hplace _ _, fun j hj => ?_⟩
  · rw [decide_eq_true_iff, state, h.slot_place hlen]
    simp only [hcells]
    rw [List.getElem_append_right (Nat.le_refl _)]
    simpa using he
  · rw [hplace, Bool.not_eq_true', decide_eq_false_iff_not, state, h.slot_place (by omega)]
    simp only [hcells]
    rw [List.getElem_append_left hj]
    exact hbefore _ (List.getElem_mem _)

/-- The exit speed before the oldest slot that is held. -/
theorem Holds.boundaryBefore_eq (h : r.Holds held q) (hentries : q.entries = before ++ e :: after)
    (hbefore : ∀ a ∈ before, a.state ≠ .locked) (he : e.state = .locked) :
    r.boundaryBefore held = Segment.endOf q.lastExitSpeed (before.map Slot.segment) := by
  have hhead := h.head?_held hentries hbefore he
  cases held with
  | nil => cases hhead
  | cons oldest held =>
    obtain rfl : oldest = r.place before.length := Option.some.inj hhead
    have hlen : before.length + (after.length + 1) =
        q.finished.length + q.pending.length := by
      rw [← List.length_append, ← Fifo.entries, hentries, List.length_append, List.length_cons]
    have hlt := h.head_place_lt
    have hzero := place_zero h.tail_lt
    obtain rfl | ⟨before, a, rfl⟩ := List.eq_nil_or_concat before
    · rw [List.length_nil, hzero, boundaryBefore, if_pos rfl]
      exact h.lastExitSpeed_eq
    · rw [List.concat_eq_append, List.length_append, List.length_singleton] at hlen ⊢
      have hne : ¬ r.place (before.length + 1) = r.tail := by
        rw [← hzero, place_inj (by omega) (by omega)]
        omega
      rw [boundaryBefore, if_neg hne, prev_place h.tail_lt (by omega), segment,
        h.slot_place (by rw [h.length_cells, ← h.len_eq]; omega), List.map_append,
        Segment.endOf_append]
      have hcells : q.cells = before ++ (a :: (e :: after ++
          ⟨q.head, .free⟩ :: List.replicate (q.capacity - q.entries.length) .cleared)) := by
        rw [Fifo.cells, ← List.append_assoc, ← Fifo.entries, hentries]
        simp
      simp only [hcells]
      rw [List.getElem_append_right (Nat.le_refl _)]
      simp [Segment.endOf]

/-- Where nothing is locked, all that waits is ready. -/
theorem Holds.ready_of_waiting (h : r.Holds [] q) : ∀ e ∈ q.waiting, e.state = .ready := by
  intro e he
  have hmem : e ∈ q.entries := by
    rw [q.entries_eq]
    exact List.mem_append_right _ he
  have hfree := h.valid.used e hmem
  have hexec := h.valid.not_executing e he
  have hlocked := h.not_locked e hmem
  cases hs : e.state with
  | ready => rfl
  | free => exact absurd hs hfree
  | locked => exact absurd hs hlocked
  | executing => exact absurd hs hexec

/-- Where all that waits is locked, it is held, and perhaps more. -/
theorem Holds.segments_of_locked (h : r.Holds held q)
    (hlocked : ∀ e ∈ q.waiting, e.state = .locked) : r.segments held =
      (q.started.filter Slot.isLocked).map Slot.segment ++ q.waiting.map Slot.segment := by
  have hwaiting : q.waiting.filter Slot.isLocked = q.waiting :=
    List.filter_eq_self.mpr fun e he => decide_eq_true (hlocked e he)
  rw [h.segments_held, Fifo.held, q.entries_eq, List.filter_append, hwaiting, List.map_append]

/-- If there are no more locks than that, nothing that has begun is locked. -/
theorem Holds.not_locked_of_started (h : r.Holds held q)
    (hlocked : ∀ e ∈ q.waiting, e.state = .locked) (hlen : held.length = q.waiting.length) :
    ∀ e ∈ q.started, e.state ≠ .locked := by
  have hsum := congrArg List.length (h.segments_of_locked hlocked)
  rw [segments, List.length_map, List.length_append, List.length_map, List.length_map] at hsum
  have hnone : q.started.filter Slot.isLocked = [] := List.length_eq_zero_iff.mp (by omega)
  exact fun e he hl => List.filter_eq_nil_iff.mp hnone e he (decide_eq_true hl)

/-- And the segments held are those that wait. -/
theorem Holds.segments_eq_waiting (h : r.Holds held q)
    (hlocked : ∀ e ∈ q.waiting, e.state = .locked) (hstarted : ∀ e ∈ q.started, e.state ≠ .locked) :
    r.segments held = q.waiting.map Slot.segment := by
  have hnone : q.started.filter Slot.isLocked = [] :=
    List.filter_eq_nil_iff.mpr fun e he hl => hstarted e he (of_decide_eq_true hl)
  rw [h.segments_of_locked hlocked, hnone]
  rfl

/-- A window starts with the exit speed of the segment that has begun last. -/
theorem Holds.boundary_lockWindow (h : r.Holds [] q) (hne : q.waiting ≠ []) :
    r.lockWindow.1.boundary = q.boundary := by
  obtain ⟨e, after, hwaiting⟩ := List.exists_cons_of_ne_nil hne
  obtain ⟨hstarted, hlocked⟩ := q.parts_lockWindow
  have hready : e.state = .ready :=
    h.ready_of_waiting e (by rw [hwaiting]; exact List.mem_cons_self)
  rw [hwaiting, List.map_cons, Slot.lock_of_ready hready] at hlocked
  have hentries := q.lockWindow.entries_eq
  rw [hlocked, hstarted] at hentries
  refine h.lockWindow.boundaryBefore_eq hentries (fun a ha => ?_) rfl
  exact h.not_locked a (by rw [q.entries_eq]; exact List.mem_append_left _ ha)

end Ring

end MotionControl
