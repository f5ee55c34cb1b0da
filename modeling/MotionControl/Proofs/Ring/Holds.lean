import MotionControl.Proofs.Ring.Fifo

/-!
# Rings and queues

`Ring.Holds r held q` says that the ring `r`, with the slots `held` given to the main loop for
revision, stands for the queue `q`. Each operation of the ring keeps this when the queue makes the
operation of the same name.
-/

namespace MotionControl.Ring

variable {n : Nat}

/-- The ring stands for a queue, with some slots held for revision. -/
structure Holds (r : Ring n) (held : List Nat) (q : Fifo) : Prop where
  /-- the queue is one that a ring can stand for -/
  valid : q.Valid
  /-- the tail is a slot in use -/
  tail_lt : r.tail < r.len
  /-- one slot stays free -/
  len_eq : r.len = q.capacity + 1
  /-- the slots hold the segments of the queue -/
  layout_eq : r.layout = q.cells
  /-- the slots that are not in use are cleared -/
  spare : ∀ i, r.len ≤ i → r.slot i = .cleared
  /-- behind the finished segments come the pending ones -/
  front_eq : r.front = r.place q.finished.length
  /-- behind the pending segments comes the one being prepared -/
  head_eq : r.head = r.place (q.finished.length + q.pending.length)
  /-- the locked slots are those held for revision -/
  held_eq : held = r.lockedSlots
  /-- both or neither are running -/
  running_eq : r.running = q.running
  /-- both or neither are flushing -/
  flush_eq : r.flush = q.flush
  /-- both remember the same exit speed -/
  lastExitSpeed_eq : r.lastExitSpeed = q.lastExitSpeed

/-- The queue that the slots of a ring read as. -/
def toFifo (r : Ring n) : Fifo where
  capacity := r.len - 1
  finished := r.layout.take (r.distance r.tail r.front)
  pending := (r.layout.drop (r.distance r.tail r.front)).take r.pending
  head := r.headSegment
  running := r.running
  flush := r.flush
  lastExitSpeed := r.lastExitSpeed

namespace Holds

variable {r : Ring n} {held : List Nat} {q : Fifo}

theorem fits (h : r.Holds held q) : q.finished.length + q.pending.length ≤ q.capacity := by
  have := h.valid.fits
  rwa [Fifo.entries, List.length_append] at this

theorem front_place_lt (h : r.Holds held q) : q.finished.length < r.len := by
  have := h.fits
  have := h.len_eq
  omega

theorem head_place_lt (h : r.Holds held q) : q.finished.length + q.pending.length < r.len := by
  have := h.fits
  have := h.len_eq
  omega

theorem slot_place (h : r.Holds held q) {k : Nat} (hk : k < q.cells.length) :
    r.slot (r.place k) = q.cells[k] := by
  simp only [← h.layout_eq, getElem_layout]

theorem length_cells (h : r.Holds held q) : q.cells.length = q.capacity + 1 := by
  rw [← h.layout_eq, length_layout, h.len_eq]

theorem slot_mem_entries (h : r.Holds held q) {k : Nat}
    (hk : k < q.finished.length + q.pending.length) : r.slot (r.place k) ∈ q.entries := by
  have hlen : k < q.entries.length := by rwa [Fifo.entries, List.length_append]
  have hcells : q.cells = q.entries ++
      ⟨q.head, .free⟩ :: List.replicate (q.capacity - q.entries.length) .cleared := by
    rw [Fifo.cells, Fifo.entries, List.append_assoc]
  have hlt : k < q.cells.length := by
    rw [hcells, List.length_append]
    omega
  rw [h.slot_place hlt]
  simp only [hcells]
  rw [List.getElem_append_left hlen]
  exact List.getElem_mem hlen

theorem slot_mem_pending_tail (h : r.Holds held q) {k : Nat} (hk : q.finished.length < k)
    (hk' : k < q.finished.length + q.pending.length) :
    r.slot (r.place k) ∈ q.pending.tail := by
  have hlt : k < q.cells.length := by
    have := h.head_place_lt
    have := h.len_eq
    have := h.length_cells
    omega
  rw [h.slot_place hlt]
  simp only [Fifo.cells]
  rw [List.getElem_append_right (by omega), List.getElem_append_left (by omega)]
  obtain ⟨j, hj⟩ : ∃ j, k - q.finished.length = j + 1 := ⟨k - q.finished.length - 1, by omega⟩
  simp only [hj]
  rw [← List.getElem_tail (by rw [List.length_tail]; omega)]
  exact List.getElem_mem _

theorem slot_unused (h : r.Holds held q) {k : Nat}
    (hk : q.finished.length + q.pending.length < k) (hk' : k < r.len) :
    r.slot (r.place k) = .cleared := by
  have hlt : k < q.cells.length := by rwa [h.length_cells, ← h.len_eq]
  rw [h.slot_place hlt]
  simp only [Fifo.cells]
  rw [List.getElem_append_right (by omega), List.getElem_append_right (by omega),
    List.getElem_cons]
  rw [dif_neg (by omega), List.getElem_replicate]

theorem slot_head (h : r.Holds held q) : r.slot r.head = ⟨q.head, .free⟩ := by
  have hk : q.finished.length + q.pending.length < q.cells.length := by
    rw [h.length_cells, ← h.len_eq]
    exact h.head_place_lt
  rw [h.head_eq, h.slot_place hk]
  simp [Fifo.cells]

theorem slot_front (h : r.Holds held q) {e : Slot} {rest : List Slot}
    (hp : q.pending = e :: rest) : r.slot r.front = e := by
  have hk : q.finished.length < q.cells.length := by
    rw [h.length_cells, ← h.len_eq]
    exact h.front_place_lt
  rw [h.front_eq, h.slot_place hk]
  simp [Fifo.cells, hp]

theorem slot_tail (h : r.Holds held q) {e : Slot} {rest : List Slot}
    (hf : q.finished = e :: rest) : r.slot r.tail = e := by
  have hk : 0 < q.cells.length := by
    rw [h.length_cells]
    omega
  have hslot := h.slot_place hk
  rw [place_zero h.tail_lt] at hslot
  rw [hslot]
  simp [Fifo.cells, hf]

theorem slot_newest (h : r.Holds held q) {before : List Slot} {e : Slot}
    (hp : q.pending = before ++ [e]) : r.slot (r.prev r.head) = e := by
  have hlen : q.finished.length + q.pending.length =
      q.finished.length + before.length + 1 := by
    rw [hp, List.length_append, List.length_singleton, Nat.add_assoc]
  have hlt := h.head_place_lt
  have hk : q.finished.length + before.length < q.cells.length := by
    rw [h.length_cells, ← h.len_eq]
    omega
  rw [h.head_eq, hlen, prev_place h.tail_lt (by omega), h.slot_place hk]
  simp [Fifo.cells, hp]

theorem front_eq_head_iff (h : r.Holds held q) : r.front = r.head ↔ q.pending = [] := by
  rw [h.front_eq, h.head_eq, place_inj h.front_place_lt h.head_place_lt]
  rw [← List.length_eq_zero_iff]
  omega

theorem headSegment_eq (h : r.Holds held q) : r.headSegment = q.head := by
  unfold headSegment segment
  rw [h.slot_head]

theorem isEmpty_iff (h : r.Holds held q) :
    r.isEmpty = true ↔ q.finished = [] ∧ q.pending = [] := by
  have h0 := place_zero h.tail_lt
  have hlt := h.head_place_lt
  rw [isEmpty, beq_iff_eq, h.head_eq, ← h0, place_inj hlt (by omega)]
  rw [← List.length_eq_zero_iff, ← List.length_eq_zero_iff]
  omega

theorem isFull_iff (h : r.Holds held q) :
    r.isFull = true ↔ q.finished.length + q.pending.length = q.capacity := by
  have h0 := place_zero h.tail_lt
  have hlt := h.head_place_lt
  have hlen := h.len_eq
  have hfits := h.fits
  rw [isFull, beq_iff_eq, h.head_eq, next_place h.tail_lt hlt]
  constructor
  · intro hk
    rw [← h0] at hk
    by_cases hlast : q.finished.length + q.pending.length + 1 = r.len
    · omega
    · have := (place_inj (by omega) (by omega)).mp hk
      omega
  · intro hk
    rw [hk, ← hlen, place]
    split <;> omega

theorem pending_eq (h : r.Holds held q) : r.pending = q.pending.length := by
  have hlt := h.head_place_lt
  rw [pending, h.front_eq, h.head_eq, distance_place h.tail_lt (by omega) hlt]
  omega

theorem hasPending_iff (h : r.Holds held q) : r.hasPending = true ↔ q.pending ≠ [] := by
  rw [hasPending, h.pending_eq, decide_eq_true_iff, ← List.length_pos_iff]

theorem hasFinished_iff (h : r.Holds held q) : r.hasFinished = true ↔ q.finished ≠ [] := by
  have h0 := place_zero h.tail_lt
  have hlt := h.head_place_lt
  rw [hasFinished, bne_iff_ne, h.front_eq, ← h0, ne_eq, place_inj (by omega) (by omega), ne_eq,
    ← List.length_eq_zero_iff]
  omega

theorem finished?_eq (h : r.Holds held q) : r.finished? = q.finished? := by
  unfold finished? Fifo.finished?
  cases hq : q.finished with
  | nil =>
    rw [if_neg (by rw [h.hasFinished_iff]; exact not_not_intro hq)]
    rfl
  | cons e rest =>
    rw [if_pos (h.hasFinished_iff.mpr (by rw [hq]; exact List.cons_ne_nil _ _))]
    have hk : 0 < q.cells.length := by
      rw [h.length_cells]
      omega
    have hslot := h.slot_place hk
    rw [place_zero h.tail_lt] at hslot
    rw [segment, hslot]
    simp [Fifo.cells, hq]

theorem distance_tail_front (h : r.Holds held q) :
    r.distance r.tail r.front = q.finished.length := by
  rw [h.front_eq, distance_tail_place h.tail_lt h.front_place_lt]

theorem distance_tail_head (h : r.Holds held q) :
    r.distance r.tail r.head = q.finished.length + q.pending.length := by
  rw [h.head_eq, distance_tail_place h.tail_lt h.head_place_lt]

/-- A ring stands for the queue that its slots read as, and for no other. -/
theorem toFifo_eq (h : r.Holds held q) : r.toFifo = q := by
  unfold toFifo
  rw [h.distance_tail_front, h.pending_eq, h.layout_eq, h.headSegment_eq, h.len_eq, h.running_eq,
    h.flush_eq, h.lastExitSpeed_eq, Fifo.cells, List.take_left', List.drop_left', List.take_left']
  · rfl
  all_goals rfl

/-! ## Fresh rings -/

theorem ofLen {len : Nat} (h₁ : 2 ≤ len) (h₂ : len ≤ n) :
    (Ring.ofLen len h₁ h₂ : Ring n).Holds [] (.ofCapacity (len - 1)) := by
  have hslot : ∀ i, (Ring.ofLen len h₁ h₂ : Ring n).slot i = .cleared := by
    intro i
    unfold slot Ring.ofLen
    dsimp only
    rw [Vector.getElem?_replicate]
    split <;> rfl
  exact {
    valid := .ofCapacity _
    tail_lt := show 0 < len by omega
    len_eq := show len = len - 1 + 1 by omega
    layout_eq := by
      apply layout_eq_of_slots
      · simp [Fifo.cells, Fifo.ofCapacity, Fifo.entries, Ring.ofLen]
        omega
      · intro k hk hk'
        have hcells : (Fifo.ofCapacity (len - 1)).cells = List.replicate len .cleared := by
          have hlen : len = len - 1 + 1 := by omega
          rw [hlen, List.replicate_succ]
          rfl
        rw [hslot]
        simp only [hcells, List.getElem_replicate]
    spare := fun i _ => hslot i
    front_eq := (place_zero (r := (Ring.ofLen len h₁ h₂ : Ring n)) (by change 0 < len; omega)).symm
    head_eq := (place_zero (r := (Ring.ofLen len h₁ h₂ : Ring n)) (by change 0 < len; omega)).symm
    held_eq := by
      rw [lockedSlots, eq_comm, List.filter_eq_nil_iff]
      intro i _
      rw [state, hslot]
      decide
    running_eq := rfl
    flush_eq := rfl
    lastExitSpeed_eq := rfl }

theorem resize (h : r.Holds held q) (hempty : r.isEmpty = true) {len : Nat}
    (hlen : 2 ≤ len ∧ len ≤ n) :
    ∃ r', r.resize len = .ok r' ∧ r'.Holds [] (q.resize (len - 1)) := by
  have hnew : (Ring.ofLen len hlen.1 hlen.2 : Ring n).Holds [] (.ofCapacity (len - 1)) :=
    .ofLen hlen.1 hlen.2
  refine ⟨_, by rw [Ring.resize, hempty, dif_pos hlen]; rfl, ?_⟩
  exact {
    hnew with
    valid := ⟨hnew.valid.fits, hnew.valid.used, hnew.valid.begun_first⟩
    running_eq := h.running_eq
    flush_eq := h.flush_eq
    lastExitSpeed_eq := h.lastExitSpeed_eq }

/-! ## The main loop's side: preparing and publishing -/

theorem setHead (h : r.Holds held q) (s : Segment) : (r.setHead s).Holds held (q.setHead s) := by
  have hset : r.setHead s =
      r.setSlot (r.place (q.finished.length + q.pending.length)) ⟨s, .free⟩ := by
    rw [Ring.setHead, setSegment, h.slot_head, h.head_eq]
  have hstate : r.state r.head = .free := by rw [state, h.slot_head]
  have hlock : SlotState.free = .locked ↔
      r.state (r.place (q.finished.length + q.pending.length)) = .locked := by
    rw [← h.head_eq, hstate]
  rw [hset]
  exact {
    h with
    valid := ⟨h.valid.fits, h.valid.used, h.valid.begun_first⟩
    layout_eq := by
      rw [layout_setSlot h.tail_lt h.head_place_lt, h.layout_eq, Fifo.cells_set_head]
      rfl
    spare := fun i hi =>
      (slot_setSlot_of_len_le h.tail_lt h.head_place_lt hi _).trans (h.spare i hi)
    held_eq := by rw [lockedSlots_setSlot h.tail_lt h.head_place_lt hlock, h.held_eq] }

theorem setState_head (h : r.Holds held q) (state : SlotState) : r.setState r.head state =
    r.setSlot (r.place (q.finished.length + q.pending.length)) ⟨q.head, state⟩ := by
  rw [setState, h.slot_head, h.head_eq]

theorem publish_of_room (h : r.Holds held q)
    (hroom : q.finished.length + q.pending.length < q.capacity) :
    ∃ r', r.publish = .ok r' ∧ r'.Holds held q.push := by
  have hlt := h.head_place_lt
  have hfull : ¬ r.isFull = true := by
    rw [h.isFull_iff]
    omega
  have hlock : SlotState.ready = .locked ↔
      r.state (r.place (q.finished.length + q.pending.length)) = .locked := by
    rw [← h.head_eq, state, h.slot_head]
    simp
  refine ⟨_, by rw [publish, if_neg hfull, h.setState_head], ?_⟩
  exact {
    h with
    valid := h.valid.push hroom
    layout_eq := by
      have hk : q.capacity - q.entries.length = q.capacity - q.push.entries.length + 1 := by
        simp only [Fifo.entries, Fifo.push, List.length_append, List.length_singleton]
        omega
      change (r.setSlot _ _).layout = _
      rw [layout_setSlot h.tail_lt hlt, h.layout_eq, Fifo.cells_set_head, hk,
        List.replicate_succ, Fifo.cells, Fifo.push, List.append_assoc]
      rfl
    spare := fun i hi => (slot_setSlot_of_len_le h.tail_lt hlt hi _).trans (h.spare i hi)
    held_eq := by
      change _ = (r.setSlot _ _).lockedSlots
      rw [lockedSlots_setSlot h.tail_lt hlt hlock, h.held_eq]
    head_eq := by
      change r.next r.head = r.place _
      rw [h.head_eq, next_place h.tail_lt hlt, Fifo.push, List.length_append]
      rfl }

theorem publish_of_not_full (h : r.Holds held q) (hroom : r.isFull = false) :
    ∃ r', r.publish = .ok r' ∧ r'.Holds held q.push := by
  have hfits := h.fits
  have hfull := mt h.isFull_iff.mpr (by simp [hroom])
  exact h.publish_of_room (by omega)

theorem publish_of_full (h : r.Holds held q)
    (hfull : ¬ q.finished.length + q.pending.length < q.capacity) :
    r.publish = .error .full := by
  have hfits := h.fits
  rw [publish, if_pos (h.isFull_iff.mpr (by omega))]

theorem setRunning (h : r.Holds held q) (b : Bool) :
    (r.setRunning b).Holds held (q.setRunning b) :=
  { h with valid := ⟨h.valid.fits, h.valid.used, h.valid.begun_first⟩, running_eq := rfl }

theorem setFlush (h : r.Holds held q) (b : Bool) : (r.setFlush b).Holds held (q.setFlush b) :=
  { h with valid := ⟨h.valid.fits, h.valid.used, h.valid.begun_first⟩, flush_eq := rfl }

/-! ## The interrupt's side: beginning and finishing -/

theorem begin?_of_ready (h : r.Holds held q) {s : Segment} {rest : List Slot}
    (hp : q.pending = ⟨s, .ready⟩ :: rest) :
    ∃ r', r.begin? = some (r.front, r') ∧ r'.front = r.front ∧
      r'.Holds held { q with pending := ⟨s, .executing⟩ :: rest } := by
  have hlt := h.front_place_lt
  have hslot := h.slot_front hp
  have hne : ¬ r.front = r.head := by
    rw [h.front_eq_head_iff, hp]
    exact List.cons_ne_nil _ _
  have hready : r.state r.front = .ready := by rw [state, hslot]
  have hset : r.setState r.front .executing =
      r.setSlot (r.place q.finished.length) ⟨s, .executing⟩ := by
    rw [setState, hslot, h.front_eq]
  have hlock : SlotState.executing = .locked ↔
      r.state (r.place q.finished.length) = .locked := by
    rw [← h.front_eq, hready]
    decide
  refine ⟨r.setSlot (r.place q.finished.length) ⟨s, .executing⟩,
    by rw [begin?, if_neg hne, if_pos hready, hset], rfl, ?_⟩
  exact {
    h with
    valid := h.valid.setFirst hp (by simp)
    layout_eq := by
      rw [layout_setSlot h.tail_lt hlt, h.layout_eq, Fifo.cells_set_front hp]
      simp only [Fifo.cells, Fifo.entries, hp, List.length_append, List.length_cons]
    spare := fun i hi => (slot_setSlot_of_len_le h.tail_lt hlt hi _).trans (h.spare i hi)
    held_eq := by rw [lockedSlots_setSlot h.tail_lt hlt hlock, h.held_eq]
    head_eq := by
      change r.head = r.place _
      rw [h.head_eq, hp]
      rfl }

theorem begin?_of_not_ready (h : r.Holds held q)
    (hp : ∀ s rest, q.pending ≠ ⟨s, .ready⟩ :: rest) : r.begin? = none := by
  rw [begin?]
  split
  · rfl
  · next hne =>
    rw [h.front_eq_head_iff] at hne
    obtain ⟨e, rest, he⟩ := List.exists_cons_of_ne_nil hne
    rw [state, h.slot_front he, if_neg]
    intro hready
    exact hp e.segment rest (by rw [he, ← hready])

theorem executing_front (h : r.Holds held q) {s : Segment} {rest : List Slot}
    (hp : q.pending = ⟨s, .executing⟩ :: rest) : r.executing r.front = .ok s := by
  have hslot := h.slot_front hp
  have hin : ¬ n ≤ r.front := by
    have hlt := place_lt_built h.tail_lt (Nat.le_of_lt h.front_place_lt)
    rw [← h.front_eq] at hlt
    omega
  rw [executing, if_neg hin, state, segment, hslot, if_pos rfl]

/-- The cursors after some pending segments, from the front on, are over. -/
theorem move (h : r.Holds held q) {passed rest : List Slot} (hp : q.pending = passed ++ rest)
    (running : Bool) :
    { r with front := r.place (q.finished.length + passed.length), running := running }.Holds held
      { q with finished := q.finished ++ passed, pending := rest, running := running } :=
  { h with
    valid := h.valid.move hp running
    layout_eq := by
      change r.layout = _
      rw [h.layout_eq]
      simp only [Fifo.cells, Fifo.entries, hp, List.append_assoc]
    front_eq := by
      rw [List.length_append]
      rfl
    head_eq := by
      change r.head = r.place _
      rw [h.head_eq, hp, List.length_append, List.length_append, Nat.add_assoc]
    running_eq := rfl }

/-- Something has to be pending, unless all that is pending is skipped anyway. -/
theorem finish (h : r.Holds held q) (hp : q.flush = false → q.pending ≠ []) :
    ∃ r', r.finish r.front = .ok (q.finish.1, r') ∧ r'.Holds held q.finish.2 := by
  have hover := q.overAtFinish_append_afterFinish
  have hlt := h.head_place_lt
  have hlen : q.pending.length = q.overAtFinish.length + q.afterFinish.length := by
    rw [← List.length_append, ← hover]
  have hfront : (if r.flush then r.head else r.next r.front) =
      r.place (q.finished.length + q.overAtFinish.length) := by
    rw [h.flush_eq]
    unfold Fifo.overAtFinish
    split
    · exact h.head_eq
    · next hflush =>
      have hplen := List.length_pos_iff.mpr (hp (Bool.eq_false_iff.mpr hflush))
      rw [h.front_eq, next_place h.tail_lt h.front_place_lt, List.length_take,
        Nat.min_eq_left (by omega)]
  have hhead : r.place (q.finished.length + q.overAtFinish.length) = r.head ↔
      q.afterFinish = [] := by
    rw [h.head_eq, place_inj (by omega) hlt, ← List.length_eq_zero_iff]
    omega
  have hmove := h.move hover (q.running && !q.afterFinish.isEmpty)
  refine ⟨_, ?_, hmove⟩
  rw [Ring.finish, if_pos rfl, hfront]
  by_cases hrest : q.afterFinish = []
  · rw [if_pos (hhead.mpr hrest)]
    simp [Fifo.finish, hrest]
  · rw [if_neg (fun hh => hrest (hhead.mp hh))]
    simp [Fifo.finish, hrest, h.running_eq]

theorem abort (h : r.Holds held q) : r.abort.Holds held q.abort := by
  have hmove := h.move (List.append_nil _).symm false
  rw [← h.head_eq] at hmove
  exact hmove

/-! ## The main loop's side: clearing -/

theorem reclaim (h : r.Holds held q) {e : Slot} {rest : List Slot} (hf : q.finished = e :: rest)
    (hl : e.state ≠ .locked) : ∃ r', r.reclaim = .ok r' ∧ r'.Holds held q.reclaim := by
  have h0 := place_zero h.tail_lt
  have hlt := h.head_place_lt
  have hpos : 0 < r.len := by omega
  have hcells : q.cells = e :: (rest ++ (q.pending ++
      ⟨q.head, .free⟩ :: List.replicate (q.capacity - q.entries.length) .cleared)) := by
    rw [Fifo.cells, hf, List.cons_append]
  have hslot : r.slot r.tail = e := by
    rw [← h0, h.slot_place (by rw [h.length_cells]; omega)]
    simp only [hcells, List.getElem_cons_zero]
  have hfin : ¬ (!r.hasFinished) = true := by
    rw [h.hasFinished_iff.mpr (by rw [hf]; exact List.cons_ne_nil _ _)]
    simp
  have hstate : ¬ r.state r.tail = .locked := by
    rw [state, hslot]
    exact hl
  have hlock : Slot.cleared.state = .locked ↔ r.state (r.place 0) = .locked := by
    rw [h0]
    simp [Slot.cleared, hstate]
  -- first the slot at the tail is cleared, then the tail moves past it
  have hclear : (r.setSlot r.tail .cleared).layout = .cleared :: (rest ++ (q.pending ++
      ⟨q.head, .free⟩ :: List.replicate (q.capacity - q.entries.length) .cleared)) := by
    have := layout_setSlot h.tail_lt hpos .cleared
    rwa [h0, h.layout_eq, hcells, List.set_cons_zero] at this
  have hcleared : (r.setSlot r.tail .cleared).state r.tail ≠ .locked := by
    rw [state, slot_setSlot r (Nat.lt_of_lt_of_le h.tail_lt r.len_le), if_pos rfl]
    simp [Slot.cleared]
  have hrest : q.reclaim.finished = rest := by
    rw [Fifo.reclaim, hf]
    rfl
  have hlen : rest.length + 1 = q.finished.length := by rw [hf, List.length_cons]
  refine ⟨_, by rw [Ring.reclaim, if_neg hfin, if_neg hstate], ?_⟩
  exact {
    h with
    valid := h.valid.reclaim
    tail_lt := next_lt _ _
    layout_eq := by
      have htail := layout_tail_next (r := r.setSlot r.tail .cleared) h.tail_lt hclear
      refine htail.trans ?_
      have hk : q.capacity - q.reclaim.entries.length =
          q.capacity - q.entries.length + 1 := by
        have := h.fits
        simp only [Fifo.entries, Fifo.reclaim, hf, List.tail_cons, List.length_append,
          List.length_cons] at this ⊢
        omega
      change _ = q.reclaim.finished ++ (q.pending ++
        ⟨q.head, .free⟩ :: List.replicate (q.capacity - q.reclaim.entries.length) .cleared)
      rw [hrest, hk, List.replicate_succ']
      simp only [List.append_assoc, List.cons_append]
    spare := fun i hi => by
      have hclear := slot_setSlot_of_len_le h.tail_lt hpos hi .cleared
      rw [h0] at hclear
      exact hclear.trans (h.spare i hi)
    front_eq := by
      have hk := place_tail_next h.tail_lt (k := rest.length) (by omega)
      rw [hrest]
      exact h.front_eq.trans (by rw [← hlen, ← hk]; rfl)
    head_eq := by
      have hk := place_tail_next h.tail_lt (k := rest.length + q.pending.length) (by omega)
      rw [hrest]
      exact h.head_eq.trans (by rw [← hlen, Nat.add_right_comm, ← hk]; rfl)
    held_eq := by
      have := lockedSlots_tail_next (r := r.setSlot r.tail .cleared) h.tail_lt hcleared
      refine h.held_eq.trans (Eq.trans ?_ this.symm)
      rw [← h0, lockedSlots_setSlot h.tail_lt hpos hlock]
    lastExitSpeed_eq := by
      change (r.segment r.tail).exitSpeed = _
      rw [segment, hslot, Fifo.reclaim, hf]
      rfl }

end Holds

/-! ## Where the front stays

Only the interrupt moves it. -/

theorem front_publish {r r' : Ring n} (h : r.publish = .ok r') : r'.front = r.front := by
  unfold publish at h
  split at h
  · cases h
  · cases h
    rfl

theorem front_reclaim {r r' : Ring n} (h : r.reclaim = .ok r') : r'.front = r.front := by
  unfold reclaim at h
  split at h
  · cases h
  split at h
  · cases h
  · cases h
    rfl

end MotionControl.Ring
