import Mathlib.Data.List.Forall2
import MotionControl.Proofs.Ring.Parts

/-!
# Rings that differ in what waits

Two rings are twins if they are the same but for the segments that wait, and each of these is
related to the one in the same place. Twins with nothing that waits are equal (`Ring.Twins.eq`).

Nothing that the dispatcher asks a ring tells twins apart. Preparing, publishing and clearing keeps
them twins, and so does revising what waits, by whatever comes of it (`Ring.Holds.revised`).
-/

namespace MotionControl

variable {n : Nat}

/-! ## Queues -/

namespace Fifo

/-- The same queue but for the segments that wait. -/
structure Twins (R : Segment → Segment → Prop) (q q' : Fifo) : Prop where
  /-- they take the same number of segments -/
  capacity_eq : q'.capacity = q.capacity
  /-- the same segments are over -/
  finished_eq : q'.finished = q.finished
  /-- the same segments have begun -/
  started_eq : q'.started = q.started
  /-- those that wait are related -/
  waiting : List.Forall₂ R (q.waiting.map Slot.segment) (q'.waiting.map Slot.segment)
  /-- the same segment is being prepared -/
  head_eq : q'.head = q.head
  /-- both or neither are running -/
  running_eq : q'.running = q.running
  /-- both or neither are flushing -/
  flush_eq : q'.flush = q.flush
  /-- both remember the same exit speed -/
  lastExitSpeed_eq : q'.lastExitSpeed = q.lastExitSpeed

theorem length_started (q : Fifo) :
    q.started.length = q.finished.length + if q.begun then 1 else 0 := by
  rw [started, List.length_append]
  by_cases h : q.begun = true
  · obtain ⟨s, rest, hp⟩ := pending_of_begun h
    rw [if_pos h, if_pos h, hp]
    rfl
  · rw [if_neg h, if_neg h, List.length_nil]

theorem started_reclaim {q : Fifo} (hf : q.finished ≠ []) : q.reclaim.started = q.started.tail := by
  have hbegun : q.reclaim.begun = q.begun := rfl
  rw [started, started, hbegun, List.tail_append_of_ne_nil hf]
  rfl

namespace Twins

variable {R S T : Segment → Segment → Prop} {q q' q'' : Fifo}

theorem refl (hR : ∀ s, R s s) (q : Fifo) : q.Twins R q :=
  ⟨rfl, rfl, rfl, List.forall₂_same.mpr fun s _ => hR s, rfl, rfl, rfl, rfl⟩

theorem length_waiting (h : q.Twins R q') : q'.waiting.length = q.waiting.length := by
  have hlen := h.waiting.length_eq
  rw [List.length_map, List.length_map] at hlen
  exact hlen.symm

theorem length_pending (h : q.Twins R q') : q'.pending.length = q.pending.length := by
  have hlen := congrArg List.length q.entries_eq
  have hlen' := congrArg List.length q'.entries_eq
  rw [entries, List.length_append, List.length_append] at hlen hlen'
  rw [h.finished_eq, h.started_eq, h.length_waiting] at hlen'
  omega

theorem begun_eq (h : q.Twins R q') : q'.begun = q.begun := by
  have hlen := congrArg List.length h.started_eq
  rw [length_started, length_started, h.finished_eq, Nat.add_left_cancel_iff] at hlen
  revert hlen
  cases q'.begun <;> cases q.begun <;> decide

theorem boundary_eq (h : q.Twins R q') : q'.boundary = q.boundary := by
  rw [boundary, boundary, h.started_eq, h.lastExitSpeed_eq]

/-- If nothing waits there is no difference. -/
theorem eq (h : q.Twins R q') (hw : q.waiting = []) : q' = q := by
  have hw' : q'.waiting = [] := by
    rw [← List.length_eq_zero_iff, h.length_waiting, hw, List.length_nil]
  have hp := q.entries_eq
  have hp' := q'.entries_eq
  rw [entries, hw, List.append_nil] at hp
  rw [entries, hw', List.append_nil, h.finished_eq, h.started_eq, ← hp] at hp'
  obtain ⟨capacity, finished, pending, head, running, flush, lastExitSpeed⟩ := q
  obtain ⟨capacity', finished', pending', head', running', flush', lastExitSpeed'⟩ := q'
  obtain rfl : capacity' = capacity := h.capacity_eq
  obtain rfl : finished' = finished := h.finished_eq
  obtain rfl : pending' = pending := List.append_cancel_left hp'
  obtain rfl : head' = head := h.head_eq
  obtain rfl : running' = running := h.running_eq
  obtain rfl : flush' = flush := h.flush_eq
  obtain rfl : lastExitSpeed' = lastExitSpeed := h.lastExitSpeed_eq
  rfl

theorem trans (hT : ∀ a b c, R a b → S b c → T a c) (h : q.Twins R q') (h' : q'.Twins S q'') :
    q.Twins T q'' where
  capacity_eq := h'.capacity_eq.trans h.capacity_eq
  finished_eq := h'.finished_eq.trans h.finished_eq
  started_eq := h'.started_eq.trans h.started_eq
  waiting := by
    have hw := h.waiting
    have hw' := h'.waiting
    generalize q.waiting.map Slot.segment = ss at hw
    generalize q'.waiting.map Slot.segment = ss' at hw hw'
    generalize q''.waiting.map Slot.segment = ss'' at hw'
    induction hw generalizing ss'' with
    | nil =>
      cases hw'
      exact .nil
    | cons hs _ ih =>
      cases hw' with
      | cons hs' hw' => exact .cons (hT _ _ _ hs hs') (ih _ hw')
  head_eq := h'.head_eq.trans h.head_eq
  running_eq := h'.running_eq.trans h.running_eq
  flush_eq := h'.flush_eq.trans h.flush_eq
  lastExitSpeed_eq := h'.lastExitSpeed_eq.trans h.lastExitSpeed_eq

theorem symm (hS : ∀ a b, R a b → S b a) (h : q.Twins R q') : q'.Twins S q where
  capacity_eq := h.capacity_eq.symm
  finished_eq := h.finished_eq.symm
  started_eq := h.started_eq.symm
  waiting := (h.waiting.imp hS).flip
  head_eq := h.head_eq.symm
  running_eq := h.running_eq.symm
  flush_eq := h.flush_eq.symm
  lastExitSpeed_eq := h.lastExitSpeed_eq.symm

theorem push (hR : ∀ s, R s s) (h : q.Twins R q') : q.push.Twins R q'.push where
  capacity_eq := h.capacity_eq
  finished_eq := h.finished_eq
  started_eq := by rw [q.parts_push.1, q'.parts_push.1, h.started_eq]
  waiting := by
    rw [q.parts_push.2, q'.parts_push.2, h.head_eq, List.map_append, List.map_append]
    exact List.rel_append h.waiting (.cons (hR _) .nil)
  head_eq := rfl
  running_eq := h.running_eq
  flush_eq := h.flush_eq
  lastExitSpeed_eq := h.lastExitSpeed_eq

theorem reclaim (h : q.Twins R q') (hf : q.finished ≠ []) : q.reclaim.Twins R q'.reclaim where
  capacity_eq := h.capacity_eq
  finished_eq := congrArg List.tail h.finished_eq
  started_eq := by rw [started_reclaim hf, started_reclaim (h.finished_eq ▸ hf), h.started_eq]
  waiting := h.waiting
  head_eq := h.head_eq
  running_eq := h.running_eq
  flush_eq := h.flush_eq
  lastExitSpeed_eq := by rw [Fifo.reclaim, Fifo.reclaim, h.finished_eq]

end Twins

/-! ### Revising what waits -/

/-- Other segments in place of those that wait. -/
def revised (q : Fifo) (ss : List Segment) : Fifo := (q.lockWindow.revise ss).unlock

theorem parts_revised {q : Fifo} {ss : List Segment} (hfree : ∀ e ∈ q.entries, e.state ≠ .locked)
    (hready : ∀ e ∈ q.waiting, e.state = .ready) (hlen : ss.length = q.waiting.length) :
    (q.revised ss).finished = q.finished ∧ (q.revised ss).started = q.started ∧
      (q.revised ss).waiting.map Slot.segment = ss := by
  have hunlock : ∀ es : List Slot, (∀ e ∈ es, e.state ≠ .locked) → es.map Slot.unlock = es :=
    fun es hes => (List.map_congr_left fun e he => if_neg (hes e he)).trans (List.map_id es)
  have hstarted : ∀ e ∈ q.started, e.state ≠ .locked := fun e he =>
    hfree e (by rw [q.entries_eq]; exact List.mem_append_left _ he)
  have hfinished : ∀ e ∈ q.finished, e.state ≠ .locked := fun e he =>
    hfree e (List.mem_append_left _ he)
  have hlocked : ∀ e ∈ q.waiting.map Slot.lock, e.state = .locked := by
    intro e he
    obtain ⟨a, ha, rfl⟩ := List.mem_map.mp he
    rw [Slot.lock_of_ready (hready a ha)]
  have hlen' : ss.length = (q.waiting.map Slot.lock).length := by rw [hlen, List.length_map]
  -- the window is locked, refilled and unlocked
  obtain ⟨hstarted₁, hwaiting₁⟩ := q.parts_lockWindow
  obtain ⟨hstarted₂, hwaiting₂⟩ := parts_revise (hstarted₁ ▸ hstarted) ss
  obtain ⟨hstarted₃, hwaiting₃⟩ := (q.lockWindow.revise ss).parts_unlock
  obtain ⟨hsegments, -⟩ := Slot.refill_of_locked hlocked hlen'
  refine ⟨?_, ?_, ?_⟩
  · have hcount : q.finished.countP Slot.isLocked = 0 :=
      List.countP_eq_zero.mpr fun e he hl => hfinished e he (of_decide_eq_true hl)
    change (Slot.refill ss q.finished).map Slot.unlock = q.finished
    rw [Slot.refill_of_not_locked ss hcount, hunlock _ hfinished]
  · rw [revised, hstarted₃, hstarted₂, hstarted₁, hunlock _ hstarted]
  · rw [revised, hwaiting₃, hwaiting₂, hwaiting₁, List.map_map,
      show Slot.segment ∘ Slot.unlock = Slot.segment from funext Slot.segment_unlock, hsegments]

end Fifo

/-! ## Rings -/

namespace Ring

theorem Holds.ext {r r' : Ring n} {q : Fifo} (h : r.Holds [] q) (h' : r'.Holds [] q)
    (htail : r'.tail = r.tail) : r' = r := by
  have hlen : r'.len = r.len := h'.len_eq.trans h.len_eq.symm
  have hplace (k : Nat) : r'.place k = r.place k := by rw [place, place, htail, hlen]
  have horder : r'.order = r.order := by
    rw [order, order, hlen]
    exact List.map_congr_left fun k _ => hplace k
  have hlayout := h'.layout_eq.trans h.layout_eq.symm
  rw [layout, layout, horder, List.map_inj_left] at hlayout
  have hslot (i : Nat) : r'.slot i = r.slot i := by
    by_cases hi : i < r.len
    · exact hlayout i ((mem_order h.tail_lt).mpr hi)
    · have hi := Nat.le_of_not_lt hi
      rw [h.spare i hi, h'.spare i (hlen ▸ hi)]
  have hslots : r'.slots = r.slots := by
    refine Vector.ext fun i hi => ?_
    have hi' := hslot i
    rwa [slot, slot, Vector.getElem?_eq_getElem hi, Vector.getElem?_eq_getElem hi] at hi'
  have hfront : r'.front = r.front := by rw [h'.front_eq, h.front_eq, hplace]
  have hhead : r'.head = r.head := by rw [h'.head_eq, h.head_eq, hplace]
  have hrunning : r'.running = r.running := h'.running_eq.trans h.running_eq.symm
  have hflush : r'.flush = r.flush := h'.flush_eq.trans h.flush_eq.symm
  have hlast : r'.lastExitSpeed = r.lastExitSpeed :=
    h'.lastExitSpeed_eq.trans h.lastExitSpeed_eq.symm
  obtain ⟨slots, len, head, front, tail, running, flush, last, _, _⟩ := r
  obtain ⟨slots', len', head', front', tail', running', flush', last', _, _⟩ := r'
  cases hslots
  cases hlen
  cases hfront
  cases hhead
  cases hrunning
  cases hflush
  cases hlast
  cases htail
  rfl

/-- Other segments in place of those that wait. -/
def revised (r : Ring n) (ss : List Segment) : Ring n :=
  (r.lockWindow.2.setSegments r.lockWindow.1.slots ss).unlock r.lockWindow.1.slots

/-- Revising what waits changes slots and nothing else. -/
theorem revised_eq (r : Ring n) (ss : List Segment) :
    ∃ slots, r.revised ss = { r with slots := slots } := by
  obtain ⟨slots₁, h₁⟩ := r.lockWindow_eq
  obtain ⟨slots₂, h₂⟩ := r.lockWindow.2.setSegments_eq r.lockWindow.1.slots ss
  obtain ⟨slots₃, h₃⟩ :=
    (r.lockWindow.2.setSegments r.lockWindow.1.slots ss).unlock_eq r.lockWindow.1.slots
  exact ⟨slots₃, by rw [revised, h₃, h₂, h₁]⟩

theorem tail_revised (r : Ring n) (ss : List Segment) : (r.revised ss).tail = r.tail := by
  obtain ⟨slots, h⟩ := r.revised_eq ss
  rw [h]

theorem Holds.revised {r : Ring n} {q : Fifo} (h : r.Holds [] q) (ss : List Segment) :
    (r.revised ss).Holds [] (q.revised ss) :=
  (h.lockWindow.setSegments ss).unlock

/-- A window consists of the segments that wait. -/
theorem Holds.segments_lockWindow {r : Ring n} {q : Fifo} (h : r.Holds [] q) :
    r.lockWindow.2.segments r.lockWindow.1.slots = q.waiting.map Slot.segment := by
  obtain ⟨hstarted, hwaiting⟩ := q.parts_lockWindow
  have hlocked : ∀ e ∈ q.lockWindow.waiting, e.state = .locked := by
    intro e he
    rw [hwaiting] at he
    obtain ⟨a, ha, rfl⟩ := List.mem_map.mp he
    rw [Slot.lock_of_ready (h.ready_of_waiting a ha)]
  have hfree : ∀ e ∈ q.lockWindow.started, e.state ≠ .locked := by
    intro e he
    rw [hstarted] at he
    exact h.not_locked e (by rw [Fifo.entries_eq]; exact List.mem_append_left _ he)
  rw [h.lockWindow.segments_eq_waiting hlocked hfree, hwaiting, List.map_map,
    show Slot.segment ∘ Slot.lock = Slot.segment from funext Slot.segment_lock]

/-- Nothing is held, and the rings are the same but for the segments that wait. -/
structure Twins (R : Segment → Segment → Prop) (r r' : Ring n) : Prop where
  /-- nothing is held in the first one -/
  left : r.Holds [] r.toFifo
  /-- nor in the second one -/
  right : r'.Holds [] r'.toFifo
  /-- they begin at the same slot -/
  tail_eq : r'.tail = r.tail
  /-- they stand for the same queue but for the segments that wait -/
  queue : r.toFifo.Twins R r'.toFifo

namespace Twins

variable {R S T : Segment → Segment → Prop} {r r' r'' : Ring n}

theorem of_holds {q q' : Fifo} (h : r.Holds [] q) (h' : r'.Holds [] q') (htail : r'.tail = r.tail)
    (hq : q.Twins R q') : r.Twins R r' := by
  obtain rfl : r.toFifo = q := h.toFifo_eq
  obtain rfl : r'.toFifo = q' := h'.toFifo_eq
  exact ⟨h, h', htail, hq⟩

theorem refl (hR : ∀ s, R s s) {q : Fifo} (h : r.Holds [] q) : r.Twins R r :=
  .of_holds h h rfl (.refl hR q)

theorem trans (hT : ∀ a b c, R a b → S b c → T a c) (h : r.Twins R r') (h' : r'.Twins S r'') :
    r.Twins T r'' :=
  ⟨h.left, h'.right, h'.tail_eq.trans h.tail_eq, h.queue.trans hT h'.queue⟩

theorem symm (hS : ∀ a b, R a b → S b a) (h : r.Twins R r') : r'.Twins S r :=
  ⟨h.right, h.left, h.tail_eq.symm, h.queue.symm hS⟩

/-- If nothing waits there is no difference. -/
theorem eq (h : r.Twins R r') (hw : r.toFifo.waiting = []) : r' = r := by
  have hright := h.right
  rw [h.queue.eq hw] at hright
  exact h.left.ext hright h.tail_eq

/-! ### What they are asked -/

theorem len_eq (h : r.Twins R r') : r'.len = r.len := by
  rw [h.right.len_eq, h.left.len_eq, h.queue.capacity_eq]

theorem isFull_eq (h : r.Twins R r') : r'.isFull = r.isFull := by
  rw [Bool.eq_iff_iff, h.right.isFull_iff, h.left.isFull_iff, h.queue.finished_eq,
    h.queue.length_pending, h.queue.capacity_eq]

theorem isEmpty_eq (h : r.Twins R r') : r'.isEmpty = r.isEmpty := by
  rw [Bool.eq_iff_iff, h.right.isEmpty_iff, h.left.isEmpty_iff, h.queue.finished_eq,
    ← List.length_eq_zero_iff (l := r'.toFifo.pending), h.queue.length_pending,
    List.length_eq_zero_iff]

theorem hasPending_eq (h : r.Twins R r') : r'.hasPending = r.hasPending := by
  rw [hasPending, hasPending, h.right.pending_eq, h.left.pending_eq, h.queue.length_pending]

theorem hasFinished_eq (h : r.Twins R r') : r'.hasFinished = r.hasFinished := by
  rw [Bool.eq_iff_iff, h.right.hasFinished_iff, h.left.hasFinished_iff, h.queue.finished_eq]

theorem running_eq (h : r.Twins R r') : r'.running = r.running := h.queue.running_eq

theorem headSegment_eq (h : r.Twins R r') : r'.headSegment = r.headSegment := h.queue.head_eq

/-! ### What is done to them -/

theorem setRunning (h : r.Twins R r') (b : Bool) : (r.setRunning b).Twins R (r'.setRunning b) :=
  .of_holds (h.left.setRunning b) (h.right.setRunning b) h.tail_eq
    { h.queue with running_eq := rfl }

theorem setHead (h : r.Twins R r') (s : Segment) : (r.setHead s).Twins R (r'.setHead s) :=
  .of_holds (h.left.setHead s) (h.right.setHead s) h.tail_eq { h.queue with head_eq := rfl }

theorem publish (hR : ∀ s, R s s) (h : r.Twins R r') (hroom : r.isFull = false) :
    ∃ r₁ r₁', r.publish = .ok r₁ ∧ r'.publish = .ok r₁' ∧ r₁.Twins R r₁' := by
  have htail {r r₁ : Ring n} (hr : r.publish = .ok r₁) : r₁.tail = r.tail := by
    unfold Ring.publish at hr
    split at hr
    · cases hr
    · cases hr
      rfl
  obtain ⟨r₁, hr₁, h₁⟩ := h.left.publish_of_not_full hroom
  obtain ⟨r₁', hr₁', h₁'⟩ := h.right.publish_of_not_full (h.isFull_eq.trans hroom)
  refine ⟨r₁, r₁', hr₁, hr₁', .of_holds h₁ h₁' ?_ (h.queue.push hR)⟩
  rw [htail hr₁, htail hr₁', h.tail_eq]

theorem reclaim (h : r.Twins R r') (hfinished : r.hasFinished = true) :
    ∃ r₁ r₁', r.reclaim = .ok r₁ ∧ r'.reclaim = .ok r₁' ∧ r₁.Twins R r₁' := by
  have htail {r r₁ : Ring n} (hr : r.reclaim = .ok r₁) : r₁.tail = r.next r.tail := by
    unfold Ring.reclaim at hr
    split at hr
    · cases hr
    split at hr
    · cases hr
    · cases hr
      rfl
  obtain ⟨-, e, rest, r₁, hf, hr₁, h₁⟩ := h.left.reclaim_of_finished hfinished
  obtain ⟨-, -, -, r₁', -, hr₁', h₁'⟩ :=
    h.right.reclaim_of_finished (h.hasFinished_eq.trans hfinished)
  refine ⟨r₁, r₁', hr₁, hr₁', .of_holds h₁ h₁' ?_ (h.queue.reclaim (by rw [hf]; simp))⟩
  rw [htail hr₁, htail hr₁', next, next, h.tail_eq, h.len_eq]

theorem boundary_eq (h : r.Twins R r') : r'.lockWindow.1.boundary = r.lockWindow.1.boundary := by
  by_cases hw : r.toFifo.waiting = []
  · rw [h.eq hw]
  · have hw' : r'.toFifo.waiting ≠ [] := by
      rwa [ne_eq, ← List.length_eq_zero_iff, h.queue.length_waiting, List.length_eq_zero_iff]
    rw [h.right.boundary_lockWindow hw', h.left.boundary_lockWindow hw, h.queue.boundary_eq]

theorem revised (h : r.Twins R r') {ss ss' : List Segment} (hss : List.Forall₂ S ss ss')
    (hlen : ss.length = r.toFifo.waiting.length) : (r.revised ss).Twins S (r'.revised ss') := by
  obtain ⟨hfinished, hstarted, hwaiting⟩ :=
    Fifo.parts_revised h.left.not_locked h.left.ready_of_waiting hlen
  obtain ⟨hfinished', hstarted', hwaiting'⟩ :=
    Fifo.parts_revised h.right.not_locked h.right.ready_of_waiting
      (hss.length_eq.symm.trans (hlen.trans h.queue.length_waiting.symm))
  refine .of_holds (h.left.revised ss) (h.right.revised ss') ?_ ?_
  · rw [tail_revised, tail_revised, h.tail_eq]
  · exact {
      h.queue with
      finished_eq := by rw [hfinished, hfinished', h.queue.finished_eq]
      started_eq := by rw [hstarted, hstarted', h.queue.started_eq]
      waiting := by rwa [hwaiting, hwaiting'] }

theorem of_revised {q : Fifo} (h : r.Holds [] q) {ss : List Segment}
    (hss : List.Forall₂ R (q.waiting.map Slot.segment) ss) : r.Twins R (r.revised ss) := by
  have hlen : ss.length = q.waiting.length := by rw [← hss.length_eq, List.length_map]
  obtain ⟨hfinished, hstarted, hwaiting⟩ := Fifo.parts_revised h.not_locked h.ready_of_waiting hlen
  exact .of_holds h (h.revised ss) (tail_revised r ss)
    ⟨rfl, hfinished, hstarted, hwaiting.symm ▸ hss, rfl, rfl, rfl, rfl⟩

end Twins

end Ring

end MotionControl
