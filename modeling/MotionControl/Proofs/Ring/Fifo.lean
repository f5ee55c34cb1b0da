import MotionControl.Proofs.Ring.Layout

/-!
# The queue a ring stands for

A `Fifo` is what a user of the ring has in mind: a list of finished segments, a list of pending
ones, and the segment being prepared. Every operation of the ring has a counterpart here that
speaks of the two lists alone, without cursors and without wrapping.

`Ring.Holds` relates the two: the ring, read from its tail, consists of the finished segments, the
pending ones, the prepared one and cleared slots, in this order. It also names the slots that are
held for revision: these and no others are locked. Each lemma `Ring.Holds.op` says that an
operation of the ring does to the queue what the operation of the queue does.
-/

namespace MotionControl

namespace Slot

/-- Lock a slot, unless it is not ready. -/
def lock (e : Slot) : Slot := if e.state = .ready then { e with state := .locked } else e

/-- Give the lock of a slot back, if it has one. -/
def unlock (e : Slot) : Slot := if e.state = .locked then { e with state := .ready } else e

/-- Whether a slot is held for revision. -/
def isLocked (e : Slot) : Bool := e.state = .locked

theorem lock_of_ready {e : Slot} (h : e.state = .ready) : e.lock = { e with state := .locked } :=
  if_pos h

theorem lock_of_not_ready {e : Slot} (h : ¬ e.state = .ready) : e.lock = e := if_neg h

@[simp] theorem segment_lock (e : Slot) : e.lock.segment = e.segment := by
  unfold lock
  split <;> rfl

theorem state_lock_ne {e : Slot} {s : SlotState} (hs : s ≠ .locked) (h : e.state ≠ s) :
    e.lock.state ≠ s := by
  unfold lock
  split
  · exact hs.symm
  · exact h

@[simp] theorem segment_unlock (e : Slot) : e.unlock.segment = e.segment := by
  unfold unlock
  split <;> rfl

theorem map_state_unlock (es : List Slot) : (es.map unlock).map Slot.state =
    es.map fun e => if e.state = .locked then .ready else e.state := by
  rw [List.map_map]
  apply List.map_congr_left
  intro e _
  simp only [Function.comp, unlock]
  split <;> rfl

/-- Put segments into the locked slots of a list, as far as there are segments. -/
def refill : List Segment → List Slot → List Slot
  | _, [] => []
  | [], e :: es => e :: es
  | s :: ss, e :: es =>
    if e.isLocked then { e with segment := s } :: refill ss es else e :: refill (s :: ss) es

@[simp] theorem length_refill (ss : List Segment) (es : List Slot) :
    (refill ss es).length = es.length := by
  induction es generalizing ss with
  | nil => cases ss <;> rfl
  | cons e es ih =>
    cases ss with
    | nil => rfl
    | cons s ss =>
      rw [refill]
      split <;> simp [ih]

@[simp] theorem refill_nil_left (es : List Slot) : refill [] es = es := by
  cases es <;> rfl

theorem map_state_refill (ss : List Segment) (es : List Slot) :
    (refill ss es).map Slot.state = es.map Slot.state := by
  induction es generalizing ss with
  | nil => cases ss <;> rfl
  | cons e es ih =>
    cases ss with
    | nil => rfl
    | cons s ss =>
      rw [refill]
      split <;> simp [ih]

/-- Slots are refilled in order: what the first ones take is missing for those behind. -/
theorem refill_append (ss : List Segment) (es es' : List Slot) :
    refill ss (es ++ es') = refill ss es ++ refill (ss.drop (es.countP isLocked)) es' := by
  induction es generalizing ss with
  | nil => cases ss <;> simp [refill]
  | cons e es ih =>
    cases ss with
    | nil => simp
    | cons s ss =>
      rw [List.cons_append, refill, refill]
      split
      · next h => rw [ih ss]; simp [h]
      · next h => rw [ih (s :: ss)]; simp [h]

theorem refill_of_not_locked (ss : List Segment) {es : List Slot} (h : es.countP isLocked = 0) :
    refill ss es = es := by
  induction es with
  | nil => cases ss <;> rfl
  | cons e es ih =>
    cases ss with
    | nil => rfl
    | cons s ss =>
      rw [List.countP_eq_zero] at h
      rw [refill, if_neg (h e List.mem_cons_self), ih]
      rw [List.countP_eq_zero]
      exact fun a ha => h a (List.mem_cons_of_mem _ ha)

/-- Refilling a list leaves every slot its state, and a slot that is not locked as it is. -/
theorem refill_cons (ss : List Segment) (e : Slot) (es : List Slot) :
    ∃ e' es', refill ss (e :: es) = e' :: es' ∧ e'.state = e.state ∧
      (e.state ≠ .locked → e' = e) := by
  cases ss with
  | nil => exact ⟨e, es, rfl, rfl, fun _ => rfl⟩
  | cons s ss =>
    rw [refill]
    split
    · next hl => exact ⟨_, _, rfl, rfl, fun hne => absurd (of_decide_eq_true hl) hne⟩
    · exact ⟨e, _, rfl, rfl, fun _ => rfl⟩

theorem segment_mem_refill {ss : List Segment} {es : List Slot} {e : Slot}
    (he : e ∈ refill ss es) : e.segment ∈ ss ∨ e ∈ es := by
  induction es generalizing ss with
  | nil => cases ss <;> cases he
  | cons a es ih =>
    cases ss with
    | nil => exact .inr he
    | cons s ss =>
      rw [refill] at he
      split at he <;> rcases List.mem_cons.mp he with rfl | he
      · exact .inl List.mem_cons_self
      · exact (ih he).imp (List.mem_cons_of_mem _) (List.mem_cons_of_mem _)
      · exact .inr List.mem_cons_self
      · exact (ih he).imp_right (List.mem_cons_of_mem _)

end Slot

/-- A queue of segments on their way. -/
structure Fifo where
  /-- how many segments it takes -/
  capacity : Nat
  /-- the segments that are over, oldest first -/
  finished : List Slot
  /-- the segments that are not, oldest first -/
  pending : List Slot
  /-- the segment being prepared -/
  head : Segment
  /-- the interrupt is asked to consume segments -/
  running : Bool
  /-- finishing a segment takes all that wait behind it along -/
  flush : Bool
  /-- exit speed of the segment dropped last -/
  lastExitSpeed : Float32

namespace Fifo

/-- The published segments, oldest first. -/
def entries (q : Fifo) : List Slot := q.finished ++ q.pending

/-- The segments that are not over, oldest first. -/
def queued (q : Fifo) : List Segment := q.pending.map Slot.segment

/-- What a ring that stands for the queue looks like from its tail on. -/
def cells (q : Fifo) : List Slot :=
  q.finished ++ (q.pending ++
    ⟨q.head, .free⟩ :: List.replicate (q.capacity - q.entries.length) .cleared)

theorem cells_set_head (q : Fifo) (e : Slot) :
    q.cells.set (q.finished.length + q.pending.length) e =
      q.finished ++ (q.pending ++
        e :: List.replicate (q.capacity - q.entries.length) .cleared) := by
  rw [cells, List.set_append_right _ _ (by omega), Nat.add_sub_cancel_left,
    List.set_append_right _ _ (Nat.le_refl _), Nat.sub_self, List.set_cons_zero]

theorem cells_set_front {q : Fifo} {e : Slot} {rest : List Slot} (hp : q.pending = e :: rest)
    (e' : Slot) : q.cells.set q.finished.length e' =
      q.finished ++ (e' :: rest ++
        ⟨q.head, .free⟩ :: List.replicate (q.capacity - q.entries.length) .cleared) := by
  rw [cells, List.set_append_right _ _ (Nat.le_refl _), Nat.sub_self, hp, List.cons_append,
    List.set_cons_zero, List.cons_append]

/-- Whether the first pending segment has begun. -/
def begun (q : Fifo) : Bool := q.pending.head?.any fun e => e.state = .executing

/-- The pending segments that have not begun, oldest first. -/
def waiting (q : Fifo) : List Slot := if q.begun then q.pending.tail else q.pending

theorem length_waiting (q : Fifo) :
    q.waiting.length + (if q.begun then 1 else 0) = q.pending.length := by
  unfold waiting begun
  cases q.pending with
  | nil => rfl
  | cons e rest =>
    by_cases h : e.state = .executing <;> simp [h]

theorem begun_of_states {q q' : Fifo} {f : SlotState → SlotState}
    (hp : q'.pending.map Slot.state = q.pending.map fun e => f e.state)
    (hf : ∀ s, f s = .executing ↔ s = .executing) : q'.begun = q.begun := by
  unfold begun
  cases hq : q.pending with
  | nil =>
    rw [hq, List.map_nil, List.map_eq_nil_iff] at hp
    rw [hp]
  | cons e rest =>
    rw [hq, List.map_cons, List.map_eq_cons_iff] at hp
    obtain ⟨e', rest', hq', he, -⟩ := hp
    rw [hq', List.head?_cons, List.head?_cons, Option.any_some, Option.any_some, he,
      decide_eq_decide]
    exact hf e.state

theorem pending_of_begun {q : Fifo} (h : q.begun = true) :
    ∃ s rest, q.pending = ⟨s, .executing⟩ :: rest := by
  unfold begun at h
  cases hp : q.pending with
  | nil =>
    rw [hp] at h
    cases h
  | cons e rest =>
    rw [hp, List.head?_cons, Option.any_some, decide_eq_true_iff] at h
    exact ⟨e.segment, rest, by rw [← h]⟩

/-- What every queue that a ring stands for has in common. -/
structure Valid (q : Fifo) : Prop where
  /-- there are no more segments than the queue takes -/
  fits : q.entries.length ≤ q.capacity
  /-- a published segment is not in a free slot -/
  used : ∀ e ∈ q.entries, e.state ≠ .free
  /-- only the first pending segment may have begun -/
  begun_first : ∀ e ∈ q.pending.tail, e.state ≠ .executing

/-- A queue without segments. -/
def ofCapacity (capacity : Nat) : Fifo where
  capacity := capacity
  finished := []
  pending := []
  head := .empty
  running := false
  flush := false
  lastExitSpeed := 0

/-! ## Operations -/

/-- Replace the segment being prepared. -/
def setHead (q : Fifo) (s : Segment) : Fifo := { q with head := s }

/-- The queue with the prepared segment behind all others. -/
def push (q : Fifo) : Fifo :=
  { q with pending := q.pending ++ [⟨q.head, .ready⟩], head := .empty }

/-- Publish the prepared segment, if the queue takes one more. -/
def publish (q : Fifo) : Except RingError Fifo :=
  if q.finished.length + q.pending.length < q.capacity then .ok q.push else .error .full

/-- Ask the interrupt to consume segments, or not to. -/
def setRunning (q : Fifo) (running : Bool) : Fifo := { q with running := running }

/-- Let the next finished segment take all that wait behind it along, or not. -/
def setFlush (q : Fifo) (flush : Bool) : Fifo := { q with flush := flush }

/-- Begin the first pending segment, unless it has begun or is being revised. -/
def begin? (q : Fifo) : Option (Segment × Fifo) :=
  match q.pending with
  | e :: rest =>
    if e.state = .locked ∨ e.state = .executing then none
    else some (e.segment, { q with pending := ⟨e.segment, .executing⟩ :: rest })
  | [] => none

/-- What is left of the pending segments when the first of them is over. -/
def afterFinish (q : Fifo) : List Slot := if q.flush then [] else q.pending.tail

/-- What is over when the first pending segment is. -/
def overAtFinish (q : Fifo) : List Slot := if q.flush then q.pending else q.pending.take 1

/-- Finish the first pending segment and answer whether more are pending. -/
def finish (q : Fifo) : Bool × Fifo :=
  (!q.afterFinish.isEmpty, { q with
    finished := q.finished ++ q.overAtFinish
    pending := q.afterFinish
    running := q.running && !q.afterFinish.isEmpty })

/-- Give every pending segment up. -/
def abort (q : Fifo) : Fifo :=
  { q with finished := q.finished ++ q.pending, pending := [], running := false }

/-- The oldest finished segment. -/
def finished? (q : Fifo) : Option Segment := q.finished.head?.map Slot.segment

/-- Drop the oldest finished segment. -/
def reclaim (q : Fifo) : Fifo :=
  { q with finished := q.finished.tail
           lastExitSpeed := (q.finished.head?.map fun e => e.segment.exitSpeed).getD 0 }

/-- Lock the newest pending segment, unless it has begun. -/
def lockNewest (q : Fifo) : Option Fifo :=
  match q.pending.getLast? with
  | some ⟨s, .ready⟩ => some { q with pending := q.pending.dropLast ++ [⟨s, .locked⟩] }
  | _ => none

/-- Lock every pending segment that has not begun. -/
def lockWindow (q : Fifo) : Fifo := { q with pending := q.pending.map Slot.lock }

/-- The segments held for revision, oldest first. -/
def held (q : Fifo) : List Segment := (q.entries.filter Slot.isLocked).map Slot.segment

/-- Revise the segments held for revision. -/
def revise (q : Fifo) (ss : List Segment) : Fifo :=
  { q with
    finished := Slot.refill ss q.finished
    pending := Slot.refill (ss.drop (q.finished.countP Slot.isLocked)) q.pending }

/-- Give all locks back. -/
def unlock (q : Fifo) : Fifo :=
  { q with finished := q.finished.map Slot.unlock, pending := q.pending.map Slot.unlock }

/-- Use another capacity, for an empty queue. -/
def resize (q : Fifo) (capacity : Nat) : Fifo :=
  { q with capacity := capacity, finished := [], pending := [], head := .empty }

/-! ## Every operation leads to a queue that a ring can stand for -/

theorem Valid.ofCapacity (capacity : Nat) : (ofCapacity capacity).Valid :=
  ⟨Nat.zero_le _, fun _ he => absurd he List.not_mem_nil, fun _ he => absurd he List.not_mem_nil⟩

theorem Valid.ready_of_begin {q : Fifo} (h : q.Valid) {e : Slot} {rest : List Slot}
    (hp : q.pending = e :: rest) (he : ¬ (e.state = .locked ∨ e.state = .executing)) :
    e.state = .ready := by
  have hfree := h.used e (List.mem_append_right _ (by rw [hp]; exact List.mem_cons_self))
  cases hs : e.state with
  | free => exact absurd hs hfree
  | ready => rfl
  | locked => exact absurd (Or.inl hs) he
  | executing => exact absurd (Or.inr hs) he

theorem Valid.push {q : Fifo} (h : q.Valid)
    (hroom : q.finished.length + q.pending.length < q.capacity) : q.push.Valid := by
  obtain ⟨-, hused, hfirst⟩ := h
  refine ⟨?_, ?_, ?_⟩
  · simp only [entries, Fifo.push, List.length_append, List.length_singleton]
    omega
  · intro e he
    simp only [entries, Fifo.push, ← List.append_assoc] at he
    rcases List.mem_append.mp he with he | he
    · exact hused e he
    · simp [List.mem_singleton.mp he]
  · intro e he
    cases hp : q.pending with
    | nil => simp [Fifo.push, hp] at he
    | cons a rest =>
      rw [hp] at hfirst
      simp only [Fifo.push, hp, List.cons_append, List.tail_cons] at he
      rcases List.mem_append.mp he with he | he
      · exact hfirst e he
      · simp [List.mem_singleton.mp he]

/-- The first pending slot may get any state but `free`. -/
theorem Valid.setFirst {q : Fifo} (h : q.Valid) {a b : Slot} {rest : List Slot}
    (hp : q.pending = a :: rest) (hb : b.state ≠ .free) :
    { q with pending := b :: rest }.Valid := by
  obtain ⟨hfits, hused, hfirst⟩ := h
  rw [hp] at hfirst
  refine ⟨?_, ?_, hfirst⟩
  · simp only [entries, hp, List.length_append, List.length_cons] at hfits ⊢
    exact hfits
  · intro e he
    rcases List.mem_append.mp he with he | he
    · exact hused e (List.mem_append_left _ he)
    · rcases List.mem_cons.mp he with rfl | he
      · exact hb
      · exact hused e (List.mem_append_right _ (by rw [hp]; exact List.mem_cons_of_mem _ he))

/-- Moving pending segments to the finished ones, from the front on. -/
theorem Valid.move {q : Fifo} (h : q.Valid) {passed rest : List Slot}
    (hp : q.pending = passed ++ rest) (running : Bool) :
    { q with finished := q.finished ++ passed, pending := rest, running := running }.Valid := by
  obtain ⟨hfits, hused, hfirst⟩ := h
  have hentries : q.finished ++ passed ++ rest = q.entries := by
    rw [entries, hp, List.append_assoc]
  refine ⟨?_, ?_, ?_⟩
  · simp only [entries] at hentries ⊢
    rw [hentries]
    exact hfits
  · intro e he
    exact hused e (by rw [← hentries]; exact he)
  -- a segment that comes to the front has been behind it, where none has begun
  · intro e he
    rw [hp] at hfirst
    cases passed with
    | nil => exact hfirst e he
    | cons a passed => exact hfirst e (List.mem_append_right _ (List.mem_of_mem_tail he))

theorem overAtFinish_append_afterFinish (q : Fifo) :
    q.pending = q.overAtFinish ++ q.afterFinish := by
  unfold overAtFinish afterFinish
  split
  · rw [List.append_nil]
  · cases q.pending <;> rfl

theorem Valid.begun_finish {q : Fifo} (h : q.Valid) : q.finish.2.begun = false := by
  have hfirst := h.begun_first
  unfold begun Fifo.finish afterFinish
  dsimp only
  split
  · rfl
  · cases hp : q.pending.tail with
    | nil => rfl
    | cons e rest =>
      rw [hp] at hfirst
      simpa using hfirst e List.mem_cons_self

theorem Valid.reclaim {q : Fifo} (h : q.Valid) : q.reclaim.Valid := by
  obtain ⟨hfits, hused, hfirst⟩ := h
  refine ⟨?_, ?_, hfirst⟩
  · simp only [entries, Fifo.reclaim, List.length_append, List.length_tail] at hfits ⊢
    omega
  · intro e he
    rcases List.mem_append.mp he with he | he
    · exact hused e (List.mem_append_left _ (List.mem_of_mem_tail he))
    · exact hused e (List.mem_append_right _ he)

/-- Locking pending segments, from some number on. -/
theorem Valid.lockLast {q : Fifo} (h : q.Valid) {before during : List Slot}
    (hp : q.pending = before ++ during) :
    { q with pending := before ++ during.map Slot.lock }.Valid := by
  obtain ⟨hfits, hused, hfirst⟩ := h
  refine ⟨?_, ?_, ?_⟩
  · simp only [entries, hp, List.length_append, List.length_map] at hfits ⊢
    exact hfits
  · intro e he
    rcases List.mem_append.mp he with he | he
    · exact hused e (List.mem_append_left _ he)
    rcases List.mem_append.mp he with he | he
    · exact hused e (List.mem_append_right _ (by rw [hp]; exact List.mem_append_left _ he))
    · obtain ⟨a, ha, rfl⟩ := List.mem_map.mp he
      refine Slot.state_lock_ne (by simp) (hused a (List.mem_append_right _ ?_))
      rw [hp]
      exact List.mem_append_right _ ha
  · have hmap : ∀ es : List Slot, (∀ e ∈ es, e.state ≠ .executing) →
        ∀ e ∈ es.map Slot.lock, e.state ≠ .executing := by
      intro es hes e he
      obtain ⟨a, ha, rfl⟩ := List.mem_map.mp he
      exact Slot.state_lock_ne (by simp) (hes a ha)
    rw [hp] at hfirst
    intro e he
    cases before with
    | nil =>
      simp only [List.nil_append, ← List.map_tail] at he hfirst
      exact hmap _ hfirst e he
    | cons b before =>
      simp only [List.cons_append, List.tail_cons] at he hfirst
      rcases List.mem_append.mp he with he | he
      · exact hfirst e (List.mem_append_left _ he)
      · exact hmap _ (fun a ha => hfirst a (List.mem_append_right _ ha)) e he

/-- Changing states one by one, without freeing a slot and without beginning a segment. -/
theorem Valid.mapStates {q : Fifo} (h : q.Valid) {finished pending : List Slot}
    {f : SlotState → SlotState} (hfree : ∀ s, s ≠ .free → f s ≠ .free)
    (hexec : ∀ s, s ≠ .executing → f s ≠ .executing)
    (hf : finished.map Slot.state = q.finished.map fun e => f e.state)
    (hp : pending.map Slot.state = q.pending.map fun e => f e.state) :
    { q with finished := finished, pending := pending }.Valid := by
  obtain ⟨hfits, hused, hfirst⟩ := h
  -- every new state comes from an old one of the same list
  have hmem : ∀ {es es' : List Slot}, es'.map Slot.state = es.map (fun e => f e.state) →
      ∀ e ∈ es', ∃ a ∈ es, f a.state = e.state := by
    intro es es' hes e he
    have : e.state ∈ es.map fun e => f e.state := by
      rw [← hes]
      exact List.mem_map_of_mem he
    simpa using this
  refine ⟨?_, ?_, ?_⟩
  · have hlf := congrArg List.length hf
    have hlp := congrArg List.length hp
    simp only [List.length_map] at hlf hlp
    simp only [entries, List.length_append, hlf, hlp] at hfits ⊢
    exact hfits
  · intro e he
    rcases List.mem_append.mp he with he | he
    · obtain ⟨a, ha, hae⟩ := hmem hf e he
      rw [← hae]
      exact hfree _ (hused a (List.mem_append_left _ ha))
    · obtain ⟨a, ha, hae⟩ := hmem hp e he
      rw [← hae]
      exact hfree _ (hused a (List.mem_append_right _ ha))
  · intro e he
    have ht : pending.tail.map Slot.state = q.pending.tail.map fun e => f e.state := by
      rw [List.map_tail, hp, List.map_tail]
    obtain ⟨a, ha, hae⟩ := hmem ht e he
    rw [← hae]
    exact hexec _ (hfirst a ha)

/-! ## What has begun

Publishing, locking, revising and unlocking neither begin a segment nor end one. -/

theorem begun_push (q : Fifo) : q.push.begun = q.begun := by
  unfold begun push
  cases q.pending with
  | nil => rfl
  | cons e rest => rfl

/-- The newest segment is locked or revised while it waits. -/
theorem begun_newest {q : Fifo} {before : List Slot} {s : Segment} {e : Slot}
    (hp : q.pending = before ++ [⟨s, .ready⟩]) (he : e.state ≠ .executing) :
    ({ q with pending := before ++ [e] } : Fifo).begun = q.begun := by
  rw [begun, begun, hp]
  cases before with
  | nil => exact decide_eq_false he
  | cons e before => rfl

theorem begun_lockWindow (q : Fifo) : q.lockWindow.begun = q.begun := by
  refine begun_of_states (f := fun s => if s = .ready then .locked else s) ?_ ?_
  · rw [lockWindow, List.map_map]
    apply List.map_congr_left
    intro e _
    simp only [Function.comp, Slot.lock]
    split <;> rfl
  · intro s
    cases s <;> simp

theorem begun_unlock (q : Fifo) : q.unlock.begun = q.begun := by
  refine begun_of_states (f := fun s => if s = .locked then .ready else s) ?_ ?_
  · exact Slot.map_state_unlock _
  · intro s
    cases s <;> simp

theorem begun_revise (q : Fifo) (ss : List Segment) : (q.revise ss).begun = q.begun := by
  refine begun_of_states (f := id) ?_ fun s => Iff.rfl
  exact Slot.map_state_refill _ _

end Fifo

end MotionControl
