import MotionControl.Plant
import MotionControl.Proofs.Ring.Annals

/-!
# Finishing any slot at any time

`Session.Disciplined` asks the interrupt to finish only what has begun and is not over. Here it may
try anything: finish a slot twice, finish one that never began, read or clear what it does not own.
What the ring does not refuse still leads to a ring that stands for a queue
(`Session.Keeps.attempt`), with one exception. Finishing compares its slot with the front and
nothing else, so when nothing is pending and no flush is asked for, finishing the front moves it
past the head (`Ring.Overruns`).

A `Tally` notes from outside which slots have been published and which have been cleared. As long
as nobody overruns the head, what has been published is what has been cleared, then what is
finished, then what is pending, each of them once and in this order (`Tally.Accounts`). So nothing
is handed out for clearing that has not been published. After an overrun it is, or, when the ring
was full, all that was finished is pending again (`Session.finish_of_permitted`).
-/

namespace MotionControl

variable {n : Nat}

namespace Ring

/-- The slots of the finished segments, from the tail on. These may be cleared. -/
def finishedSlots (r : Ring n) : List Nat :=
  (List.range (r.distance r.tail r.front)).map r.place

/-- Finishing slot `i` takes the front past the head. -/
def Overruns (r : Ring n) (i : Nat) : Prop :=
  i = r.front ∧ r.hasPending = false ∧ r.flush = false

instance (r : Ring n) (i : Nat) : Decidable (r.Overruns i) :=
  inferInstanceAs (Decidable (_ ∧ _))

theorem finish_of_ne_front {r : Ring n} {i : Nat} (hi : i ≠ r.front) :
    r.finish i = .error .invariantViolated :=
  if_neg hi

theorem eq_front_of_finish {r r' : Ring n} {i : Nat} {more : Bool}
    (h : r.finish i = .ok (more, r')) : i = r.front := by
  unfold finish at h
  split at h
  · assumption
  · cases h

/-- Beginning a segment moves no cursor. -/
theorem begin?_eq {r r' : Ring n} {i : Nat} (h : r.begin? = some (i, r')) :
    ∃ slots, r' = { r with slots := slots } := by
  unfold begin? at h
  split at h
  · cases h
  split at h
  · cases h
    exact ⟨_, rfl⟩
  · cases h

namespace Holds

variable {r : Ring n} {held : List Nat} {q : Fifo}

theorem finishedSlots_eq (h : r.Holds held q) :
    r.finishedSlots = (List.range q.finished.length).map r.place := by
  rw [finishedSlots, h.distance_tail_front]

theorem finishedSlots_append_pendingSlots (h : r.Holds held q) :
    r.finishedSlots ++ r.pendingSlots = r.usedSlots := by
  rw [h.finishedSlots_eq, h.pendingSlots_eq, h.usedSlots_eq, ← List.map_append, Fifo.entries,
    List.length_append, List.range_eq_range', List.range_eq_range', ← List.range'_append_1,
    Nat.zero_add]

theorem pending_of_not_hasPending (h : r.Holds held q) (hp : r.hasPending = false) :
    q.pending = [] := by
  rw [hasPending, decide_eq_false_iff_not, h.pending_eq] at hp
  exact List.eq_nil_of_length_eq_zero (by omega)

/-- Finishing the front is safe whenever it does not overrun the head. -/
theorem pending_of_not_overruns (h : r.Holds held q) (ho : ¬ r.Overruns r.front)
    (hflush : q.flush = false) : q.pending ≠ [] := by
  intro hp
  refine ho ⟨rfl, ?_, by rw [h.flush_eq, hflush]⟩
  rw [hasPending, h.pending_eq, hp]
  rfl

theorem finish_of_overruns (h : r.Holds held q) {i : Nat} (ho : r.Overruns i) :
    r.finish i = .ok (true, { r with front := r.next r.head }) := by
  obtain ⟨rfl, hpending, hflush⟩ := ho
  have hfront := h.front_eq_head_iff.mpr (h.pending_of_not_hasPending hpending)
  have h2 := r.two_le_len
  have hne : r.next r.head ≠ r.head := by
    unfold next
    split <;> omega
  rw [Ring.finish, if_pos rfl, hflush, hfront]
  exact if_neg hne

/-- Once the front has gone past the head, either a slot is handed out for clearing that has not
been published, or, in a full ring, all that was finished is pending again. -/
theorem overrun (h : r.Holds held q) (hp : r.hasPending = false) (slots : Vector Slot n) :
    (r.isFull = false →
      { r with front := r.next r.head, slots := slots }.ordered = false ∧
      { r with front := r.next r.head, slots := slots }.finishedSlots =
        r.finishedSlots ++ [r.head]) ∧
    (r.isFull = true →
      { r with front := r.next r.head, slots := slots }.finishedSlots = [] ∧
      { r with front := r.next r.head, slots := slots }.pendingSlots = r.finishedSlots) := by
  have ht := h.tail_lt
  have hnil := h.pending_of_not_hasPending hp
  have hlt := h.head_place_lt
  have hfits := h.fits
  have hlen := h.len_eq
  have hhead := h.head_eq
  have hplace : r.place q.finished.length = r.head := by
    rw [hhead, hnil]
    rfl
  have hnext := next_place ht h.front_place_lt
  rw [hplace] at hnext
  rw [hnil, List.length_nil, Nat.add_zero] at hlt hfits
  constructor
  · intro hfull
    have hroom : q.finished.length ≠ q.capacity := by
      intro hcapacity
      rw [← Bool.not_eq_true, h.isFull_iff, hnil] at hfull
      exact hfull hcapacity
    have htail : r.distance r.tail (r.next r.head) = q.finished.length + 1 := by
      rw [hnext, distance_tail_place ht (by omega)]
    have hfront : r.distance (r.next r.head) r.head = r.len - 1 := by
      rw [hnext, ← hplace, distance_place_wrap ht (by omega) (by omega)]
      omega
    constructor
    · change (r.distance r.tail (r.next r.head) + r.distance (r.next r.head) r.head ==
        r.distance r.tail r.head) = false
      rw [htail, hfront, h.distance_tail_head, hnil, List.length_nil, beq_eq_false_iff_ne]
      omega
    · change (List.range (r.distance r.tail (r.next r.head))).map r.place = _
      rw [htail, List.range_succ, List.map_append, h.finishedSlots_eq, List.map_singleton, hplace]
  · intro hfull
    have htail : r.next r.head = r.tail := by simpa [isFull] using hfull
    have hself : r.distance r.tail r.tail = 0 := by
      have := distance_tail_place ht (Nat.lt_of_lt_of_le (Nat.zero_lt_two) r.two_le_len)
      rwa [place_zero ht] at this
    constructor
    · change (List.range (r.distance r.tail (r.next r.head))).map r.place = []
      rw [htail, hself]
      rfl
    · change (List.range (r.distance (r.next r.head) r.head)).map
        (fun k => (r.next r.head + k) % r.len) = _
      rw [htail, h.distance_tail_head, hnil, List.length_nil, Nat.add_zero, h.finishedSlots_eq]
      refine List.map_congr_left fun k hk => ?_
      have hk := List.mem_range.mp hk
      unfold place
      split
      · exact Nat.mod_eq_of_lt ‹_›
      · rw [Nat.mod_eq_sub_mod (by omega), Nat.mod_eq_of_lt (by omega)]

end Holds

end Ring

/-! ## Anything may be tried -/

/-- What a caller of the ring may try, properly or not. -/
inductive Attempt where
  /-- a use of the ring -/
  | use (u : Use)
  /-- finish a slot and, if more segments are pending, begin the next one -/
  | release (i : Nat)

/-- The two ways of finishing a slot. -/
def Attempt.Finishes (a : Attempt) (i : Nat) : Prop := a = .use (.finish i) ∨ a = .release i

namespace Session

/-- Try something. -/
def attempt (s : Session n) : Attempt → Except Fault (Session n)
  | .use u => do
    let (_, s) ← s.step u
    return s
  | .release i => do
    let (answer, s) ← s.step (.finish i)
    match answer with
    | .more true => do
      let (_, s) ← s.step .begin
      return s
    | _ => return s

/-- Releasing a slot is what the interrupt does when a segment is over. -/
theorem ring_attempt_release (s : Session n) (i : Nat) :
    (s.attempt (.release i)).map Session.ring = (s.ring.release i).map Prod.snd := by
  rw [attempt, Session.step, Ring.release]
  cases s.ring.finish i with
  | error fault => rfl
  | ok result =>
    obtain ⟨more, r⟩ := result
    cases more with
    | false => rfl
    | true =>
      dsimp only [bind, Except.bind, pure, Except.pure, Session.step]
      rw [if_pos rfl]
      cases r.begin? <;> simp [Except.map]

/-- What may be tried: anything but overrunning the head, and but what the borrow of a revision
excludes while it lasts. -/
def Permits (s : Session n) : Attempt → Prop
  | .use .lockNewest | .use .lockWindow | .use (.resize _) => s.guard = none
  | .use (.finish i) | .release i => ¬ s.ring.Overruns i
  | .use _ => True

instance (s : Session n) (a : Attempt) : Decidable (s.Permits a) := by
  unfold Permits
  split <;> infer_instance

end Session

/-! ## What is noted -/

/-- Which slots have been published and which have been cleared, in the order in which that
happened. -/
structure Tally where
  /-- the slots that have been published -/
  published : List Nat
  /-- the slots that have been cleared -/
  cleared : List Nat

namespace Tally

/-- Nothing has happened. -/
def blank : Tally := ⟨[], []⟩

/-- Note an attempt that succeeds. -/
def note (l : Tally) (s : Session n) : Attempt → Tally
  | .use .publish =>
    if s.ring.isFull then l else { l with published := l.published ++ [s.ring.head] }
  | .use .reclaim => { l with cleared := l.cleared ++ [s.ring.tail] }
  | _ => l

/-- What has been published has been cleared, is finished or is pending, in this order. -/
def Accounts (l : Tally) (r : Ring n) : Prop :=
  l.published = l.cleared ++ (r.finishedSlots ++ r.pendingSlots)

end Tally

namespace Session

/-- Try one thing after another, and take notes. What is refused with a fault leaves the ring as it
is. -/
def attempts (s : Session n) (l : Tally) : List Attempt → Session n × Tally
  | [] => (s, l)
  | a :: as =>
    match s.attempt a with
    | .ok s' => s'.attempts (l.note s a) as
    | .error _ => s.attempts l as

/-- Every attempt of a sequence may be made when its turn comes. -/
def Permitted (s : Session n) : List Attempt → Prop
  | [] => True
  | a :: as => s.Permits a ∧
    match s.attempt a with
    | .ok s' => s'.Permitted as
    | .error _ => s.Permitted as

instance decidablePermitted : (s : Session n) → (as : List Attempt) → Decidable (s.Permitted as)
  | _, [] => .isTrue trivial
  | s, a :: as =>
    let _ : Decidable (match s.attempt a with
        | .ok s' => s'.Permitted as
        | .error _ => s.Permitted as) :=
      match s.attempt a with
      | .ok s' => decidablePermitted s' as
      | .error _ => decidablePermitted s as
    inferInstanceAs (Decidable (_ ∧ _))

/-! ## One attempt -/

section

variable {s s' : Session n} {q : Fifo} {u : Use} {answer : Answer} {l : Tally}

/-- Proper or not, a use that succeeds does to the ring what it does to the queue. -/
theorem Keeps.of_ok (h : s.Keeps q) (hu : s.Permits (.use u)) (hs : s.step u = .ok (answer, s')) :
    s'.Keeps (q.step n u).2 := by
  by_cases hallowed : s.Allows u
  · obtain ⟨s₁, hs₁, h₁⟩ := h.step hallowed
    rw [hs₁] at hs
    cases hs
    exact h₁
  cases u with
  | revise k f =>
    rw [Session.step] at hs
    split at hs
    · next hk => exact absurd (List.getElem?_eq_some_iff.mp hk).1 hallowed
    · cases hs
  | read i =>
    rw [Session.step] at hs
    obtain ⟨segment, -, hs⟩ := Fault.bind_eq_ok.mp hs
    cases hs
    exact h
  | finish i =>
    rw [Session.step] at hs
    obtain ⟨⟨more, r⟩, hr, -⟩ := Fault.bind_eq_ok.mp hs
    obtain rfl := Ring.eq_front_of_finish hr
    obtain ⟨s₁, hs₁, h₁⟩ := h.finish_front (h.holds.pending_of_not_overruns hu)
    rw [Session.step] at hs₁
    rw [hs₁] at hs
    cases hs
    exact h₁
  | reclaim =>
    -- clearing is refused both without a finished segment and for a locked slot
    rw [Session.step] at hs
    obtain ⟨r, hr, -⟩ := Fault.bind_eq_ok.mp hs
    have hmem := h.holds.mem_held ((Ring.mem_order h.holds.tail_lt).mpr h.holds.tail_lt)
    unfold Ring.reclaim at hr
    split at hr
    · cases hr
    · next hfinished =>
      split at hr
      · cases hr
      · next hlocked =>
        exact absurd ⟨by simpa using hfinished, mt hmem.mp hlocked⟩ hallowed
  | lockNewest | lockWindow | resize => exact absurd hu hallowed
  | _ => exact absurd trivial hallowed

theorem Keeps.usedSlots_still (h : s.Keeps q) (h' : s'.Keeps (q.step n u).2)
    (hs : s.step u = .ok (answer, s')) (hu : u.isStill = true) :
    s'.ring.usedSlots = s.ring.usedSlots := by
  have htail : s'.ring.tail = s.ring.tail :=
    tail_step hs (by rintro rfl; cases hu) (by rintro len rfl; cases hu)
  obtain ⟨hlength, -, hcapacity⟩ := Fifo.step_of_isStill (q := q) hu n
  rw [h.holds.usedSlots_eq, h'.holds.usedSlots_eq, hlength]
  exact List.map_congr_left fun k _ => h.place_eq h'.holds htail hcapacity k

theorem Keeps.usedSlots_publish (h : s.Keeps q) (hs : s.step .publish = .ok (answer, s')) :
    s'.ring.usedSlots =
      if s.ring.isFull then s.ring.usedSlots else s.ring.usedSlots ++ [s.ring.head] := by
  rw [Session.step] at hs
  cases hfull : s.ring.isFull with
  | true =>
    rw [Ring.publish, if_pos hfull] at hs
    cases hs
    rfl
  | false =>
    obtain ⟨r', hr', hholds⟩ := h.holds.publish_of_not_full hfull
    rw [hr'] at hs
    cases hs
    have hplace := h.place_eq hholds (Ring.tail_publish hr') rfl
    have hlength : q.push.entries.length = q.entries.length + 1 := by
      simp [Fifo.entries, Fifo.push, Nat.add_assoc]
    have hhead : s.ring.place q.entries.length = s.ring.head := by
      rw [h.holds.head_eq, Fifo.entries, List.length_append]
    change r'.usedSlots = _
    rw [hholds.usedSlots_eq, hlength, List.range_succ, List.map_append, List.map_singleton, hplace,
      hhead, h.holds.usedSlots_eq]
    congr 1
    exact List.map_congr_left fun k _ => hplace k

theorem Keeps.usedSlots_reclaim (h : s.Keeps q) (h' : s'.Keeps q.reclaim)
    (hs : s.step .reclaim = .ok (answer, s')) :
    s.ring.usedSlots = s.ring.tail :: s'.ring.usedSlots := by
  rw [Session.step] at hs
  obtain ⟨r', hr', hs⟩ := Fault.bind_eq_ok.mp hs
  cases hs
  have hfinished : q.finished ≠ [] := by
    rw [← h.holds.hasFinished_iff]
    unfold Ring.reclaim at hr'
    split at hr'
    · cases hr'
    · next hfinished => simpa using hfinished
  have hlength : q.entries.length = q.reclaim.entries.length + 1 := by
    obtain ⟨e, rest, hf⟩ := List.exists_cons_of_ne_nil hfinished
    simp [Fifo.entries, Fifo.reclaim, hf]
  have hfits := h.holds.valid.fits
  have hlen := h.holds.len_eq
  rw [h.holds.usedSlots_eq, h'.holds.usedSlots_eq, hlength, List.range_succ_eq_map, List.map_cons,
    List.map_map, Ring.place_zero h.holds.tail_lt]
  congr 1
  refine List.map_congr_left fun k hk => ?_
  have hk := List.mem_range.mp hk
  rw [Function.comp, ← Ring.place_tail_next h.holds.tail_lt (by omega)]
  exact (Ring.place_congr (Ring.tail_reclaim hr')
    (by rw [h'.holds.len_eq, h.holds.len_eq]; rfl) k).symm

theorem Keeps.usedSlots_resize (h : s.Keeps q) {len : Nat}
    (hs : s.step (.resize len) = .ok (answer, s')) : s'.ring.usedSlots = s.ring.usedSlots := by
  rw [Session.step] at hs
  cases hempty : s.ring.isEmpty with
  | false =>
    rw [Ring.resize, hempty] at hs
    cases hs
    rfl
  | true =>
    obtain ⟨hf, hp⟩ := h.holds.isEmpty_iff.mp hempty
    have hnil : s.ring.usedSlots = [] := by
      rw [h.holds.usedSlots_eq, Fifo.entries, hf, hp]
      rfl
    by_cases hlen : 2 ≤ len ∧ len ≤ n
    · obtain ⟨r', hr', hholds⟩ := h.holds.resize hempty hlen
      rw [hr'] at hs
      cases hs
      rw [hnil]
      exact hholds.usedSlots_eq
    · rw [Ring.resize, hempty, dif_neg hlen] at hs
      cases hs
      rfl

/-- A use that succeeds is noted as it happens. -/
theorem Keeps.accounts_use (h : s.Keeps q) (hl : l.Accounts s.ring) (hu : s.Permits (.use u))
    (hs : s.step u = .ok (answer, s')) : (l.note s (.use u)).Accounts s'.ring := by
  have h' := h.of_ok hu hs
  rw [Tally.Accounts, h.holds.finishedSlots_append_pendingSlots] at hl
  rw [Tally.Accounts, h'.holds.finishedSlots_append_pendingSlots]
  cases hstill : u.isStill with
  | true =>
    have hnote : l.note s (.use u) = l := by cases u <;> first | rfl | cases hstill
    rw [hnote, h.usedSlots_still h' hs hstill]
    exact hl
  | false =>
    cases u with
    | publish =>
      rw [h.usedSlots_publish hs, Tally.note]
      split
      · exact hl
      · rw [hl, List.append_assoc]
    | reclaim =>
      rw [h.usedSlots_reclaim h' hs] at hl
      rw [Tally.note, hl, List.append_assoc]
      rfl
    | resize len =>
      rw [h.usedSlots_resize hs]
      exact hl
    | _ => cases hstill

/-- An attempt that succeeds leads to a ring that stands for a queue, with its tally in order. -/
theorem Keeps.attempt {a : Attempt} (h : s.Keeps q) (hl : l.Accounts s.ring) (ha : s.Permits a)
    (hs : s.attempt a = .ok s') : ∃ q', s'.Keeps q' ∧ (l.note s a).Accounts s'.ring := by
  cases a with
  | use u =>
    obtain ⟨⟨answer, s₁⟩, hs₁, hs⟩ := Fault.bind_eq_ok.mp hs
    cases hs
    exact ⟨_, h.of_ok ha hs₁, h.accounts_use hl ha hs₁⟩
  | release i =>
    obtain ⟨⟨answer, s₁⟩, hs₁, hs⟩ := Fault.bind_eq_ok.mp hs
    have h₁ := h.of_ok (u := .finish i) ha hs₁
    have hl₁ := h.accounts_use (u := .finish i) hl ha hs₁
    dsimp only at hs
    split at hs
    · obtain ⟨⟨answer, s₂⟩, hs₂, hs⟩ := Fault.bind_eq_ok.mp hs
      cases hs
      exact ⟨_, h₁.of_ok (u := .begin) trivial hs₂, h₁.accounts_use (u := .begin) hl₁ trivial hs₂⟩
    · cases hs
      exact ⟨_, h₁, hl₁⟩

end

/-! ## Any number of attempts -/

variable {s s' : Session n} {q : Fifo} {l l' : Tally}

theorem Keeps.attempts (h : s.Keeps q) (hl : l.Accounts s.ring) {as : List Attempt}
    (has : s.Permitted as) (hs : s.attempts l as = (s', l')) :
    ∃ q', s'.Keeps q' ∧ l'.Accounts s'.ring := by
  induction as generalizing s l q with
  | nil =>
    cases hs
    exact ⟨q, h, hl⟩
  | cons a as ih =>
    obtain ⟨ha, hrest⟩ := has
    rw [Session.attempts] at hs
    cases hattempt : s.attempt a with
    | error fault =>
      rw [hattempt] at hs hrest
      exact ih h hl hrest hs
    | ok s₁ =>
      rw [hattempt] at hs hrest
      obtain ⟨q₁, h₁, hl₁⟩ := h.attempt hl ha hattempt
      exact ih h₁ hl₁ hrest hs

/-! ## Finishing -/

theorem attempt_of_ne_front {a : Attempt} {i : Nat} (ha : a.Finishes i) (hi : i ≠ s.ring.front) :
    s.attempt a = .error .invariantViolated := by
  have hstep : s.step (.finish i) = .error .invariantViolated := by
    rw [Session.step, Ring.finish_of_ne_front hi]
    rfl
  obtain rfl | rfl := ha <;> rw [attempt, hstep] <;> rfl

/-- Finishing succeeds as its first half does, and what comes after it moves no cursor. -/
theorem attempt_of_finish {a : Attempt} {i : Nat} (ha : a.Finishes i) {more : Bool} {r : Ring n}
    (hr : s.ring.finish i = .ok (more, r)) :
    ∃ s' slots, s.attempt a = .ok s' ∧ s'.ring = { r with slots := slots } := by
  let s₁ : Session n := { s with ring := r, begun := s.begun.filter fun j => decide (j ≠ i) }
  have hfinish : s.step (.finish i) = .ok (.more more, s₁) := by
    rw [Session.step, hr]
    rfl
  obtain rfl | rfl := ha
  · exact ⟨s₁, r.slots, by rw [attempt, hfinish]; rfl, rfl⟩
  cases more with
  | false => exact ⟨s₁, r.slots, by rw [attempt, hfinish]; rfl, rfl⟩
  | true =>
    obtain ⟨answer, s₂, slots, hbegin, hring⟩ : ∃ answer s₂ slots,
        s₁.step .begin = .ok (answer, s₂) ∧ s₂.ring = { r with slots := slots } := by
      rw [Session.step]
      split
      · next hb =>
        obtain ⟨slots, hslots⟩ := Ring.begin?_eq hb
        exact ⟨_, _, slots, rfl, hslots⟩
      · exact ⟨_, s₁, r.slots, rfl, rfl⟩
    refine ⟨s₂, slots, ?_, hring⟩
    rw [attempt, hfinish]
    dsimp only [bind, Except.bind, pure, Except.pure]
    rw [hbegin]

/-- Whatever has been tried on a ring, as long as nobody has overrun the head: finishing any slot,
whether it has begun or not, is refused, or keeps the cursors in order and hands out nothing but
what has been published. Overrunning the head is the one exception. It puts the cursors out of
order and hands out the slot at the head, or, in a full ring, takes back all that was finished. -/
theorem finish_of_permitted {len : Nat} {r : Ring n} (hr : Ring.new n len = .ok r)
    {as : List Attempt} (has : (ofRing r).Permitted as)
    (hs : (ofRing r).attempts .blank as = (s, l)) {a : Attempt} {i : Nat} (ha : a.Finishes i) :
    s.WellFormed ∧ l.Accounts s.ring ∧
    (i ≠ s.ring.front → s.attempt a = .error .invariantViolated) ∧
    (i = s.ring.front → ¬ s.ring.Overruns i →
      ∃ s', s.attempt a = .ok s' ∧ s'.WellFormed ∧ l.Accounts s'.ring) ∧
    (s.ring.Overruns i → ∃ s', s.attempt a = .ok s' ∧
      (s.ring.isFull = false → s'.ring.ordered = false ∧
        s'.ring.finishedSlots = s.ring.finishedSlots ++ [s.ring.head]) ∧
      (s.ring.isFull = true → s'.ring.finishedSlots = [] ∧
        s'.ring.pendingSlots = s.ring.finishedSlots)) := by
  have hblank : Tally.blank.Accounts (ofRing r).ring := by
    have h := (Keeps.ofNew hr).holds
    rw [Tally.Accounts, h.finishedSlots_append_pendingSlots, h.usedSlots_eq]
    rfl
  obtain ⟨q, h, hl⟩ := (Keeps.ofNew hr).attempts hblank has hs
  refine ⟨h.wellFormed, hl, attempt_of_ne_front ha, ?_, ?_⟩
  · rintro rfl ho
    obtain ⟨r', hr', -⟩ := h.holds.finish (h.holds.pending_of_not_overruns ho)
    obtain ⟨s', slots, hs', -⟩ := attempt_of_finish ha hr'
    have hpermits : s.Permits a := by
      obtain rfl | rfl := ha <;> exact ho
    have hnote : l.note s a = l := by
      obtain rfl | rfl := ha <;> rfl
    obtain ⟨q', h', hl'⟩ := h.attempt hl hpermits hs'
    exact ⟨s', hs', h'.wellFormed, hnote ▸ hl'⟩
  · intro ho
    obtain ⟨s', slots, hs', hring⟩ := attempt_of_finish ha (h.holds.finish_of_overruns ho)
    refine ⟨s', hs', ?_⟩
    rw [hring]
    exact h.holds.overrun ho.2.1 slots

/-- A ring is asked to clear what is not finished, a segment is finished before it begins and
another one twice. The ring refuses or stays in order, and so it does when nothing is pending but a
flush is asked for. -/
theorem finish_of_permitted_twice : ∃ s l s',
    (ofRing (Ring.ofLen 4 (by decide) (by decide) : Ring 4)).attempts .blank
      [.use .reclaim, .use .publish, .use (.finish 0), .use .publish, .use .begin, .release 1,
        .release 1, .use .reclaim, .use (.setFlush true)] = (s, l) ∧
      s.WellFormed ∧ l.Accounts s.ring ∧
      s.attempt (.use (.finish 2)) = .ok s' ∧ s'.WellFormed ∧ l.Accounts s'.ring := by
  have has : (ofRing (Ring.ofLen 4 (by decide) (by decide) : Ring 4)).Permitted
      [.use .reclaim, .use .publish, .use (.finish 0), .use .publish, .use .begin, .release 1,
        .release 1, .use .reclaim, .use (.setFlush true)] := by decide
  obtain ⟨hwell, hl, -, hfinish, -⟩ := finish_of_permitted (show Ring.new 4 4 = .ok _ from rfl)
    has rfl (.inl rfl : Attempt.Finishes _ 2)
  obtain ⟨s', hs', hwell', hl'⟩ := hfinish rfl (by decide)
  exact ⟨_, _, s', rfl, hwell, hl, hs', hwell', hl'⟩

/-- A new ring does not refuse to finish a segment. The slot at its head is then handed out for
clearing, though nothing has been published. -/
theorem finish_of_new : ∃ s' : Session 4,
    (ofRing (Ring.ofLen 4 (by decide) (by decide) : Ring 4)).attempt (.use (.finish 0)) =
      .ok s' ∧ s'.ring.ordered = false ∧ s'.ring.hasFinished = true ∧
      s'.ring.finishedSlots = [0] :=
  ⟨_, rfl, by decide, by decide, by decide⟩

end Session

end MotionControl
