import MotionControl.Proofs.Ring.Session

/-!
# The ring does what the queue does

`Session.Keeps s q` relates a session to the queue its ring stands for. It is kept by every proper
use (`Session.Keeps.step`), and so by every disciplined sequence of uses (`Session.Keeps.run`).
-/

namespace MotionControl

namespace Ring

variable {n : Nat}

/-! ## Where the tail moves

Only clearing moves it. -/

theorem tail_publish {r r' : Ring n} (h : r.publish = .ok r') : r'.tail = r.tail := by
  unfold publish at h
  split at h
  · cases h
  · cases h
    rfl

theorem tail_begin? {r r' : Ring n} {i : Nat} (h : r.begin? = some (i, r')) :
    r'.tail = r.tail := by
  unfold begin? at h
  split at h
  · cases h
  split at h
  · cases h
    rfl
  · cases h

theorem tail_finish {r r' : Ring n} {i : Nat} {more : Bool} (h : r.finish i = .ok (more, r')) :
    r'.tail = r.tail := by
  unfold finish at h
  split at h
  · dsimp only at h
    split at h <;> split at h <;> cases h <;> rfl
  · cases h

theorem tail_reclaim {r r' : Ring n} (h : r.reclaim = .ok r') : r'.tail = r.next r.tail := by
  unfold reclaim at h
  split at h
  · cases h
  split at h
  · cases h
  · cases h
    rfl

theorem place_congr {r r' : Ring n} (ht : r'.tail = r.tail) (hl : r'.len = r.len) (k : Nat) :
    r'.place k = r.place k := by
  unfold place
  rw [ht, hl]

end Ring

namespace Session

section

variable {n : Nat} {s s' : Session n} {u : Use} {answer : Answer}

theorem tail_step (hs : s.step u = .ok (answer, s')) (hreclaim : u ≠ .reclaim)
    (hresize : ∀ len, u ≠ .resize len) : s'.ring.tail = s.ring.tail := by
  cases u with
  | publish =>
    rw [Session.step] at hs
    split at hs
    · cases hs
      rfl
    · next hring =>
      cases hs
      exact Ring.tail_publish hring
  | lockNewest =>
    rw [Session.step] at hs
    split at hs
    · next hring =>
      cases hs
      obtain ⟨slots, hslots⟩ := Ring.lockNewest_eq hring
      rw [hslots]
    · cases hs
      rfl
  | lockWindow =>
    obtain ⟨slots, hslots⟩ := s.ring.lockWindow_eq
    have htail : s.ring.lockWindow.2.tail = s.ring.tail := by rw [hslots]
    cases hs
    exact htail
  | revise k f =>
    rw [Session.step] at hs
    split at hs <;> cases hs
    rfl
  | unlock =>
    obtain ⟨slots, hslots⟩ := s.ring.unlock_eq s.held
    cases hs
    rw [hslots]
  | begin =>
    rw [Session.step] at hs
    split at hs
    · next hring =>
      cases hs
      exact Ring.tail_begin? hring
    · cases hs
      rfl
  | read i =>
    rw [Session.step] at hs
    obtain ⟨segment, -, hs⟩ := Fault.bind_eq_ok.mp hs
    cases hs
    rfl
  | finish i =>
    rw [Session.step] at hs
    obtain ⟨⟨more, ring⟩, hring, hs⟩ := Fault.bind_eq_ok.mp hs
    cases hs
    exact Ring.tail_finish hring
  | reclaim => exact absurd rfl hreclaim
  | resize len => exact absurd rfl (hresize len)
  | _ =>
    cases hs
    rfl

/-- Only publishing gives a number, and only beginning takes one down. -/
theorem numbers_step (hs : s.step u = .ok (answer, s')) :
    (u ≠ .publish → s'.stamp = s.stamp ∧ s'.published = s.published) ∧
      (u ≠ .begin → s'.started = s.started) := by
  cases u with
  | publish =>
    refine ⟨fun hne => absurd rfl hne, fun _ => ?_⟩
    rw [Session.step] at hs
    split at hs <;> cases hs <;> rfl
  | begin =>
    refine ⟨fun _ => ?_, fun hne => absurd rfl hne⟩
    rw [Session.step] at hs
    split at hs <;> cases hs <;> exact ⟨rfl, rfl⟩
  | lockNewest | resize | revise =>
    rw [Session.step] at hs
    split at hs <;> cases hs <;> exact ⟨fun _ => ⟨rfl, rfl⟩, fun _ => rfl⟩
  | read | finish | reclaim =>
    rw [Session.step] at hs
    obtain ⟨_, -, hs⟩ := Fault.bind_eq_ok.mp hs
    cases hs
    exact ⟨fun _ => ⟨rfl, rfl⟩, fun _ => rfl⟩
  | _ =>
    cases hs
    exact ⟨fun _ => ⟨rfl, rfl⟩, fun _ => rfl⟩

end

variable {n : Nat}

/-- The numbers noted for a queue: those of the pending segments are the last ones given, and
what has begun did so in their order. -/
structure Numbered (s : Session n) (q : Fifo) : Prop where
  /-- the newest segment has the last number, and so on back to the first pending one -/
  stamp_eq : ∀ k, q.finished.length ≤ k → k < q.finished.length + q.pending.length →
    s.stamp (s.ring.place k) + (q.finished.length + q.pending.length) = s.published + k
  /-- no number is given before it is given -/
  pending_le : q.pending.length ≤ s.published
  /-- segments begin in the order of their publication, and none begins twice -/
  started_sorted : s.started.Pairwise (· < ·)
  /-- whatever waits is newer than what has begun -/
  started_lt : ∀ k ∈ s.started, k + q.waiting.length < s.published

/-- A session whose ring stands for a queue. -/
structure Keeps (s : Session n) (q : Fifo) : Prop where
  /-- the ring stands for the queue -/
  holds : s.ring.Holds s.held q
  /-- the one segment that may have begun is at the front -/
  begun_eq : s.begun = if q.begun then [s.ring.front] else []
  /-- segments are numbered as they come -/
  numbered : s.Numbered q

namespace Keeps

variable {s : Session n} {q : Fifo}

theorem ofRing {len : Nat} (h₁ : 2 ≤ len) (h₂ : len ≤ n) :
    (Session.ofRing (Ring.ofLen len h₁ h₂ : Ring n)).Keeps (.ofCapacity (len - 1)) where
  holds := .ofLen h₁ h₂
  begun_eq := rfl
  numbered := {
    stamp_eq := fun k _ hk => absurd hk (Nat.not_lt_zero k)
    pending_le := Nat.zero_le _
    started_sorted := List.Pairwise.nil
    started_lt := fun _ hk => absurd hk List.not_mem_nil }

theorem place_eq (h : s.Keeps q) {ring : Ring n} {held : List Nat} {q' : Fifo}
    (hr : ring.Holds held q') (ht : ring.tail = s.ring.tail) (hc : q'.capacity = q.capacity)
    (k : Nat) : ring.place k = s.ring.place k :=
  Ring.place_congr ht (by rw [hr.len_eq, h.holds.len_eq, hc]) k

/-- Uses that leave both lists as they are, up to the content of the segments and locks. -/
theorem frame (h : s.Keeps q) {ring : Ring n} {guard : Option (List Nat)} {q' : Fifo}
    (hr : ring.Holds (guard.getD []) q') (ht : ring.tail = s.ring.tail)
    (hc : q'.capacity = q.capacity) (hf : q'.finished.length = q.finished.length)
    (hp : q'.pending.length = q.pending.length) (hb : q'.begun = q.begun) :
    { s with ring := ring, guard := guard }.Keeps q' := by
  obtain ⟨hholds, hbegun, hstamp, hle, hsorted, hlt⟩ := h
  have hplace := place_eq ⟨hholds, hbegun, hstamp, hle, hsorted, hlt⟩ hr ht hc
  have hwaiting : q'.waiting.length = q.waiting.length := by
    have h₁ := q.length_waiting
    have h₂ := q'.length_waiting
    rw [hb, hp] at h₂
    omega
  refine ⟨hr, ?_, ?_, ?_, hsorted, ?_⟩
  · change s.begun = if q'.begun then [ring.front] else []
    rw [hbegun, hb, hr.front_eq, hplace, hf, ← hholds.front_eq]
  · intro k hk hk'
    rw [hf, hp] at hk'
    rw [hf] at hk
    rw [hplace, hf, hp]
    exact hstamp k hk hk'
  · rw [hp]
    exact hle
  · rw [hwaiting]
    exact hlt

/-- Pending segments are over, from the front on; none of those left has begun. -/
theorem move (h : s.Keeps q) {ring : Ring n} {passed rest : List Slot} {running : Bool}
    (hp : q.pending = passed ++ rest) (hover : q.begun = true → passed ≠ [])
    (hr : ring.Holds s.held { q with
      finished := q.finished ++ passed, pending := rest, running := running })
    (ht : ring.tail = s.ring.tail)
    (hrest : ({ q with
      finished := q.finished ++ passed, pending := rest, running := running } : Fifo).begun =
        false) :
    { s with ring := ring, begun := [] }.Keeps { q with
      finished := q.finished ++ passed, pending := rest, running := running } := by
  have hplace := h.place_eq hr ht rfl
  obtain ⟨hstamp, hle, hsorted, hlt⟩ := h.numbered
  have hlen : q.pending.length = passed.length + rest.length := by rw [hp, List.length_append]
  refine ⟨hr, ?_, ?_, ?_, hsorted, ?_⟩
  · rw [hrest]
    rfl
  · intro k hk hk'
    simp only [List.length_append] at hk hk' ⊢
    have := hstamp k (by omega) (by omega)
    rw [hplace]
    omega
  · change rest.length ≤ s.published
    omega
  · -- what is left was waiting before
    intro k hk
    have hold := hlt k hk
    have h₁ := q.length_waiting
    have h₂ := ({ q with
      finished := q.finished ++ passed, pending := rest, running := running } : Fifo).length_waiting
    rw [hrest] at h₂
    simp only [Bool.false_eq_true, if_false, Nat.add_zero] at h₂
    rw [h₂]
    change k + rest.length < s.published
    split at h₁
    · next hb =>
      have := List.length_pos_iff.mpr (hover hb)
      omega
    · omega

/-! ## The main loop -/

/-- The ring answers a use as the queue does, and goes on standing for it. -/
def Follows (s : Session n) (q : Fifo) (u : Use) : Prop :=
  ∃ s', s.step u = .ok ((q.step n u).1, s') ∧ s'.Keeps (q.step n u).2

theorem write (h : s.Keeps q) (f : Segment → Segment) : Follows s q (.write f) := by
  have hr := h.holds.setHead (f q.head)
  refine ⟨_, rfl, ?_⟩
  rw [h.holds.headSegment_eq]
  exact h.frame hr rfl rfl rfl rfl rfl

theorem publish (h : s.Keeps q) : Follows s q .publish := by
  by_cases hroom : q.finished.length + q.pending.length < q.capacity
  · obtain ⟨r', hr', hholds⟩ := h.holds.publish_of_room hroom
    have hplace := h.place_eq hholds (Ring.tail_publish hr') rfl
    have hstep : q.step n .publish = (.done, q.push) := by
      rw [Fifo.step, Fifo.publish, if_pos hroom]
    have hbegun := q.begun_push
    have hlength : q.push.pending.length = q.pending.length + 1 := by
      rw [Fifo.push, List.length_append, List.length_singleton]
    obtain ⟨hstamp, hle, hsorted, hlt⟩ := h.numbered
    rw [Follows, hstep]
    refine ⟨{ s with
      ring := r'
      published := s.published + 1
      stamp := fun i => if i = s.ring.head then s.published else s.stamp i },
      by rw [Session.step, hr'], hholds, ?_, ?_, ?_, hsorted, ?_⟩
    · change s.begun = if q.push.begun then [r'.front] else []
      rw [h.begun_eq, hbegun, hholds.front_eq, hplace, h.holds.front_eq]
      rfl
    · intro k hk hk'
      change (if r'.place k = s.ring.head then s.published else s.stamp (r'.place k)) +
        (q.finished.length + q.push.pending.length) = s.published + 1 + k
      have hk' : k < q.finished.length + q.push.pending.length := hk'
      rw [hlength] at hk' ⊢
      rw [hplace, h.holds.head_eq]
      -- the new segment lies where the head was, and all others where they were
      by_cases hlast : k = q.finished.length + q.pending.length
      · rw [hlast, if_pos rfl]
        omega
      · have hhead := h.holds.head_place_lt
        rw [if_neg fun heq => hlast ((Ring.place_inj (by omega) hhead).mp heq)]
        have := hstamp k hk (by omega)
        omega
    · change q.push.pending.length ≤ s.published + 1
      omega
    · intro k hk
      have hold := hlt k hk
      have h₁ := q.length_waiting
      have h₂ := q.push.length_waiting
      rw [hbegun, hlength] at h₂
      change k + q.push.waiting.length < s.published + 1
      omega
  · have hstep : q.step n .publish = (.refused .full, q) := by
      rw [Fifo.step, Fifo.publish, if_neg hroom]
    rw [Follows, hstep]
    exact ⟨s, by rw [Session.step, h.holds.publish_of_full hroom], h⟩

theorem setRunning (h : s.Keeps q) (running : Bool) : Follows s q (.setRunning running) :=
  ⟨_, rfl, h.frame (h.holds.setRunning running) rfl rfl rfl rfl rfl⟩

theorem setFlush (h : s.Keeps q) (flush : Bool) : Follows s q (.setFlush flush) :=
  ⟨_, rfl, h.frame (h.holds.setFlush flush) rfl rfl rfl rfl rfl⟩

/-! ## Revising -/

theorem lockNewest (h : s.Keeps q) (hg : s.guard = none) : Follows s q .lockNewest := by
  have hholds : s.ring.Holds [] q := by
    have := h.holds
    rwa [held, hg] at this
  by_cases hnewest : ∃ before segment, q.pending = before ++ [⟨segment, .ready⟩]
  · obtain ⟨before, segment, hp⟩ := hnewest
    obtain ⟨i, r', hr', hlocked⟩ := hholds.lockNewest_of_ready hp
    have hq : q.lockNewest = some { q with pending := before ++ [⟨segment, .locked⟩] } := by
      rw [Fifo.lockNewest, hp, List.getLast?_concat, List.dropLast_concat]
    have hstep : q.step n .lockNewest =
        (.held ({ q with pending := before ++ [⟨segment, .locked⟩] } : Fifo).held,
          { q with pending := before ++ [⟨segment, .locked⟩] }) := by
      rw [Fifo.step, hq]
    have hanswer := hlocked.segments_held
    rw [Follows, hstep, ← hanswer]
    obtain ⟨slots, hslots⟩ := Ring.lockNewest_eq hr'
    refine ⟨{ s with ring := r', guard := some [i] }, by rw [Session.step, hr']; rfl, ?_⟩
    refine h.frame hlocked (by rw [hslots]) rfl rfl ?_ (Fifo.begun_newest hp (by simp))
    rw [hp, List.length_append, List.length_append]
    rfl
  · have hnone : ∀ before segment, q.pending ≠ before ++ [⟨segment, .ready⟩] :=
      fun before segment hp => hnewest ⟨before, segment, hp⟩
    have hq : q.lockNewest = none := by
      rw [Fifo.lockNewest]
      split
      · next segment hlast =>
        obtain ⟨before, hp⟩ := List.getLast?_eq_some_iff.mp hlast
        exact absurd hp (hnone before segment)
      · rfl
    have hstep : q.step n .lockNewest = (.held [], q) := by rw [Fifo.step, hq]
    rw [Follows, hstep]
    exact ⟨s, by rw [Session.step, hholds.lockNewest_of_not_ready hnone], h⟩

theorem lockWindow (h : s.Keeps q) (hg : s.guard = none) : Follows s q .lockWindow := by
  have hholds : s.ring.Holds [] q := by
    have := h.holds
    rwa [held, hg] at this
  have hlocked := hholds.lockWindow
  refine ⟨{ s with ring := s.ring.lockWindow.2, guard := some s.ring.lockWindow.1.slots }, ?_, ?_⟩
  · change Except.ok (Answer.held (s.ring.lockWindow.2.segments s.ring.lockWindow.1.slots), _) = _
    rw [hlocked.segments_held]
    rfl
  · obtain ⟨slots, hslots⟩ := s.ring.lockWindow_eq
    exact h.frame hlocked (by rw [hslots]) rfl rfl (List.length_map _) q.begun_lockWindow

theorem revise (h : s.Keeps q) {k : Nat} (hk : k < s.held.length) (f : Segment → Segment) :
    Follows s q (.revise k f) := by
  have hheld := h.holds.segments_held
  have hlen : k < q.held.length := by
    rw [← hheld, Ring.segments, List.length_map]
    exact hk
  have hsegment : s.ring.segment s.held[k] = q.held[k] := by
    simp only [← hheld, Ring.segments, List.getElem_map]
  have hmodify : q.held.modify k f = q.held.set k (f q.held[k]) := by
    apply List.ext_getElem
    · rw [List.length_modify, List.length_set]
    · intro j _ _
      rw [List.getElem_modify, List.getElem_set]
      split
      · next hj => simp only [hj]
      · rfl
  have hholds := h.holds.setSegment hk (f q.held[k])
  have hstep : q.step n (.revise k f) = (.done, q.revise (q.held.set k (f q.held[k]))) := by
    rw [Fifo.step, hmodify]
  rw [Follows, hstep]
  refine ⟨{ s with ring := s.ring.setSegment s.held[k] (f q.held[k]) }, ?_, ?_⟩
  · rw [Session.step, List.getElem?_eq_getElem hk, ← hsegment]
  · exact h.frame hholds rfl rfl (Slot.length_refill _ _) (Slot.length_refill _ _)
      (q.begun_revise _)

theorem unlock (h : s.Keeps q) : Follows s q .unlock := by
  obtain ⟨slots, hslots⟩ := s.ring.unlock_eq s.held
  refine ⟨_, rfl, ?_⟩
  exact h.frame h.holds.unlock (by rw [hslots]) rfl (List.length_map _) (List.length_map _)
    q.begun_unlock

/-! ## The interrupt -/

theorem of_mem_begun (h : s.Keeps q) {i : Nat} (hi : i ∈ s.begun) :
    i = s.ring.front ∧ ∃ segment rest, q.pending = ⟨segment, .executing⟩ :: rest := by
  rw [h.begun_eq] at hi
  split at hi
  · next hb =>
    exact ⟨List.mem_singleton.mp hi, Fifo.pending_of_begun hb⟩
  · cases hi

/-- The number noted for the front is the first one that is still waiting. -/
theorem stamp_front (h : s.Keeps q) (hp : q.pending ≠ []) :
    s.stamp s.ring.front + q.pending.length = s.published := by
  have hpos := List.length_pos_iff.mpr hp
  have hstamp := h.numbered.stamp_eq q.finished.length (Nat.le_refl _) (by omega)
  rw [← h.holds.front_eq] at hstamp
  omega

theorem begin_of_ready (h : s.Keeps q) {segment : Segment} {rest : List Slot}
    (hp : q.pending = ⟨segment, .ready⟩ :: rest) : Follows s q .begin := by
  obtain ⟨r', hr', hfront, hholds⟩ := h.holds.begin?_of_ready hp
  have hplace := h.place_eq hholds (Ring.tail_begin? hr') rfl
  have hstep : q.step n .begin =
      (.begun (some segment), { q with pending := ⟨segment, .executing⟩ :: rest }) := by
    rw [Fifo.step, Fifo.begin?, hp]
    rfl
  have hbegun : q.begun = false := by
    unfold Fifo.begun
    rw [hp]
    rfl
  have hcontent : r'.segment s.ring.front = segment := by
    rw [← hfront, Ring.segment, hholds.slot_front rfl]
  have hlength : q.pending.length = rest.length + 1 := by rw [hp, List.length_cons]
  have hwaiting : q.waiting = q.pending := by
    rw [Fifo.waiting, hbegun]
    rfl
  have hnumber := h.stamp_front (by rw [hp]; exact List.cons_ne_nil _ _)
  obtain ⟨hstamp, hle, hsorted, hlt⟩ := h.numbered
  rw [hwaiting] at hlt
  rw [Follows, hstep]
  refine ⟨{ s with
    ring := r'
    begun := s.ring.front :: s.begun
    started := s.started ++ [s.stamp s.ring.front] },
    by rw [Session.step, hr', ← hcontent], hholds, ?_, ?_, ?_, ?_, ?_⟩
  · change s.ring.front :: s.begun = [r'.front]
    rw [h.begun_eq, hbegun, hfront]
    rfl
  · intro k hk hk'
    change s.stamp (r'.place k) + (q.finished.length + (rest.length + 1)) = s.published + k
    rw [hplace, ← hlength]
    exact hstamp k hk (by rw [hlength]; exact hk')
  · change rest.length + 1 ≤ s.published
    omega
  · change (s.started ++ [s.stamp s.ring.front]).Pairwise (· < ·)
    rw [List.pairwise_append]
    refine ⟨hsorted, List.pairwise_singleton _ _, ?_⟩
    intro k hk k' hk'
    rw [List.mem_singleton.mp hk']
    have := hlt k hk
    omega
  · intro k hk
    change k + rest.length < s.published
    rcases List.mem_append.mp hk with hk | hk
    · have := hlt k hk
      omega
    · rw [List.mem_singleton.mp hk]
      omega

theorem begin_of_not_ready (h : s.Keeps q)
    (hnone : ∀ segment rest, q.pending ≠ ⟨segment, .ready⟩ :: rest) : Follows s q .begin := by
  have hq : q.begin? = none := by
    rw [Fifo.begin?]
    split
    · next e rest hp =>
      split
      · rfl
      · next he =>
        have hstate := h.holds.valid.ready_of_begin hp he
        exact absurd hp (by rw [← hstate] at hnone; exact hnone e.segment rest)
    · rfl
  have hstep : q.step n .begin = (.begun none, q) := by rw [Fifo.step, hq]
  rw [Follows, hstep]
  exact ⟨s, by rw [Session.step, h.holds.begin?_of_not_ready hnone], h⟩

theorem begin (h : s.Keeps q) : Follows s q .begin := by
  by_cases hready : ∃ segment rest, q.pending = ⟨segment, .ready⟩ :: rest
  · obtain ⟨segment, rest, hp⟩ := hready
    exact h.begin_of_ready hp
  · exact h.begin_of_not_ready fun segment rest hp => hready ⟨segment, rest, hp⟩

theorem read (h : s.Keeps q) {i : Nat} (hi : i ∈ s.begun) : Follows s q (.read i) := by
  obtain ⟨rfl, segment, rest, hp⟩ := h.of_mem_begun hi
  have hstep : q.step n (.read s.ring.front) = (.content segment, q) := by
    rw [Fifo.step, hp]
    rfl
  rw [Follows, hstep]
  exact ⟨s, by rw [Session.step, h.holds.executing_front hp]; rfl, h⟩

/-- Finishing the front needs nothing to have begun. -/
theorem finish_front (h : s.Keeps q) (hp : q.flush = false → q.pending ≠ []) :
    Follows s q (.finish s.ring.front) := by
  obtain ⟨r', hr', hholds⟩ := h.holds.finish hp
  have hover : q.begun = true → q.overAtFinish ≠ [] := by
    intro hb
    obtain ⟨segment, rest, hpending⟩ := Fifo.pending_of_begun hb
    unfold Fifo.overAtFinish
    rw [hpending]
    split <;> exact List.cons_ne_nil _ _
  have hlist : s.begun.filter (fun j => decide (j ≠ s.ring.front)) = [] := by
    rw [h.begun_eq]
    split <;> simp
  refine ⟨{ s with ring := r', begun := [] }, ?_, ?_⟩
  · rw [Session.step, hr']
    change Except.ok (Answer.more q.finish.1, { s with
      ring := r', begun := s.begun.filter fun j => decide (j ≠ s.ring.front) }) = _
    rw [hlist]
    rfl
  · exact h.move q.overAtFinish_append_afterFinish hover hholds
      (Ring.tail_finish hr') h.holds.valid.begun_finish

theorem finish (h : s.Keeps q) {i : Nat} (hi : i ∈ s.begun) : Follows s q (.finish i) := by
  obtain ⟨rfl, segment, rest, hp⟩ := h.of_mem_begun hi
  exact h.finish_front fun _ => by rw [hp]; exact List.cons_ne_nil _ _

theorem abort (h : s.Keeps q) : Follows s q .abort := by
  refine ⟨_, rfl, ?_⟩
  refine h.move (List.append_nil _).symm ?_ h.holds.abort rfl rfl
  intro hb hp
  unfold Fifo.begun at hb
  rw [hp] at hb
  cases hb

/-! ## Clearing -/

theorem peek (h : s.Keeps q) : Follows s q .peek :=
  ⟨s, by rw [Session.step, h.holds.finished?_eq]; rfl, h⟩

theorem reclaim (h : s.Keeps q) (hfin : s.ring.hasFinished = true)
    (hfree : s.ring.tail ∉ s.held) : Follows s q .reclaim := by
  obtain ⟨e, rest, hf⟩ := List.exists_cons_of_ne_nil (h.holds.hasFinished_iff.mp hfin)
  have hslot := h.holds.slot_tail hf
  have hmem : s.ring.tail ∈ s.ring.order := (Ring.mem_order h.holds.tail_lt).mpr h.holds.tail_lt
  have hstate : e.state ≠ .locked := by
    rw [h.holds.mem_held hmem, Ring.state, hslot] at hfree
    exact hfree
  obtain ⟨r', hr', hholds⟩ := h.holds.reclaim hf hstate
  have hplace : ∀ k, k < s.ring.len → r'.place k = s.ring.place (k + 1) := by
    intro k hk
    rw [← Ring.place_tail_next h.holds.tail_lt hk]
    exact Ring.place_congr (Ring.tail_reclaim hr') (by rw [hholds.len_eq, h.holds.len_eq]; rfl) k
  have hrest : q.reclaim.finished = rest := by
    rw [Fifo.reclaim, hf]
    rfl
  have hlength : q.finished.length = rest.length + 1 := by rw [hf, List.length_cons]
  have hheadlt := h.holds.head_place_lt
  obtain ⟨hstamp, hle, hsorted, hlt⟩ := h.numbered
  refine ⟨{ s with ring := r' }, by rw [Session.step, hr']; rfl, hholds, ?_, ?_, hle, hsorted,
    hlt⟩
  · change s.begun = if q.begun then [r'.front] else []
    rw [h.begun_eq, hholds.front_eq, hrest, hplace _ (by omega), ← hlength, ← h.holds.front_eq]
  · intro k hk hk'
    have hk : q.reclaim.finished.length ≤ k := hk
    have hk' : k < q.reclaim.finished.length + q.pending.length := hk'
    change s.stamp (r'.place k) + (q.reclaim.finished.length + q.pending.length) = s.published + k
    rw [hrest] at hk hk' ⊢
    have := hstamp (k + 1) (by omega) (by omega)
    rw [hplace k (by omega)]
    omega

theorem resize (h : s.Keeps q) (hg : s.guard = none) (len : Nat) :
    Follows s q (.resize len) := by
  have hheld : s.held = [] := by rw [held, hg]; rfl
  by_cases hentries : q.entries = []
  · obtain ⟨hf, hp⟩ := List.append_eq_nil_iff.mp hentries
    have hempty := h.holds.isEmpty_iff.mpr ⟨hf, hp⟩
    by_cases hlen : 2 ≤ len ∧ len ≤ n
    · obtain ⟨r', hr', hholds⟩ := h.holds.resize hempty hlen
      have hstep : q.step n (.resize len) = (.done, q.resize (len - 1)) := by
        rw [Fifo.step, if_neg (not_not_intro hentries), if_pos hlen]
      obtain ⟨-, -, hsorted, hlt⟩ := h.numbered
      rw [Follows, hstep]
      refine ⟨{ s with ring := r' }, by rw [Session.step, hr'], ?_, ?_, ?_, ?_, hsorted, ?_⟩
      · rw [← hheld] at hholds
        exact hholds
      · change s.begun = []
        rw [h.begun_eq]
        unfold Fifo.begun
        rw [hp]
        rfl
      · exact fun k _ hk => absurd hk (Nat.not_lt_zero k)
      · exact Nat.zero_le _
      · intro k hk
        exact Nat.lt_of_le_of_lt (Nat.le_add_right k _) (hlt k hk)
    · have hstep : q.step n (.resize len) = (.refused .invalidSize, q) := by
        rw [Fifo.step, if_neg (not_not_intro hentries), if_neg hlen]
      rw [Follows, hstep]
      refine ⟨s, ?_, h⟩
      rw [Session.step, Ring.resize, hempty, dif_neg hlen]
      rfl
  · have hempty : s.ring.isEmpty = false := by
      rw [← Bool.not_eq_true, h.holds.isEmpty_iff, ← List.append_eq_nil_iff]
      exact hentries
    have hstep : q.step n (.resize len) = (.refused .notEmpty, q) := by
      rw [Fifo.step, if_pos hentries]
    rw [Follows, hstep]
    refine ⟨s, ?_, h⟩
    rw [Session.step, Ring.resize, hempty]
    rfl

/-! ## Any proper use, and any number of them -/

theorem step (h : s.Keeps q) {u : Use} (hu : s.Allows u) : Follows s q u := by
  cases u with
  | write f => exact h.write f
  | publish => exact h.publish
  | setRunning running => exact h.setRunning running
  | setFlush flush => exact h.setFlush flush
  | lockNewest => exact h.lockNewest hu
  | lockWindow => exact h.lockWindow hu
  | revise k f => exact h.revise hu f
  | unlock => exact h.unlock
  | begin => exact h.begin
  | read i => exact h.read hu
  | finish i => exact h.finish hu
  | abort => exact h.abort
  | peek => exact h.peek
  | reclaim => exact h.reclaim hu.1 hu.2
  | resize len => exact h.resize hu len

theorem run (h : s.Keeps q) {us : List Use} (hus : s.Disciplined us) :
    ∃ s', s.run us = .ok ((q.run n us).1, s') ∧ s'.Keeps (q.run n us).2 := by
  induction us generalizing s q with
  | nil => exact ⟨s, rfl, h⟩
  | cons u us ih =>
    obtain ⟨hu, hrest⟩ := hus
    obtain ⟨s₁, hs₁, h₁⟩ := h.step hu
    rw [hs₁] at hrest
    obtain ⟨s₂, hs₂, h₂⟩ := ih h₁ hrest
    refine ⟨s₂, ?_, h₂⟩
    rw [Session.run, hs₁]
    dsimp only [bind, Except.bind]
    rw [hs₂]
    rfl

end Keeps

end Session

end MotionControl
