import MotionControl.Proofs.Ring.Ownership
import MotionControl.Proofs.Ring.Parts

/-!
# What a window starts from

Nobody but the ring remembers a segment that has been cleared, and of that only the exit speed. To
say that it remembers the right one, we watch the ring: after each use we look at the slots of the
published segments and note under each number what the slot with that number holds
(`Session.watch`). What is noted last under a number is what the segment was in the end.

A window starts with the exit speed noted under the number before its oldest segment
(`Session.boundary_of_disciplined`). It does not matter whether that segment is executing, finished
or cleared at the time, nor how the ring is used afterwards: a segment that has begun is not written
any more, so what is noted under its number stays.
-/

namespace MotionControl

variable {n : Nat}

namespace Ring

/-- The slots of the published segments that are not cleared, from the tail on. -/
def usedSlots (r : Ring n) : List Nat := (List.range (r.distance r.tail r.head)).map r.place

namespace Holds

variable {r : Ring n} {held : List Nat} {q : Fifo}

theorem usedSlots_eq (h : r.Holds held q) :
    r.usedSlots = (List.range q.entries.length).map r.place := by
  rw [usedSlots, h.distance_tail_head, Fifo.entries, List.length_append]

/-- The published segments lie in the first places. -/
theorem segment_place (h : r.Holds held q) {k : Nat} (hk : k < q.entries.length) :
    r.segment (r.place k) = q.entries[k].segment := by
  have hlength : q.cells.length = q.entries.length +
      (List.replicate (q.capacity - q.entries.length) Slot.cleared).length + 1 := by
    simp only [Fifo.cells, Fifo.entries, List.length_append, List.length_cons]
    omega
  have hcells : q.cells = q.entries ++
      ⟨q.head, .free⟩ :: List.replicate (q.capacity - q.entries.length) .cleared := by
    rw [Fifo.cells, Fifo.entries, List.append_assoc]
  rw [segment, h.slot_place (by omega)]
  simp only [hcells]
  rw [List.getElem_append_left hk]

/-- A window takes hold of what waits. -/
theorem map_slot_slots_lockWindow (h : r.Holds [] q) :
    r.lockWindow.1.slots.map r.slot = q.waiting := by
  rw [h.slots_lockWindow, h.filter_pendingSlots, Fifo.waiting]
  split
  · rw [List.map_tail, h.map_slot_pendingSlots]
  · exact h.map_slot_pendingSlots

/-- The oldest segment of a window lies behind all that have begun. -/
theorem oldest_slots_lockWindow (h : r.Holds [] q) {oldest : Nat} {rest : List Nat}
    (hslots : r.lockWindow.1.slots = oldest :: rest) : oldest = r.place q.started.length := by
  have hbegun := h.slots_lockWindow
  rw [hslots, h.filter_pendingSlots, h.pendingSlots_eq] at hbegun
  rw [Fifo.started, List.length_append]
  cases hp : q.pending with
  | nil => simp [hp] at hbegun
  | cons e pending =>
    rw [hp, List.length_cons, List.range'_succ, List.map_cons, List.tail_cons] at hbegun
    split at hbegun
    · next hb =>
      cases pending with
      | nil => cases hbegun
      | cons e' pending =>
        rw [if_pos hb]
        exact (List.cons.inj hbegun).1
    · next hb =>
      rw [if_neg hb]
      exact (List.cons.inj hbegun).1

end Holds

end Ring

namespace Session

/-- What is known of the segments by their numbers after a look at the ring: what is in it is known
as it is, and all else as it was seen last. -/
def look (s : Session n) (seen : Nat → Option Segment) (k : Nat) : Option Segment :=
  match s.ring.usedSlots.find? fun i => s.stamp i = k with
  | some i => some (s.ring.segment i)
  | none => seen k

/-- What is known after some uses of the ring, with a look at it after each of them. -/
def watch (s : Session n) (seen : Nat → Option Segment) : List Use → Nat → Option Segment
  | [] => seen
  | u :: us =>
    match s.step u with
    | .ok (_, s') => s'.watch (s'.look seen) us
    | .error _ => seen

/-- The speed at which the segment with a number starts: the exit speed of the one before it, and
zero for the first of all. -/
def speedBefore (seen : Nat → Option Segment) : Nat → Option Float32
  | 0 => some 0
  | k + 1 => (seen k).map Segment.exitSpeed

theorem watch_append {s s' : Session n} {us us' : List Use} {answers : List Answer}
    (hs : s.run us = .ok (answers, s')) (seen : Nat → Option Segment) :
    s.watch seen (us ++ us') = s'.watch (s.watch seen us) us' := by
  induction us generalizing s seen answers with
  | nil =>
    cases hs
    rfl
  | cons u us ih =>
    rw [Session.run] at hs
    obtain ⟨⟨answer, s₁⟩, hs₁, hs⟩ := Fault.bind_eq_ok.mp hs
    obtain ⟨⟨answers₁, s₂⟩, hs₂, hs⟩ := Fault.bind_eq_ok.mp hs
    cases hs
    rw [List.cons_append, watch, watch, hs₁]
    exact ih hs₂ _

end Session

/-! ## What a use does to the published segments

Publishing adds one behind all others, clearing takes the first one away, and no other use changes
how many there are. -/

/-- Whether a use leaves the number of published segments as it is. -/
def Use.isStill : Use → Bool
  | .publish | .reclaim | .resize _ => false
  | _ => true

/-- Refilling passes over what is not locked. -/
theorem Slot.getElem?_refill {ss : List Segment} {es : List Slot} {m : Nat} {e : Slot}
    (he : es[m]? = some e) (hstate : e.state ≠ .locked) : (refill ss es)[m]? = some e := by
  induction es generalizing ss m with
  | nil => cases he
  | cons a es ih =>
    cases ss with
    | nil => exact he
    | cons s ss =>
      rw [refill]
      cases m with
      | zero =>
        obtain rfl : a = e := Option.some.inj he
        have hl : ¬ a.isLocked = true := fun hl => hstate (of_decide_eq_true hl)
        rw [if_neg hl]
        rfl
      | succ m => split <;> exact ih he

namespace Fifo

variable {q : Fifo} {u : Use}

theorem length_entries_revise (q : Fifo) (ss : List Segment) :
    (q.revise ss).entries.length = q.entries.length := by
  simp [entries, revise]

theorem entries_finish (q : Fifo) : q.finish.2.entries = q.entries := by
  simp only [entries, finish]
  rw [List.append_assoc, ← q.overAtFinish_append_afterFinish]

theorem entries_abort (q : Fifo) : q.abort.entries = q.entries :=
  List.append_nil _

/-- A use that leaves the number of segments as it is drops nothing. -/
theorem step_of_isStill (hu : u.isStill = true) (built : Nat) :
    (q.step built u).2.entries.length = q.entries.length ∧
      (q.step built u).2.lastExitSpeed = q.lastExitSpeed ∧
      (q.step built u).2.capacity = q.capacity := by
  cases u with
  | publish => cases hu
  | reclaim => cases hu
  | resize len => cases hu
  | lockNewest =>
    rw [Fifo.step, Fifo.lockNewest]
    rcases q.pending.eq_nil_or_concat with hp | ⟨before, e, hp⟩
    · rw [hp]
      exact ⟨rfl, rfl, rfl⟩
    · rw [hp]
      rcases e with ⟨segment, state⟩
      cases state <;> simp [entries, hp]
  | begin =>
    rw [Fifo.step, Fifo.begin?]
    cases hp : q.pending with
    | nil => exact ⟨rfl, rfl, rfl⟩
    | cons e rest =>
      by_cases he : e.state = .locked ∨ e.state = .executing
      · simp [he]
      · simp [he, entries, hp]
  | finish i => exact ⟨congrArg List.length q.entries_finish, rfl, rfl⟩
  | abort => exact ⟨congrArg List.length q.entries_abort, rfl, rfl⟩
  | revise k f => exact ⟨q.length_entries_revise _, rfl, rfl⟩
  | _ => simp [Fifo.step, entries, Fifo.lockWindow, Fifo.unlock, Fifo.setHead, Fifo.setRunning,
      Fifo.setFlush]

/-! ## What is past

A segment that has begun is not held for revision, and nobody holds it afterwards. -/

/-- The segment with a number has been cleared, or it has begun and is not held. -/
def Past (q : Fifo) (gone : List Segment) (k : Nat) (segment : Segment) : Prop :=
  gone[k]? = some segment ∨ ∃ m e, k = gone.length + m ∧ q.started[m]? = some e ∧
    e.segment = segment ∧ e.state ≠ .locked

theorem started_revise (q : Fifo) (ss : List Segment) :
    (q.revise ss).started = Slot.refill ss q.started := by
  have hbegun := q.begun_revise ss
  by_cases h : q.begun = true
  · obtain ⟨s, rest, hp⟩ := pending_of_begun h
    have hsingle : ∀ ss, Slot.refill ss [⟨s, .executing⟩] = [⟨s, .executing⟩] :=
      fun ss => Slot.refill_of_not_locked ss rfl
    have hfirst : ∀ ss, (Slot.refill ss q.pending).take 1 = [⟨s, .executing⟩] := by
      intro ss
      rw [hp, ← List.singleton_append, Slot.refill_append, hsingle]
      rfl
    rw [started, started, hbegun, h, if_pos rfl, if_pos rfl, hp, List.take_succ_cons,
      List.take_zero, Slot.refill_append, hsingle, ← hfirst]
    rfl
  · rw [Bool.not_eq_true] at h
    rw [(parts_of_not_begun h).1, (parts_of_not_begun (hbegun.trans h)).1]
    rfl

/-- Most uses only add to what has begun. -/
theorem started_step (hrevise : ∀ k f, u ≠ .revise k f) (hunlock : u ≠ .unlock)
    (hreclaim : u ≠ .reclaim) (hresize : ∀ len, u ≠ .resize len) (built : Nat) :
    ∃ more, (q.step built u).2.started = q.started ++ more := by
  have hsame : ∀ {q' : Fifo}, q'.started = q.started → ∃ more, q'.started = q.started ++ more :=
    fun heq => ⟨[], by rw [heq, List.append_nil]⟩
  -- all that has begun is over with what is pending
  have hover : ∀ more, ∃ more', q.finished ++ (q.pending.take 1 ++ more) = q.started ++ more' := by
    intro more
    rw [started]
    split
    · exact ⟨more, (List.append_assoc _ _ _).symm⟩
    · exact ⟨q.pending.take 1 ++ more, by rw [List.append_nil]⟩
  cases u with
  | publish =>
    rw [Fifo.step, Fifo.publish]
    by_cases hroom : q.finished.length + q.pending.length < q.capacity
    · rw [if_pos hroom]
      exact hsame q.parts_push.1
    · rw [if_neg hroom]
      exact hsame rfl
  | lockNewest =>
    rw [Fifo.step, Fifo.lockNewest]
    rcases q.pending.eq_nil_or_concat with hp | ⟨before, ⟨s, state⟩, hp⟩
    · rw [hp]
      exact hsame rfl
    · rw [hp, List.concat_eq_append, List.getLast?_concat, List.dropLast_concat]
      rw [List.concat_eq_append] at hp
      cases state with
      | ready =>
        obtain ⟨-, -, -, hstarted⟩ := parts_newest hp (e := ⟨s, .locked⟩) (by simp)
        exact hsame hstarted
      | _ => exact hsame rfl
  | lockWindow => exact hsame q.parts_lockWindow.1
  | begin =>
    rw [Fifo.step, Fifo.begin?]
    cases hp : q.pending with
    | nil => exact hsame rfl
    | cons e rest =>
      by_cases he : e.state = .locked ∨ e.state = .executing
      · simp only [he, if_true]
        exact hsame rfl
      · simp only [he, if_false]
        have hbegun : q.begun = false := by
          rw [begun, hp]
          exact decide_eq_false fun hexec => he (.inr hexec)
        rw [(parts_of_not_begun hbegun).1]
        exact ⟨_, rfl⟩
  | finish i =>
    have hfirst : ∃ more, q.overAtFinish = q.pending.take 1 ++ more := by
      unfold overAtFinish
      split
      · exact ⟨_, (List.take_append_drop 1 _).symm⟩
      · exact ⟨[], (List.append_nil _).symm⟩
    obtain ⟨more, hmore⟩ := hfirst
    obtain ⟨more', hmore'⟩ := hover more
    refine ⟨more' ++ if q.finish.2.begun then q.finish.2.pending.take 1 else [], ?_⟩
    rw [← List.append_assoc, ← hmore', ← hmore]
    rfl
  | abort =>
    obtain ⟨more, hmore⟩ := hover (q.pending.drop 1)
    refine ⟨more, ?_⟩
    rw [← hmore, List.take_append_drop]
    exact List.append_nil _
  | revise k f => exact absurd rfl (hrevise k f)
  | unlock => exact absurd rfl hunlock
  | reclaim => exact absurd rfl hreclaim
  | resize len => exact absurd rfl (hresize len)
  | _ => exact hsame rfl

namespace Past

variable {gone : List Segment} {k : Nat} {segment : Segment}

theorem of_append {q' : Fifo} {more : List Slot} (h : q.Past gone k segment)
    (hstarted : q'.started = q.started ++ more) : q'.Past gone k segment := by
  obtain hgone | ⟨m, e, hk, he, hsegment, hstate⟩ := h
  · exact .inl hgone
  · refine .inr ⟨m, e, hk, ?_, hsegment, hstate⟩
    have hlt := (List.getElem?_eq_some_iff.mp he).1
    rw [hstarted, List.getElem?_append_left hlt, he]

/-- What is past stays past. -/
theorem step (h : q.Past gone k segment) (hu : u ≠ .reclaim) (built : Nat) :
    (q.step built u).2.Past gone k segment := by
  by_cases hmost : (∀ k f, u ≠ .revise k f) ∧ u ≠ .unlock ∧ ∀ len, u ≠ .resize len
  · obtain ⟨more, hmore⟩ := q.started_step hmost.1 hmost.2.1 hu hmost.2.2 built
    exact h.of_append hmore
  · obtain hgone | ⟨m, e, hk, he, hsegment, hstate⟩ := h
    · exact .inl hgone
    · refine .inr ⟨m, ?_⟩
      cases u with
      | revise k f =>
        refine ⟨e, hk, ?_, hsegment, hstate⟩
        change (q.revise _).started[m]? = _
        rw [started_revise, Slot.getElem?_refill he hstate]
      | unlock =>
        refine ⟨e.unlock, hk, ?_, e.segment_unlock.trans hsegment, ?_⟩
        · change q.unlock.started[m]? = _
          rw [q.parts_unlock.1, List.getElem?_map, he]
          rfl
        · unfold Slot.unlock
          split
          · simp
          · exact hstate
      | resize len =>
        have hentries : q.entries ≠ [] := by
          intro hnone
          rw [q.entries_eq, List.append_eq_nil_iff] at hnone
          rw [hnone.1] at he
          cases he
        refine ⟨e, hk, ?_, hsegment, hstate⟩
        rw [Fifo.step, if_pos hentries]
        exact he
      | reclaim => exact absurd rfl hu
      | _ => exact absurd (by simp) hmost

theorem reclaim {e : Slot} {rest : List Slot} (h : q.Past gone k segment)
    (hf : q.finished = e :: rest) : q.reclaim.Past (gone ++ [e.segment]) k segment := by
  have hstarted : q.started = e :: q.reclaim.started := by
    have hbegun : q.reclaim.begun = q.begun := rfl
    rw [started, started, hbegun, Fifo.reclaim, hf]
    rfl
  obtain hgone | ⟨m, e', hk, he, hsegment, hstate⟩ := h
  · have hlt := (List.getElem?_eq_some_iff.mp hgone).1
    exact .inl (by rw [List.getElem?_append_left hlt, hgone])
  · rw [hstarted] at he
    cases m with
    | zero =>
      obtain rfl : e = e' := Option.some.inj he
      exact .inl (by rw [hk, ← hsegment]; simp)
    | succ m => exact .inr ⟨m, e', by simp; omega, he, hsegment, hstate⟩

end Past

end Fifo

namespace Session

variable {s s' : Session n} {q : Fifo} {u : Use} {answer : Answer} {gone : List Segment}
  {seen : Nat → Option Segment}

/-! ## What has been noted -/

/-- The segments are numbered as they came: first those that have been cleared, of which the ring
remembers the last exit speed, then those in the ring. -/
structure Dated (s : Session n) (q : Fifo) (gone : List Segment) : Prop where
  /-- the numbers of the segments in the ring -/
  stamp_eq : ∀ k, k < q.entries.length → s.stamp (s.ring.place k) = gone.length + k
  /-- no number is left out -/
  published_eq : s.published = gone.length + q.entries.length
  /-- the speed that is remembered -/
  lastExitSpeed_eq : q.lastExitSpeed = Segment.endOf 0 gone

/-- Everything is noted, under the right number. -/
structure Noted (s : Session n) (q : Fifo) (gone : List Segment)
    (seen : Nat → Option Segment) : Prop extends s.Dated q gone where
  /-- what is noted is all there has been -/
  seen_eq : ∀ k, seen k = (gone ++ q.entries.map Slot.segment)[k]?

/-- A look at the ring finds the segments in it. -/
theorem Dated.look_eq (hd : s.Dated q gone) (h : s.ring.Holds s.held q) (k : Nat) :
    s.look seen k = if gone.length ≤ k ∧ k < s.published then
      (q.entries.map Slot.segment)[k - gone.length]? else seen k := by
  have hpublished := hd.published_eq
  have hlt := h.head_place_lt
  have hlength : q.entries.length = q.finished.length + q.pending.length := List.length_append
  split
  · next hk =>
    have hin : k - gone.length < q.entries.length := by omega
    have hfind : s.ring.usedSlots.find? (fun i => s.stamp i = k) =
        some (s.ring.place (k - gone.length)) := by
      rw [h.usedSlots_eq, List.find?_map, Option.map_eq_some_iff]
      refine ⟨k - gone.length, ?_, rfl⟩
      rw [List.find?_range_eq_some]
      refine ⟨?_, List.mem_range.mpr hin, fun j hj => ?_⟩
      · have := hd.stamp_eq _ hin
        simp only [Function.comp, decide_eq_true_eq]
        omega
      · have := hd.stamp_eq j (by omega)
        simp only [Function.comp, Bool.not_eq_true', decide_eq_false_iff_not]
        omega
    rw [look, hfind]
    dsimp only
    rw [h.segment_place hin, List.getElem?_map, List.getElem?_eq_getElem hin]
    rfl
  · next hk =>
    have hfind : s.ring.usedSlots.find? (fun i => s.stamp i = k) = none := by
      rw [h.usedSlots_eq, List.find?_eq_none]
      intro i hi
      obtain ⟨j, hj, rfl⟩ := List.mem_map.mp hi
      have hj := List.mem_range.mp hj
      have := hd.stamp_eq j hj
      simp only [decide_eq_true_eq]
      omega
    rw [look, hfind]

/-- What is noted stays right, if the cleared segments are the first ones of those there were. -/
theorem Noted.look (hn : s.Noted q gone seen) {q' : Fifo} {gone' more : List Segment}
    (hd : s'.Dated q' gone') (h : s'.ring.Holds s'.held q') (hle : s.published ≤ s'.published)
    (hgone : gone ++ q.entries.map Slot.segment = gone' ++ more) :
    s'.Noted q' gone' (s'.look seen) := by
  refine ⟨hd, fun k => ?_⟩
  have hpublished := hn.published_eq
  have hpublished' := hd.published_eq
  rw [hd.look_eq h k, hn.seen_eq, hgone]
  have hlength := congrArg List.length hgone
  simp only [List.length_append, List.length_map] at hlength
  split
  · next hk => rw [List.getElem?_append_right hk.1]
  · next hk =>
    rcases Nat.lt_or_ge k gone'.length with hlt | hge
    · rw [List.getElem?_append_left hlt, List.getElem?_append_left hlt]
    · rw [List.getElem?_eq_none, List.getElem?_eq_none] <;>
        simp only [List.length_append, List.length_map] <;> omega

/-- A use that leaves the number of segments as it is leaves the numbers as they are. -/
theorem Dated.still (hd : s.Dated q gone) (h : s.Keeps q) (hs : s.step u = .ok (answer, s'))
    (h' : s'.Keeps (q.step n u).2) (hu : u.isStill = true) : s'.Dated (q.step n u).2 gone := by
  have htail : s'.ring.tail = s.ring.tail :=
    tail_step hs (by rintro rfl; cases hu) (by rintro len rfl; cases hu)
  obtain ⟨hstamp, hpublished⟩ := (numbers_step hs).1 (by rintro rfl; cases hu)
  obtain ⟨hlength, hspeed, hcapacity⟩ := Fifo.step_of_isStill (q := q) hu n
  refine ⟨fun k hk => ?_, ?_, hspeed.trans hd.lastExitSpeed_eq⟩
  · rw [h.place_eq h'.holds htail hcapacity, hstamp]
    exact hd.stamp_eq k (by omega)
  · rw [hpublished, hlength]
    exact hd.published_eq

/-- Publishing gives the next number to the slot of the head. -/
theorem Dated.publish (hd : s.Dated q gone) (h : s.Keeps q)
    (hs : s.step .publish = .ok (answer, s')) (h' : s'.Keeps (q.step n .publish).2) :
    s'.Dated (q.step n .publish).2 gone ∧ s.published ≤ s'.published := by
  rw [Session.step] at hs
  by_cases hroom : q.finished.length + q.pending.length < q.capacity
  · obtain ⟨r', hr', hholds⟩ := h.holds.publish_of_room hroom
    have hplace := h.place_eq hholds (Ring.tail_publish hr') rfl
    have hstep : (q.step n .publish).2 = q.push := by rw [Fifo.step, Fifo.publish, if_pos hroom]
    have hentries : q.push.entries = q.entries ++ [⟨q.head, .ready⟩] := by
      rw [Fifo.entries, Fifo.entries, List.append_assoc]
      rfl
    have hlength : q.entries.length = q.finished.length + q.pending.length := List.length_append
    have hhead := h.holds.head_place_lt
    have hpublished := hd.published_eq
    rw [hr'] at hs
    cases hs
    rw [hstep]
    refine ⟨⟨fun k hk => ?_, ?_, hd.lastExitSpeed_eq⟩, Nat.le_succ _⟩
    · change (if r'.place k = s.ring.head then s.published else s.stamp (r'.place k)) = _
      rw [hentries, List.length_append, List.length_singleton] at hk
      rw [hplace, h.holds.head_eq]
      by_cases hlast : k = q.finished.length + q.pending.length
      · rw [hlast, if_pos rfl]
        omega
      · rw [if_neg fun heq => hlast ((Ring.place_inj (by omega) hhead).mp heq)]
        exact hd.stamp_eq k (by omega)
    · change s.published + 1 = _
      rw [hentries, List.length_append, List.length_singleton]
      omega
  · have hstep : (q.step n .publish).2 = q := by rw [Fifo.step, Fifo.publish, if_neg hroom]
    rw [h.holds.publish_of_full hroom] at hs
    cases hs
    rw [hstep]
    exact ⟨hd, Nat.le_refl _⟩

/-- Clearing a segment moves all others to the place before. -/
theorem Dated.reclaim (hd : s.Dated q gone) (h : s.Keeps q) {e : Slot} {rest : List Slot}
    (hf : q.finished = e :: rest) (hs : s.step .reclaim = .ok (answer, s'))
    (h' : s'.Keeps q.reclaim) :
    s'.Dated q.reclaim (gone ++ [e.segment]) := by
  rw [Session.step] at hs
  obtain ⟨ring, hring, hs⟩ := Fault.bind_eq_ok.mp hs
  cases hs
  have hentries : q.entries = e :: q.reclaim.entries := by
    rw [Fifo.entries, Fifo.entries, Fifo.reclaim, hf]
    rfl
  have hlength : q.entries.length = q.finished.length + q.pending.length := List.length_append
  have hhead := h.holds.head_place_lt
  have hpublished := hd.published_eq
  rw [hentries, List.length_cons] at hpublished hlength
  refine ⟨fun k hk => ?_, ?_, ?_⟩
  · have hplace : ring.place k = s.ring.place (k + 1) := by
      rw [← Ring.place_tail_next h.holds.tail_lt (by omega)]
      exact Ring.place_congr (Ring.tail_reclaim hring)
        (by rw [h'.holds.len_eq, h.holds.len_eq]; rfl) k
    have := hd.stamp_eq (k + 1) (by rw [hentries, List.length_cons]; omega)
    change s.stamp (ring.place k) = _
    rw [hplace, this, List.length_append, List.length_singleton]
    omega
  · change s.published = _
    rw [List.length_append, List.length_singleton]
    omega
  · rw [Segment.endOf_append, Fifo.reclaim, hf]
    rfl

/-- Only an empty ring changes its size, and there is nothing in it that has a number. -/
theorem Dated.resize (hd : s.Dated q gone) (h : s.Keeps q) {len : Nat}
    (hs : s.step (.resize len) = .ok (answer, s')) :
    s'.Dated (q.step n (.resize len)).2 gone := by
  have hpublished := hd.published_eq
  have hspeed := hd.lastExitSpeed_eq
  by_cases hentries : q.entries = []
  · have hempty : (q.step n (.resize len)).2.entries = [] ∧
        (q.step n (.resize len)).2.lastExitSpeed = q.lastExitSpeed := by
      rw [Fifo.step, if_neg (not_not_intro hentries)]
      split
      · exact ⟨rfl, rfl⟩
      · exact ⟨hentries, rfl⟩
    refine ⟨fun k hk => ?_, ?_, hempty.2.trans hspeed⟩
    · rw [hempty.1] at hk
      exact absurd hk (Nat.not_lt_zero k)
    · rw [hempty.1, ((numbers_step hs).1 (by simp)).2, hpublished, hentries]
  · have hstep : (q.step n (.resize len)).2 = q := by rw [Fifo.step, if_pos hentries]
    have hempty : s.ring.isEmpty = false := by
      rw [← Bool.not_eq_true, h.holds.isEmpty_iff, ← List.append_eq_nil_iff]
      exact hentries
    rw [Session.step, Ring.resize, hempty] at hs
    cases hs
    rw [hstep]
    exact hd

/-- What is noted stays right, whatever the next proper use is, and so does what is past. -/
theorem Noted.step (hn : s.Noted q gone seen) (h : s.Keeps q) (hu : s.Allows u) :
    ∃ s' gone', s.step u = .ok ((q.step n u).1, s') ∧ s'.Keeps (q.step n u).2 ∧
      s'.Noted (q.step n u).2 gone' (s'.look seen) ∧
      ∀ k segment, q.Past gone k segment → (q.step n u).2.Past gone' k segment := by
  obtain ⟨s', hs, h'⟩ := h.step hu
  by_cases hpublish : u = .publish
  · subst hpublish
    obtain ⟨hd, hle⟩ := hn.publish h hs h'
    exact ⟨s', gone, hs, h', hn.look hd h'.holds hle rfl,
      fun k segment hpast => hpast.step (by simp) n⟩
  have hle := Nat.le_of_eq ((numbers_step hs).1 hpublish).2.symm
  by_cases hreclaim : u = .reclaim
  · subst hreclaim
    obtain ⟨e, rest, hf⟩ := List.exists_cons_of_ne_nil (h.holds.hasFinished_iff.mp hu.1)
    have hgone : gone ++ q.entries.map Slot.segment =
        (gone ++ [e.segment]) ++ (rest ++ q.pending).map Slot.segment := by
      rw [Fifo.entries, hf]
      simp
    exact ⟨s', _, hs, h', hn.look (hn.reclaim h hf hs h') h'.holds hle hgone,
      fun k segment hpast => hpast.reclaim hf⟩
  have hd : s'.Dated (q.step n u).2 gone := by
    by_cases hstill : u.isStill = true
    · exact hn.still h hs h' hstill
    · cases u with
      | publish => exact absurd rfl hpublish
      | reclaim => exact absurd rfl hreclaim
      | resize len => exact hn.resize h hs
      | _ => exact absurd rfl hstill
  exact ⟨s', gone, hs, h', hn.look hd h'.holds hle rfl,
    fun k segment hpast => hpast.step hreclaim n⟩

theorem Noted.run (hn : s.Noted q gone seen) (h : s.Keeps q) {us : List Use}
    (hus : s.Disciplined us) :
    ∃ answers s' q' gone', s.run us = .ok (answers, s') ∧ s'.Keeps q' ∧
      s'.Noted q' gone' (s.watch seen us) ∧
      ∀ k segment, q.Past gone k segment → q'.Past gone' k segment := by
  induction us generalizing s q gone seen with
  | nil => exact ⟨[], s, q, gone, rfl, h, hn, fun _ _ hpast => hpast⟩
  | cons u us ih =>
    obtain ⟨hu, hrest⟩ := hus
    obtain ⟨s₁, gone₁, hs₁, h₁, hn₁, hpast₁⟩ := hn.step h hu
    rw [hs₁] at hrest
    obtain ⟨answers, s₂, q₂, gone₂, hs₂, h₂, hn₂, hpast₂⟩ := ih hn₁ h₁ hrest
    refine ⟨_, s₂, q₂, gone₂, Keeps.run_cons hs₁ hs₂, h₂, ?_, fun k segment hpast =>
      hpast₂ k segment (hpast₁ k segment hpast)⟩
    rw [watch, hs₁]
    exact hn₂

/-- What is past is noted. -/
theorem Noted.seen_of_past (hn : s.Noted q gone seen) {k : Nat} {segment : Segment}
    (hpast : q.Past gone k segment) : seen k = some segment := by
  rw [hn.seen_eq, q.entries_eq, List.map_append, ← List.append_assoc]
  obtain hgone | ⟨m, e, rfl, he, rfl, -⟩ := hpast
  · have hlt := (List.getElem?_eq_some_iff.mp hgone).1
    rw [List.append_assoc, List.getElem?_append_left hlt, hgone]
  · have hlt := (List.getElem?_eq_some_iff.mp he).1
    rw [List.getElem?_append_left (by simp; omega), List.getElem?_append_right (by omega),
      Nat.add_sub_cancel_left, List.getElem?_map, he]
    rfl

/-- A window starts with the exit speed of the segment before its oldest one, which is past. -/
theorem Noted.boundary (hn : s.Noted q gone seen) (h : s.ring.Holds [] q) {oldest : Nat}
    {rest : List Nat} (hslots : s.ring.lockWindow.1.slots = oldest :: rest) :
    (s.stamp oldest = 0 ∧ s.ring.lockWindow.1.boundary = 0) ∨
      ∃ k segment, s.stamp oldest = k + 1 ∧ q.Past gone k segment ∧
        s.ring.lockWindow.1.boundary = segment.exitSpeed := by
  have hwaiting := h.map_slot_slots_lockWindow
  rw [hslots, List.map_cons] at hwaiting
  have hne : q.waiting ≠ [] := by
    rw [← hwaiting]
    exact List.cons_ne_nil _ _
  have hlength : q.started.length < q.entries.length := by
    rw [q.entries_eq, List.length_append, ← hwaiting, List.length_cons]
    omega
  have holdest : oldest = s.ring.place q.started.length := h.oldest_slots_lockWindow hslots
  have hstamp := hn.stamp_eq _ hlength
  have hboundary : s.ring.lockWindow.1.boundary =
      Segment.endOf 0 (gone ++ q.started.map Slot.segment) := by
    rw [h.boundary_lockWindow hne, Fifo.boundary, hn.lastExitSpeed_eq, Segment.endOf_append]
  rw [holdest, hstamp, hboundary]
  rcases q.started.eq_nil_or_concat with hnone | ⟨before, e, hlast⟩
  · rcases gone.eq_nil_or_concat with rfl | ⟨gone, segment, rfl⟩
    · rw [hnone]
      exact .inl ⟨rfl, rfl⟩
    · refine .inr ⟨gone.length, segment, by simp [hnone], .inl (by simp), ?_⟩
      simp [hnone, Segment.endOf]
  · rw [List.concat_eq_append] at hlast
    refine .inr ⟨gone.length + before.length, e.segment, ?_, ?_, ?_⟩
    · rw [hlast, List.length_append, List.length_singleton, Nat.add_assoc]
    · refine .inr ⟨before.length, e, rfl, by simp [hlast], rfl, h.not_locked e ?_⟩
      rw [q.entries_eq, hlast]
      simp
    · simp [hlast, Segment.endOf]

/-- What a slot in use holds is noted under its number. -/
theorem Noted.seen_stamp (hn : s.Noted q gone seen) (h : s.Keeps q) {i : Nat}
    (hi : i ∈ s.ring.usedSlots) : seen (s.stamp i) = some (s.ring.segment i) := by
  rw [h.holds.usedSlots_eq] at hi
  obtain ⟨k, hk, rfl⟩ := List.mem_map.mp hi
  have hk := List.mem_range.mp hk
  rw [hn.seen_eq, hn.stamp_eq k hk, List.getElem?_append_right (Nat.le_add_right _ _),
    Nat.add_sub_cancel_left, List.getElem?_map, List.getElem?_eq_getElem hk,
    h.holds.segment_place hk]
  rfl

/-- However a ring has been used, if properly, a window starts with the exit speed of the segment
published just before its oldest one, and with zero if there is none. That segment keeps its exit
speed, however the ring is used afterwards. -/
theorem boundary_of_disciplined {len : Nat} {r : Ring n} (hr : Ring.new n len = .ok r)
    {us : List Use} (hus : (Session.ofRing r).Disciplined us) :
    ∃ answers s, (Session.ofRing r).run us = .ok (answers, s) ∧
      (∀ i ∈ s.ring.usedSlots,
        (Session.ofRing r).watch (fun _ => none) us (s.stamp i) = some (s.ring.segment i)) ∧
      (s.guard = none → ∀ oldest rest, s.ring.lockWindow.1.slots = oldest :: rest →
        ∀ us', s.Disciplined us' →
          speedBefore ((Session.ofRing r).watch (fun _ => none) (us ++ us')) (s.stamp oldest) =
            some s.ring.lockWindow.1.boundary) := by
  have h₀ := Keeps.ofNew hr
  have hn₀ : (Session.ofRing r).Noted (.ofCapacity (len - 1)) [] fun _ => none := {
    stamp_eq := fun k hk => absurd hk (Nat.not_lt_zero k)
    published_eq := rfl
    lastExitSpeed_eq := rfl
    seen_eq := fun _ => rfl }
  obtain ⟨answers, s, q, gone, hs, h, hn, -⟩ := hn₀.run h₀ hus
  refine ⟨answers, s, hs, fun i hi => hn.seen_stamp h hi, fun hg oldest rest hslots us' hus' => ?_⟩
  have hholds : s.ring.Holds [] q := by
    have := h.holds
    rwa [held, hg] at this
  obtain ⟨-, s', q', gone', -, -, hn', hpast'⟩ := hn.run h hus'
  rw [watch_append hs]
  obtain ⟨hzero, hspeed⟩ | ⟨k, segment, hk, hpast, hspeed⟩ := hn.boundary hholds hslots
  · rw [hzero, hspeed, speedBefore]
  · rw [hk, hspeed, speedBefore, hn'.seen_of_past (hpast' k segment hpast)]
    rfl

/-- A segment is cleared before the next one is published: the ring remembers its exit speed, and
revising the next one changes nothing about it. -/
theorem boundary_after_reclaim :
    ∃ answers s, (Session.ofRing (Ring.ofLen 3 (by decide) (by decide) : Ring 3)).run
      [.write fun e => { e with exitSpeed := 7 }, .publish, .begin, .finish 0, .reclaim,
        .publish] = .ok (answers, s) ∧ s.ring.lockWindow.1.slots = [1] ∧ s.stamp 1 = 1 ∧
      s.ring.lockWindow.1.boundary = 7 ∧
      speedBefore ((Session.ofRing (Ring.ofLen 3 (by decide) (by decide) : Ring 3)).watch
        (fun _ => none) [.write fun e => { e with exitSpeed := 7 }, .publish, .begin, .finish 0,
          .reclaim, .publish, .lockWindow, .revise 0 fun e => { e with exitSpeed := 9 }]) 1 =
        some 7 := by
  have hus : (Session.ofRing (Ring.ofLen 3 (by decide) (by decide) : Ring 3)).Disciplined
      [.write fun e => { e with exitSpeed := 7 }, .publish, .begin, .finish 0, .reclaim,
        .publish] := by decide
  obtain ⟨answers, s, hs, -, h⟩ :=
    boundary_of_disciplined (show Ring.new 3 3 = .ok _ from rfl) hus
  obtain ⟨rfl, rfl⟩ := Prod.mk.inj (Except.ok.inj (hs.symm.trans rfl))
  exact ⟨_, _, hs, rfl, rfl, rfl, h rfl 1 [] rfl
    [.lockWindow, .revise 0 fun e => { e with exitSpeed := 9 }] (by decide)⟩

end Session

end MotionControl
