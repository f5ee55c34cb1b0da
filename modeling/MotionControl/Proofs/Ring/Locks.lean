import MotionControl.Proofs.Ring.Holds

/-!
# Holding segments for revision

What locking, revising and unlocking do to the queue a ring stands for. Locks are given by slot
number and taken in the order of the queue, so the segments held are the locked entries of the
queue, oldest first (`Ring.Holds.segments_held`). Nothing here depends on whether those entries
are still pending: the interrupt may have dropped them while they were held.
-/

namespace MotionControl.Ring

variable {n : Nat}

/-! ## Slot by slot -/

theorem slot_setSegment (r : Ring n) {i : Nat} (hi : i < n) (j : Nat) (s : Segment) :
    (r.setSegment i s).slot j = if i = j then { r.slot j with segment := s } else r.slot j := by
  rw [setSegment, slot_setSlot r hi]
  split
  · next h => rw [h]
  · rfl

theorem slot_setState (r : Ring n) {i : Nat} (hi : i < n) (j : Nat) (s : SlotState) :
    (r.setState i s).slot j = if i = j then { r.slot j with state := s } else r.slot j := by
  rw [setState, slot_setSlot r hi]
  split
  · next h => rw [h]
  · rfl

theorem setSegment_self (r : Ring n) {i : Nat} (hi : i < n) :
    r.setSegment i (r.segment i) = r := by
  have hslot : r.slot i = r.slots[i] := by simp [slot, hi]
  have hset : r.slots.setIfInBounds i r.slots[i] = r.slots := by
    apply Vector.ext
    intro j hj
    rw [Vector.getElem_setIfInBounds]
    split
    · next h => simp only [h]
    · rfl
  change { r with slots := r.slots.setIfInBounds i (r.slot i) } = r
  rw [hslot, hset]

/-- Locking changes slots and nothing else. -/
theorem lock?_eq {r r' : Ring n} {i : Nat} (h : r.lock? i = some r') :
    ∃ slots, r' = { r with slots := slots } := by
  unfold lock? at h
  split at h
  · cases h
    exact ⟨_, rfl⟩
  · cases h

theorem lockNewest_eq {r r' : Ring n} {i : Nat} (h : r.lockNewest = some (i, r')) :
    ∃ slots, r' = { r with slots := slots } := by
  unfold lockNewest at h
  split at h
  · obtain ⟨r₁, hlock, heq⟩ := Option.map_eq_some_iff.mp h
    cases heq
    exact lock?_eq hlock
  · cases h

theorem lockBack_eq (r : Ring n) (count i : Nat) (held : List Nat) :
    ∃ slots, (lockBack count i held r).2 = { r with slots := slots } := by
  induction count generalizing r i held with
  | zero => exact ⟨_, rfl⟩
  | succ count ih =>
    rw [lockBack]
    split
    · next locked hlock =>
      obtain ⟨slots₁, rfl⟩ := lock?_eq hlock
      obtain ⟨slots, hslots⟩ := ih { r with slots := slots₁ } (r.prev i) (r.prev i :: held)
      exact ⟨slots, hslots⟩
    · exact ⟨_, rfl⟩

theorem lockWindow_eq (r : Ring n) :
    ∃ slots, r.lockWindow.2 = { r with slots := slots } := r.lockBack_eq _ _ _

/-- Revising segments changes slots and nothing else. -/
theorem setSegments_eq (r : Ring n) (is : List Nat) (ss : List Segment) :
    ∃ slots, r.setSegments is ss = { r with slots := slots } := by
  induction is generalizing r ss with
  | nil => exact ⟨r.slots, by cases ss <;> rfl⟩
  | cons i is ih =>
    cases ss with
    | nil => exact ⟨r.slots, rfl⟩
    | cons s ss =>
      obtain ⟨slots, hslots⟩ := ih (r.setSegment i s) ss
      exact ⟨slots, hslots⟩

theorem slot_setSegments_of_not_mem (r : Ring n) {is : List Nat} (hin : ∀ i ∈ is, i < n)
    (ss : List Segment) {j : Nat} (hj : j ∉ is) : (r.setSegments is ss).slot j = r.slot j := by
  induction is generalizing r ss with
  | nil => cases ss <;> rfl
  | cons i is ih =>
    cases ss with
    | nil => rfl
    | cons s ss =>
      have hne : i ≠ j := fun h => hj (h ▸ List.mem_cons_self)
      rw [setSegments, ih _ (fun k hk => hin k (List.mem_cons_of_mem _ hk)) ss
        (fun h => hj (List.mem_cons_of_mem _ h)), slot_setSegment r (hin i List.mem_cons_self),
        if_neg hne]

/-- Revising the locked ones among some slots refills the locked ones among their contents. -/
theorem map_slot_setSegments (r : Ring n) {is : List Nat} (hin : ∀ i ∈ is, i < n)
    (hnodup : is.Nodup) (ss : List Segment) :
    is.map (r.setSegments (is.filter fun i => decide (r.state i = .locked)) ss).slot =
      Slot.refill ss (is.map r.slot) := by
  induction is generalizing r ss with
  | nil => cases ss <;> rfl
  | cons i is ih =>
    obtain ⟨hi, hrest⟩ := List.nodup_cons.mp hnodup
    have hin' : ∀ j ∈ is, j < n := fun j hj => hin j (List.mem_cons_of_mem _ hj)
    have hfilter : ∀ j ∈ is.filter (fun i => decide (r.state i = .locked)), j ∈ is :=
      fun j hj => (List.mem_filter.mp hj).1
    cases ss with
    | nil =>
      cases (i :: is).filter fun i => decide (r.state i = .locked) <;>
        simp [setSegments]
    | cons s ss =>
      by_cases hl : r.state i = .locked
      · -- the first slot is revised, and not touched again afterwards
        have hne : ∀ j ∈ is, i ≠ j := fun j hj h => hi (h ▸ hj)
        have hlater : ∀ j ∈ is, (r.setSegment i s).slot j = r.slot j := by
          intro j hj
          rw [slot_setSegment r (hin i List.mem_cons_self), if_neg (hne j hj)]
        have hsame : is.filter (fun j => decide (r.state j = .locked)) =
            is.filter fun j => decide ((r.setSegment i s).state j = .locked) := by
          apply List.filter_congr
          intro j hj
          rw [state, state, hlater j hj]
        have hlocked : (r.slot i).isLocked = true := decide_eq_true hl
        have hcons : (i :: is).filter (fun i => decide (r.state i = .locked)) =
            i :: is.filter fun i => decide (r.state i = .locked) := by simp [hl]
        rw [hcons, setSegments, List.map_cons, List.map_cons,
          Slot.refill, if_pos hlocked,
          slot_setSegments_of_not_mem _ (fun j hj => hin' j (hfilter j hj)) _
            (fun h => hi (hfilter i h)),
          slot_setSegment r (hin i List.mem_cons_self), if_pos rfl, hsame,
          ih (r.setSegment i s) hin' hrest ss]
        congr 2
        exact List.map_congr_left hlater
      · have hlocked : ¬ (r.slot i).isLocked = true := fun h => hl (of_decide_eq_true h)
        have hcons : (i :: is).filter (fun i => decide (r.state i = .locked)) =
            is.filter fun i => decide (r.state i = .locked) := by simp [hl]
        rw [hcons, List.map_cons, List.map_cons, Slot.refill,
          if_neg hlocked, slot_setSegments_of_not_mem _ (fun j hj => hin' j (hfilter j hj)) _
            (fun h => hi (hfilter i h)), ih r hin' hrest (s :: ss)]

/-- Giving locks back changes slots and nothing else. -/
theorem unlock_eq (r : Ring n) (held : List Nat) :
    ∃ slots, r.unlock held = { r with slots := slots } := by
  induction held generalizing r with
  | nil => exact ⟨r.slots, rfl⟩
  | cons i held ih =>
    obtain ⟨slots, hslots⟩ := ih (r.setState i .ready)
    exact ⟨slots, hslots⟩

theorem slot_unlock (r : Ring n) {held : List Nat} (hin : ∀ i ∈ held, i < n) (j : Nat) :
    (r.unlock held).slot j = if j ∈ held then { r.slot j with state := .ready } else r.slot j := by
  induction held generalizing r with
  | nil => rfl
  | cons i held ih =>
    have hin' : ∀ j ∈ held, j < n := fun j hj => hin j (List.mem_cons_of_mem _ hj)
    change ((r.setState i .ready).unlock held).slot j = _
    rw [ih _ hin', slot_setState r (hin i List.mem_cons_self)]
    by_cases hj : j ∈ held
    · by_cases hij : i = j <;> simp [hj, hij]
    · by_cases hij : i = j
      · simp [hij]
      · simp [hj, hij, Ne.symm hij]

theorem setSegments_segments (r : Ring n) {is : List Nat} (hin : ∀ i ∈ is, i < n) :
    r.setSegments is (r.segments is) = r := by
  induction is with
  | nil => rfl
  | cons i is ih =>
    rw [segments, List.map_cons, setSegments, setSegment_self r (hin i List.mem_cons_self)]
    exact ih fun j hj => hin j (List.mem_cons_of_mem _ hj)

/-- Revising one of the held segments is revising them all, the others to what they are. -/
theorem setSegments_set (r : Ring n) {is : List Nat} (hin : ∀ i ∈ is, i < n)
    (hnodup : is.Nodup) {k : Nat} (hk : k < is.length) (s : Segment) :
    r.setSegments is ((r.segments is).set k s) = r.setSegment is[k] s := by
  induction is generalizing k with
  | nil => exact absurd hk (Nat.not_lt_zero k)
  | cons i is ih =>
    obtain ⟨hi, hrest⟩ := List.nodup_cons.mp hnodup
    have hin' : ∀ j ∈ is, j < n := fun j hj => hin j (List.mem_cons_of_mem _ hj)
    cases k with
    | zero =>
      have hsame : r.segments is = (r.setSegment i s).segments is := by
        apply List.map_congr_left
        intro j hj
        have hne : ¬ i = j := fun h => hi (h ▸ hj)
        rw [segment, segment, slot_setSegment r (hin i List.mem_cons_self), if_neg hne]
      -- the others are revised to what they are
      change (r.setSegment i s).setSegments is (r.segments is) = r.setSegment i s
      rw [hsame]
      exact setSegments_segments _ hin'
    | succ k =>
      change (r.setSegment i (r.segment i)).setSegments is ((r.segments is).set k s) = _
      rw [setSegment_self r (hin i List.mem_cons_self)]
      exact ih hin' hrest _

/-! ## Locking backwards -/

theorem getElem_map_middle {α : Type} (f : α → α) (as bs cs : List α) {k : Nat}
    (hk : k < (as ++ (bs ++ cs)).length) (hk' : k < (as ++ (bs.map f ++ cs)).length) :
    (if as.length ≤ k ∧ k < as.length + bs.length then f (as ++ (bs ++ cs))[k]
      else (as ++ (bs ++ cs))[k]) = (as ++ (bs.map f ++ cs))[k] := by
  by_cases ha : k < as.length
  · rw [if_neg (by omega), List.getElem_append_left ha, List.getElem_append_left ha]
  · have ha := Nat.le_of_not_lt ha
    rw [List.getElem_append_right ha, List.getElem_append_right ha]
    by_cases hb : k - as.length < bs.length
    · rw [if_pos (by omega), List.getElem_append_left hb,
        List.getElem_append_left (by rwa [List.length_map]), List.getElem_map]
    · have hb := Nat.le_of_not_lt hb
      rw [if_neg (by omega), List.getElem_append_right hb,
        List.getElem_append_right (by rwa [List.length_map])]
      simp only [List.length_map]

theorem slot_lock_place {r : Ring n} (ht : r.tail < r.len) {j k : Nat} (hj : j < r.len)
    (hk : k < r.len) (hr : r.state (r.place j) = .ready) :
    (r.setState (r.place j) .locked).slot (r.place k) =
      if j = k then (r.slot (r.place k)).lock else r.slot (r.place k) := by
  rw [slot_setState r (place_lt_built ht (Nat.le_of_lt hj))]
  simp only [place_inj hj hk]
  split
  · next heq =>
    subst heq
    exact (Slot.lock_of_ready hr).symm
  · rfl

theorem state_lock_place {r : Ring n} (ht : r.tail < r.len) {j k : Nat} (hj : j < r.len)
    (hr : r.state (r.place j) = .ready) (hk : k < j) :
    (r.setState (r.place j) .locked).state (r.place k) = r.state (r.place k) := by
  rw [state, slot_lock_place ht hj (by omega) hr, if_neg (by omega), state]

theorem lockBack_of_ready {r : Ring n} (ht : r.tail < r.len) {k : Nat} (hk : k < r.len)
    (count : Nat) (held : List Nat) (hr : r.state (r.place k) = .ready) :
    lockBack (count + 1) (r.place (k + 1)) held r =
      lockBack count (r.place k) (r.place k :: held) (r.setState (r.place k) .locked) := by
  rw [lockBack, prev_place ht hk, lock?, if_pos hr]

theorem lockBack_of_not_ready {r : Ring n} (ht : r.tail < r.len) {k : Nat} (hk : k < r.len)
    (count : Nat) (held : List Nat) (hr : ¬ r.state (r.place k) = .ready) :
    lockBack (count + 1) (r.place (k + 1)) held r = (held, r) := by
  rw [lockBack, prev_place ht hk, lock?, if_neg hr]

section

variable {r : Ring n} {start count : Nat}

/-- Of slots that are ready, except perhaps the oldest, only the oldest is not. -/
theorem eq_zero_of_not_ready
    (hready : ∀ k, start < k → k < start + (count + 1) → r.state (r.place k) = .ready)
    (hr : ¬ r.state (r.place (start + count)) = .ready) : count = 0 := by
  rcases Nat.eq_zero_or_pos count with hz | hpos
  · exact hz
  · exact absurd (hready (start + count) (by omega) (by omega)) hr

/-- Of slots that are ready, except perhaps the oldest, `lockBack` locks those that are. -/
theorem slot_lockBack (ht : r.tail < r.len) (hle : start + count < r.len)
    (hready : ∀ k, start < k → k < start + count → r.state (r.place k) = .ready)
    (held : List Nat) {k : Nat} (hk : k < r.len) :
    (lockBack count (r.place (start + count)) held r).2.slot (r.place k) =
      if start ≤ k ∧ k < start + count then (r.slot (r.place k)).lock
      else r.slot (r.place k) := by
  induction count generalizing r held with
  | zero =>
    rw [if_neg (by omega)]
    rfl
  | succ count ih =>
    have hlast : start + count < r.len := by omega
    rw [← Nat.add_assoc]
    by_cases hr : r.state (r.place (start + count)) = .ready
    · -- the newest slot is locked, and the rest follows by induction
      rw [lockBack_of_ready ht hlast _ _ hr]
      refine (ih (r := r.setState (r.place (start + count)) .locked) ht hlast
        (fun j hj hj' => (state_lock_place ht hlast hr (by omega)).trans
          (hready j hj (by omega))) _ hk).trans ?_
      change (if start ≤ k ∧ k < start + count then
        ((r.setState (r.place (start + count)) .locked).slot (r.place k)).lock
        else (r.setState (r.place (start + count)) .locked).slot (r.place k)) = _
      rw [slot_lock_place ht hlast hk hr]
      by_cases hk' : start ≤ k ∧ k < start + count
      · rw [if_pos hk', if_neg (by omega), if_pos (by omega)]
      · rw [if_neg hk']
        exact ite_congr (propext (by omega)) (fun _ => rfl) fun _ => rfl
    · -- a slot that is not ready can only be the oldest
      have hzero := eq_zero_of_not_ready hready hr
      subst hzero
      rw [lockBack_of_not_ready ht hlast _ _ hr]
      split
      · next hk' =>
        have hstart : k = start + 0 := by omega
        rw [hstart]
        exact (Slot.lock_of_not_ready hr).symm
      · rfl

/-- Slots that are not in use are not locked. -/
theorem slot_lockBack_of_len_le (ht : r.tail < r.len) (hle : start + count < r.len)
    (held : List Nat) {i : Nat} (hi : r.len ≤ i) :
    (lockBack count (r.place (start + count)) held r).2.slot i = r.slot i := by
  induction count generalizing r held with
  | zero => rfl
  | succ count ih =>
    have hlast : start + count < r.len := by omega
    rw [← Nat.add_assoc]
    by_cases hr : r.state (r.place (start + count)) = .ready
    · rw [lockBack_of_ready ht hlast _ _ hr]
      exact (ih (r := r.setState (r.place (start + count)) .locked) ht hlast _ hi).trans
        (slot_setSlot_of_len_le ht hlast hi _)
    · rw [lockBack_of_not_ready ht hlast _ _ hr]

/-- `lockBack` answers with the slots that are ready. -/
theorem lockBack_fst (ht : r.tail < r.len) (hle : start + count < r.len)
    (hready : ∀ k, start < k → k < start + count → r.state (r.place k) = .ready)
    (held : List Nat) :
    (lockBack count (r.place (start + count)) held r).1 =
      ((List.range' start count).filter fun k => decide (r.state (r.place k) = .ready)).map
        r.place ++ held := by
  induction count generalizing r held with
  | zero => rfl
  | succ count ih =>
    have hlast : start + count < r.len := by omega
    have hrange : List.range' start (count + 1) = List.range' start count ++ [start + count] := by
      rw [List.range'_concat, Nat.one_mul]
    rw [← Nat.add_assoc, hrange]
    by_cases hr : r.state (r.place (start + count)) = .ready
    · rw [lockBack_of_ready ht hlast _ _ hr]
      have hrest := ih (r := r.setState (r.place (start + count)) .locked) ht hlast
        (fun j hj hj' => (state_lock_place ht hlast hr (by omega)).trans
          (hready j hj (by omega))) (r.place (start + count) :: held)
      refine hrest.trans ?_
      have hsame : ((List.range' start count).filter fun k =>
          decide ((r.setState (r.place (start + count)) .locked).state (r.place k) = .ready)) =
          (List.range' start count).filter fun k => decide (r.state (r.place k) = .ready) := by
        apply List.filter_congr
        intro k hk
        rw [state_lock_place ht hlast hr (List.mem_range'_1.mp hk).2]
      change ((List.range' start count).filter fun k => decide
        ((r.setState (r.place (start + count)) .locked).state (r.place k) = .ready)).map r.place
          ++ _ = _
      rw [hsame, List.filter_append, List.map_append, List.append_assoc]
      simp [hr]
    · have hzero := eq_zero_of_not_ready hready hr
      subst hzero
      rw [lockBack_of_not_ready ht hlast _ _ hr]
      have hr : ¬ r.state (r.place start) = .ready := hr
      simp [hr]

end

theorem state_lockBack {r : Ring n} (ht : r.tail < r.len) {start count : Nat}
    (hle : start + count < r.len)
    (hready : ∀ k, start < k → k < start + count → r.state (r.place k) = .ready)
    (hnone : ∀ i ∈ r.order, r.state i ≠ .locked) {k : Nat} (hk : k < r.len) :
    (lockBack count (r.place (start + count)) [] r).2.state (r.place k) = .locked ↔
      (start ≤ k ∧ k < start + count) ∧ r.state (r.place k) = .ready := by
  have hn : r.state (r.place k) ≠ .locked :=
    hnone _ ((mem_order ht).mpr (place_lt ht (Nat.le_of_lt hk)))
  rw [state, slot_lockBack ht hle hready [] hk]
  by_cases hin : start ≤ k ∧ k < start + count
  · rw [if_pos hin]
    by_cases hr : r.state (r.place k) = .ready
    · rw [Slot.lock_of_ready hr]
      exact ⟨fun _ => ⟨hin, hr⟩, fun _ => rfl⟩
    · rw [Slot.lock_of_not_ready hr]
      exact ⟨fun hl => absurd hl hn, fun hl => absurd hl.2 hr⟩
  · rw [if_neg hin]
    exact ⟨fun hl => absurd hl hn, fun hl => absurd hl.1 hin⟩

/-- Selecting from consecutive numbers, only those matter among which all selected ones are. -/
theorem filter_range_between {len start count : Nat} (hle : start + count ≤ len) {p : Nat → Bool}
    (hp : ∀ k, k < len → p k = true → start ≤ k ∧ k < start + count) :
    (List.range len).filter p = (List.range' start count).filter p := by
  have hsplit : List.range len = List.range' 0 start ++
      (List.range' start count ++ List.range' (start + count) (len - (start + count))) := by
    have hbefore := List.range'_append_1 (s := 0) (m := start)
      (n := count + (len - (start + count)))
    rw [Nat.zero_add] at hbefore
    rw [List.range_eq_range', List.range'_append_1, hbefore]
    congr 1
    omega
  have houter : ∀ a m, (∀ k, a ≤ k → k < a + m → k < len ∧ ¬ (start ≤ k ∧ k < start + count)) →
      (List.range' a m).filter p = [] := by
    intro a m hout
    rw [List.filter_eq_nil_iff]
    intro k hk hl
    obtain ⟨hk₁, hk₂⟩ := List.mem_range'_1.mp hk
    obtain ⟨hlen, hno⟩ := hout k hk₁ hk₂
    exact hno (hp k hlen hl)
  rw [hsplit, List.filter_append, List.filter_append, houter 0 start (fun k _ h => by omega),
    houter (start + count) (len - (start + count)) (fun k _ h => by omega), List.nil_append,
    List.append_nil]

/-- The slots that `lockBack` answers with are the locked ones, in order. -/
theorem lockBack_locked {r : Ring n} (ht : r.tail < r.len) {start count : Nat}
    (hle : start + count < r.len)
    (hready : ∀ k, start < k → k < start + count → r.state (r.place k) = .ready)
    (hnone : ∀ i ∈ r.order, r.state i ≠ .locked) :
    (lockBack count (r.place (start + count)) [] r).1 =
      (lockBack count (r.place (start + count)) [] r).2.lockedSlots := by
  obtain ⟨slots, hring⟩ := r.lockBack_eq count (r.place (start + count)) []
  have hlocked := fun k => state_lockBack (k := k) ht hle hready hnone
  rw [hring] at hlocked
  rw [lockBack_fst ht hle hready [], hring, List.append_nil, lockedSlots]
  change _ = ((List.range r.len).map r.place).filter
    fun i => decide ({ r with slots := slots }.state i = .locked)
  rw [List.filter_map]
  congr 1
  refine Eq.trans ?_ (filter_range_between (Nat.le_of_lt hle) fun k hk hl =>
    ((hlocked k hk).mp (of_decide_eq_true hl)).1).symm
  apply List.filter_congr
  intro k hk
  have hin := List.mem_range'_1.mp hk
  have hiff := hlocked k (by omega)
  rw [decide_eq_decide, hiff]
  exact ⟨fun hr => ⟨hin, hr⟩, fun hr => hr.2⟩

namespace Holds

variable {r : Ring n} {held : List Nat} {q : Fifo}

/-! ## What is held -/

theorem lt_len_of_mem_held (h : r.Holds held q) : ∀ i ∈ held, i < r.len := by
  intro i hi
  rw [h.held_eq] at hi
  exact (mem_order h.tail_lt).mp (List.mem_filter.mp hi).1

theorem lt_of_mem_held (h : r.Holds held q) : ∀ i ∈ held, i < n :=
  fun i hi => Nat.lt_of_lt_of_le (h.lt_len_of_mem_held i hi) r.len_le

theorem not_mem_held_of_len_le (h : r.Holds held q) {i : Nat} (hi : r.len ≤ i) : i ∉ held :=
  fun hm => Nat.not_le_of_lt (h.lt_len_of_mem_held i hm) hi

theorem nodup_held (h : r.Holds held q) : held.Nodup := by
  rw [h.held_eq]
  exact r.nodup_order.filter _

theorem mem_held (h : r.Holds held q) {i : Nat} (hi : i ∈ r.order) :
    i ∈ held ↔ r.state i = .locked := by
  rw [h.held_eq, lockedSlots, List.mem_filter, decide_eq_true_iff]
  exact ⟨fun hm => hm.2, fun hm => ⟨hi, hm⟩⟩

/-- The slots held are the locked entries of the queue, in order. -/
theorem map_slot_held (h : r.Holds held q) : held.map r.slot = q.entries.filter Slot.isLocked := by
  have hfilter : r.layout.filter Slot.isLocked = held.map r.slot := by
    rw [h.held_eq, layout, List.filter_map]
    rfl
  rw [← hfilter, h.layout_eq, Fifo.cells, ← List.append_assoc, ← Fifo.entries, List.filter_append]
  have hfree : (⟨q.head, .free⟩ :: List.replicate (q.capacity - q.entries.length)
      Slot.cleared).filter Slot.isLocked = [] := by
    rw [List.filter_eq_nil_iff]
    intro e he
    rcases List.mem_cons.mp he with rfl | he
    · simp [Slot.isLocked]
    · rw [List.eq_of_mem_replicate he]
      simp [Slot.isLocked, Slot.cleared]
  rw [hfree, List.append_nil]

theorem segments_held (h : r.Holds held q) : r.segments held = q.held := by
  rw [Fifo.held, ← h.map_slot_held, List.map_map]
  rfl

theorem not_locked (h : r.Holds [] q) : ∀ e ∈ q.entries, e.state ≠ .locked := by
  have hnil := h.map_slot_held
  rw [List.map_nil, eq_comm, List.filter_eq_nil_iff] at hnil
  intro e he hl
  exact hnil e he (decide_eq_true hl)

/-! ## Locking -/

/-- The cells of a queue, cut somewhere between the pending entries. -/
theorem cells_cut {before during : List Slot} (hp : q.pending = before ++ during) :
    q.cells = (q.finished ++ before) ++ (during ++
      ⟨q.head, .free⟩ :: List.replicate (q.capacity - q.entries.length) .cleared) := by
  rw [Fifo.cells, hp, List.append_assoc, List.append_assoc]

theorem state_place_of_ready (h : r.Holds held q) {before during : List Slot}
    (hp : q.pending = before ++ during) (hready : ∀ e ∈ during.tail, e.state = .ready) {k : Nat}
    (hk : q.finished.length + before.length < k)
    (hk' : k < q.finished.length + before.length + during.length) :
    r.state (r.place k) = .ready := by
  have hlt := h.head_place_lt
  have hlen := congrArg List.length hp
  have hstart : (q.finished ++ before).length = q.finished.length + before.length :=
    List.length_append
  rw [List.length_append] at hlen
  have hkc : k < q.cells.length := by
    rw [h.length_cells, ← h.len_eq]
    omega
  rw [state, h.slot_place hkc]
  apply hready
  simp only [cells_cut hp]
  rw [List.getElem_append_right (by omega), List.getElem_append_left (by omega)]
  obtain ⟨j, hj⟩ : ∃ j, k - (q.finished ++ before).length = j + 1 :=
    ⟨k - (q.finished ++ before).length - 1, by omega⟩
  simp only [hj]
  rw [← List.getElem_tail (by rw [List.length_tail]; omega)]
  exact List.getElem_mem _

/-- Locking the last pending entries, all of which but the oldest have to be ready. -/
theorem lockBack (h : r.Holds [] q) {before during : List Slot}
    (hp : q.pending = before ++ during) (hready : ∀ e ∈ during.tail, e.state = .ready) :
    (Ring.lockBack during.length r.head [] r).2.Holds
      (Ring.lockBack during.length r.head [] r).1
      { q with pending := before ++ during.map Slot.lock } := by
  have hlen : q.finished.length + q.pending.length =
      q.finished.length + before.length + during.length := by
    rw [hp, List.length_append, Nat.add_assoc]
  have hlt := h.head_place_lt
  rw [hlen] at hlt
  have hhead : r.head = r.place (q.finished.length + before.length + during.length) := by
    rw [h.head_eq, hlen]
  have hcells := cells_cut hp
  have hstart : (q.finished ++ before).length = q.finished.length + before.length :=
    List.length_append
  have hstates := fun k => h.state_place_of_ready (k := k) hp hready
  have hnone : ∀ i ∈ r.order, r.state i ≠ .locked := by
    intro i hi hl
    exact List.not_mem_nil ((h.mem_held hi).mpr hl)
  have hslots := fun k => slot_lockBack (k := k) h.tail_lt hlt hstates []
  have hspare := fun i => slot_lockBack_of_len_le (i := i) h.tail_lt hlt []
  obtain ⟨slots, hring⟩ := r.lockBack_eq during.length r.head []
  have hlocked := lockBack_locked h.tail_lt hlt hstates hnone
  rw [← hhead] at hlocked hslots hspare
  rw [hring] at hlocked hslots hspare ⊢
  exact {
    h with
    valid := h.valid.lockLast hp
    layout_eq := by
      apply layout_eq_of_slots
      · have := h.length_cells
        simp only [hcells, List.length_append] at this
        simp only [Fifo.cells, Fifo.entries, hp, List.length_append, List.length_map] at this ⊢
        rw [h.len_eq, ← this]
        omega
      · intro k hk hk'
        refine (hslots k hk).trans ?_
        have hs := h.slot_place (by rw [h.length_cells, ← h.len_eq]; exact hk)
        have hcells' : { q with pending := before ++ during.map Slot.lock }.cells =
            (q.finished ++ before) ++ (during.map Slot.lock ++
              ⟨q.head, .free⟩ :: List.replicate (q.capacity - q.entries.length) .cleared) := by
          simp only [Fifo.cells, Fifo.entries, hp, List.append_assoc, List.length_append,
            List.length_map]
        simp only [hs, hcells, hcells', ← hstart]
        exact getElem_map_middle _ _ _ _ _ _
    spare := fun i hi => (hspare i hi).trans (h.spare i hi)
    head_eq := by
      rw [List.length_append, List.length_map, ← List.length_append, ← hp]
      exact h.head_eq
    held_eq := hlocked }

/-- Where nothing is held, clearing never fails. -/
theorem reclaim_of_finished (h : r.Holds [] q) (hfinished : r.hasFinished = true) :
    r.isEmpty = false ∧ ∃ e rest r', q.finished = e :: rest ∧ r.reclaim = .ok r' ∧
      r'.Holds [] q.reclaim := by
  obtain ⟨e, rest, hf⟩ := List.exists_cons_of_ne_nil (h.hasFinished_iff.mp hfinished)
  have hempty : ¬ r.isEmpty = true := by
    rw [h.isEmpty_iff, hf]
    simp
  have hmem : e ∈ q.entries :=
    List.mem_append_left _ (by rw [hf]; exact List.mem_cons_self)
  obtain ⟨r', hr', hholds⟩ := h.reclaim hf (h.not_locked e hmem)
  exact ⟨Bool.eq_false_iff.mpr hempty, e, rest, r', hf, hr', hholds⟩

theorem lockNewest_of_ready (h : r.Holds [] q) {before : List Slot} {s : Segment}
    (hp : q.pending = before ++ [⟨s, .ready⟩]) :
    ∃ i r', r.lockNewest = some (i, r') ∧
      r'.Holds [i] { q with pending := before ++ [⟨s, .locked⟩] } := by
  have hpending : r.hasPending = true := by
    rw [h.hasPending_iff, hp]
    simp
  have hslot : r.slot (r.prev r.head) = ⟨s, .ready⟩ := h.slot_newest hp
  have hlock : r.lock? (r.prev r.head) = some (r.setState (r.prev r.head) .locked) := by
    rw [lock?, state, hslot, if_pos rfl]
  have hback := h.lockBack hp fun _ he => absurd he List.not_mem_nil
  rw [List.length_singleton, Ring.lockBack, hlock] at hback
  refine ⟨r.prev r.head, r.setState (r.prev r.head) .locked, ?_, hback⟩
  rw [Ring.lockNewest, if_pos hpending]
  change (r.lock? (r.prev r.head)).map _ = _
  rw [hlock]
  rfl

theorem lockNewest_of_not_ready (h : r.Holds [] q)
    (hp : ∀ before s, q.pending ≠ before ++ [⟨s, .ready⟩]) : r.lockNewest = none := by
  rw [Ring.lockNewest]
  split
  · next hpending =>
    obtain ⟨before, ⟨s, state'⟩, hlast⟩ :=
      (List.eq_nil_or_concat q.pending).resolve_left (h.hasPending_iff.mp hpending)
    rw [List.concat_eq_append] at hlast
    have hnot : ¬ r.state (r.prev r.head) = .ready := by
      rw [state, h.slot_newest hlast]
      intro hready
      exact hp before s (by rw [hlast, ← hready])
    change (r.lock? (r.prev r.head)).map _ = _
    rw [lock?, if_neg hnot]
    rfl
  · rfl

theorem lockWindow (h : r.Holds [] q) :
    r.lockWindow.2.Holds r.lockWindow.1.slots q.lockWindow := by
  have hready : ∀ e ∈ q.pending.tail, e.state = .ready := by
    intro e he
    have hmem : e ∈ q.entries := List.mem_append_right _ (List.mem_of_mem_tail he)
    have h₁ := h.valid.used e hmem
    have h₂ := h.valid.begun_first e he
    have h₃ := h.not_locked e hmem
    cases hs : e.state <;> simp_all
  have hall : q.pending = [] ++ q.pending := rfl
  have hback := h.lockBack hall hready
  rw [← h.pending_eq] at hback
  exact hback

/-! ## Revising and unlocking -/

theorem setSegments (h : r.Holds held q) (ss : List Segment) :
    (r.setSegments held ss).Holds held (q.revise ss) := by
  obtain ⟨slots, hslots⟩ := r.setSegments_eq held ss
  have hin : ∀ i ∈ r.order, i < n := fun i hi =>
    Nat.lt_of_lt_of_le ((mem_order h.tail_lt).mp hi) r.len_le
  -- slot by slot along the ring, and then list by list along the queue
  have hlayout : (r.setSegments held ss).layout = Slot.refill ss r.layout := by
    have hmap := map_slot_setSegments r hin r.nodup_order ss
    have horder : (r.setSegments held ss).order = r.order := by rw [hslots]; rfl
    rw [layout, horder, h.held_eq]
    exact hmap
  have hstates := congrArg (List.map Slot.state) hlayout
  rw [Slot.map_state_refill] at hstates
  have hlocked : (r.setSegments held ss).lockedSlots = r.lockedSlots := by
    have horder : (r.setSegments held ss).order = r.order := by rw [hslots]; rfl
    rw [layout, layout, List.map_map, List.map_map, horder, List.map_inj_left] at hstates
    rw [lockedSlots, lockedSlots, horder]
    apply List.filter_congr
    intro i hi
    exact congrArg (fun s => decide (s = SlotState.locked)) (hstates i hi)
  have hvalid : (q.revise ss).Valid := by
    refine h.valid.mapStates (f := id) (fun _ hs => hs) (fun _ hs => hs) ?_ ?_
    · exact Slot.map_state_refill _ _
    · exact Slot.map_state_refill _ _
  have hrest : (⟨q.head, .free⟩ :: List.replicate (q.capacity - q.entries.length)
      Slot.cleared).countP Slot.isLocked = 0 := by
    rw [List.countP_eq_zero]
    intro e he
    rcases List.mem_cons.mp he with rfl | he
    · simp [Slot.isLocked]
    · rw [List.eq_of_mem_replicate he]
      simp [Slot.isLocked, Slot.cleared]
  have hcells : (q.revise ss).cells = Slot.refill ss q.cells := by
    rw [Fifo.cells, Fifo.cells, Slot.refill_append, Slot.refill_append,
      Slot.refill_of_not_locked _ hrest]
    simp [Fifo.revise, Fifo.entries]
  have hspare : ∀ i, r.len ≤ i → (r.setSegments held ss).slot i = .cleared := fun i hi =>
    (slot_setSegments_of_not_mem r h.lt_of_mem_held ss (h.not_mem_held_of_len_le hi)).trans
      (h.spare i hi)
  rw [h.layout_eq, ← hcells] at hlayout
  rw [hslots] at hlayout hlocked hspare ⊢
  exact {
    h with
    valid := hvalid
    layout_eq := hlayout
    spare := hspare
    front_eq := by
      rw [Fifo.revise, Slot.length_refill]
      exact h.front_eq
    head_eq := by
      rw [Fifo.revise, Slot.length_refill, Slot.length_refill]
      exact h.head_eq
    held_eq := by rw [hlocked, h.held_eq] }

theorem setSegment (h : r.Holds held q) {k : Nat} (hk : k < held.length) (s : Segment) :
    (r.setSegment held[k] s).Holds held (q.revise (q.held.set k s)) := by
  have hset := r.setSegments_set h.lt_of_mem_held h.nodup_held hk s
  rw [h.segments_held] at hset
  rw [← hset]
  exact h.setSegments _

theorem unlock (h : r.Holds held q) : (r.unlock held).Holds [] q.unlock := by
  obtain ⟨slots, hslots⟩ := r.unlock_eq held
  have horder : (r.unlock held).order = r.order := by rw [hslots]; rfl
  have hslot : ∀ i ∈ r.order, (r.unlock held).slot i = (r.slot i).unlock := by
    intro i hi
    rw [slot_unlock r h.lt_of_mem_held, Slot.unlock]
    exact ite_congr (propext (h.mem_held hi)) (fun _ => rfl) fun _ => rfl
  have hlayout : (r.unlock held).layout = q.unlock.cells := by
    have hmap : (r.unlock held).layout = r.layout.map Slot.unlock := by
      rw [layout, horder, layout, List.map_map]
      exact List.map_congr_left hslot
    rw [hmap, h.layout_eq, Fifo.cells, Fifo.cells]
    simp [Fifo.unlock, Fifo.entries, Slot.unlock, Slot.cleared]
  have hlocked : (r.unlock held).lockedSlots = [] := by
    rw [lockedSlots, horder, List.filter_eq_nil_iff]
    intro i hi
    rw [state, hslot i hi, Slot.unlock, decide_eq_true_iff]
    split
    · simp
    · next hl => exact hl
  have hvalid : q.unlock.Valid := by
    refine h.valid.mapStates (f := fun s => if s = .locked then .ready else s) ?_ ?_
      (Slot.map_state_unlock _) (Slot.map_state_unlock _)
    · intro s hs
      cases s <;> simp_all
    · intro s hs
      cases s <;> simp_all
  have hspare : ∀ i, r.len ≤ i → (r.unlock held).slot i = .cleared := by
    intro i hi
    rw [slot_unlock r h.lt_of_mem_held, if_neg (h.not_mem_held_of_len_le hi)]
    exact h.spare i hi
  rw [hslots] at hlayout hlocked hspare ⊢
  exact {
    h with
    valid := hvalid
    layout_eq := hlayout
    spare := hspare
    front_eq := by
      rw [Fifo.unlock, List.length_map]
      exact h.front_eq
    head_eq := by
      rw [Fifo.unlock, List.length_map, List.length_map]
      exact h.head_eq
    held_eq := hlocked.symm }

end Holds

end MotionControl.Ring
