import MotionControl.Proofs.Ring.Runs

/-!
# Who owns a pending segment

A pending segment has one owner at a time. The main loop owns it while its slot is held for
revision: the interrupt does not begin it, and changes nothing when it tries. The interrupt owns it
from the moment it begins until it is over: whatever the main loop does meanwhile, the slot stays
as it is.

`Session.Owns` says this of a session, together with what a window takes hold of: every pending
segment that the interrupt does not own, in the order of publication.
-/

namespace MotionControl

variable {n : Nat}

/-! ## The pending slots in order -/

namespace Ring

/-- The slots of the pending segments, from the front on. -/
def pendingSlots (r : Ring n) : List Nat :=
  (List.range r.pending).map fun k => (r.front + k) % r.len

namespace Holds

variable {r : Ring n} {held : List Nat} {q : Fifo}

theorem pendingSlots_eq (h : r.Holds held q) :
    r.pendingSlots = (List.range' q.finished.length q.pending.length).map r.place := by
  have ht := h.tail_lt
  have hlt := h.head_place_lt
  rw [pendingSlots, h.pending_eq, List.range'_eq_map_range, List.map_map, h.front_eq]
  refine List.map_congr_left fun k hk => ?_
  have hk := List.mem_range.mp hk
  change (r.place q.finished.length + k) % r.len = r.place (q.finished.length + k)
  unfold place
  split <;> split
  · rw [Nat.mod_eq_of_lt] <;> omega
  · rw [Nat.mod_eq_sub_mod, Nat.mod_eq_of_lt] <;> omega
  · omega
  · rw [Nat.mod_eq_of_lt] <;> omega

theorem mem_pendingSlots (h : r.Holds held q) {k : Nat} (hk : k < r.len) :
    r.place k ∈ r.pendingSlots ↔
      q.finished.length ≤ k ∧ k < q.finished.length + q.pending.length := by
  have hlt := h.head_place_lt
  rw [h.pendingSlots_eq, List.mem_map, ← List.mem_range'_1]
  constructor
  · rintro ⟨j, hj, heq⟩
    obtain ⟨-, hlt'⟩ := List.mem_range'_1.mp hj
    rwa [← (place_inj (by omega) hk).mp heq]
  · exact fun hmem => ⟨k, hmem, rfl⟩

theorem map_slot_pendingSlots (h : r.Holds held q) : r.pendingSlots.map r.slot = q.pending := by
  have hlt := h.head_place_lt
  rw [h.pendingSlots_eq, List.map_map]
  refine List.ext_getElem (by simp) fun k hk hk' => ?_
  rw [List.getElem_map, List.getElem_range', Nat.one_mul]
  change r.slot (r.place (q.finished.length + k)) = _
  rw [h.slot_place (by rw [h.length_cells, ← h.len_eq]; omega)]
  simp only [Fifo.cells]
  rw [List.getElem_append_right (by omega), List.getElem_append_left (by omega)]
  simp only [Nat.add_sub_cancel_left]

theorem front_mem_pendingSlots (h : r.Holds held q) (hp : q.pending ≠ []) :
    r.front ∈ r.pendingSlots := by
  have hpos := List.length_pos_iff.mpr hp
  rw [h.pendingSlots_eq, h.front_eq]
  exact List.mem_map_of_mem (List.mem_range'_1.mpr ⟨Nat.le_refl _, by omega⟩)

/-- A pending slot whose segment has begun is the one at the front. -/
theorem eq_front_of_executing (h : r.Holds held q) {i : Nat} (hi : i ∈ r.pendingSlots)
    (hs : r.state i = .executing) : i = r.front := by
  rw [h.pendingSlots_eq] at hi
  obtain ⟨k, hk, rfl⟩ := List.mem_map.mp hi
  obtain ⟨hle, hlt⟩ := List.mem_range'_1.mp hk
  rcases Nat.eq_or_lt_of_le hle with heq | hgt
  · rw [h.front_eq, heq]
  · exact absurd hs (h.valid.begun_first _ (h.slot_mem_pending_tail hgt hlt))

/-- While nothing is held, a pending slot is ready unless its segment has begun. -/
theorem ready_iff (h : r.Holds [] q) {i : Nat} (hi : i ∈ r.pendingSlots) :
    r.state i = .ready ↔ r.state i ≠ .executing := by
  have hmem : r.slot i ∈ q.entries := by
    refine List.mem_append_right _ ?_
    rw [← h.map_slot_pendingSlots]
    exact List.mem_map_of_mem hi
  have hfree : r.state i ≠ .free := h.valid.used _ hmem
  have hlocked : r.state i ≠ .locked := h.not_locked _ hmem
  cases hs : r.state i <;> simp_all

/-- Behind the front all pending slots are ready. -/
theorem state_place_of_lt (h : r.Holds [] q) {k : Nat} (hk : q.finished.length < k)
    (hk' : k < q.finished.length + q.pending.length) : r.state (r.place k) = .ready := by
  have hlt := h.head_place_lt
  have hmem := (h.mem_pendingSlots (Nat.lt_trans hk' hlt)).mpr ⟨Nat.le_of_lt hk, hk'⟩
  rw [h.ready_iff hmem]
  exact h.valid.begun_first _ (h.slot_mem_pending_tail hk hk')

/-- Of the pending slots at most the first has begun. -/
theorem filter_pendingSlots (h : r.Holds held q) :
    (r.pendingSlots.filter fun i => r.state i ≠ .executing) =
      if q.begun then r.pendingSlots.tail else r.pendingSlots := by
  have hslots := h.map_slot_pendingSlots
  have hfirst := h.valid.begun_first
  rcases hpending : r.pendingSlots with _ | ⟨i, slots⟩
  · simp
  · rw [hpending, List.map_cons] at hslots
    rw [← hslots, List.tail_cons] at hfirst
    have hrest : (slots.filter fun i => r.state i ≠ .executing) = slots := by
      rw [List.filter_eq_self]
      exact fun j hj => decide_eq_true (hfirst _ (List.mem_map_of_mem hj))
    rw [Fifo.begun, ← hslots, List.filter_cons, hrest]
    by_cases hi : (r.slot i).state = .executing <;> simp [state, hi]

/-- While nothing is held, a window takes hold of what is pending and has not begun. -/
theorem slots_lockWindow (h : r.Holds [] q) :
    r.lockWindow.1.slots = r.pendingSlots.filter fun i => r.state i ≠ .executing := by
  have hback := lockBack_fst h.tail_lt h.head_place_lt (fun _ hk hk' =>
    h.state_place_of_lt hk hk') []
  rw [← h.head_eq, ← h.pending_eq, List.append_nil] at hback
  refine hback.trans ?_
  rw [h.pending_eq, h.pendingSlots_eq, List.filter_map]
  congr 1
  refine List.filter_congr fun k hk => ?_
  have hmem : r.place k ∈ r.pendingSlots := by
    rw [h.pendingSlots_eq]
    exact List.mem_map_of_mem hk
  exact decide_eq_decide.mpr (h.ready_iff hmem)

/-- A window changes nothing but the states of the slots that it takes hold of. -/
theorem slot_lockWindow (h : r.Holds [] q) (i : Nat) : r.lockWindow.2.slot i =
    if i ∈ r.lockWindow.1.slots then ⟨r.segment i, .locked⟩ else r.slot i := by
  have hmem : i ∈ r.lockWindow.1.slots ↔ i ∈ r.pendingSlots ∧ r.state i ≠ .executing := by
    rw [h.slots_lockWindow, List.mem_filter, decide_eq_true_iff]
  have hready := fun k hk hk' => h.state_place_of_lt (k := k) hk hk'
  have hwindow : r.lockWindow.2 = (Ring.lockBack q.pending.length
      (r.place (q.finished.length + q.pending.length)) [] r).2 := by
    rw [← h.head_eq, ← h.pending_eq]
    rfl
  rw [hwindow]
  rcases Nat.lt_or_ge i r.len with hi | hi
  · obtain ⟨k, hk, rfl⟩ := exists_place_eq h.tail_lt hi
    rw [slot_lockBack h.tail_lt h.head_place_lt hready [] hk]
    by_cases hin : r.place k ∈ r.pendingSlots
    · rw [if_pos ((h.mem_pendingSlots hk).mp hin), Slot.lock]
      refine ite_congr (propext ?_) (fun _ => rfl) fun _ => rfl
      rw [hmem, ← h.ready_iff hin]
      exact ⟨fun hr => ⟨hin, hr⟩, fun hr => hr.2⟩
    · rw [if_neg (fun hk' => hin ((h.mem_pendingSlots hk).mpr hk')),
        if_neg fun hr => hin (hmem.mp hr).1]
  · have hout : i ∉ r.pendingSlots := by
      rw [h.pendingSlots_eq]
      intro hpending
      obtain ⟨k, hk, rfl⟩ := List.mem_map.mp hpending
      have hlt := h.head_place_lt
      have hk' := (List.mem_range'_1.mp hk).2
      exact Nat.not_le_of_lt (place_lt h.tail_lt (by omega)) hi
    rw [slot_lockBack_of_len_le h.tail_lt h.head_place_lt [] hi,
      if_neg fun hr => hout (hmem.mp hr).1]

end Holds

end Ring

/-! ## The first pending segment -/

/-- Whether a use takes the first pending segment off the queue. -/
def Use.isEnd : Use → Bool
  | .finish _ | .abort => true
  | _ => false

namespace Fifo

variable {q : Fifo} {e : Slot} {rest : List Slot}

/-- A pending segment that is not ready stays first until it is over. It is revised or becomes
ready only if it is held, and never once it has begun. -/
theorem step_front (hp : q.pending = e :: rest) (he : e.state = .locked ∨ e.state = .executing)
    {u : Use} (hu : u.isEnd = false) (built : Nat) :
    ∃ e' rest', (q.step built u).2.pending = e' :: rest' ∧
      (e.state = .executing → e' = e) ∧ (u ≠ .unlock → e'.state = e.state) := by
  have hready : e.state ≠ .ready := by rcases he with he | he <;> simp [he]
  have hsame : ∀ {es}, (∃ rest', es = e :: rest') → ∃ e' rest', es = e' :: rest' ∧
      (e.state = .executing → e' = e) ∧ (u ≠ .unlock → e'.state = e.state) := by
    rintro _ ⟨rest', rfl⟩
    exact ⟨e, rest', rfl, fun _ => rfl, fun _ => rfl⟩
  cases u with
  | write f => exact hsame ⟨rest, hp⟩
  | publish =>
    simp only [Fifo.step, Fifo.publish]
    split
    · exact hsame ⟨rest, hp⟩
    · next heq =>
      split at heq <;> cases heq
      exact hsame ⟨rest ++ [⟨q.head, .ready⟩], by simp [Fifo.push, hp]⟩
  | setRunning b => exact hsame ⟨rest, hp⟩
  | setFlush b => exact hsame ⟨rest, hp⟩
  | lockNewest =>
    simp only [Fifo.step, Fifo.lockNewest, hp]
    cases rest with
    | nil =>
      rcases e with ⟨s, state⟩
      cases state <;> simp_all
    | cons e' rest =>
      simp only [List.getLast?_cons_cons, List.dropLast_cons_cons]
      split
      · next heq =>
        split at heq <;> cases heq
        exact hsame ⟨_, List.cons_append⟩
      · exact hsame ⟨_, hp⟩
  | lockWindow =>
    exact hsame ⟨rest.map Slot.lock, by
      simp [Fifo.step, Fifo.lockWindow, hp, Slot.lock_of_not_ready hready]⟩
  | revise k f =>
    simp only [Fifo.step, Fifo.revise, hp]
    obtain ⟨e', rest', heq, hstate, hkeep⟩ := Slot.refill_cons
      ((q.held.modify k f).drop (q.finished.countP Slot.isLocked)) e rest
    exact ⟨e', rest', heq, fun hexec => hkeep (by simp [hexec]), fun _ => hstate⟩
  | unlock =>
    refine ⟨e.unlock, rest.map Slot.unlock, by simp [Fifo.step, Fifo.unlock, hp], fun hexec => ?_,
      fun hne => absurd rfl hne⟩
    simp [Slot.unlock, hexec]
  | begin =>
    refine hsame ⟨rest, ?_⟩
    simp [Fifo.step, Fifo.begin?, hp, he]
  | read i => exact hsame ⟨rest, hp⟩
  | finish i => cases hu
  | abort => cases hu
  | peek => exact hsame ⟨rest, hp⟩
  | reclaim => exact hsame ⟨rest, hp⟩
  | resize len =>
    refine hsame ⟨rest, ?_⟩
    simp [Fifo.step, Fifo.entries, hp]

end Fifo

/-! ## Sessions -/

namespace Session

/-- Who owns a pending segment, and for how long. -/
structure Owns (s : Session n) : Prop where
  /-- what is held does not begin -/
  begin_not_held : ∀ i ring, s.ring.begin? = some (i, ring) → i ∉ s.held
  /-- trying to begin it changes nothing -/
  begin_held : s.ring.front ∈ s.held → s.step .begin = .ok (.begun none, s)
  /-- it stays at the front until it is given up or dropped, and begins as soon as it is given up -/
  begin_unlocked : s.ring.front ∈ s.held → ∀ us, s.Disciplined us →
    (∀ u ∈ us, u ≠ .unlock ∧ u ≠ .abort) → ∃ answers s₁ s₂, s.run us = .ok (answers, s₁) ∧
      s₁.step .begin = .ok (.begun none, s₁) ∧
      s₁.run [.unlock, .begin] =
        .ok ([.done, .begun (some (s₁.ring.segment s.ring.front))], s₂) ∧
      s₂.begun = [s.ring.front] ∧ s₂.started = s.started ++ [s.stamp s.ring.front]
  /-- what has begun stays as it is until it is over -/
  begun_kept : ∀ i ∈ s.begun, ∀ us, s.Disciplined us → (∀ u ∈ us, u.isEnd = false) →
    ∃ answers s', s.run us = .ok (answers, s') ∧ i ∈ s'.begun ∧ s'.ring.slot i = s.ring.slot i
  /-- a window takes hold of all that is pending and has not begun, in the order of publication -/
  window : s.guard = none → ∃ s', s.step .lockWindow =
      .ok (.held (s'.held.map s.ring.segment), s') ∧
    s'.held = (s.ring.pendingSlots.filter fun i => s.ring.state i ≠ .executing) ∧
    s'.held.map s.stamp = List.range' (s.published - s'.held.length) s'.held.length ∧
    ∀ i, s'.ring.slot i =
      if i ∈ s'.held then ⟨s.ring.segment i, .locked⟩ else s.ring.slot i

namespace Keeps

variable {s : Session n} {q : Fifo} {e : Slot} {rest : List Slot} {u : Use}

/-- While the first pending segment is not ready, no use moves the front but those that end it,
and none gives it another number. -/
theorem step_still (h : s.Keeps q) (hp : q.pending = e :: rest)
    (he : e.state = .locked ∨ e.state = .executing) (hu : s.Allows u) (hend : u.isEnd = false) :
    ∃ answer s', s.step u = .ok (answer, s') ∧ s'.Keeps (q.step n u).2 ∧
      s'.ring.front = s.ring.front ∧ (u ≠ .unlock → s.guard ≠ none → s'.guard = s.guard) ∧
      s'.stamp s.ring.front = s.stamp s.ring.front ∧ s'.started = s.started := by
  obtain ⟨s', hs', h'⟩ := h.step hu
  refine ⟨_, s', hs', h', ?_⟩
  generalize (q.step n u).1 = answer at hs'
  have hne : q.pending ≠ [] := by simp [hp]
  have hfront : s.ring.front ≠ s.ring.head := fun heq => hne (h.holds.front_eq_head_iff.mp heq)
  have hstate : s.ring.state s.ring.front = e.state := by rw [Ring.state, h.holds.slot_front hp]
  cases u with
  | write f => cases hs'; exact ⟨rfl, fun _ _ => rfl, rfl, rfl⟩
  | publish =>
    rw [Session.step] at hs'
    split at hs'
    · cases hs'; exact ⟨rfl, fun _ _ => rfl, rfl, rfl⟩
    · next ring hring =>
      cases hs'
      exact ⟨Ring.front_publish hring, fun _ _ => rfl, if_neg hfront, rfl⟩
  | setRunning b => cases hs'; exact ⟨rfl, fun _ _ => rfl, rfl, rfl⟩
  | setFlush b => cases hs'; exact ⟨rfl, fun _ _ => rfl, rfl, rfl⟩
  | lockNewest =>
    have hg : s.guard = none := hu
    rw [Session.step] at hs'
    split at hs'
    · next i ring hring =>
      cases hs'
      obtain ⟨slots, hslots⟩ := Ring.lockNewest_eq hring
      exact ⟨by rw [hslots], fun _ hheld => absurd hg hheld, rfl, rfl⟩
    · cases hs'; exact ⟨rfl, fun _ _ => rfl, rfl, rfl⟩
  | lockWindow =>
    have hg : s.guard = none := hu
    obtain ⟨slots, hslots⟩ := s.ring.lockWindow_eq
    have hkept : s.ring.lockWindow.2.front = s.ring.front := by rw [hslots]
    cases hs'
    exact ⟨hkept, fun _ hheld => absurd hg hheld, rfl, rfl⟩
  | revise k f =>
    rw [Session.step] at hs'
    split at hs' <;> cases hs'
    exact ⟨rfl, fun _ _ => rfl, rfl, rfl⟩
  | unlock =>
    obtain ⟨slots, hslots⟩ := s.ring.unlock_eq s.held
    cases hs'
    exact ⟨by rw [hslots], fun hne => absurd rfl hne, rfl, rfl⟩
  | begin =>
    have hnone : s.ring.begin? = none := by
      rw [Ring.begin?, if_neg hfront, hstate]
      rcases he with he | he <;> simp [he]
    rw [Session.step, hnone] at hs'
    cases hs'
    exact ⟨rfl, fun _ _ => rfl, rfl, rfl⟩
  | read i =>
    rw [Session.step] at hs'
    cases hread : s.ring.executing i <;> rw [hread] at hs' <;> cases hs'
    exact ⟨rfl, fun _ _ => rfl, rfl, rfl⟩
  | finish i => cases hend
  | abort => cases hend
  | peek => cases hs'; exact ⟨rfl, fun _ _ => rfl, rfl, rfl⟩
  | reclaim =>
    rw [Session.step] at hs'
    cases hring : s.ring.reclaim <;> rw [hring] at hs' <;> cases hs'
    exact ⟨Ring.front_reclaim hring, fun _ _ => rfl, rfl, rfl⟩
  | resize len =>
    -- the ring is not empty
    have hempty : s.ring.isEmpty = false := by
      rw [← Bool.not_eq_true, h.holds.isEmpty_iff]
      exact fun hnone => hne hnone.2
    rw [Session.step, Ring.resize, hempty] at hs'
    cases hs'
    exact ⟨rfl, fun _ _ => rfl, rfl, rfl⟩

/-- A slot at the front that is held belongs to a pending segment. -/
theorem pending_of_held (h : s.Keeps q) (hfront : s.ring.front ∈ s.held) :
    ∃ segment rest, q.pending = ⟨segment, .locked⟩ :: rest := by
  have hlt := h.holds.lt_len_of_mem_held _ hfront
  have hstate := (h.holds.mem_held ((Ring.mem_order h.holds.tail_lt).mpr hlt)).mp hfront
  cases hp : q.pending with
  | nil =>
    rw [h.holds.front_eq_head_iff.mpr hp, Ring.state, h.holds.slot_head] at hstate
    cases hstate
  | cons e rest =>
    rw [Ring.state, h.holds.slot_front hp] at hstate
    exact ⟨e.segment, rest, by rw [← hstate]⟩

/-- A pending segment that is ready begins when its turn comes. -/
theorem begin_ready (h : s.Keeps q) {segment : Segment}
    (hp : q.pending = ⟨segment, .ready⟩ :: rest) :
    ∃ s', s.step .begin = .ok (.begun (some segment), s') ∧ s'.begun = s.ring.front :: s.begun ∧
      s'.started = s.started ++ [s.stamp s.ring.front] := by
  obtain ⟨r', hr', hfront, hholds⟩ := h.holds.begin?_of_ready hp
  have hsegment : r'.segment s.ring.front = segment := by
    rw [← hfront, Ring.segment, hholds.slot_front rfl]
  exact ⟨_, by rw [Session.step, hr', ← hsegment], rfl, rfl⟩

theorem run_cons {s₁ s₂ : Session n} {us : List Use} {answer : Answer} {answers : List Answer}
    (hs₁ : s.step u = .ok (answer, s₁)) (hs₂ : s₁.run us = .ok (answers, s₂)) :
    s.run (u :: us) = .ok (answer :: answers, s₂) := by
  simp only [Session.run, hs₁, hs₂, bind, Except.bind]
  rfl

/-- What has begun stays as it is, whatever is done that does not end it. -/
theorem run_begun (h : s.Keeps q) {i : Nat} (hi : i ∈ s.begun) {us : List Use}
    (hus : s.Disciplined us) (hends : ∀ u ∈ us, u.isEnd = false) :
    ∃ answers s', s.run us = .ok (answers, s') ∧ i ∈ s'.begun ∧
      s'.ring.slot i = s.ring.slot i := by
  induction us generalizing s q with
  | nil => exact ⟨[], s, rfl, hi, rfl⟩
  | cons u us ih =>
    obtain ⟨hu, hrest⟩ := hus
    obtain ⟨hend, hends⟩ := List.forall_mem_cons.mp hends
    obtain ⟨rfl, segment, rest, hp⟩ := h.of_mem_begun hi
    obtain ⟨answer, s₁, hs₁, h₁, hfront, -⟩ := h.step_still hp (.inr rfl) hu hend
    obtain ⟨e, rest', hp₁, hkept, -⟩ := Fifo.step_front hp (.inr rfl) hend n
    rw [hkept rfl] at hp₁
    have hslot : s₁.ring.slot s.ring.front = s.ring.slot s.ring.front := by
      rw [h.holds.slot_front hp, ← hfront, h₁.holds.slot_front hp₁]
    have hi₁ : s.ring.front ∈ s₁.begun := by
      rw [h₁.begun_eq, Fifo.begun, hp₁, hfront]
      exact List.mem_singleton_self _
    rw [hs₁] at hrest
    obtain ⟨answers, s₂, hs₂, hi₂, hslot₂⟩ := ih h₁ hi₁ hrest hends
    exact ⟨answer :: answers, s₂, run_cons hs₁ hs₂, hi₂, hslot₂.trans hslot⟩

/-- What is held stays at the front until it is given up or dropped. -/
theorem run_held (h : s.Keeps q) (hfront : s.ring.front ∈ s.held) {us : List Use}
    (hus : s.Disciplined us) (hkept : ∀ u ∈ us, u ≠ .unlock ∧ u ≠ .abort) :
    ∃ answers s' q', s.run us = .ok (answers, s') ∧ s'.Keeps q' ∧ s'.ring.front = s.ring.front ∧
      s'.ring.front ∈ s'.held ∧ s'.stamp s.ring.front = s.stamp s.ring.front ∧
      s'.started = s.started := by
  induction us generalizing s q with
  | nil => exact ⟨[], s, q, rfl, h, rfl, hfront, rfl, rfl⟩
  | cons u us ih =>
    obtain ⟨hu, hrest⟩ := hus
    obtain ⟨⟨hunlock, habort⟩, hkept⟩ := List.forall_mem_cons.mp hkept
    obtain ⟨segment, rest, hp⟩ := h.pending_of_held hfront
    -- nothing has begun that could be finished
    have hend : u.isEnd = false := by
      cases u with
      | finish i =>
        obtain ⟨-, segment', rest', hp'⟩ := h.of_mem_begun hu
        rw [hp] at hp'
        cases hp'
      | abort => exact absurd rfl habort
      | _ => rfl
    have hguard : s.guard ≠ none := by
      intro hnone
      rw [held, hnone] at hfront
      cases hfront
    obtain ⟨answer, s₁, hs₁, h₁, hfront₁, hguard₁, hstamp₁, hstarted₁⟩ :=
      h.step_still hp (.inl rfl) hu hend
    have hheld₁ : s₁.ring.front ∈ s₁.held := by
      rw [hfront₁, held, hguard₁ hunlock hguard]
      exact hfront
    rw [hs₁] at hrest
    obtain ⟨answers, s₂, q₂, hs₂, h₂, hfront₂, hheld₂, hstamp₂, hstarted₂⟩ :=
      ih h₁ hheld₁ hrest hkept
    rw [hfront₁] at hfront₂ hstamp₂
    exact ⟨answer :: answers, s₂, q₂, run_cons hs₁ hs₂, h₂, hfront₂, hheld₂,
      hstamp₂.trans hstamp₁, hstarted₂.trans hstarted₁⟩

/-- Trying to begin a segment that is held changes nothing. -/
theorem begin_held (h : s.Keeps q) (hfront : s.ring.front ∈ s.held) :
    s.step .begin = .ok (.begun none, s) := by
  obtain ⟨segment, rest, hp⟩ := h.pending_of_held hfront
  have hnone := h.holds.begin?_of_not_ready fun s' rest' hp' => by
    rw [hp] at hp'
    cases hp'
  rw [Session.step, hnone]

/-- Once it is given up, the segment begins. -/
theorem begin_unlocked (h : s.Keeps q) (hfront : s.ring.front ∈ s.held) :
    ∃ s', s.run [.unlock, .begin] =
        .ok ([.done, .begun (some (s.ring.segment s.ring.front))], s') ∧
      s'.begun = [s.ring.front] ∧ s'.started = s.started ++ [s.stamp s.ring.front] := by
  obtain ⟨segment, rest, hp⟩ := h.pending_of_held hfront
  obtain ⟨s₁, hs₁, h₁⟩ := h.unlock
  obtain ⟨slots, hslots⟩ := s.ring.unlock_eq s.held
  have hp₁ : q.unlock.pending = ⟨segment, .ready⟩ :: rest.map Slot.unlock := by
    simp [Fifo.unlock, hp, Slot.unlock]
  obtain ⟨s₂, hs₂, hbegun, hstarted⟩ := h₁.begin_ready hp₁
  have hnone : s.begun = [] := by simp [h.begun_eq, Fifo.begun, hp]
  cases hs₁
  dsimp only at hbegun hstarted
  rw [hnone, hslots] at hbegun
  rw [hslots] at hstarted
  refine ⟨s₂, run_cons rfl (run_cons ?_ rfl), hbegun, hstarted⟩
  rw [hs₂, Ring.segment, h.holds.slot_front hp]

/-- The pending segments have been numbered last, in their order. -/
theorem map_stamp_pendingSlots (h : s.Keeps q) : s.ring.pendingSlots.map s.stamp =
    List.range' (s.published - q.pending.length) q.pending.length := by
  have hle := h.numbered.pending_le
  rw [h.holds.pendingSlots_eq, List.map_map]
  refine List.ext_getElem (by simp) fun k hk _ => ?_
  simp only [List.length_map, List.length_range'] at hk
  simp only [List.getElem_map, List.getElem_range', Function.comp_apply, Nat.one_mul]
  have hstamp := h.numbered.stamp_eq (q.finished.length + k) (by omega) (by omega)
  omega

/-- A window takes hold of all that has not begun. -/
theorem window (h : s.Keeps q) (hg : s.guard = none) : ∃ s', s.step .lockWindow =
      .ok (.held (s'.held.map s.ring.segment), s') ∧
    s'.held = (s.ring.pendingSlots.filter fun i => s.ring.state i ≠ .executing) ∧
    s'.held.map s.stamp = List.range' (s.published - s'.held.length) s'.held.length ∧
    ∀ i, s'.ring.slot i =
      if i ∈ s'.held then ⟨s.ring.segment i, .locked⟩ else s.ring.slot i := by
  have hholds : s.ring.Holds [] q := by
    have := h.holds
    rwa [held, hg] at this
  refine ⟨{ s with ring := s.ring.lockWindow.2, guard := some s.ring.lockWindow.1.slots }, ?_,
    hholds.slots_lockWindow, ?_, hholds.slot_lockWindow⟩
  · have hsegments : s.ring.lockWindow.2.segments s.ring.lockWindow.1.slots =
        s.ring.lockWindow.1.slots.map s.ring.segment := by
      refine List.map_congr_left fun i hi => ?_
      rw [Ring.segment, hholds.slot_lockWindow, if_pos hi]
    change Except.ok (Answer.held (s.ring.lockWindow.2.segments s.ring.lockWindow.1.slots), _) = _
    rw [hsegments]
    rfl
  · have hle := h.numbered.pending_le
    have hstamps := h.map_stamp_pendingSlots
    have hlength : s.ring.pendingSlots.length = q.pending.length := by
      simpa using congrArg List.length hstamps
    change (s.ring.lockWindow.1.slots).map s.stamp =
      List.range' (s.published - s.ring.lockWindow.1.slots.length) s.ring.lockWindow.1.slots.length
    rw [hholds.slots_lockWindow, hholds.filter_pendingSlots]
    split
    · next hbegun =>
      obtain ⟨segment, rest, hp⟩ := Fifo.pending_of_begun hbegun
      rw [List.map_tail, hstamps, List.length_tail, hlength, List.tail_range']
      congr 1
      simp only [hp, List.length_cons] at hle ⊢
      omega
    · rw [hstamps, hlength]

/-- The two sides of the ring respect who owns a segment. -/
theorem owns (h : s.Keeps q) : s.Owns where
  begin_not_held i ring hbegin hheld := by
    have hi : i = s.ring.front := by
      rw [Ring.begin?] at hbegin
      split at hbegin
      · cases hbegin
      split at hbegin <;> cases hbegin
      rfl
    rw [hi] at hheld
    have hnone := h.begin_held hheld
    rw [Session.step, hbegin] at hnone
    cases hnone
  begin_held := h.begin_held
  begin_unlocked hheld us hus hkept := by
    obtain ⟨answers, s₁, q₁, hs₁, h₁, hfront, hheld₁, hstamp, hstarted⟩ :=
      h.run_held hheld hus hkept
    obtain ⟨s₂, hs₂, hbegun, hstarted₂⟩ := h₁.begin_unlocked hheld₁
    rw [hfront] at hs₂ hbegun hstarted₂
    rw [hstarted, hstamp] at hstarted₂
    exact ⟨answers, s₁, s₂, hs₁, h₁.begin_held hheld₁, hs₂, hbegun, hstarted₂⟩
  begun_kept i hi us hus hends := h.run_begun hi hus hends
  window := h.window

end Keeps

/-- However a ring is used, if properly, nobody touches what the other side owns. -/
theorem owns_of_disciplined {len : Nat} {r : Ring n} (hr : Ring.new n len = .ok r) {us : List Use}
    (hus : (Session.ofRing r).Disciplined us) :
    ∃ answers s, (Session.ofRing r).run us = .ok (answers, s) ∧ s.Owns := by
  obtain ⟨s, hs, h⟩ := (Keeps.ofNew hr).run hus
  exact ⟨_, s, hs, h.owns⟩

end Session

end MotionControl
