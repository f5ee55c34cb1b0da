import MotionControl.Proofs.Lookahead.Carriers
import MotionControl.Proofs.Motion.Replanning
import MotionControl.Proofs.Ring.Ownership

/-!
# What replanning does to the ring

The planner takes the window of a ring, makes its junctions consistent, and gives it back. All else
on the ring is as it was before (`Ring.Revises`), and so is everything in the window but the plan
(`Planner.recalculate_consistent`). Carriers in the window make no difference to the segments with
motion (`Planner.recalculate_transparent`).

Any list of segments for which there is room is the window of some ring (`Ring.exists_window`).
-/

namespace MotionControl

open Lookahead

variable {n n' : Nat} {σ σ' : Type}

namespace Ring

/-- The same ring, but for the segments in its window. -/
structure Revises (r r' : Ring n) : Prop where
  /-- nothing but slots is different -/
  rest : r' = { r with slots := r'.slots }
  /-- slots that are not in the window are the same -/
  slot_eq : ∀ i, i ∉ r.lockWindow.1.slots → r'.slot i = r.slot i
  /-- all slots are in the same state -/
  state_eq : ∀ i, r'.state i = r.state i
  /-- the window consists of the same slots -/
  slots_eq : r'.lockWindow.1.slots = r.lockWindow.1.slots

namespace Holds

variable {r : Ring n} {q : Fifo}

theorem state_of_mem_window (h : r.Holds [] q) {i : Nat} (hi : i ∈ r.lockWindow.1.slots) :
    r.state i = .ready := by
  rw [h.slots_lockWindow, List.mem_filter, decide_eq_true_iff] at hi
  exact (h.ready_iff hi.1).mpr hi.2

theorem slot_revised (h : r.Holds [] q) (ss : List Segment) {i : Nat}
    (hi : i ∉ r.lockWindow.1.slots) : (r.revised ss).slot i = r.slot i := by
  have hin := h.lockWindow.lt_of_mem_held
  rw [Ring.revised, slot_unlock _ hin, if_neg hi, slot_setSegments_of_not_mem _ hin ss hi,
    h.slot_lockWindow, if_neg hi]

theorem state_revised (h : r.Holds [] q) (ss : List Segment) (i : Nat) :
    (r.revised ss).state i = r.state i := by
  by_cases hi : i ∈ r.lockWindow.1.slots
  · rw [h.state_of_mem_window hi, state, Ring.revised,
      slot_unlock _ h.lockWindow.lt_of_mem_held, if_pos hi]
  · rw [state, h.slot_revised ss hi, state]

theorem revises (h : r.Holds [] q) (ss : List Segment) : r.Revises (r.revised ss) := by
  obtain ⟨slots, hslots⟩ := r.revised_eq ss
  have hpending : (r.revised ss).pendingSlots = r.pendingSlots := by
    rw [hslots]
    rfl
  refine ⟨by rw [hslots], fun i hi => h.slot_revised ss hi, h.state_revised ss, ?_⟩
  rw [(h.revised ss).slots_lockWindow, h.slots_lockWindow, hpending]
  exact List.filter_congr fun i _ => by rw [h.state_revised]

/-- With nothing to revise, the boundary is the exit speed of the segment cleared last. -/
theorem boundary_of_empty (h : r.Holds [] q) (hnone : q.waiting = []) :
    r.lockWindow.1.boundary = q.lastExitSpeed := by
  have hempty : r.lockWindow.1.slots = [] := by
    have hwindow := h.window_eq
    rw [hnone, window, segments, List.map_nil, List.map_eq_nil_iff] at hwindow
    exact hwindow
  obtain ⟨slots, hslots⟩ := r.lockWindow_eq
  change r.lockWindow.2.boundaryBefore r.lockWindow.1.slots = _
  rw [hempty, hslots]
  exact h.lastExitSpeed_eq

end Holds

/-! ## Windows at will -/

/-- A queue in which given segments wait, behind a given speed. -/
structure Awaits (q : Fifo) (boundary : Float32) (ss : List Segment) : Prop where
  /-- nothing has begun -/
  started_eq : q.started = []
  /-- the segments wait -/
  waiting_eq : q.waiting.map Slot.segment = ss
  /-- the speed is that of what was there before -/
  lastExitSpeed_eq : q.lastExitSpeed = boundary

theorem exists_awaits {len : Nat} (h₁ : 2 ≤ len) (h₂ : len ≤ n) (boundary : Float32)
    {ss : List Segment} (hlen : ss.length < len) :
    ∃ (r : Ring n) (q : Fifo), r.Holds [] q ∧ q.capacity = len - 1 ∧ Awaits q boundary ss := by
  induction ss using List.reverseRecOn with
  | nil =>
    have hfresh : (Ring.ofLen len h₁ h₂ : Ring n).Holds [] (.ofCapacity (len - 1)) := .ofLen h₁ h₂
    exact ⟨{ Ring.ofLen len h₁ h₂ with lastExitSpeed := boundary },
      { Fifo.ofCapacity (len - 1) with lastExitSpeed := boundary },
      { hfresh with valid := ⟨hfresh.valid.fits, hfresh.valid.used, hfresh.valid.begun_first⟩
                    lastExitSpeed_eq := rfl }, rfl, rfl, rfl, rfl⟩
  | append_singleton ss s ih =>
    rw [List.length_append, List.length_singleton] at hlen
    obtain ⟨r, q, h, hcapacity, hstarted, hwaiting, hlast⟩ := ih (by omega)
    have hentries := congrArg List.length q.entries_eq
    have hcount := congrArg List.length hwaiting
    rw [Fifo.entries, List.length_append, hstarted, List.nil_append] at hentries
    rw [List.length_map] at hcount
    obtain ⟨r', -, h'⟩ := (h.setHead s).publish_of_room
      (show q.finished.length + q.pending.length < q.capacity by omega)
    obtain ⟨hstarted', hwaiting'⟩ := (q.setHead s).parts_push
    refine ⟨r', _, h', hcapacity, hstarted'.trans hstarted, ?_, hlast⟩
    rw [hwaiting', List.map_append, show (q.setHead s).waiting = q.waiting from rfl, hwaiting]
    rfl

/-- Any segments for which there is room are the window of some ring. -/
theorem exists_window {len : Nat} (h₁ : 2 ≤ len) (h₂ : len ≤ n) (boundary : Float32)
    {ss : List Segment} (hlen : ss.length < len) : ∃ (r : Ring n) (q : Fifo),
      r.Holds [] q ∧ r.window = ss ∧ r.lockWindow.1.boundary = boundary := by
  obtain ⟨r, q, h, -, hstarted, hwaiting, hlast⟩ := exists_awaits h₁ h₂ boundary hlen
  refine ⟨r, q, h, h.window_eq.trans hwaiting, ?_⟩
  by_cases hnone : q.waiting = []
  · rw [h.boundary_of_empty hnone, hlast]
  · rw [h.boundary_lockWindow hnone, Fifo.boundary, hstarted]
    exact hlast

end Ring

namespace Planner

variable {p : Planner} {d e : Dispatcher n σ} {d' : Dispatcher n' σ'} {q q' : Fifo}

theorem recalculate_eq_ok_revised (hok : p.recalculate d = .ok e) :
    ∃ ss, e = d.setRing (d.ring.revised ss) := by
  rw [recalculate_eq_revised] at hok
  obtain ⟨ss, -, hok⟩ := Fault.bind_eq_ok.mp hok
  cases hok
  exact ⟨ss, rfl⟩

theorem recalculate_of_replan (h : d.ring.Holds [] q) {ss : List Segment}
    (hss : replan d.ring.lockWindow.1.boundary p.tuning.minimumSpeed d.ring.window = .ok ss) :
    ∃ e, p.recalculate d = .ok e ∧ e.ring.window = ss := by
  refine ⟨d.setRing (d.ring.revised ss), ?_, h.window_revised (h.length_replan hss)⟩
  rw [recalculate_eq_revised, hss]
  rfl

/-- Replanning makes every junction of a window consistent, if the speeds are numbers: each segment
is entered no faster than the one before it can be going by then, than its junction allows and than
is requested, and each one ends at the speed at which the next one is entered. Everything else in
the window stays as it is, and so do the rest of the ring and the plant. What can fail is the
difference of two ramps, which does not happen where ramps can be counted. -/
theorem recalculate_consistent (h : d.ring.Holds [] q)
    (hboundary : d.ring.lockWindow.1.boundary.isNaN = false)
    (hfinal : p.tuning.minimumSpeed.isNaN = false) (hspeeds : ∀ s ∈ d.ring.window, s.HasNumbers) :
    ((∃ e, p.recalculate d = .ok e) ∨ p.recalculate d = .error .subtractOverflow) ∧
    ((∀ s ∈ d.ring.window, s.HasRamps) → ∃ e, p.recalculate d = .ok e) ∧
    ∀ e, p.recalculate d = .ok e →
      Attainable d.ring.lockWindow.1.boundary e.ring.window ∧
      Linked p.tuning.minimumSpeed e.ring.window ∧
      (∀ s ∈ e.ring.window, s.stale = false) ∧
      e.ring.window.map Segment.load = d.ring.window.map Segment.load ∧
      e.ring.window.map Segment.unplanned = d.ring.window.map Segment.unplanned ∧
      d.ring.Revises e.ring ∧ e = d.setRing e.ring := by
  have hrevised := recalculate_eq_revised p d
  refine ⟨?_, fun hramps => ?_, fun e he => ?_⟩
  · obtain ⟨ss, hss, -⟩ | hss := replan_eq_ok_or d.ring.lockWindow.1.boundary
      p.tuning.minimumSpeed d.ring.window <;> rw [hss] at hrevised
    · exact .inl ⟨_, hrevised⟩
    · exact .inr hrevised
  · obtain ⟨ss, hss⟩ := exists_replan hramps d.ring.lockWindow.1.boundary p.tuning.minimumSpeed
    rw [hss] at hrevised
    exact ⟨_, hrevised⟩
  · have hreplan := (recalculate_eq_ok h he).2
    obtain ⟨hattainable, hlinked, hfresh⟩ := replan_consistent hboundary hfinal hspeeds hreplan
    obtain ⟨ss, hss⟩ := recalculate_eq_ok_revised he
    have hunplanned := unplanned_replan hreplan
    have hloads := congrArg (List.map Segment.load) hunplanned
    rw [List.map_map, List.map_map] at hloads
    refine ⟨hattainable, hlinked, hfresh, hloads, hunplanned, ?_, ?_⟩
    · rw [hss]
      exact h.revises ss
    · rw [hss]
      rfl

/-- Two moves in one line, with a carrier between them. -/
def carriedBetween : List Segment :=
  let move : Segment := { Segment.empty with
    eventCount := 1000, length := 10, nominalSpeed := 50, nominalRate := 5000, acceleration := 1000
    maxEntrySpeed := 50 }
  [{ move with maxEntrySpeed := 2 }, .empty, move]

theorem replan_carriedBetween : ∃ ss, replan 2 0 carriedBetween = .ok ss ∧
    ss.map (fun s => (s.hasMotion, decide (2 < s.entrySpeed))) =
      [(true, false), (false, true), (true, true)] := by
  have htest : (replan 2 0 carriedBetween).toOption.any (fun ss =>
      ss.map (fun s => (s.hasMotion, decide (2 < s.entrySpeed))) ==
        [(true, false), (false, true), (true, true)]) = true := by decide +kernel
  obtain ⟨ss, hss, hspeeds⟩ := Fault.exists_eq_ok htest
  exact ⟨ss, hss, eq_of_beq hspeeds⟩

/-- The carrier and the move behind it are entered at speed. -/
theorem recalculate_consistent_carrier : ∃ (p : Planner) (d e : Dispatcher 8 Unit) (q : Fifo),
    d.ring.Holds [] q ∧ d.ring.lockWindow.1.boundary.isNaN = false ∧
    p.tuning.minimumSpeed.isNaN = false ∧ (∀ s ∈ d.ring.window, s.HasNumbers) ∧
    p.recalculate d = .ok e ∧
    e.ring.window.map (fun s => (s.hasMotion, decide (2 < s.entrySpeed))) =
      [(true, false), (false, true), (true, true)] ∧
    Attainable d.ring.lockWindow.1.boundary e.ring.window ∧
    Linked p.tuning.minimumSpeed e.ring.window := by
  obtain ⟨r, q, h, hwindow, hboundary⟩ :=
    Ring.exists_window (n := 8) (show 2 ≤ 8 by decide) (by decide) 2
      (show carriedBetween.length < 8 by decide)
  let p := Planner.ofTuning ⟨1000, 4, 0, 100⟩
  let d : Dispatcher 8 Unit := .ofRing r ()
  have hb : d.ring.lockWindow.1.boundary.isNaN = false := by
    rw [show d.ring.lockWindow.1.boundary = 2 from hboundary]
    decide +kernel
  have hf : p.tuning.minimumSpeed.isNaN = false := by decide +kernel
  have hnumbers : ∀ s ∈ carriedBetween, s.maxEntrySpeed.isNaN = false ∧
      s.nominalSpeed.isNaN = false := by decide +kernel
  have hs : ∀ s ∈ d.ring.window, s.HasNumbers := fun s hs _ => hnumbers s (hwindow ▸ hs)
  obtain ⟨ss, hss, hspeeds⟩ := replan_carriedBetween
  rw [← hwindow, ← hboundary] at hss
  obtain ⟨e, he, rfl⟩ := recalculate_of_replan (p := p) (d := d) h hss
  obtain ⟨-, -, hconsistent⟩ := recalculate_consistent (p := p) (d := d) h hb hf hs
  obtain ⟨hattainable, hlinked, -⟩ := hconsistent e he
  exact ⟨p, d, e, q, h, hb, hf, hs, he, hspeeds, hattainable, hlinked⟩

/-- Carriers make no difference: two windows that are the same but for carriers are replanned to
windows that are the same but for carriers, bit for bit, or both fail. The newest segment has to
have motion, and no junction may allow more than is requested. -/
theorem recalculate_transparent (h : d.ring.Holds [] q) (h' : d'.ring.Holds [] q')
    (hboundary : d'.ring.lockWindow.1.boundary = d.ring.lockWindow.1.boundary)
    (hwindow : d'.ring.window = d.ring.window.filter Segment.hasMotion)
    (hlast : EndsInMotion d.ring.window)
    (hspeeds : ∀ s ∈ d.ring.window, s.hasMotion = true → s.maxEntrySpeed ≤ s.nominalSpeed) :
    Fault.Agree (fun e e' => e'.ring.window = e.ring.window.filter Segment.hasMotion)
      (p.recalculate d) (p.recalculate d') := by
  have hfilter := replan_filter hlast hspeeds d.ring.lockWindow.1.boundary p.tuning.minimumSpeed
  rw [← hwindow, ← hboundary] at hfilter
  cases hss : replan d.ring.lockWindow.1.boundary p.tuning.minimumSpeed d.ring.window with
  | error fault =>
    rw [hboundary, hss] at hfilter
    rw [recalculate_eq_revised, recalculate_eq_revised, hss, hboundary, hfilter]
    exact .error fault
  | ok ss =>
    rw [← hboundary] at hss
    rw [hss] at hfilter
    obtain ⟨e, he, hwindow_e⟩ := recalculate_of_replan h (hboundary ▸ hss)
    obtain ⟨e', he', hwindow_e'⟩ := recalculate_of_replan h' hfilter
    rw [he, he']
    exact .ok (by rw [hwindow_e, hwindow_e'])

/-- With and without the carrier the second move is entered at speed. -/
theorem recalculate_transparent_carrier :
    ∃ (p : Planner) (d d' e e' : Dispatcher 8 Unit) (q q' : Fifo),
      d.ring.Holds [] q ∧ d'.ring.Holds [] q' ∧
      d'.ring.lockWindow.1.boundary = d.ring.lockWindow.1.boundary ∧
      d'.ring.window = d.ring.window.filter Segment.hasMotion ∧ EndsInMotion d.ring.window ∧
      (∀ s ∈ d.ring.window, s.hasMotion = true → s.maxEntrySpeed ≤ s.nominalSpeed) ∧
      p.recalculate d = .ok e ∧ p.recalculate d' = .ok e' ∧
      e.ring.window.map (fun s => (s.hasMotion, decide (2 < s.entrySpeed))) =
        [(true, false), (false, true), (true, true)] ∧
      e'.ring.window = e.ring.window.filter Segment.hasMotion := by
  obtain ⟨r, q, h, hwindow, hboundary⟩ :=
    Ring.exists_window (n := 8) (show 2 ≤ 8 by decide) (by decide) 2
      (show carriedBetween.length < 8 by decide)
  obtain ⟨r', q', h', hwindow', hboundary'⟩ :=
    Ring.exists_window (n := 8) (show 2 ≤ 8 by decide) (by decide) 2
      (show (carriedBetween.filter Segment.hasMotion).length < 8 by decide)
  let p := Planner.ofTuning ⟨1000, 4, 0, 100⟩
  let d : Dispatcher 8 Unit := .ofRing r ()
  let d' : Dispatcher 8 Unit := .ofRing r' ()
  have hb : d'.ring.lockWindow.1.boundary = d.ring.lockWindow.1.boundary :=
    hboundary'.trans hboundary.symm
  have hw : d'.ring.window = d.ring.window.filter Segment.hasMotion := by
    rw [show d'.ring.window = _ from hwindow', show d.ring.window = _ from hwindow]
  have hroom : ∀ s ∈ carriedBetween, s.hasMotion = true → s.maxEntrySpeed ≤ s.nominalSpeed := by
    decide +kernel
  have hs : ∀ s ∈ d.ring.window, s.hasMotion = true → s.maxEntrySpeed ≤ s.nominalSpeed :=
    fun s hs => hroom s (hwindow ▸ hs)
  have hlast : EndsInMotion d.ring.window := by
    rw [show d.ring.window = _ from hwindow]
    intro s hs
    cases hs
    rfl
  obtain ⟨ss, hss, hspeeds⟩ := replan_carriedBetween
  rw [← hwindow, ← hboundary] at hss
  obtain ⟨e, he, rfl⟩ := recalculate_of_replan (p := p) (d := d) h hss
  have h' : d'.ring.Holds [] q' := h'
  obtain ⟨e', he', hsame⟩ :=
    (recalculate_transparent (p := p) (d := d) h h' hb hw hlast hs).exists_ok he
  exact ⟨p, d, d', e, e', q, q', h, h', hb, hw, hlast, hs, he, he', hspeeds, hsame⟩

end Planner

end MotionControl
