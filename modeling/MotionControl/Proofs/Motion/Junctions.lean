import MotionControl.Proofs.Lookahead.Line
import MotionControl.Proofs.Lookahead.Planned
import MotionControl.Proofs.Motion.Roster

/-!
# Junctions

On a calm machine, what has begun follows without a jump up in speed, and what waits is in a line
behind it (`Roster.Lined`). Neither the interrupt nor the main loop leads out of that, whatever
they do and in whatever order (`Dispatcher.Lined.kept`, `Dispatcher.Lined.appendWith`). A carrier
needs no replanning, as it rests at both ends.

While segments are held, they are no line: the newest one may not be planned yet. But nothing that
waits begins in the meantime.
-/

namespace MotionControl

open Rounding Lookahead

variable {n : Nat} {final : Float32}

/-- A segment that only brings commands, and rests at both ends. -/
structure Segment.IsCarrier (s : Segment) : Prop where
  /-- nothing is moved -/
  hasMotion : s.hasMotion = false
  /-- it begins at rest -/
  entrySpeed : s.entrySpeed = 0
  /-- and ends at rest -/
  exitSpeed : s.exitSpeed = 0

theorem Segment.isCarrier_empty : empty.IsCarrier := ⟨rfl, rfl, rfl⟩

theorem Segment.IsCarrier.attach {s s' : Segment} {c : Command} (h : s.IsCarrier)
    (hs : s.attach c = .ok s') : s'.IsCarrier := by
  obtain ⟨⟨l, rfl⟩, -⟩ := Segment.attach_eq_ok hs
  exact ⟨h.hasMotion, h.entrySpeed, h.exitSpeed⟩

/-! ## Rosters -/

/-- Nothing is held, there is no jump up in speed so far, and what waits is in a line. -/
structure Roster.Lined (final : Float32) (r : Roster) : Prop where
  /-- nothing is held for revision -/
  held_eq : r.held = []
  /-- what has begun follows without a jump up -/
  smooth : Smooth final 0 r.started
  /-- what waits is in a line behind it -/
  line : Line final r.boundary r.segments
  /-- only commands wait at the head -/
  head : r.head.IsCarrier

namespace Roster.Lined

variable {r r' : Roster}

theorem empty : (⟨[], [], [], .empty⟩ : Roster).Lined final :=
  ⟨rfl, trivial, .done .zero fun _ => value_zero, Segment.isCarrier_empty⟩

/-- The first of the waiting segments may begin. -/
theorem passes (h : r.Lined final) (hf : IsSpeed final) (hp : r.Passes r') : r'.Lined final := by
  obtain ⟨hwaiting, -⟩ := hp
  next gone rest =>
  have hline := h.line
  rw [Roster.segments, hwaiting, List.map_append] at hline
  obtain ⟨hsmooth, hrest⟩ := hline.begin hf
  refine ⟨h.held_eq, smooth_append.mpr ⟨h.smooth, hsmooth⟩, ?_, h.head⟩
  rw [Roster.boundary, Segment.endOf_append]
  exact hrest

/-- What is prepared may be put behind as long as it is a carrier. -/
theorem push (h : r.Lined final) (hf : IsSpeed final) :
    Roster.Lined final { r with waiting := r.waiting ++ [⟨r.head, .ready⟩], head := .empty } := by
  refine ⟨h.held_eq, h.smooth, ?_, Segment.isCarrier_empty⟩
  rw [Roster.segments, List.map_append]
  exact h.line.push hf h.head.hasMotion h.head.entrySpeed h.head.exitSpeed

/-- Commands may be attached to the newest segment. -/
theorem attach {before : List Slot} {s : Segment} {state : SlotState} (h : r.Lined final)
    (hwaiting : r.waiting = before ++ [⟨s, state⟩]) (commands : CommandList) :
    Roster.Lined final
      { r with waiting := before ++ [⟨{ s with commands := commands }, state⟩] } := by
  refine ⟨h.held_eq, h.smooth, h.line.congr ?_, h.head⟩
  rw [Roster.segments, Roster.segments, hwaiting, List.map_append, List.map_append, List.map_append,
    List.map_append]
  rfl

end Roster.Lined

/-- Where nothing has begun in the meantime, what waits may have been replanned. -/
theorem Roster.lined_of_line {r r' : Roster} (hsmooth : Smooth final 0 r.started)
    (hline : Line final r.boundary r'.segments) (hhead : r.head.IsCarrier) (hheld : r'.held = [])
    (hstarted : r'.started = r.started) (hhead' : r'.head = r.head) : r'.Lined final := by
  refine ⟨hheld, hstarted ▸ hsmooth, ?_, hhead' ▸ hhead⟩
  rw [boundary, hstarted]
  exact hline

/-! ## The dispatcher -/

/-- A dispatcher that is not halted and has a roster in a line. -/
structure Dispatcher.Lined (final : Float32) (d : Dispatcher n Scribe) : Prop where
  /-- the dispatcher is not halted -/
  active : d.halted = false
  /-- there is a roster -/
  roster : ∃ r, d.plant.Matches r ∧ r.Lined final

namespace Dispatcher.Lined

variable {d : Dispatcher n Scribe} {inspect : Plant n Scribe → Bool} {bs : List Beat}

/-- Whatever the main loop does, except for moves. -/
theorem kept (hf : IsSpeed final) : Kept (Lined (n := n) final) where
  run h _ hpending := by
    obtain ⟨hactive, r, hm, hr⟩ := h
    exact ⟨hactive, r, hm.setRunning hpending, hr⟩
  reclaim h hfinished := by
    obtain ⟨hactive, r, hm, hr⟩ := h
    obtain ⟨hempty, ring, hring, hm'⟩ := hm.reclaim hr.held_eq hfinished
    exact ⟨hempty, ring, hring, hactive, r, hm', hr⟩
  publish h _ hroom := by
    obtain ⟨hactive, r, hm, hr⟩ := h
    obtain ⟨ring, hring, hm'⟩ := hm.publish hroom
    exact ⟨ring, hring, ⟨hactive, _, hm', hr.push hf⟩, hm'.headSegment_eq⟩
  drop h hhalted := by
    rw [h.active] at hhalted
    cases hhalted
  attachToNewest {d} h {c i locked s} hlock hs := by
    obtain ⟨hactive, r, hm, hr⟩ := h
    obtain ⟨before, s₀, hwaiting, hseg, hrevised⟩ := hm.reviseNewest hr.held_eq hlock
    rw [hseg] at hs
    obtain ⟨⟨l, rfl⟩, -⟩ := Segment.attach_eq_ok hs
    exact ⟨hactive, _, hrevised _ id, hr.attach hwaiting l⟩
  attachToHead {d} h {c s} hs := by
    obtain ⟨hactive, r, hm, hr⟩ := h
    rw [show d.ring.headSegment = r.head from hm.headSegment_eq] at hs
    have hsound := Segment.closed_sound.attach hm.sound.1 hs
    exact ⟨hactive, _, hm.setHead hsound, hr.held_eq, hr.smooth, hr.line, hr.head.attach hs⟩

/-- And whatever the interrupt does. -/
theorem withstands (hf : IsSpeed final)
    (hinspect : ∀ p, Smooth final 0 p.reported → inspect p = true)
    (hbs : bs.all Beat.isCalm = true) :
    Withstands (Lined (n := n) final) (Plant.beats inspect bs) := by
  rintro d ⟨hactive, r, hm, hr⟩
  refine (hm.beats (fun r r' h hp => h.passes hf hp) (fun p r h hp => ?_) hbs hr).mono ?_
  · refine hinspect p ?_
    rw [hp.started_eq]
    exact h.smooth
  · rintro p ⟨r', hr', hm'⟩
    exact ⟨hactive, r', hm', hr'⟩

end Dispatcher.Lined

/-- What is done to a plant while all that waits is held changes nothing about its roster. -/
def Plant.Awaits (final : Float32) (act : Plant n Scribe → Except Fault (Plant n Scribe)) : Prop :=
  ∀ p r, p.Matches r → r.Locked → Smooth final 0 r.started → Fault.Blameless (Matches · r) (act p)

theorem Plant.awaits {inspect : Plant n Scribe → Bool}
    (hinspect : ∀ p, Smooth final 0 p.reported → inspect p = true) {bs : List Beat}
    (hbs : bs.all Beat.isCalm = true) : Awaits final (Plant.beats inspect bs) := by
  intro p r hm hlocked hsmooth
  refine hm.beats_locked (fun p hp => hinspect p ?_) hbs hlocked
  rw [hp.started_eq]
  exact hsmooth

namespace Dispatcher.Lined

variable {d : Dispatcher n Scribe} {p : Planner} {r : Roster}
  {locked revised : Plant n Scribe → Except Fault (Plant n Scribe)}

/-- Replanning makes a line of what waits. -/
theorem recalculateWith (hf : IsSpeed p.tuning.minimumSpeed) (hactive : d.halted = false)
    (hm : d.plant.Matches r) (hheld : r.held = [])
    (hsmooth : Smooth p.tuning.minimumSpeed 0 r.started)
    (hready : Ready p.tuning.minimumSpeed r.boundary r.segments) (hhead : r.head.IsCarrier)
    (hlocked : Plant.Awaits p.tuning.minimumSpeed locked)
    (hrevised : Plant.Awaits p.tuning.minimumSpeed revised) :
    Fault.Blameless (Lined p.tuning.minimumSpeed) (p.recalculateWith locked revised d) := by
  unfold Planner.recalculateWith
  obtain ⟨r₁, hm₁, hlocked₁, hslots, hsegments₁, hstarted₁, hhead₁, hboundary⟩ :=
    hm.lockWindow hheld
  have hslots : d.ring.lockWindow.1.slots = r₁.held := hslots.symm
  dsimp only
  rw [hslots]
  refine (hlocked _ r₁ hm₁ hlocked₁ (hstarted₁ ▸ hsmooth)).bind fun p₁ hp₁ => ?_
  rw [hp₁.segments_held hlocked₁, hsegments₁]
  obtain ⟨ss, hok, hloads⟩ | herr := replan_eq_ok_or d.ring.lockWindow.1.boundary
    p.tuning.minimumSpeed r.segments
  · -- an empty window does not care where it begins
    have hok' : replan r.boundary p.tuning.minimumSpeed r.segments = .ok ss := by
      by_cases hnil : r.segments = []
      · rw [hnil] at hok ⊢
        exact hok
      · rwa [show d.ring.lockWindow.1.boundary = r.boundary from hboundary hnil] at hok
    have hline := hready.replan hf hok'
    have hsound := Segment.closed_sound.replanned (hsegments₁ ▸ hp₁.sound.2) hok
    have hlen := congrArg List.length hloads
    rw [List.length_map, List.length_map, ← hsegments₁] at hlen
    rw [hok]
    obtain ⟨r₂, hm₂, hlocked₂, hheld₂, hsegments₂, hstarted₂, hhead₂⟩ :=
      hp₁.revise hlocked₁ hsound hlen
    have hstarted := hstarted₂.trans hstarted₁
    refine (hrevised _ r₂ hm₂ hlocked₂ (hstarted ▸ hsmooth)).bind fun p₂ hp₂ => ?_
    obtain ⟨r₃, hm₃, hheld₃, hsegments₃, hstarted₃, hhead₃⟩ := hp₂.unlock
    rw [hheld₂] at hm₃
    exact ⟨hactive, r₃, hm₃, Roster.lined_of_line hsmooth (by rwa [hsegments₃, hsegments₂]) hhead
      hheld₃ (hstarted₃.trans hstarted) (hhead₃.trans (hhead₂.trans hhead₁))⟩
  · rw [herr]
    rfl

/-- Publishing a segment in place of the one at the head, when there is room. -/
theorem queueMove (hactive : d.halted = false) (hm : d.plant.Matches r)
    (hroom : d.ring.isFull = false) {s : Segment} (hs : s.load.Sound) (idle : Idle n Scribe) :
    ∃ d', (d.setHead s).queueHead idle = .ok (idle, d') ∧ d'.halted = false ∧
      d'.plant.Matches { r with waiting := r.waiting ++ [⟨s, .ready⟩], head := .empty } := by
  have hroom' : (d.setHead s).ring.isFull = false := hroom
  have hwait : (d.setHead s).waitForSpace idle = .ok (idle, d.setHead s) :=
    Keeps.waitUntil_of_done (by rw [hroom']; rfl) idle
  obtain ⟨ring, hring, hm'⟩ := (hm.setHead hs).publish hroom'
  have hpublish : (d.setHead s).publish = .ok (d.setRing ring) := by
    have hring : (d.setHead s).ring.publish = .ok ring := hring
    rw [Dispatcher.publish, hring]
    rfl
  rw [Dispatcher.queueHead, hwait]
  dsimp only [bind, Except.bind]
  rw [if_neg (by rw [show (d.setHead s).halted = false from hactive]; exact Bool.false_ne_true),
    hpublish]
  exact ⟨_, rfl, hactive, hm'⟩

/-- A move that is queued is planned into the line. -/
theorem appendWith (h : d.Lined p.tuning.minimumSpeed) (hvalid : p.tuning.isValid = true)
    {m : Move} (hfinite : m.isFinite = true) {idle : Idle n Scribe}
    (hidle : ∀ act ∈ idle, Withstands (Lined (n := n) p.tuning.minimumSpeed) act)
    (hlocked : Plant.Awaits p.tuning.minimumSpeed locked)
    (hrevised : Plant.Awaits p.tuning.minimumSpeed revised) :
    Fault.Blameless (fun x => x.2.1.tuning = p.tuning ∧ x.2.2.2.Lined p.tuning.minimumSpeed)
      (p.appendWith locked revised m idle d) := by
  have hf := Tuning.isSpeed_minimumSpeed hvalid
  unfold Planner.appendWith
  split
  · next haccepts =>
    refine ((kept hf).pushCarrier h hidle).bind ?_
    rintro ⟨idle₁, d₁⟩ ⟨h₁, hidle₁⟩
    refine ((kept hf).waitUntil h₁ _ hidle₁).bind ?_
    rintro ⟨idle₂, d₂⟩ ⟨⟨hactive, r, hm, hr⟩, hroom, -⟩
    dsimp only at hactive hm hroom ⊢
    rw [Bool.not_eq_true'] at hroom
    obtain ⟨s, hs, hsound, -⟩ | herr := p.segmentOf_eq_ok_or m
      (!d₂.ring.hasPending || p.previousNominalSpeed ≤ 0)
    · obtain ⟨hgear, hentry⟩ := Planner.segmentOf_spec hvalid haccepts hfinite (by simp) hs
      obtain ⟨d₃, hd₃, hactive₃, hm₃⟩ := queueMove hactive hm hroom hsound idle₂
      have hready : Ready p.tuning.minimumSpeed r.boundary
          ((r.waiting ++ [(⟨s, .ready⟩ : Slot)]).map Slot.segment) := by
        rw [List.map_append]
        exact hr.line.ready_append hf hgear hentry
      rw [hs]
      dsimp only [bind, Except.bind]
      rw [hd₃]
      let p' : Planner := { p with
        position := m.target
        previousSpeeds := m.speeds
        previousNominalSpeed := m.feed }
      have hreplanned : Fault.Blameless (Lined p.tuning.minimumSpeed)
          (p'.recalculateWith locked revised d₃) :=
        recalculateWith hf hactive₃ hm₃ hr.held_eq hr.smooth hready Segment.isCarrier_empty
          hlocked hrevised
      refine hreplanned.bind ?_
      rintro d₄ ⟨hactive₄, r₄, hm₄, hr₄⟩
      exact ⟨rfl, hactive₄, r₄, hm₄.wakeUp, hr₄⟩
    · rw [herr]
      rfl
  · exact ⟨rfl, h⟩

end Dispatcher.Lined

end MotionControl
