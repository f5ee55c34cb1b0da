import MotionControl.Proofs.Motion.Load
import MotionControl.Proofs.Motion.Loop

/-!
# The planner on record

The interrupt may be at work while the planner holds segments for revision.
`Planner.recalculateWith` and `Planner.appendWith` are the functions of the planner with this work
in its place: as soon as the segments are locked, and again when they are revised. Without any work
they are `Planner.recalculate` and `Planner.append`.

A move that is accepted adds its way to the goal, and its begin and its end to what is accepted.
Planning speeds leaves everything as it is.
-/

namespace MotionControl

variable {n : Nat}

namespace Planner

variable {σ : Type}

/-- Replan every pending segment that has not begun, while the interrupt is at work. -/
def recalculateWith (locked revised : Plant n σ → Except Fault (Plant n σ)) (p : Planner)
    (d : Dispatcher n σ) : Except Fault (Dispatcher n σ) := do
  let window := d.ring.lockWindow.1
  let plant ← locked { d.plant with ring := d.ring.lockWindow.2 }
  let replanned ← Lookahead.replan window.boundary p.tuning.minimumSpeed
    (plant.ring.segments window.slots)
  let plant ← revised { plant with ring := plant.ring.setSegments window.slots replanned }
  return { d with plant := { plant with ring := plant.ring.unlock window.slots } }

/-- Queue a move, waiting for room, while the interrupt is at work. -/
def appendWith (locked revised : Plant n σ → Except Fault (Plant n σ)) (p : Planner) (m : Move)
    (idle : Idle n σ) (d : Dispatcher n σ) :
    Except Fault (Bool × Planner × Idle n σ × Dispatcher n σ) :=
  if p.accepts m then do
    let (idle, d) ← d.pushCarrier idle
    let (idle, d) ← d.waitForSpace idle
    let segment ← p.segmentOf m (!d.ring.hasPending || p.previousNominalSpeed ≤ 0)
    let p := { p with
      position := m.target
      previousSpeeds := m.speeds
      previousNominalSpeed := m.feed }
    let (idle, d) ← (d.setHead segment).queueHead idle
    let d ← p.recalculateWith locked revised d
    return (true, p, idle, { d with plant := d.plant.publish .wokeUp })
  else .ok (false, p, idle, d)

theorem recalculate_eq (p : Planner) (d : Dispatcher n σ) :
    p.recalculate d = p.recalculateWith .ok .ok d := rfl

theorem append_eq (p : Planner) (m : Move) (idle : Idle n σ) (d : Dispatcher n σ) :
    p.append m idle d = p.appendWith .ok .ok m idle d := rfl

/-- How far a move to a target goes, in steps. -/
def way (p : Planner) (target : PerAxis Int32) : PerAxis Int := .ofFn (p.delta target)

theorem hasMotion_segment {p : Planner} {m : Move} (hm : p.accepts m = true) {s : Segment}
    (hsound : s.load.Sound) (hway : ∀ a, s.load.displacement a = p.delta m.target a) :
    s.load.hasMotion = true := by
  obtain ⟨a, ha⟩ := exists_delta_ne_zero hm
  apply Classical.byContradiction
  intro hnot
  have hzero := hsound.displacement_eq_zero (Bool.eq_false_iff.mpr hnot) a
  exact ha ((hway a).symm.trans hzero)

/-- The segment of an accepted move begins and ends, and brings no commands. -/
theorem entries_segment {p : Planner} {m : Move} (hm : p.accepts m = true) {s : Segment}
    (hsound : s.load.Sound) (hcommands : s.commands = .empty)
    (hway : ∀ a, s.load.displacement a = p.delta m.target a) :
    s.load.entries = [.begun (p.way m.target), .done (p.way m.target)] := by
  have hloadway : s.load.way = p.way m.target := by
    apply PerAxis.ext_get
    intro a
    rw [Load.way, way, PerAxis.get_ofFn, PerAxis.get_ofFn, hway a]
  have hnone : s.load.commands = .empty := hcommands
  rw [Load.entries, if_pos (hasMotion_segment hm hsound hway), hloadway, hnone]
  rfl

end Planner

/-- Announcing new work is no part of the story. -/
theorem Plant.Keeps.wakeUp {calm : Prop} {g : Ledger} {p : Plant n Scribe} (h : p.Keeps calm g) :
    (p.publish .wokeUp).Keeps calm g := by
  obtain ⟨hcounted, hlog⟩ :=
    log_of_events h.counted (p.publish .wokeUp) Array.toList_push rfl rfl
  have hstory : (p.publish .wokeUp).story = p.story := by
    rw [story, hlog, Story.ofLog, List.foldl_append]
    rfl
  refine ⟨⟨h.coupled.holds, h.coupled.begun_eq, h.coupled.slot_eq⟩, h.head_eq, h.flush_eq,
    hcounted, h.clear, h.unflushed, fun hcalm => ?_⟩
  rw [hstory]
  exact h.onCourse hcalm

namespace Dispatcher.Keeps

variable {calm : Prop} {g : Ledger} {d : Dispatcher n Scribe}
  {locked revised : Plant n Scribe → Except Fault (Plant n Scribe)}

/-- Replanning keeps the ledger, whatever the interrupt does meanwhile. -/
theorem recalculateWith (h : d.Keeps calm g) (p : Planner)
    (hlocked : Plant.Respects calm g.goal g.accepted locked)
    (hrevised : Plant.Respects calm g.goal g.accepted revised) :
    Plant.Safely calm (fun d' => d'.Keeps calm g ∧ d'.halted = d.halted)
      (p.recalculateWith locked revised d) := by
  unfold Planner.recalculateWith
  dsimp only
  have h₀ := h.plant.lockWindow h.held_eq
  refine (hlocked { g with held := d.ring.lockWindow.1.slots } _ rfl rfl h₀).bind fun p₁ h₁ => ?_
  obtain ⟨ss, hss, hloads⟩ | hss := Lookahead.replan_eq_ok_or d.ring.lockWindow.1.boundary
    p.tuning.minimumSpeed (p₁.ring.segments d.ring.lockWindow.1.slots)
  · rw [hss]
    refine (hrevised { g with held := d.ring.lockWindow.1.slots } _ rfl rfl
      (h₁.revise hloads)).bind fun p₂ h₂ => ?_
    have h₃ := h₂.unlock
    have hsame : { g with held := [] } = g := by rw [← h.held_eq]
    dsimp only at h₃
    rw [hsame] at h₃
    exact ⟨⟨h₃, h.held_eq, h.sound, h.still, h.active⟩, rfl⟩
  · rw [hss]
    exact fun _ => .inr rfl

/-- Publishing a segment in place of an empty head, when there is room. -/
theorem queueMove (h : d.Keeps calm g) (hroom : d.ring.isFull = false)
    (hhead : g.head.load.entries = []) {s : Segment} (hs : s.load.Sound) (goal : PerAxis Int32)
    (hgoal : ∀ a, (goal.get a).toInt = (g.goal.get a).toInt + s.load.displacement a)
    (idle : Idle n Scribe) :
    ∃ d', (d.setHead s).queueHead idle = .ok (idle, d') ∧
      d'.Keeps calm { g with
        head := .empty, goal := goal, accepted := g.accepted ++ s.load.entries } ∧
      d'.halted = d.halted := by
  -- room for the one is room for the other
  have hwait : (d.setHead s).waitForSpace idle = .ok (idle, d.setHead s) := by
    apply waitUntil_of_done
    rw [Bool.not_eq_true']
    exact hroom
  rw [Dispatcher.queueHead, hwait]
  dsimp only [bind, Except.bind]
  split
  · next hhalt =>
    have hnot : ¬ calm := by
      intro hcalm
      have hhalt : d.halted = true := hhalt
      rw [h.active hcalm] at hhalt
      cases hhalt
    have hset := h.plant.setHead s [] fun hcalm => (hnot hcalm).elim
    have hempty := hset.setHead .empty [] fun hcalm => (hnot hcalm).elim
    have hkeeps := hempty.relabel hnot goal (g.accepted ++ s.load.entries)
    exact ⟨_, rfl, h.emptyHead hkeeps rfl, rfl⟩
  · obtain ⟨r, hr, hkeeps⟩ := h.plant.publish h.held_eq s goal s.load.entries
      (h.holds.setHead s) rfl hroom fun _ => ⟨hs, by rw [hhead]; rfl, hgoal⟩
    have hr : (d.setHead s).ring.publish = .ok r := hr
    have hpublish : (d.setHead s).publish = .ok (d.setRing r) := by
      rw [Dispatcher.publish, hr]
      rfl
    rw [hpublish]
    exact ⟨_, rfl, h.emptyHead hkeeps rfl, rfl⟩

/-- A move that is accepted is queued behind all that has been accepted before. -/
theorem appendWith (h : d.Keeps calm g) {p : Planner} (hgoal : g.goal = p.position) {m : Move}
    (hm : p.accepts m = true) {idle : Idle n Scribe}
    (hidle : idle.Respects calm g.goal g.accepted)
    (hlocked : Plant.Respects calm m.target
      (g.accepted ++ [.begun (p.way m.target), .done (p.way m.target)]) locked)
    (hrevised : Plant.Respects calm m.target
      (g.accepted ++ [.begun (p.way m.target), .done (p.way m.target)]) revised) :
    Plant.Safely calm (fun x => x.1 = true ∧ x.2.1.position = m.target ∧
      x.2.2.2.Keeps calm { g with
        head := .empty
        goal := m.target
        accepted := g.accepted ++ [.begun (p.way m.target), .done (p.way m.target)] } ∧
      x.2.2.2.halted = d.halted) (p.appendWith locked revised m idle d) := by
  unfold Planner.appendWith
  rw [if_pos hm]
  refine (h.pushCarrier hidle).bind ?_
  rintro ⟨idle₁, d₁⟩ ⟨s₁, h₁, hentries, hhalted₁, hidle₁⟩
  refine (h₁.waitUntil _ hidle₁).bind ?_
  rintro ⟨idle₂, d₂⟩ ⟨h₂, hhalted₂, hroom, -⟩
  dsimp only at h₁ hhalted₁ h₂ hhalted₂ hroom ⊢
  rw [Bool.not_eq_true'] at hroom
  -- the wait has made room, so that nothing can come between the move and its publication
  obtain ⟨s, hs, hsound, hcommands, hway⟩ | hs := p.segmentOf_eq_ok_or m
    (!d₂.ring.hasPending || p.previousNominalSpeed ≤ 0)
  · have hsteps := Planner.entries_segment hm hsound hcommands hway
    obtain ⟨d₃, hd₃, h₃, hhalted₃⟩ := h₂.queueMove hroom hentries hsound m.target (by
      intro a
      rw [hway a, hgoal, Planner.delta]
      omega) idle₂
    rw [hs]
    dsimp only [bind, Except.bind]
    rw [hd₃]
    rw [hsteps] at h₃
    refine (h₃.recalculateWith _ hlocked hrevised).bind fun d₄ hd₄ => ?_
    obtain ⟨h₄, hhalted₄⟩ := hd₄
    refine ⟨rfl, rfl, ⟨h₄.plant.wakeUp, h.held_eq, h₄.sound, h₄.still, h₄.active⟩, ?_⟩
    exact hhalted₄.trans (hhalted₃.trans (hhalted₂.trans hhalted₁))
  · rw [hs]
    exact fun _ => .inr rfl

end Dispatcher.Keeps

end MotionControl
