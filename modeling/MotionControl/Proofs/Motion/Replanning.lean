import MotionControl.Proofs.Motion.Abreast

/-!
# Replanning once is enough

Every move that is queued has the planner revise all that waits. What it leaves is determined by the
speeds before and behind the window and by what the segments are, and not by any plan that was there
before (`Planner.recalculate_forgets`). So replanning again changes nothing. And as long as nothing
that waits begins, it would do to queue all moves without replanning, and to replan when the last
one has come: until then nothing takes notice of a plan.

`Planner.enqueue` is `Planner.append` without replanning, and a `Chore` is one thing that happens
between two moves.
-/

namespace MotionControl

open Segment (Kin Same SamePlan)
open Single (Alike)

variable {n : Nat}

theorem Ring.Holds.window_revised {r : Ring n} {q : Fifo} (h : r.Holds [] q) {ss : List Segment}
    (hlen : ss.length = q.waiting.length) : (r.revised ss).window = ss := by
  rw [(h.revised ss).window_eq, (Fifo.parts_revised h.not_locked h.ready_of_waiting hlen).2.2]

theorem Ring.Holds.length_replan {r : Ring n} {q : Fifo} (h : r.Holds [] q) {ss : List Segment}
    {boundary final : Float32} (hss : Lookahead.replan boundary final r.window = .ok ss) :
    ss.length = q.waiting.length := by
  have hlen := congrArg List.length (Lookahead.unplanned_replan hss)
  rwa [List.length_map, List.length_map, h.window_eq, List.length_map] at hlen

theorem Ring.Twins.window {R : Segment → Segment → Prop} {r r' : Ring n} (h : r.Twins R r') :
    List.Forall₂ R r.window r'.window := by
  rw [h.left.window_eq, h.right.window_eq]
  exact h.queue.waiting

namespace Planner

section

variable {σ : Type} {p : Planner} {d d' e : Dispatcher n σ} {q : Fifo}

/-- Replanning revises the window. -/
theorem recalculate_eq_revised (p : Planner) (d : Dispatcher n σ) : p.recalculate d = do
    let ss ← Lookahead.replan d.ring.lockWindow.1.boundary p.tuning.minimumSpeed d.ring.window
    return d.setRing (d.ring.revised ss) := rfl

theorem recalculate_eq_ok (h : d.ring.Holds [] q) (hok : p.recalculate d = .ok e) :
    d.Twins Kin e ∧ Lookahead.replan d.ring.lockWindow.1.boundary p.tuning.minimumSpeed
      d.ring.window = .ok e.ring.window := by
  rw [recalculate_eq_revised] at hok
  obtain ⟨ss, hss, hok⟩ := Fault.bind_eq_ok.mp hok
  cases hok
  have hkin := Segment.forall₂_kin.mpr (Lookahead.unplanned_replan hss).symm
  rw [h.window_eq] at hkin
  refine ⟨.intro (.of_revised h hkin), ?_⟩
  rw [hss]
  exact congrArg Except.ok (h.window_revised (h.length_replan hss)).symm

/-- Replanning makes the same of kin. -/
theorem recalculate_congr (p : Planner) (h : d.Twins Kin d') :
    Fault.Agree (Dispatcher.Twins Same) (p.recalculate d) (p.recalculate d') := by
  rw [recalculate_eq_revised, recalculate_eq_revised, h.ring.boundary_eq]
  refine (Lookahead.replan_same (.refl _) (Segment.forall₂_kin.mp h.ring.window)).attach.bind ?_
  rintro ss ss' ⟨hss, hok, -⟩
  have hlen := h.ring.left.length_replan hok
  obtain ⟨h⟩ := h
  exact .ok (.intro (d := d.setRing (d.ring.revised ss)) (h.revised hss hlen))

/-- Replanning does not care for events. -/
theorem recalculate_publish (p : Planner) (d : Dispatcher n σ) (event : Event) :
    p.recalculate { d with plant := d.plant.publish event } =
      (p.recalculate d).map fun e => { e with plant := e.plant.publish event } := by
  rw [recalculate_eq_revised, recalculate_eq_revised]
  change (Lookahead.replan d.ring.lockWindow.1.boundary _ d.ring.window >>= _) = _
  cases Lookahead.replan d.ring.lockWindow.1.boundary p.tuning.minimumSpeed d.ring.window <;> rfl

/-- Replanning twice is replanning once. -/
theorem recalculate_recalculate (h : d.ring.Holds [] q) (hok : p.recalculate d = .ok e) :
    ∃ e', p.recalculate e = .ok e' ∧ e.Twins Same e' :=
  (recalculate_congr p (recalculate_eq_ok h hok).1).exists_ok hok

/-! ## Queueing -/

/-- Queue a move and leave replanning for later. -/
def enqueue (p : Planner) (m : Move) (idle : Idle n σ) (d : Dispatcher n σ) :
    Except Fault (Bool × Planner × Idle n σ × Dispatcher n σ) :=
  if p.accepts m then do
    let (idle, d) ← d.pushCarrier idle
    let (idle, d) ← d.waitForSpace idle
    let segment ← p.segmentOf m (!d.ring.hasPending || p.previousNominalSpeed ≤ 0)
    let p := { p with
      position := m.target
      previousSpeeds := m.speeds
      previousNominalSpeed := m.feed }
    let (idle, d) ← (d.setHead segment).queueHead idle
    return (true, p, idle, { d with plant := d.plant.publish .wokeUp })
  else .ok (false, p, idle, d)

/-- To queue a move is to enqueue it and to replan. -/
theorem append_eq_enqueue (p : Planner) (m : Move) (idle : Idle n σ) (d : Dispatcher n σ) :
    p.append m idle d = do
      let (moved, p, idle, d) ← p.enqueue m idle d
      if moved then return (moved, p, idle, ← p.recalculate d) else return (moved, p, idle, d) := by
  unfold append enqueue
  split
  · rw [bind_assoc]
    refine bind_congr fun ⟨idle₁, d₁⟩ => ?_
    rw [bind_assoc]
    refine bind_congr fun ⟨idle₂, d₂⟩ => ?_
    rw [bind_assoc]
    refine bind_congr fun segment => ?_
    rw [bind_assoc]
    refine bind_congr fun ⟨idle₃, d₃⟩ => ?_
    rw [pure_bind]
    dsimp only
    rw [if_pos rfl, recalculate_publish]
    generalize recalculate _ d₃ = result
    cases result <;> rfl
  · rfl

end

variable {p : Planner} {m : Move} {d d' : Dispatcher n Scribe} {idle : Idle n Scribe}

/-- What queueing a move comes to: the same answer and planner, and dispatchers that are kin. -/
structure Abreast (x y : Bool × Planner × Idle n Scribe × Dispatcher n Scribe) : Prop where
  /-- both moves are accepted, or neither is -/
  moved_eq : y.1 = x.1
  /-- the planners remember the same -/
  planner_eq : y.2.1 = x.2.1
  /-- the dispatchers are the same but for plans -/
  rest : Dispatcher.Abreast x.2.2 y.2.2

theorem enqueue_congr (h : d.Twins Kin d') (hidle : ∀ act ∈ idle, Plant.Unaware act) :
    Fault.Follows Abreast (p.enqueue m idle d) (p.enqueue m idle d') := by
  unfold enqueue
  split
  · refine (h.pushCarrier hidle).bind ?_
    rintro ⟨idle₁, d₁⟩ ⟨_, d₁'⟩ ⟨rfl, hidle₁, h₁⟩
    refine (h₁.waitForSpace hidle₁).bind ?_
    rintro ⟨idle₂, d₂⟩ ⟨_, d₂'⟩ ⟨rfl, hidle₂, h₂⟩
    dsimp only
    rw [h₂.ring.hasPending_eq]
    refine (Fault.Agree.refl _).follows.bind ?_
    rintro segment _ rfl
    refine ((h₂.setHead segment).queueHead hidle₂).bind ?_
    rintro ⟨idle₃, d₃⟩ ⟨_, d₃'⟩ ⟨rfl, hidle₃, h₃⟩
    exact .ok ⟨rfl, rfl, rfl, hidle₃, h₃.wakeUp⟩
  · exact .ok ⟨rfl, rfl, rfl, hidle, h⟩

/-- Where a move is queued on one dispatcher, it can be enqueued on its kin, and replanning does not
make them any less kin. -/
theorem append_enqueue_congr (h : d.Twins Kin d') (hidle : ∀ act ∈ idle, Plant.Unaware act) :
    Fault.Follows Abreast (p.append m idle d) (p.enqueue m idle d') := by
  intro x hx
  rw [append_eq_enqueue] at hx
  obtain ⟨⟨moved, p₁, idle₁, d₁⟩, henqueue, hx⟩ := Fault.bind_eq_ok.mp hx
  obtain ⟨⟨_, _, _, d₁'⟩, henqueue', rfl, rfl, rfl, hidle₁, h₁⟩ :=
    enqueue_congr h hidle _ henqueue
  refine ⟨_, henqueue', ?_⟩
  dsimp only at hx h₁
  split at hx
  · obtain ⟨e, he, hx⟩ := Fault.bind_eq_ok.mp hx
    cases hx
    have hback : e.Twins Kin d₁ := (recalculate_eq_ok h₁.ring.left he).1.symm fun _ _ => Kin.symm
    have hkin : e.Twins Kin d₁' := hback.trans (S := Kin) (fun _ _ _ => Kin.trans) h₁
    exact ⟨rfl, rfl, rfl, hidle₁, hkin⟩
  · cases hx
    exact ⟨rfl, rfl, rfl, hidle₁, h₁⟩

end Planner

/-! ## Runs -/

/-- One thing that happens on the way to the last move. -/
inductive Chore where
  /-- queue a move -/
  | move (m : Move) (idle : List (List Beat))
  /-- attach a command behind all motion queued so far -/
  | command (c : Command) (idle : List (List Beat))
  /-- clear one finished segment -/
  | onIdle
  /-- housekeeping -/
  | onMainLoop
  /-- let the interrupt consume the ring -/
  | ensureRunning
  /-- be interrupted -/
  | beats (bs : List Beat)

/-- A way to queue a move. -/
abbrev Queueing (n : Nat) :=
  Planner → Move → Idle n Scribe → Dispatcher n Scribe →
    Except Fault (Bool × Planner × Idle n Scribe × Dispatcher n Scribe)

namespace Chore

/-- Do a chore. Nothing that waits may begin meanwhile, nor be dropped. -/
def perform (queue : Queueing n) (x : Planner × Dispatcher n Scribe) :
    Chore → Except Fault (Planner × Dispatcher n Scribe)
  | move m idle => do
    let (_, p, _, d) ← queue x.1 m (idle.map Plant.asides) x.2
    return (p, d)
  | command c idle => do
    let (_, _, d) ← x.2.appendCommand c (idle.map Plant.asides)
    return (x.1, d)
  | onIdle => return (x.1, ← x.2.onIdle)
  | onMainLoop => return (x.1, ← x.2.onMainLoop)
  | ensureRunning => .ok (x.1, x.2.ensureRunning)
  | beats bs => do
    let plant ← Plant.asides bs x.2.plant
    return (x.1, { x.2 with plant := plant })

/-- Do some chores, one after the other. -/
def run (queue : Queueing n) (chores : List Chore) (x : Planner × Dispatcher n Scribe) :
    Except Fault (Planner × Dispatcher n Scribe) :=
  chores.foldlM (perform queue) x

/-- The same planner, and dispatchers that are kin. -/
structure Abreast (x y : Planner × Dispatcher n Scribe) : Prop where
  /-- the planners remember the same -/
  planner_eq : y.1 = x.1
  /-- the dispatchers are the same but for plans -/
  dispatcher : x.2.Twins Kin y.2

theorem unaware_script (idle : List (List Beat)) :
    ∀ act ∈ idle.map (Plant.asides (n := n)), Plant.Unaware act := by
  intro act hact
  obtain ⟨bs, -, rfl⟩ := List.mem_map.mp hact
  exact Plant.unaware_asides bs

/-- No chore takes notice of plans. -/
theorem perform_congr {x y : Planner × Dispatcher n Scribe} (h : Abreast x y) (c : Chore) :
    Fault.Follows Abreast (c.perform Planner.append x) (c.perform Planner.enqueue y) := by
  obtain ⟨p, d⟩ := x
  obtain ⟨_, d'⟩ := y
  obtain ⟨rfl, h⟩ := h
  cases c with
  | move m idle =>
    refine (Planner.append_enqueue_congr h (unaware_script idle)).bind ?_
    rintro ⟨_, p, _, d⟩ ⟨_, _, _, d'⟩ ⟨rfl, rfl, rfl, -, h⟩
    exact .ok ⟨rfl, h⟩
  | command c idle =>
    refine (h.appendCommand c (unaware_script idle)).bind ?_
    rintro ⟨_, _, d⟩ ⟨_, _, d'⟩ ⟨rfl, rfl, -, h⟩
    exact .ok ⟨rfl, h⟩
  | onIdle => exact h.onIdle.bind fun e e' he => .ok ⟨rfl, he⟩
  | onMainLoop => exact (h.onMainLoop Kin.refl).bind fun e e' he => .ok ⟨rfl, he⟩
  | ensureRunning => exact .ok ⟨rfl, h.ensureRunning⟩
  | beats bs =>
    intro z hz
    obtain ⟨plant, hplant, hz⟩ := Fault.bind_eq_ok.mp hz
    cases hz
    dsimp only at h
    obtain ⟨h⟩ := h
    obtain ⟨r, hr, hkin⟩ := Plant.unaware_asides bs _ _ _ h hplant
    exact ⟨_, Fault.bind_eq_ok.mpr ⟨_, hr, rfl⟩, rfl, .intro (d := { d with plant := plant }) hkin⟩

/-- So it makes no difference for what waits whether moves are queued or enqueued. -/
theorem run_congr {x y : Planner × Dispatcher n Scribe} (h : Abreast x y) (chores : List Chore) :
    Fault.Follows Abreast (run Planner.append chores x) (run Planner.enqueue chores y) := by
  induction chores generalizing x y with
  | nil => exact .ok h
  | cons c cs ih =>
    rw [run, run, List.foldlM_cons, List.foldlM_cons]
    exact (perform_congr h c).bind fun x' y' h' => ih h'

end Chore

/-! ## Replanning has no memory -/

namespace Planner

/-- What replanning leaves is determined by the speeds before and behind the window and by the basis
of its segments, and where these are numbers it consists of numbers, so that what is alike is equal.
Replanning twice is replanning once. And replanning after each of several moves is replanning after
the last of them, if nothing that waits begins or is dropped in between. -/
theorem recalculate_forgets {p : Planner} {d : Dispatcher n Scribe} {q : Fifo}
    (h : d.ring.Holds [] q) :
    (∀ {n' : Nat} (p' : Planner) (d' : Dispatcher n' Scribe) (q' : Fifo), d'.ring.Holds [] q' →
      Alike p.tuning.minimumSpeed p'.tuning.minimumSpeed →
      Alike d.ring.lockWindow.1.boundary d'.ring.lockWindow.1.boundary →
      d.ring.window.map Segment.basis = d'.ring.window.map Segment.basis →
      Fault.Agree (fun e e' => List.Forall₂ SamePlan e.ring.window e'.ring.window)
        (p.recalculate d) (p'.recalculate d')) ∧
    (p.tuning.minimumSpeed.isNaN = false →
      (∀ s ∈ d.ring.window, s.hasMotion = true → s.maxEntrySpeed.isNaN = false) →
      ∀ e, p.recalculate d = .ok e → ∀ s ∈ e.ring.window, ∀ s', s.SamePlan s' →
        (s.entrySpeed == s'.entrySpeed) = true ∧ (s.exitSpeed == s'.exitSpeed) = true) ∧
    (∀ e, p.recalculate d = .ok e → ∃ e', p.recalculate e = .ok e' ∧ e.Twins Same e') ∧
    ∀ (chores : List Chore) (m : Move) (idle : List (List Beat)) (p₁ p₂ : Planner)
        (d₁ d₂ : Dispatcher n Scribe) (rest : Idle n Scribe),
      Chore.run append chores (p, d) = .ok (p₁, d₁) →
      p₁.append m (idle.map Plant.asides) d₁ = .ok (true, p₂, rest, d₂) →
      ∃ d₁' d₂' e, Chore.run enqueue chores (p, d) = .ok (p₁, d₁') ∧
        p₁.enqueue m (idle.map Plant.asides) d₁' = .ok (true, p₂, rest, d₂') ∧
        p₂.recalculate d₂' = .ok e ∧ d₂.Twins Same e := by
  refine ⟨fun p' d' q' h' hfinal hboundary hbasis => ?_, fun hf hnumbers e he => ?_,
    fun e => recalculate_recalculate h, fun chores m idle p₁ p₂ d₁ d₂ rest hrun hlast => ?_⟩
  · have hplans := Lookahead.replan_congr hboundary hfinal hbasis
    rw [recalculate_eq_revised, recalculate_eq_revised]
    refine hplans.attach.bind ?_
    rintro ss ss' ⟨hplan, hss, hss'⟩
    refine .ok ?_
    change List.Forall₂ SamePlan (d.ring.revised ss).window (d'.ring.revised ss').window
    rwa [h.window_revised (h.length_replan hss), h'.window_revised (h'.length_replan hss')]
  · intro s hs s' hplan
    obtain ⟨hentry, hexit⟩ := Lookahead.replan_numbers hf hnumbers (recalculate_eq_ok h he).2 s hs
    exact ⟨hplan.entrySpeed.beq_eq_true hentry, hplan.exitSpeed.beq_eq_true hexit⟩
  · obtain ⟨⟨_, d₁'⟩, hrun', rfl, h₁⟩ := Chore.run_congr ⟨rfl, .refl Kin.refl h⟩ chores _ hrun
    rw [append_eq_enqueue] at hlast
    obtain ⟨⟨moved, p₃, rest₃, d₃⟩, henqueue, hlast⟩ := Fault.bind_eq_ok.mp hlast
    obtain ⟨⟨_, _, _, d₂'⟩, henqueue', rfl, rfl, rfl, -, h₂⟩ :=
      enqueue_congr h₁ (Chore.unaware_script idle) _ henqueue
    dsimp only at hlast h₂
    split at hlast
    · -- the last move is followed by replanning
      next hmoved =>
      obtain ⟨e₂, he₂, hlast⟩ := Fault.bind_eq_ok.mp hlast
      cases hlast
      obtain ⟨e, he, hsame⟩ := (recalculate_congr _ h₂).exists_ok he₂
      exact ⟨d₁', d₂', e, hrun', henqueue', he, hsame⟩
    · next hmoved =>
      cases hlast
      exact absurd rfl hmoved

/-- Two moves in a line, with replanning after each of them or only after the second one. The second
is entered at speed, so that the plan of the first one has to be revised. -/
theorem recalculate_forgets_two_moves : ∃ (s : Settings) (m m' : Move) (p₁ p₂ : Planner)
    (d₁ d₂ e₁ : Dispatcher 4 Scribe),
    Chore.run append [.move m [], .beats [.step, .ramp]]
      ((Pipeline.tunedBy s).planner, (Pipeline.tunedBy s).dispatcher) = .ok (p₁, d₁) ∧
    p₁.append m' [] d₁ = .ok (true, p₂, [], d₂) ∧
    d₂.ring.window.map (fun s => decide (0 < s.entrySpeed)) = [false, true] ∧
    p₂.recalculate d₂ = .ok e₁ ∧
    (∃ d₁' d₂' e, Chore.run enqueue [.move m [], .beats [.step, .ramp]]
        ((Pipeline.tunedBy s).planner, (Pipeline.tunedBy s).dispatcher) = .ok (p₁, d₁') ∧
      p₁.enqueue m' [] d₁' = .ok (true, p₂, [], d₂') ∧
      p₂.recalculate d₂' = .ok e ∧ d₂.Twins Same e) ∧
    ∃ e₂, p₂.recalculate e₁ = .ok e₂ ∧ e₁.Twins Same e₂ := by
  obtain ⟨s, m, m', htest⟩ : ∃ (s : Settings) (m m' : Move), (do
      let (p₁, d₁) ← Chore.run append [.move m [], .beats [.step, .ramp]]
        ((Pipeline.tunedBy s).planner, (Pipeline.tunedBy s).dispatcher)
      let (moved, p₂, rest, d₂) ← p₁.append m' [] d₁
      let _ ← p₂.recalculate d₂
      return (moved, rest, d₂)).toOption.any (fun x : Bool × Idle 4 Scribe × Dispatcher 4 Scribe =>
        x.1 && x.2.1.isEmpty && x.2.2.ring.window.map
          (fun s : Segment => decide (0 < s.entrySpeed)) == [false, true]) = true :=
    ⟨.withDefaultPins, ⟨⟨3, -1, 0⟩, 20, 1, .const 0⟩, ⟨⟨6, -2, 0⟩, 20, 1, .const 0⟩,
      by decide +kernel⟩
  obtain ⟨⟨moved, rest, d₂⟩, hok, htest⟩ := Fault.exists_eq_ok htest
  obtain ⟨⟨p₁, d₁⟩, hrun, hok⟩ := Fault.bind_eq_ok.mp hok
  obtain ⟨⟨_, p₂, _, _⟩, hlast, hok⟩ := Fault.bind_eq_ok.mp hok
  obtain ⟨e₁, he₁, hok⟩ := Fault.bind_eq_ok.mp hok
  cases hok
  rw [Bool.and_eq_true, Bool.and_eq_true, beq_iff_eq, List.isEmpty_iff] at htest
  obtain ⟨⟨rfl, rfl⟩, hspeeds⟩ := htest
  have hfresh : (Pipeline.tunedBy s).dispatcher.ring.Holds [] (.ofCapacity 3) :=
    Ring.Holds.ofLen (by decide) (by decide)
  obtain ⟨-, -, -, hlater⟩ := recalculate_forgets (p := (Pipeline.tunedBy s).planner) hfresh
  obtain ⟨d₁', d₂', e, hrun', hlast', he, hsame⟩ := hlater _ m' [] p₁ p₂ d₁ d₂ [] hrun hlast
  obtain ⟨-, -, htwice, -⟩ := recalculate_forgets (p := p₂) hsame.ring.left
  exact ⟨s, m, m', p₁, p₂, d₁, d₂, e₁, hrun, hlast, hspeeds, he₁,
    ⟨d₁', d₂', e, hrun', hlast', he, hsame⟩, htwice e₁ he₁⟩

end Planner

end MotionControl
