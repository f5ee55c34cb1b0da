import MotionControl.Proofs.Motion.Moves

/-!
# Runs of the whole pipeline

A `Pipeline` is the planner and the dispatcher of the main loop, the plant they share with a
stepper on record, and a list of the requests accepted so far. A `Call` is one thing that the main
loop does, together with what happens in interrupt context meanwhile: the idle calls of its waits
are scripts of beats, and more beats come while segments are held for revision.

An `Audit` looks at the pipeline from outside. `Pipeline.run` makes it at every point where
anything can be observed, which is between any two calls and around every beat within them, and an
audit that is not passed ends the run with a fault that a sound run never ends with.
-/

namespace MotionControl

/-- Something the pipeline has been asked for, and has accepted. -/
inductive Request where
  /-- move from one position to another -/
  | move (source target : PerAxis Int32)
  /-- run a command -/
  | command (c : Command)
  deriving DecidableEq

namespace Request

/-- What is to become of a request. -/
def entries : Request → List Entry
  | move source target =>
    let way : PerAxis Int := .ofFn fun a => (target.get a).toInt - (source.get a).toInt
    [.begun way, .done way]
  | command c => [.ran c]

/-- Where a request leads from some position. -/
def leadsTo (position : PerAxis Int32) : Request → PerAxis Int32
  | move _ target => target
  | command _ => position

end Request

/-- A look at the planner's position, the requests accepted and the plant. -/
abbrev Audit (n : Nat) := PerAxis Int32 → List Request → Plant n Scribe → Bool

/-- The audit that is always passed. -/
def Audit.none {n : Nat} : Audit n := fun _ _ _ => true

/-- One thing that the main loop does, with what happens in interrupt context meanwhile. -/
inductive Call where
  /-- queue a move -/
  | append (m : Move) (idle : List (List Beat)) (locked revised : List Beat)
  /-- attach a command behind all motion queued so far -/
  | command (c : Command) (idle : List (List Beat))
  /-- replan what has not begun -/
  | recalculate (locked revised : List Beat)
  /-- hold what has not begun for a while -/
  | hold (during : List Beat)
  /-- wait for room -/
  | waitForSpace (idle : List (List Beat))
  /-- wait for the end of all motion -/
  | waitForEmpty (idle : List (List Beat))
  /-- clear one finished segment -/
  | onIdle
  /-- housekeeping -/
  | onMainLoop
  /-- let the interrupt consume the ring -/
  | ensureRunning
  /-- be interrupted -/
  | beats (bs : List Beat)
  /-- skip all waiting segments -/
  | flush (idle : List (List Beat))
  /-- stop all motion -/
  | halt
  /-- leave the halt -/
  | clearHalt
  /-- declare the position reached to be another one -/
  | setPosition (position : PerAxis Int32)
  /-- take the position over that has been reached -/
  | resync

/-- Whether a call, with all its beats, makes no use of stops, halts and skipping, and does not
tamper with positions. -/
def Call.isCalm : Call → Bool
  | append _ idle locked revised =>
    idle.all (List.all · Beat.isCalm) && locked.all Beat.isCalm && revised.all Beat.isCalm
  | command _ idle | waitForSpace idle | waitForEmpty idle => idle.all (List.all · Beat.isCalm)
  | recalculate locked revised => locked.all Beat.isCalm && revised.all Beat.isCalm
  | hold bs | beats bs => bs.all Beat.isCalm
  | onIdle | onMainLoop | ensureRunning => true
  | flush _ | halt | clearHalt | setPosition _ | resync => false

/-- Planner, dispatcher and plant, with the requests accepted. -/
structure Pipeline (n : Nat) where
  /-- the main loop's side, with the plant shared with the stepper -/
  dispatcher : Dispatcher n Scribe
  /-- the planner -/
  planner : Planner
  /-- the requests accepted so far, oldest first -/
  accepted : List Request

/-- An empty ring of four slots, all of them in use. -/
def Ring.four : Ring 4 := .ofLen 4 (by decide) (by decide)

theorem Ring.new_four : Ring.new 4 4 = .ok .four := rfl

namespace Pipeline

variable {n : Nat}

/-- A pipeline over an empty ring. -/
def ofRing (ring : Ring n) (stepper : Stepper) (planner : Planner) : Pipeline n :=
  ⟨.ofRing ring (.ofStepper stepper), planner, []⟩

/-- The plant. -/
def plant (l : Pipeline n) : Plant n Scribe := l.dispatcher.plant

/-- The position reached. -/
def position (l : Pipeline n) : PerAxis Int32 := l.plant.side.stepper.position

/-- Take the position over that has been reached. -/
def resync (l : Pipeline n) : Pipeline n :=
  { l with planner := l.planner.resetPosition l.position }

/-- Change the plant. -/
def onPlant (l : Pipeline n) (act : Plant n Scribe → Except Fault (Plant n Scribe)) :
    Except Fault (Pipeline n) := do
  let plant ← act l.plant
  return { l with dispatcher := { l.dispatcher with plant := plant } }

/-- Change the dispatcher. -/
def onDispatcher (l : Pipeline n) (act : Dispatcher n Scribe → Except Fault (Dispatcher n Scribe)) :
    Except Fault (Pipeline n) := do
  return { l with dispatcher := ← act l.dispatcher }

/-- Beats, with an audit around every one of them. -/
def audited (l : Pipeline n) (audit : Audit n) (bs : List Beat) :
    Plant n Scribe → Except Fault (Plant n Scribe) :=
  Plant.beats (audit l.planner.position l.accepted) bs

/-- Idle calls, with an audit around every beat. -/
def script (l : Pipeline n) (audit : Audit n) (idle : List (List Beat)) : Idle n Scribe :=
  idle.map (l.audited audit)

/-- Queue a move. While segments are held for the replanning, the move is already accepted. -/
def append (l : Pipeline n) (audit : Audit n) (m : Move) (idle : List (List Beat))
    (locked revised : List Beat) : Except Fault (Pipeline n) := do
  let accepted := l.accepted ++ [.move l.planner.position m.target]
  let (moved, planner, _, dispatcher) ← l.planner.appendWith
    (Plant.beats (audit m.target accepted) locked)
    (Plant.beats (audit m.target accepted) revised) m (l.script audit idle) l.dispatcher
  return ⟨dispatcher, planner, if moved then accepted else l.accepted⟩

/-- Attach a command. It must not be refused. -/
def command (l : Pipeline n) (audit : Audit n) (c : Command) (idle : List (List Beat)) :
    Except Fault (Pipeline n) := do
  let (answer, _, dispatcher) ← l.dispatcher.appendCommand c (l.script audit idle)
  match answer with
  | .ok () => return ⟨dispatcher, l.planner, l.accepted ++ [.command c]⟩
  | .error _ => .error .invariantViolated

/-- One call. -/
def call (l : Pipeline n) (audit : Audit n) : Call → Except Fault (Pipeline n)
  | .append m idle locked revised => l.append audit m idle locked revised
  | .command c idle => l.command audit c idle
  | .recalculate locked revised => l.onDispatcher
    (l.planner.recalculateWith (l.audited audit locked) (l.audited audit revised))
  | .hold during => l.onPlant fun p => do
    let p' ← l.audited audit during { p with ring := p.ring.lockWindow.2 }
    return { p' with ring := p'.ring.unlock p.ring.lockWindow.1.slots }
  | .waitForSpace idle => l.onDispatcher fun d => do
    return (← d.waitForSpace (l.script audit idle)).2
  | .waitForEmpty idle => l.onDispatcher fun d => do
    return (← d.waitForEmpty (l.script audit idle)).2
  | .onIdle => l.onDispatcher Dispatcher.onIdle
  | .onMainLoop => l.onDispatcher Dispatcher.onMainLoop
  | .ensureRunning => l.onDispatcher fun d => .ok d.ensureRunning
  | .beats bs => l.onPlant (l.audited audit bs)
  | .flush idle => l.onDispatcher fun d => do
    return (← d.flush (l.script audit idle)).2
  | .halt => l.onDispatcher fun d => .ok d.halt
  | .clearHalt => l.onDispatcher fun d => .ok d.clearHalt
  | .setPosition position => l.onPlant fun p => .ok { p with
      side := { p.side with stepper := { p.side.stepper with position := position } } }
  | .resync => .ok l.resync

/-- A sequence of calls, with an audit before each of them and after the last. -/
def run (audit : Audit n) : List Call → Pipeline n → Except Fault (Pipeline n)
  | [], l =>
    if audit l.planner.position l.accepted l.plant then .ok l else .error .invariantViolated
  | c :: cs, l =>
    if audit l.planner.position l.accepted l.plant then do run audit cs (← l.call audit c)
    else .error .invariantViolated

/-- Nothing is executed, nothing is pending, and neither a halt nor a stop is latched. -/
structure AtRest (l : Pipeline n) : Prop where
  /-- nothing is executed -/
  idle : l.plant.side.stepper.isBusy = false
  /-- nothing is pending -/
  drained : l.plant.ring.hasPending = false
  /-- the machine is not halted -/
  active : l.dispatcher.halted = false
  /-- no stop is latched -/
  clear : l.plant.stop.isActive = false

instance (l : Pipeline n) : Decidable l.AtRest :=
  decidable_of_iff
    (l.plant.side.stepper.isBusy = false ∧ l.plant.ring.hasPending = false ∧
      l.dispatcher.halted = false ∧ l.plant.stop.isActive = false)
    ⟨fun h => ⟨h.1, h.2.1, h.2.2.1, h.2.2.2⟩, fun h => ⟨h.idle, h.drained, h.active, h.clear⟩⟩

end Pipeline

/-! ## What a run keeps -/

variable {n : Nat} {calm faithful : Prop} {audit : Audit n}

/-- An audit that is passed by every plant that keeps its ledger. If the requests are on record as
a whole, the audit may rely on the ledger saying the same. -/
def Audit.Sound (calm faithful : Prop) (audit : Audit n) : Prop :=
  calm → ∀ g p accepted, p.Keeps calm g →
    (faithful → g.accepted = accepted.flatMap Request.entries) → audit g.goal accepted p = true

theorem Audit.sound_none : (none : Audit n).Sound calm faithful := fun _ _ _ _ _ _ => rfl

theorem Audit.Sound.respects (haudit : audit.Sound calm faithful) {goal : PerAxis Int32}
    {accepted : List Request} {entries : List Entry}
    (hentries : faithful → entries = accepted.flatMap Request.entries) {bs : List Beat}
    (hbs : calm → bs.all Beat.isCalm = true) :
    Plant.Respects calm goal entries (Plant.beats (audit goal accepted) bs) := by
  rintro g p rfl rfl hp
  refine hp.beats (fun hcalm p hp => haudit hcalm g p accepted hp hentries) fun hcalm b hb => ?_
  exact List.all_eq_true.mp (hbs hcalm) b hb

namespace Pipeline

variable {origin : PerAxis Int32} {g : Ledger} {l : Pipeline n}

/-- The dispatcher keeps a ledger that says the same as the planner and the list of requests, as
far as the latter is on record as a whole. -/
structure Keeps (calm faithful : Prop) (origin : PerAxis Int32) (g : Ledger) (l : Pipeline n) :
    Prop where
  /-- the dispatcher keeps the ledger -/
  dispatcher : l.dispatcher.Keeps calm g
  /-- the planner knows where the last move ends -/
  goal_eq : g.goal = l.planner.position
  /-- nothing is being skipped -/
  unflushed : g.flush = false
  /-- the ledger and the requests say the same -/
  accepted_eq : faithful → g.accepted = l.accepted.flatMap Request.entries
  /-- the requests lead to where the last move ends -/
  leads : calm → l.accepted.foldl Request.leadsTo origin = l.planner.position

namespace Keeps

theorem audited (h : l.Keeps calm faithful origin g) (haudit : audit.Sound calm faithful)
    {bs : List Beat} (hbs : calm → bs.all Beat.isCalm = true) :
    Plant.Respects calm g.goal g.accepted (l.audited audit bs) := by
  rw [h.goal_eq]
  exact haudit.respects h.accepted_eq hbs

theorem script (h : l.Keeps calm faithful origin g) (haudit : audit.Sound calm faithful)
    {idle : List (List Beat)} (hidle : calm → idle.all (List.all · Beat.isCalm) = true) :
    Idle.Respects calm g.goal g.accepted (l.script audit idle) := by
  intro act hact
  obtain ⟨bs, hbs, rfl⟩ := List.mem_map.mp hact
  exact h.audited haudit fun hcalm => List.all_eq_true.mp (hidle hcalm) bs hbs

/-- The dispatcher may change as long as the ledger says the same, except about the head. -/
theorem onDispatcher (h : l.Keeps calm faithful origin g)
    {act : Dispatcher n Scribe → Except Fault (Dispatcher n Scribe)}
    (hact : Plant.Safely calm (fun d => ∃ s, d.Keeps calm { g with head := s })
      (act l.dispatcher)) :
    Plant.Safely calm (fun l' => ∃ g', l'.Keeps calm faithful origin g') (l.onDispatcher act) := by
  refine hact.bind ?_
  rintro d ⟨s, hd⟩
  exact ⟨_, hd, h.goal_eq, h.unflushed, h.accepted_eq, h.leads⟩

/-- The plant may change as long as it keeps the ledger. -/
theorem onPlant (h : l.Keeps calm faithful origin g)
    {act : Plant n Scribe → Except Fault (Plant n Scribe)}
    (hact : Plant.Safely calm (Plant.Keeps calm g) (act l.plant)) :
    Plant.Safely calm (fun l' => ∃ g', l'.Keeps calm faithful origin g') (l.onPlant act) := by
  refine hact.bind fun p hp => ?_
  have hd := h.dispatcher
  exact ⟨g, ⟨hp, hd.held_eq, hd.sound, hd.still, hd.active⟩, h.goal_eq, h.unflushed,
    h.accepted_eq, h.leads⟩

theorem append (h : l.Keeps calm faithful origin g) (haudit : audit.Sound calm faithful) {m : Move}
    {idle : List (List Beat)} {locked revised : List Beat}
    (hc : calm → (Call.append m idle locked revised).isCalm = true) :
    Plant.Safely calm (fun l' => ∃ g', l'.Keeps calm faithful origin g')
      (l.append audit m idle locked revised) := by
  have hcalm : calm → (idle.all (List.all · Beat.isCalm) = true ∧
      locked.all Beat.isCalm = true) ∧ revised.all Beat.isCalm = true := by
    intro hcalm
    have hall := hc hcalm
    rwa [Call.isCalm, Bool.and_eq_true, Bool.and_eq_true] at hall
  have hidle := h.script haudit fun hc => (hcalm hc).1.1
  -- the ledger gets the entries of the move, and the record the move itself
  have hentries : faithful → g.accepted ++
      [.begun (l.planner.way m.target), .done (l.planner.way m.target)] =
        (l.accepted ++ [Request.move l.planner.position m.target]).flatMap Request.entries := by
    intro hfaithful
    rw [List.flatMap_append, ← h.accepted_eq hfaithful]
    rfl
  unfold Pipeline.append
  dsimp only
  by_cases hm : l.planner.accepts m = true
  · have happend := h.dispatcher.appendWith h.goal_eq hm hidle
      (haudit.respects hentries fun hc => (hcalm hc).1.2)
      (haudit.respects hentries fun hc => (hcalm hc).2)
    refine happend.bind ?_
    rintro ⟨moved, planner, idle', d⟩ ⟨hmoved, hposition, hd, -⟩
    dsimp only at hmoved hposition hd ⊢
    rw [hmoved, if_pos rfl]
    refine ⟨_, hd, hposition.symm, h.unflushed, hentries, fun hc => ?_⟩
    rw [List.foldl_append, hposition]
    rfl
  · rw [Planner.appendWith, if_neg hm]
    exact ⟨g, h⟩

theorem command (h : l.Keeps calm faithful origin g) (haudit : audit.Sound calm faithful)
    {c : Command} {idle : List (List Beat)}
    (hidle : calm → idle.all (List.all · Beat.isCalm) = true) :
    Plant.Safely calm (fun l' => ∃ g', l'.Keeps calm faithful origin g')
      (l.command audit c idle) := by
  refine (h.dispatcher.appendCommand c (h.script haudit hidle)).bind ?_
  rintro ⟨answer, idle', d⟩ ⟨hanswer, ⟨s, hd⟩, -⟩
  dsimp only at hanswer hd ⊢
  rw [hanswer]
  refine ⟨_, hd, h.goal_eq, h.unflushed, fun hfaithful => ?_, fun hcalm => ?_⟩
  · rw [List.flatMap_append, ← h.accepted_eq hfaithful]
    rfl
  · rw [List.foldl_append, h.leads hcalm]
    rfl

theorem recalculate (h : l.Keeps calm faithful origin g) (haudit : audit.Sound calm faithful)
    {locked revised : List Beat} (hc : calm → (Call.recalculate locked revised).isCalm = true) :
    Plant.Safely calm (fun l' => ∃ g', l'.Keeps calm faithful origin g')
      (l.call audit (.recalculate locked revised)) := by
  have hcalm : calm → locked.all Beat.isCalm = true ∧ revised.all Beat.isCalm = true := by
    intro hcalm
    have hall := hc hcalm
    rwa [Call.isCalm, Bool.and_eq_true] at hall
  have hlocked := h.audited haudit fun hc => (hcalm hc).1
  have hrevised := h.audited haudit fun hc => (hcalm hc).2
  refine h.onDispatcher ((h.dispatcher.recalculateWith l.planner hlocked hrevised).mono ?_)
  exact fun d hd => ⟨g.head, hd.1⟩

theorem hold (h : l.Keeps calm faithful origin g) (haudit : audit.Sound calm faithful)
    {during : List Beat} (hc : calm → during.all Beat.isCalm = true) :
    Plant.Safely calm (fun l' => ∃ g', l'.Keeps calm faithful origin g')
      (l.call audit (.hold during)) := by
  have hheld := h.dispatcher.held_eq
  have hlock := h.dispatcher.plant.lockWindow hheld
  unfold Pipeline.call
  refine h.onPlant ?_
  refine (h.audited haudit hc { g with held := l.plant.ring.lockWindow.1.slots } _
    rfl rfl hlock).bind fun p hp => ?_
  have hunlock := hp.unlock
  -- nothing was held before either
  have hsame : { g with held := [] } = g := by rw [← hheld]
  dsimp only at hunlock
  rw [hsame] at hunlock
  exact hunlock

/-- The dispatcher may wait for anything. -/
theorem wait (h : l.Keeps calm faithful origin g) (haudit : audit.Sound calm faithful)
    (done : Ring n → Bool) {idle : List (List Beat)}
    (hc : calm → idle.all (List.all · Beat.isCalm) = true) :
    Plant.Safely calm (fun l' => ∃ g', l'.Keeps calm faithful origin g')
      (l.onDispatcher fun d => do return (← d.waitUntil done (l.script audit idle)).2) := by
  refine h.onDispatcher ?_
  refine (h.dispatcher.waitUntil done (h.script haudit hc)).bind fun x hx => ?_
  exact ⟨g.head, hx.1⟩

theorem onIdle (h : l.Keeps calm faithful origin g) :
    Plant.Safely calm (fun l' => ∃ g', l'.Keeps calm faithful origin g')
      (l.call audit .onIdle) := by
  obtain ⟨d, hd, hkeeps, -⟩ := h.dispatcher.onIdle
  refine h.onDispatcher ?_
  rw [hd]
  exact ⟨g.head, hkeeps⟩

theorem onMainLoop (h : l.Keeps calm faithful origin g) :
    Plant.Safely calm (fun l' => ∃ g', l'.Keeps calm faithful origin g')
      (l.call audit .onMainLoop) := by
  obtain ⟨d, s, hd, hkeeps, -⟩ := h.dispatcher.onMainLoop
  refine h.onDispatcher ?_
  rw [hd]
  exact ⟨s, hkeeps⟩

/-! What is not calm keeps a ledger too, which says less. -/

theorem flush (h : l.Keeps calm faithful origin g) (haudit : audit.Sound calm faithful)
    (hnot : ¬ calm) (idle : List (List Beat)) :
    Plant.Safely calm (fun l' => ∃ g', l'.Keeps calm faithful origin g')
      (l.call audit (.flush idle)) := by
  have hd := h.dispatcher
  have hflush : (l.dispatcher.setRing (l.dispatcher.ring.setFlush true)).Keeps calm
      { g with flush := true } :=
    ⟨hd.plant.setFlush hnot true, hd.held_eq, hd.sound, hd.still, hd.active⟩
  have hidle : Idle.Respects calm g.goal g.accepted (l.script audit idle) :=
    h.script haudit fun hcalm => (hnot hcalm).elim
  unfold Pipeline.call
  refine h.onDispatcher ?_
  refine Plant.Safely.bind (r := fun x => x.2.Keeps calm g) ?_ fun x hx => ⟨g.head, hx⟩
  refine (hflush.waitUntil _ hidle).bind ?_
  rintro ⟨idle', d⟩ ⟨hd', -⟩
  have hplant := hd'.plant.setFlush hnot false
  -- nothing was skipped before either
  have hsame : { { g with flush := true } with flush := false } = g := by rw [← h.unflushed]
  dsimp only at hplant hsame
  rw [hsame] at hplant
  exact ⟨hplant, hd.held_eq, hd.sound, hd.still, fun hcalm => (hnot hcalm).elim⟩

theorem halt (h : l.Keeps calm faithful origin g) (hnot : ¬ calm) :
    Plant.Safely calm (fun l' => ∃ g', l'.Keeps calm faithful origin g') (l.call audit .halt) := by
  have hset := (h.dispatcher.plant.setStop hnot .halt).setHead .empty []
    fun hcalm => (hnot hcalm).elim
  rw [List.append_nil] at hset
  unfold Pipeline.call
  refine h.onDispatcher ?_
  exact ⟨.empty, hset, h.dispatcher.held_eq, Load.sound_empty, rfl, fun hcalm => (hnot hcalm).elim⟩

theorem clearHalt (h : l.Keeps calm faithful origin g) (hnot : ¬ calm) :
    Plant.Safely calm (fun l' => ∃ g', l'.Keeps calm faithful origin g')
      (l.call audit .clearHalt) := by
  have hd := h.dispatcher
  unfold Pipeline.call
  refine h.onDispatcher ?_
  exact ⟨g.head, hd.plant.setStop hnot .clear, hd.held_eq, hd.sound, hd.still, fun _ => rfl⟩

theorem resync (h : l.Keeps calm faithful origin g) (hnot : ¬ calm) :
    ∃ g', l.resync.Keeps calm faithful origin g' := by
  have hd := h.dispatcher
  exact ⟨{ g with goal := l.position }, ⟨hd.plant.relabel hnot _ _, hd.held_eq, hd.sound,
    hd.still, hd.active⟩, rfl, h.unflushed, h.accepted_eq, fun hcalm => (hnot hcalm).elim⟩

/-- Every call keeps a ledger. -/
theorem call (h : l.Keeps calm faithful origin g) (haudit : audit.Sound calm faithful) {c : Call}
    (hc : calm → c.isCalm = true) :
    Plant.Safely calm (fun l' => ∃ g', l'.Keeps calm faithful origin g') (l.call audit c) := by
  have hnot : c.isCalm = false → ¬ calm := by
    intro hfalse hcalm
    rw [hc hcalm] at hfalse
    cases hfalse
  cases c with
  | append m idle locked revised => exact h.append haudit hc
  | command c idle => exact h.command haudit hc
  | recalculate locked revised => exact h.recalculate haudit hc
  | hold during => exact h.hold haudit hc
  | waitForSpace idle => exact h.wait haudit _ hc
  | waitForEmpty idle => exact h.wait haudit _ hc
  | onIdle => exact h.onIdle
  | onMainLoop => exact h.onMainLoop
  | ensureRunning =>
    unfold Pipeline.call
    refine h.onDispatcher ?_
    exact ⟨g.head, h.dispatcher.ensureRunning.1⟩
  | beats bs => exact h.onPlant (h.audited haudit hc g _ rfl rfl h.dispatcher.plant)
  | flush idle => exact h.flush haudit (hnot rfl) idle
  | halt => exact h.halt (hnot rfl)
  | clearHalt => exact h.clearHalt (hnot rfl)
  | setPosition position =>
    unfold Pipeline.call
    refine h.onPlant ?_
    exact h.dispatcher.plant.setPosition (hnot rfl) position
  | resync => exact h.resync (hnot rfl)

/-- And so does every run, which passes every sound audit. -/
theorem run (h : l.Keeps calm faithful origin g) (haudit : audit.Sound calm faithful)
    {cs : List Call} (hcs : calm → ∀ c ∈ cs, c.isCalm = true) :
    Plant.Safely calm (fun l' => ∃ g', l'.Keeps calm faithful origin g') (l.run audit cs) := by
  have hpass : ∀ {g : Ledger} {l : Pipeline n}, l.Keeps calm faithful origin g → calm →
      audit l.planner.position l.accepted l.plant = true := by
    intro g l h hcalm
    rw [← h.goal_eq]
    exact haudit hcalm g l.plant l.accepted h.dispatcher.plant h.accepted_eq
  induction cs generalizing l g with
  | nil =>
    rw [Pipeline.run]
    split
    · exact ⟨g, h⟩
    · next hfail => exact fun hcalm => (hfail (hpass h hcalm)).elim
  | cons c cs ih =>
    rw [Pipeline.run]
    split
    · refine (h.call haudit fun hcalm => hcs hcalm c List.mem_cons_self).bind ?_
      rintro l' ⟨g', h'⟩
      exact ih h' fun hcalm c hc => hcs hcalm c (List.mem_cons_of_mem _ hc)
    · next hfail => exact fun hcalm => (hfail (hpass h hcalm)).elim

end Keeps

end Pipeline

end MotionControl
