import MotionControl.Proofs.Motion.Changes

/-!
# The dispatcher on record

`Dispatcher.Keeps` is what holds between two functions of the dispatcher: the plant keeps a
ledger, nothing is held, and only commands wait at the head. Each function is described once.
Running the ring and clearing it leave the ledger as it is, and so does a wait if its idle calls
respect it.

Nothing goes wrong on a calm machine except a wait that is given up: the dispatcher never finds a
slot in a state that it does not expect, and it always finds room for a command.
-/

namespace MotionControl

variable {n : Nat}

/-- An action of an idle call keeps every ledger with a goal and a list of what is accepted. -/
def Plant.Respects (calm : Prop) (goal : PerAxis Int32) (accepted : List Entry)
    (act : Plant n Scribe → Except Fault (Plant n Scribe)) : Prop :=
  ∀ g p, g.goal = goal → g.accepted = accepted → p.Keeps calm g →
    Safely calm (Plant.Keeps calm g) (act p)

/-- All actions of an idle script do. -/
def Idle.Respects (calm : Prop) (goal : PerAxis Int32) (accepted : List Entry)
    (idle : Idle n Scribe) : Prop :=
  ∀ act ∈ idle, Plant.Respects calm goal accepted act

namespace Dispatcher

/-- A dispatcher between two of its functions. -/
structure Keeps (calm : Prop) (g : Ledger) (d : Dispatcher n Scribe) : Prop where
  /-- the plant keeps the ledger -/
  plant : d.plant.Keeps calm g
  /-- nothing is held for revision -/
  held_eq : g.held = []
  /-- the prepared segment has enough events for its steps -/
  sound : g.head.load.Sound
  /-- and in fact none of either -/
  still : g.head.hasMotion = false
  /-- a calm machine is not halted -/
  active : calm → d.halted = false

namespace Keeps

variable {calm : Prop} {g : Ledger} {d : Dispatcher n Scribe}

theorem holds (h : d.Keeps calm g) : d.ring.Holds [] d.ring.toFifo := by
  have hr := h.plant.holds
  rwa [h.held_eq] at hr

theorem headSegment_eq (h : d.Keeps calm g) : d.ring.headSegment = g.head :=
  h.holds.headSegment_eq.trans h.plant.head_eq

/-- Only the commands at the head have entries. -/
theorem entries_head (h : d.Keeps calm g) (hc : d.ring.headSegment.hasCommands = false) :
    g.head.load.entries = [] := by
  rw [h.headSegment_eq, Segment.hasCommands, CommandList.isEmpty, Bool.not_eq_false',
    List.isEmpty_iff] at hc
  exact Load.entries_of_idle h.still hc

/-- An empty head is a good one. -/
theorem emptyHead (h : d.Keeps calm g) {d' : Dispatcher n Scribe} {goal : PerAxis Int32}
    {accepted : List Entry}
    (hplant : d'.plant.Keeps calm { g with head := .empty, goal := goal, accepted := accepted })
    (hhalted : d'.halted = d.halted) :
    d'.Keeps calm { g with head := .empty, goal := goal, accepted := accepted } :=
  ⟨hplant, h.held_eq, Load.sound_empty, rfl, fun hcalm => hhalted.trans (h.active hcalm)⟩

/-! ## Running and clearing -/

theorem ensureRunning (h : d.Keeps calm g) :
    d.ensureRunning.Keeps calm g ∧ d.ensureRunning.halted = d.halted := by
  unfold Dispatcher.ensureRunning
  split
  · exact ⟨h, rfl⟩
  · exact ⟨⟨h.plant.setRunning true, h.held_eq, h.sound, h.still, h.active⟩, rfl⟩

/-- Clearing never fails: what is finished is not held by anyone. -/
theorem onIdle (h : d.Keeps calm g) :
    ∃ d', d.onIdle = .ok d' ∧ d'.Keeps calm g ∧ d'.halted = d.halted := by
  unfold Dispatcher.onIdle
  split
  · next hfinished =>
    obtain ⟨hempty, -⟩ := h.holds.reclaim_of_finished hfinished
    obtain ⟨r, hr, hkeeps⟩ := h.plant.reclaim h.held_eq hfinished
    rw [hempty, if_neg Bool.false_ne_true]
    refine ⟨d.setRing r, ?_, ⟨hkeeps, h.held_eq, h.sound, h.still, h.active⟩, rfl⟩
    have hr : d.ring.reclaim = .ok r := hr
    rw [hr]
    rfl
  · exact ⟨d, rfl, h, rfl⟩

/-! ## Waiting -/

theorem waitUntil_of_done {done : Ring n → Bool} (hdone : done d.ring = true)
    (idle : Idle n Scribe) : d.waitUntil done idle = .ok (idle, d) := by
  cases idle <;> rw [Dispatcher.waitUntil, if_pos hdone]

/-- A wait keeps the ledger if its idle calls respect it. -/
theorem waitUntil (h : d.Keeps calm g) (done : Ring n → Bool) {idle : Idle n Scribe}
    (hidle : idle.Respects calm g.goal g.accepted) :
    Plant.Safely calm (fun x => x.2.Keeps calm g ∧ x.2.halted = d.halted ∧
      done x.2.ring = true ∧ Idle.Respects calm g.goal g.accepted x.1)
      (d.waitUntil done idle) := by
  induction idle generalizing d with
  | nil =>
    rw [Dispatcher.waitUntil]
    split
    · next hdone => exact ⟨h, rfl, hdone, hidle⟩
    · obtain ⟨d', hd', -⟩ := h.ensureRunning.1.onIdle
      rw [hd']
      exact fun _ => .inl rfl
  | cons act rest ih =>
    rw [Dispatcher.waitUntil]
    split
    · next hdone => exact ⟨h, rfl, hdone, hidle⟩
    · obtain ⟨hrun, hhalted⟩ := h.ensureRunning
      obtain ⟨d', hd', h', hhalted'⟩ := hrun.onIdle
      rw [hd']
      -- one idle call, and the wait goes on with the others
      refine (hidle act List.mem_cons_self g d'.plant rfl rfl h'.plant).bind fun p hp => ?_
      have hnext : ({ d' with plant := p } : Dispatcher n Scribe).Keeps calm g :=
        ⟨hp, h'.held_eq, h'.sound, h'.still, h'.active⟩
      refine (ih hnext fun act hact => hidle act (List.mem_cons_of_mem _ hact)).mono ?_
      rintro x ⟨hx, hhalted'', hdone, hrest⟩
      exact ⟨hx, (hhalted''.trans hhalted').trans hhalted, hdone, hrest⟩

/-! ## Publishing carriers -/

/-- The commands at the head may be published if there is room. -/
theorem publish (h : d.Keeps calm g) (hroom : d.ring.isFull = false) :
    ∃ d', d.publish = .ok d' ∧ d'.Keeps calm { g with head := .empty } ∧
      d'.halted = d.halted := by
  have hhead : d.ring.toFifo.head = g.head := h.plant.head_eq
  obtain ⟨r, hr, hkeeps⟩ := h.plant.publish h.held_eq g.head g.goal []
    (by rw [← hhead]; exact h.holds) rfl hroom fun _ =>
      ⟨h.sound, (List.append_nil _).symm, fun a => by
        rw [h.sound.displacement_eq_zero h.still a, Int.add_zero]⟩
  rw [List.append_nil] at hkeeps
  have hr : d.ring.publish = .ok r := hr
  refine ⟨d.setRing r, ?_, h.emptyHead hkeeps rfl, rfl⟩
  rw [Dispatcher.publish, hr]

/-- Publishing the commands at the head changes nothing that matters to an observer. -/
theorem queueHead (h : d.Keeps calm g) {idle : Idle n Scribe}
    (hidle : idle.Respects calm g.goal g.accepted) :
    Plant.Safely calm (fun x => x.2.Keeps calm { g with head := .empty } ∧
      x.2.halted = d.halted ∧ Idle.Respects calm g.goal g.accepted x.1) (d.queueHead idle) := by
  refine (h.waitUntil _ hidle).bind ?_
  rintro ⟨idle', d'⟩ ⟨h', hhalted, hroom, hidle'⟩
  dsimp only at h' hhalted hroom hidle' ⊢
  split
  · next hhalt =>
    -- only a machine that is not calm drops commands
    have hnot : ¬ calm := by
      intro hcalm
      rw [h'.active hcalm] at hhalt
      cases hhalt
    have hkeeps := h'.plant.setHead .empty [] fun hcalm => (hnot hcalm).elim
    rw [List.append_nil] at hkeeps
    exact ⟨h'.emptyHead hkeeps rfl, hhalted, hidle'⟩
  · obtain ⟨d'', hd'', h'', hhalted''⟩ := h'.publish (by simpa using hroom)
    rw [hd'']
    exact ⟨h'', hhalted''.trans hhalted, hidle'⟩

/-- Afterwards no command waits at the head. -/
theorem pushCarrier (h : d.Keeps calm g) {idle : Idle n Scribe}
    (hidle : idle.Respects calm g.goal g.accepted) :
    Plant.Safely calm (fun x => ∃ s, x.2.Keeps calm { g with head := s } ∧ s.load.entries = [] ∧
      x.2.halted = d.halted ∧ Idle.Respects calm g.goal g.accepted x.1) (d.pushCarrier idle) := by
  unfold Dispatcher.pushCarrier
  split
  · refine (h.queueHead hidle).mono ?_
    rintro x ⟨hx, hhalted, hidle'⟩
    exact ⟨.empty, hx, Load.entries_empty, hhalted, hidle'⟩
  · next hc => exact ⟨g.head, h, h.entries_head (Bool.eq_false_iff.mpr hc), rfl, hidle⟩

theorem onMainLoop (h : d.Keeps calm g) :
    ∃ d' s, d.onMainLoop = .ok d' ∧ d'.Keeps calm { g with head := s } ∧
      d'.halted = d.halted := by
  unfold Dispatcher.onMainLoop
  split
  · exact ⟨d, g.head, rfl, h, rfl⟩
  split
  · next hcarrier =>
    have hroom : d.ring.isFull = false := by
      rw [Bool.and_eq_true, Bool.not_eq_true'] at hcarrier
      exact hcarrier.2
    obtain ⟨d', hd', h', hhalted⟩ := h.publish hroom
    obtain ⟨hrun, hhalted'⟩ := h'.ensureRunning
    rw [hd']
    exact ⟨_, .empty, rfl, hrun, hhalted'.trans hhalted⟩
  · obtain ⟨hrun, hhalted⟩ := h.ensureRunning
    exact ⟨_, g.head, rfl, hrun, hhalted⟩

/-! ## Commands -/

theorem attachToNewest? (h : d.Keeps calm g) {c : Command} {d' : Dispatcher n Scribe}
    (hhead : g.head.load.entries = []) (hd : d.attachToNewest? c = some d') :
    d'.Keeps calm { g with accepted := g.accepted ++ [.ran c] } ∧ d'.halted = d.halted := by
  unfold Dispatcher.attachToNewest? at hd
  split at hd
  · cases hd
  · next i locked hlock =>
    split at hd
    · next s hs =>
      cases hd
      exact ⟨⟨h.plant.attachToNewest h.held_eq (fun _ => hhead) hlock hs, h.held_eq, h.sound,
        h.still, h.active⟩, rfl⟩
    · cases hd

theorem attachToHead (h : d.Keeps calm g) {c : Command} {d' : Dispatcher n Scribe}
    (hd : d.attachToHead c = .ok d') :
    ∃ s, d'.Keeps calm { g with head := s, accepted := g.accepted ++ [.ran c] } ∧
      d'.halted = d.halted := by
  unfold Dispatcher.attachToHead at hd
  rw [h.headSegment_eq] at hd
  cases hs : g.head.attach c with
  | error e =>
    rw [hs] at hd
    cases hd
  | ok s =>
    rw [hs] at hd
    cases hd
    obtain ⟨⟨l, hl⟩, hentries⟩ := Segment.attach_eq_ok hs
    have hplant := h.plant.setHead s [.ran c] fun _ => hentries
    rw [hl] at hplant ⊢
    exact ⟨_, ⟨hplant, h.held_eq, h.sound, h.still, h.active⟩, rfl⟩

/-- An empty head has room for a command. -/
theorem attachToHead_of_empty (h : d.Keeps calm { g with head := .empty }) (c : Command) :
    ∃ d', d.attachToHead c = .ok d' := by
  unfold Dispatcher.attachToHead
  rw [h.headSegment_eq]
  exact ⟨_, rfl⟩

/-- A command is never refused, and it waits behind all that has been accepted. -/
theorem appendCommand (h : d.Keeps calm g) (c : Command) {idle : Idle n Scribe}
    (hidle : idle.Respects calm g.goal g.accepted) :
    Plant.Safely calm (fun x => x.1 = .ok () ∧
      (∃ s, x.2.2.Keeps calm { g with head := s, accepted := g.accepted ++ [.ran c] }) ∧
      x.2.2.halted = d.halted) (d.appendCommand c idle) := by
  unfold Dispatcher.appendCommand
  split
  · next hhalt =>
    have hnot : ¬ calm := by
      intro hcalm
      rw [h.active hcalm] at hhalt
      cases hhalt
    exact ⟨rfl, ⟨g.head, ⟨h.plant.relabel hnot _ _, h.held_eq, h.sound, h.still, h.active⟩⟩, rfl⟩
  · dsimp only
    split
    · -- the command rides on the newest pending segment
      next d' hriding =>
      split at hriding
      · cases hriding
      · next hc =>
        obtain ⟨h', hhalted⟩ :=
          h.attachToNewest? (h.entries_head (Bool.eq_false_iff.mpr hc)) hriding
        exact ⟨rfl, ⟨g.head, h'⟩, hhalted⟩
    · split
      · next d' hd' =>
        obtain ⟨s, h', hhalted⟩ := h.attachToHead hd'
        exact ⟨rfl, ⟨s, h'⟩, hhalted⟩
      · -- the head is full and published, and the next one has room
        refine (h.queueHead hidle).bind ?_
        rintro ⟨idle', d₁⟩ ⟨h₁, hhalted₁, -⟩
        obtain ⟨d₂, hd₂⟩ := h₁.attachToHead_of_empty c
        obtain ⟨s, h₂, hhalted₂⟩ := h₁.attachToHead hd₂
        dsimp only at hd₂ ⊢
        rw [hd₂]
        exact ⟨rfl, ⟨s, h₂⟩, hhalted₂.trans hhalted₁⟩

end Keeps

end Dispatcher

end MotionControl
