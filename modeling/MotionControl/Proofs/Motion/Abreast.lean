import MotionControl.Proofs.Lookahead.Memory
import MotionControl.Proofs.Motion.Aside

/-!
# Dispatchers that differ in plans

Segments are kin if they are the same but for their plans. The dispatcher takes no notice of plans:
whatever it does to a ring, it does the same to a twin in which kin of the same segments wait. This
holds of its waits as well, if their idle calls leave alone what waits (`Plant.Unaware`).
-/

namespace MotionControl

variable {n : Nat}

/-- Wherever the first one gives a result, the second one gives a related one. -/
def Fault.Follows {α β : Type} (R : α → β → Prop) (x : Except Fault α) (y : Except Fault β) :
    Prop :=
  ∀ a, x = .ok a → ∃ b, y = .ok b ∧ R a b

namespace Fault.Follows

variable {α β γ δ : Type} {R : α → β → Prop} {S : γ → δ → Prop}

theorem ok {a : α} {b : β} (h : R a b) : Follows R (.ok a) (.ok b) := by
  intro a' ha
  cases ha
  exact ⟨b, rfl, h⟩

theorem error (e : Fault) (y : Except Fault β) : Follows R (.error e) y := fun _ ha => nomatch ha

theorem bind {x : Except Fault α} {y : Except Fault β} {f : α → Except Fault γ}
    {g : β → Except Fault δ} (h : Follows R x y) (hfg : ∀ a b, R a b → Follows S (f a) (g b)) :
    Follows S (x >>= f) (y >>= g) := by
  intro c hc
  obtain ⟨a, ha, hc⟩ := bind_eq_ok.mp hc
  obtain ⟨b, hb, hab⟩ := h a ha
  obtain ⟨d, hd, hcd⟩ := hfg a b hab c hc
  exact ⟨d, bind_eq_ok.mpr ⟨b, hb, hd⟩, hcd⟩

end Fault.Follows

theorem Fault.Agree.follows {α β : Type} {R : α → β → Prop} {x : Except Fault α}
    {y : Except Fault β} (h : Agree R x y) : Follows R x y := fun _ ha => h.exists_ok ha

/-! ## Kin -/

namespace Segment

/-- The same segment but for its plan. -/
def Kin (s s' : Segment) : Prop := s.unplanned = s'.unplanned

theorem Kin.refl (s : Segment) : s.Kin s := rfl

theorem Kin.symm {s s' : Segment} (h : s.Kin s') : s'.Kin s := Eq.symm h

theorem Kin.trans {s s' s'' : Segment} (h : s.Kin s') (h' : s'.Kin s'') : s.Kin s'' := Eq.trans h h'

theorem forall₂_kin {ss ss' : List Segment} :
    List.Forall₂ Kin ss ss' ↔ ss.map unplanned = ss'.map unplanned := by
  rw [← List.forall₂_eq_eq_eq, List.forall₂_map_left_iff, List.forall₂_map_right_iff]
  rfl

theorem Kin.commands_eq {s s' : Segment} (h : s.Kin s') : s'.commands = s.commands :=
  (congrArg Segment.commands h).symm

/-- Kin take the same commands. -/
theorem Kin.attach {s s' : Segment} (h : s.Kin s') (c : Command) :
    (∃ e, s.attach c = .error e ∧ s'.attach c = .error e) ∨
      ∃ t t', s.attach c = .ok t ∧ s'.attach c = .ok t' ∧ t.Kin t' := by
  unfold Segment.attach
  rw [h.commands_eq]
  cases s.commands.push? c with
  | none => exact .inl ⟨_, rfl, rfl⟩
  | some l =>
    have hkin : ({ s.unplanned with commands := l } : Segment) =
        { s'.unplanned with commands := l } :=
      congrArg (fun t : Segment => { t with commands := l }) h
    exact .inr ⟨_, _, rfl, rfl, hkin⟩

end Segment

/-! ## The newest segment -/

namespace Ring

variable {R : Segment → Segment → Prop} {r r' : Ring n}

theorem Holds.lockNewest_eq_none {q : Fifo} (h : r.Holds [] q) (hw : q.waiting = []) :
    r.lockNewest = none := by
  refine h.lockNewest_of_not_ready fun before s hp => ?_
  obtain ⟨ws, hws, -⟩ := Fifo.parts_newest hp (e := ⟨s, .ready⟩) (by simp)
  rw [hw] at hws
  exact absurd hws.symm (List.append_ne_nil_of_right_ne_nil _ (List.cons_ne_nil _ _))

/-- The last of the segments that wait can be locked and revised. -/
theorem Holds.lockNewest_of_waiting {q : Fifo} (h : r.Holds [] q) {ws : List Slot} {e : Slot}
    (hw : q.waiting = ws ++ [e]) :
    ∃ i locked, r.lockNewest = some (i, locked) ∧ locked.segment i = e.segment ∧
      ∀ s, ∃ q', ((locked.setSegment i s).unlock [i]).Holds [] q' ∧
        q' = { q with pending := q'.pending } ∧ q'.started = q.started ∧
        q'.waiting = ws ++ [⟨s, .ready⟩] := by
  have hready : e.state = .ready :=
    h.ready_of_waiting e (by rw [hw]; exact List.mem_append_right _ (List.mem_singleton_self e))
  obtain ⟨before, hp⟩ : ∃ before, q.pending = before ++ [⟨e.segment, .ready⟩] := by
    have hentries := q.entries_eq
    rw [Fifo.entries, Fifo.started, List.append_assoc, List.append_cancel_left_eq, hw,
      ← List.append_assoc] at hentries
    exact ⟨_, by rw [hentries, ← hready]⟩
  obtain ⟨i, locked, hlock, -⟩ := h.lockNewest_of_ready hp
  obtain ⟨before', s', hp', hs', hrevised⟩ := h.reviseNewest hlock
  obtain ⟨rfl, hsame⟩ := List.append_inj' (hp.symm.trans hp') rfl
  obtain ⟨hsame, -⟩ := Slot.mk.inj (List.cons.inj hsame).1
  refine ⟨i, locked, hlock, hs'.trans hsame.symm, fun s => ⟨_, hrevised s, rfl, ?_⟩⟩
  obtain ⟨ws', hws, hws', hstarted⟩ := Fifo.parts_newest hp (e := ⟨s, .ready⟩) (by simp)
  obtain ⟨rfl, -⟩ := List.append_inj' (hw.symm.trans hws) rfl
  exact ⟨hstarted, hws'⟩

/-- The newest segments of twins can both be locked, or neither can. What is made of them by related
revisions are twins. -/
theorem Twins.lockNewest (h : r.Twins R r') :
    r.lockNewest = none ∧ r'.lockNewest = none ∨ ∃ i locked i' locked',
      r.lockNewest = some (i, locked) ∧ r'.lockNewest = some (i', locked') ∧
      R (locked.segment i) (locked'.segment i') ∧ ∀ s s', R s s' →
        ((locked.setSegment i s).unlock [i]).Twins R ((locked'.setSegment i' s').unlock [i']) := by
  have htail {r locked : Ring n} {i : Nat} (hlock : r.lockNewest = some (i, locked)) (s : Segment) :
      ((locked.setSegment i s).unlock [i]).tail = r.tail := by
    obtain ⟨slots, rfl⟩ := Ring.lockNewest_eq hlock
    rfl
  obtain hnone | ⟨ws, e, hw⟩ := List.eq_nil_or_concat' r.toFifo.waiting
  · left
    have hnone' := h.queue.length_waiting
    rw [hnone, List.length_nil, List.length_eq_zero_iff] at hnone'
    exact ⟨h.left.lockNewest_eq_none hnone, h.right.lockNewest_eq_none hnone'⟩
  · right
    obtain hnone' | ⟨ws', e', hw'⟩ := List.eq_nil_or_concat' r'.toFifo.waiting
    · have hlen := h.queue.length_waiting
      rw [hnone', hw, List.length_append] at hlen
      exact absurd hlen (Nat.succ_ne_zero _).symm
    have hrelated := h.queue.waiting
    rw [hw, hw', ← List.forall₂_reverse_iff, List.map_append, List.map_append, List.reverse_append,
      List.reverse_append] at hrelated
    obtain ⟨hlast, hothers⟩ := List.forall₂_cons.mp hrelated
    have hothers := List.forall₂_reverse_iff.mp hothers
    obtain ⟨i, locked, hlock, hsegment, hrevised⟩ := h.left.lockNewest_of_waiting hw
    obtain ⟨i', locked', hlock', hsegment', hrevised'⟩ := h.right.lockNewest_of_waiting hw'
    refine ⟨i, locked, i', locked', hlock, hlock', ?_, fun s s' hs => ?_⟩
    · rw [hsegment, hsegment']
      exact hlast
    · obtain ⟨q, hq, hrest, hstarted, hwaiting⟩ := hrevised s
      obtain ⟨q', hq', hrest', hstarted', hwaiting'⟩ := hrevised' s'
      refine .of_holds hq hq' (by rw [htail hlock, htail hlock', h.tail_eq]) ?_
      rw [hrest, hrest']
      rw [hrest] at hstarted hwaiting
      rw [hrest'] at hstarted' hwaiting'
      exact {
        h.queue with
        started_eq := by rw [hstarted, hstarted', h.queue.started_eq]
        waiting := by
          rw [hwaiting, hwaiting', List.map_append, List.map_append]
          exact List.rel_append hothers (.cons hs .nil) }

end Ring

/-! ## Dispatchers -/

/-- An action on the plant that does not notice which of two twins it is at work on. -/
def Plant.Unaware (act : Plant n Scribe → Except Fault (Plant n Scribe)) : Prop :=
  ∀ (p p' : Plant n Scribe) (r : Ring n), p.ring.Twins Segment.Kin r → act p = .ok p' →
    ∃ r', act { p with ring := r } = .ok { p' with ring := r' } ∧ p'.ring.Twins Segment.Kin r'

/-- Beats that leave alone what waits are such an action. -/
theorem Plant.unaware_asides (bs : List Beat) : Plant.Unaware (n := n) (asides bs) :=
  fun _ _ _ h hok => h.asides Segment.Kin.refl hok

namespace Dispatcher

/-- The same dispatcher but for the segments that wait. -/
inductive Twins {σ : Type} (R : Segment → Segment → Prop) (d : Dispatcher n σ) :
    Dispatcher n σ → Prop
  /-- with a twin of its ring -/
  | intro {r : Ring n} (h : d.ring.Twins R r) : Twins R d (d.setRing r)

/-- What two waits give back: the same idle calls, and dispatchers that are kin. -/
structure Abreast (x y : Idle n Scribe × Dispatcher n Scribe) : Prop where
  /-- the same idle calls are left -/
  idle_eq : y.1 = x.1
  /-- none of them notices a difference -/
  unaware : ∀ act ∈ x.1, Plant.Unaware act
  /-- the dispatchers are the same but for plans -/
  dispatcher : x.2.Twins Segment.Kin y.2

namespace Twins

variable {σ : Type} {R S T : Segment → Segment → Prop}

section

variable {d d' d'' : Dispatcher n σ}

theorem ring (h : d.Twins R d') : d.ring.Twins R d'.ring := by
  obtain ⟨h⟩ := h
  exact h

theorem halted_eq (h : d.Twins R d') : d'.halted = d.halted := by
  obtain ⟨-⟩ := h
  rfl

theorem refl (hR : ∀ s, R s s) {q : Fifo} (h : d.ring.Holds [] q) : d.Twins R d :=
  .intro (r := d.ring) (.refl hR h)

theorem trans (hT : ∀ a b c, R a b → S b c → T a c) (h : d.Twins R d') (h' : d'.Twins S d'') :
    d.Twins T d'' := by
  obtain ⟨h⟩ := h
  obtain ⟨h'⟩ := h'
  exact .intro (h.trans hT h')

theorem symm (hS : ∀ a b, R a b → S b a) (h : d.Twins R d') : d'.Twins S d := by
  obtain ⟨h⟩ := h
  exact .intro (d := d.setRing _) (r := d.ring) (h.symm hS)

theorem setHead (h : d.Twins R d') (s : Segment) : (d.setHead s).Twins R (d'.setHead s) := by
  obtain ⟨h⟩ := h
  exact .intro (d := d.setHead s) (h.setHead s)

theorem wakeUp (h : d.Twins R d') :
    ({ d with plant := d.plant.publish .wokeUp } : Dispatcher n σ).Twins R
      { d' with plant := d'.plant.publish .wokeUp } := by
  obtain ⟨h⟩ := h
  exact .intro (d := { d with plant := d.plant.publish .wokeUp }) h

theorem ensureRunning (h : d.Twins R d') : d.ensureRunning.Twins R d'.ensureRunning := by
  unfold Dispatcher.ensureRunning
  rw [h.halted_eq, h.ring.running_eq, h.ring.hasPending_eq]
  split
  · exact h
  · obtain ⟨h⟩ := h
    exact .intro (d := d.setRing (d.ring.setRunning true)) (h.setRunning true)

theorem onIdle (h : d.Twins R d') : Fault.Follows (Twins R) d.onIdle d'.onIdle := by
  unfold Dispatcher.onIdle
  rw [h.ring.hasFinished_eq, h.ring.isEmpty_eq]
  split
  · next hfinished =>
    split
    · exact .error _ _
    · obtain ⟨r, r', hr, hr', hnext⟩ := h.ring.reclaim hfinished
      rw [hr, hr']
      obtain ⟨-⟩ := h
      exact .ok (.intro (d := d.setRing r) hnext)
  · exact .ok h

theorem publish (hR : ∀ s, R s s) (h : d.Twins R d') :
    Fault.Follows (Twins R) d.publish d'.publish := by
  unfold Dispatcher.publish
  by_cases hfull : d.ring.isFull = true
  · have hfail : d.ring.publish = .error .full := by
      rw [Ring.publish, if_pos hfull]
    rw [hfail]
    exact .error _ _
  · obtain ⟨r, r', hr, hr', hnext⟩ := h.ring.publish hR (Bool.eq_false_iff.mpr hfull)
    rw [hr, hr']
    obtain ⟨-⟩ := h
    exact .ok (.intro (d := d.setRing r) hnext)

theorem onMainLoop (hR : ∀ s, R s s) (h : d.Twins R d') :
    Fault.Follows (Twins R) d.onMainLoop d'.onMainLoop := by
  unfold Dispatcher.onMainLoop
  rw [h.halted_eq, h.ring.running_eq, h.ring.headSegment_eq, h.ring.isFull_eq]
  split
  · exact .ok h
  split
  · exact (h.publish hR).bind fun e e' he => .ok he.ensureRunning
  · exact .ok h.ensureRunning

theorem attachToHead (h : d.Twins R d') (c : Command) :
    (∃ e, d.attachToHead c = .error e ∧ d'.attachToHead c = .error e) ∨
      ∃ e e', d.attachToHead c = .ok e ∧ d'.attachToHead c = .ok e' ∧ e.Twins R e' := by
  unfold Dispatcher.attachToHead
  rw [h.ring.headSegment_eq]
  cases d.ring.headSegment.attach c with
  | error e => exact .inl ⟨e, rfl, rfl⟩
  | ok s => exact .inr ⟨_, _, rfl, rfl, h.setHead s⟩

/-- A command rides on kin or on neither. -/
theorem attachToNewest? (h : d.Twins Segment.Kin d') (c : Command) :
    d.attachToNewest? c = none ∧ d'.attachToNewest? c = none ∨
      ∃ e e', d.attachToNewest? c = some e ∧ d'.attachToNewest? c = some e' ∧
        e.Twins Segment.Kin e' := by
  unfold Dispatcher.attachToNewest?
  obtain ⟨hnone, hnone'⟩ | ⟨i, locked, i', locked', hlock, hlock', hkin, hrevised⟩ :=
    h.ring.lockNewest
  · rw [hnone, hnone']
    exact .inl ⟨rfl, rfl⟩
  rw [hlock, hlock']
  dsimp only
  obtain ⟨e, he, he'⟩ | ⟨s, s', hs, hs', hattached⟩ := hkin.attach c
  · rw [he, he']
    exact .inl ⟨rfl, rfl⟩
  · rw [hs, hs']
    obtain ⟨-⟩ := h
    exact .inr ⟨_, _, rfl, rfl, .intro (d := d.setRing _) (hrevised s s' hattached)⟩

end

/-! ### Waiting -/

variable {d d' : Dispatcher n Scribe} {idle : Idle n Scribe}

theorem waitUntil {done : Ring n → Bool}
    (hdone : ∀ r r' : Ring n, r.Twins Segment.Kin r' → done r' = done r)
    (h : d.Twins Segment.Kin d') (hidle : ∀ act ∈ idle, Plant.Unaware act) :
    Fault.Follows Abreast (d.waitUntil done idle) (d'.waitUntil done idle) := by
  induction idle generalizing d d' with
  | nil =>
    rw [Dispatcher.waitUntil, Dispatcher.waitUntil, hdone _ _ h.ring]
    split
    · exact .ok ⟨rfl, hidle, h⟩
    · intro x hx
      obtain ⟨-, -, hx⟩ := Fault.bind_eq_ok.mp hx
      cases hx
  | cons act rest ih =>
    rw [Dispatcher.waitUntil, Dispatcher.waitUntil, hdone _ _ h.ring]
    split
    · exact .ok ⟨rfl, hidle, h⟩
    · obtain ⟨hact, hrest⟩ := List.forall_mem_cons.mp hidle
      refine h.ensureRunning.onIdle.bind fun e e' he => ?_
      -- one idle call, and the wait goes on with the others
      intro x hx
      obtain ⟨p, hp, hx⟩ := Fault.bind_eq_ok.mp hx
      obtain ⟨he⟩ := he
      obtain ⟨r, hr, hkin⟩ := hact _ _ _ he hp
      obtain ⟨y, hy, hxy⟩ := ih (.intro (d := { e with plant := p }) hkin) hrest x hx
      exact ⟨y, Fault.bind_eq_ok.mpr ⟨_, hr, hy⟩, hxy⟩

theorem waitForSpace (h : d.Twins Segment.Kin d') (hidle : ∀ act ∈ idle, Plant.Unaware act) :
    Fault.Follows Abreast (d.waitForSpace idle) (d'.waitForSpace idle) :=
  h.waitUntil (fun _ _ hr => by rw [hr.isFull_eq]) hidle

theorem queueHead (h : d.Twins Segment.Kin d') (hidle : ∀ act ∈ idle, Plant.Unaware act) :
    Fault.Follows Abreast (d.queueHead idle) (d'.queueHead idle) := by
  refine (h.waitForSpace hidle).bind ?_
  rintro ⟨rest, e⟩ ⟨rest', e'⟩ ⟨rfl, hrest, he⟩
  dsimp only
  rw [he.halted_eq]
  split
  · exact .ok ⟨rfl, hrest, he.setHead .empty⟩
  · exact (he.publish Segment.Kin.refl).bind fun f f' hf => .ok ⟨rfl, hrest, hf⟩

theorem pushCarrier (h : d.Twins Segment.Kin d') (hidle : ∀ act ∈ idle, Plant.Unaware act) :
    Fault.Follows Abreast (d.pushCarrier idle) (d'.pushCarrier idle) := by
  unfold Dispatcher.pushCarrier
  rw [h.ring.headSegment_eq]
  split
  · exact h.queueHead hidle
  · exact .ok ⟨rfl, hidle, h⟩

theorem appendCommand (h : d.Twins Segment.Kin d') (c : Command)
    (hidle : ∀ act ∈ idle, Plant.Unaware act) :
    Fault.Follows (fun x y => y.1 = x.1 ∧ Abreast x.2 y.2) (d.appendCommand c idle)
      (d'.appendCommand c idle) := by
  unfold Dispatcher.appendCommand
  rw [h.halted_eq, h.ring.headSegment_eq]
  split
  · exact .ok ⟨rfl, rfl, hidle, h⟩
  have hriding : (if d.ring.headSegment.hasCommands then none else d.attachToNewest? c) = none ∧
        (if d.ring.headSegment.hasCommands then none else d'.attachToNewest? c) = none ∨
      ∃ e e', (if d.ring.headSegment.hasCommands then none else d.attachToNewest? c) = some e ∧
        (if d.ring.headSegment.hasCommands then none else d'.attachToNewest? c) = some e' ∧
        e.Twins Segment.Kin e' := by
    split
    · exact .inl ⟨rfl, rfl⟩
    · exact h.attachToNewest? c
  dsimp only
  obtain ⟨hnone, hnone'⟩ | ⟨e, e', he, he', htwins⟩ := hriding
  · rw [hnone, hnone']
    dsimp only
    obtain ⟨e, he, he'⟩ | ⟨e, e', he, he', htwins⟩ := h.attachToHead c
    · -- the head is full and published, and the command waits at the next one
      rw [he, he']
      refine (h.queueHead hidle).bind ?_
      rintro ⟨rest, f⟩ ⟨rest', f'⟩ ⟨rfl, hrest, hf⟩
      dsimp only
      obtain ⟨e, he, he'⟩ | ⟨e, e', he, he', htwins⟩ := hf.attachToHead c
      · rw [he, he']
        exact .ok ⟨rfl, rfl, hrest, hf⟩
      · rw [he, he']
        exact .ok ⟨rfl, rfl, hrest, htwins⟩
    · rw [he, he']
      exact .ok ⟨rfl, rfl, hidle, htwins⟩
  · rw [he, he']
    exact .ok ⟨rfl, rfl, hidle, htwins⟩

end Twins

end Dispatcher

end MotionControl
