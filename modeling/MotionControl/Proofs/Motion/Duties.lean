import MotionControl.Dispatcher

/-!
# What the functions of the dispatcher keep

The dispatcher does few things to the ring: it starts it, it clears behind it, it publishes the
prepared segment or drops it, and it attaches commands. A property that all of these keep is
`Dispatcher.Kept`. Every function of the dispatcher keeps it then, whatever happens in the idle
calls of a wait, as long as the property withstands that as well. A wait does only the first two of
these things (`Dispatcher.Upkeep`).

A function may still end with a fault: a wait is given up, or an idle call fails. But it ends with
none that the machine would be to blame for (`Fault.Blameless`). Clearing and publishing never fail,
and a command is never refused.
-/

namespace MotionControl

variable {n : Nat} {σ : Type}

/-! ## Faults -/

namespace Fault

/-- Whether a fault says that two parts of the machine disagree. -/
def isDefensive : Fault → Bool
  | invariantViolated | noSuchSlot .. => true
  | waitExhausted | addOverflow | subtractOverflow => false

/-- A result, or a fault for which the machine is not to blame. -/
def Blameless {α : Type} (post : α → Prop) : Except Fault α → Prop
  | .ok a => post a
  | .error e => e.isDefensive = false

theorem Blameless.bind {α β : Type} {x : Except Fault α} {f : α → Except Fault β}
    {r : α → Prop} {post : β → Prop} (hx : Blameless r x)
    (hf : ∀ a, r a → Blameless post (f a)) : Blameless post (x >>= f) := by
  cases x with
  | ok a => exact hf a hx
  | error e => exact hx

theorem Blameless.mono {α : Type} {x : Except Fault α} {post post' : α → Prop}
    (hx : Blameless post x) (h : ∀ a, post a → post' a) : Blameless post' x := by
  cases x with
  | ok a => exact h a hx
  | error e => exact hx

/-- What is blamelessly got is a result of the computation. -/
theorem Blameless.attach {α : Type} {x : Except Fault α} {post : α → Prop} (hx : Blameless post x) :
    Blameless (fun a => x = .ok a ∧ post a) x := by
  cases x with
  | ok a => exact ⟨rfl, hx⟩
  | error e => exact hx

end Fault

/-! ## The dispatcher -/

namespace Dispatcher

/-- A property of the dispatcher withstands what is done to the plant in an idle call. -/
def Withstands (inv : Dispatcher n σ → Prop) (act : Plant n σ → Except Fault (Plant n σ)) : Prop :=
  ∀ d, inv d → Fault.Blameless (fun p => inv { d with plant := p }) (act d.plant)

/-- A property of the dispatcher is kept while it waits: by running the ring and clearing it. -/
structure Upkeep (inv : Dispatcher n σ → Prop) : Prop where
  /-- the ring may be started -/
  run {d : Dispatcher n σ} (h : inv d) (hactive : d.halted = false)
    (hpending : d.ring.hasPending = true) : inv (d.setRing (d.ring.setRunning true))
  /-- what is finished may be cleared -/
  reclaim {d : Dispatcher n σ} (h : inv d) (hfinished : d.ring.hasFinished = true) :
    d.ring.isEmpty = false ∧ ∃ r, d.ring.reclaim = .ok r ∧ inv (d.setRing r)

/-- A property of the dispatcher is kept by everything that it does to the ring. -/
structure Kept (inv : Dispatcher n σ → Prop) : Prop extends Upkeep inv where
  /-- where there is room, the prepared segment may be published -/
  publish {d : Dispatcher n σ} (h : inv d) (hactive : d.halted = false)
    (hroom : d.ring.isFull = false) :
    ∃ r, d.ring.publish = .ok r ∧ inv (d.setRing r) ∧ r.headSegment = .empty
  /-- while halted, it may be dropped -/
  drop {d : Dispatcher n σ} (h : inv d) (hhalted : d.halted = true) :
    inv (d.setHead .empty) ∧ (d.setHead .empty).ring.headSegment = .empty
  /-- a command may be attached to the newest segment -/
  attachToNewest {d : Dispatcher n σ} (h : inv d) {c : Command} {i : Nat} {locked : Ring n}
    {s : Segment} (hlock : d.ring.lockNewest = some (i, locked))
    (hs : (locked.segment i).attach c = .ok s) :
    inv (d.setRing ((locked.setSegment i s).unlock [i]))
  /-- a command may be attached to the prepared segment -/
  attachToHead {d : Dispatcher n σ} (h : inv d) {c : Command} {s : Segment}
    (hs : d.ring.headSegment.attach c = .ok s) : inv (d.setHead s)

namespace Upkeep

variable {inv : Dispatcher n σ → Prop} {d : Dispatcher n σ}

theorem ensureRunning (hk : Upkeep inv) (h : inv d) : inv d.ensureRunning := by
  unfold Dispatcher.ensureRunning
  split
  · exact h
  · next hidle =>
    have hidle : (d.halted = false ∧ d.ring.running = false) ∧ d.ring.hasPending = true := by
      simpa using hidle
    exact hk.run h hidle.1.1 hidle.2

/-- Clearing never fails. -/
theorem onIdle (hk : Upkeep inv) (h : inv d) : ∃ d', d.onIdle = .ok d' ∧ inv d' := by
  unfold Dispatcher.onIdle
  split
  · next hfinished =>
    obtain ⟨hempty, r, hr, h'⟩ := hk.reclaim h hfinished
    rw [hempty, if_neg Bool.false_ne_true, hr]
    exact ⟨_, rfl, h'⟩
  · exact ⟨d, rfl, h⟩

/-- A wait is over when it is done, or it is given up. It may leave idle calls for later. -/
theorem waitUntil (hk : Upkeep inv) (h : inv d) (done : Ring n → Bool) {idle : Idle n σ}
    (hidle : ∀ act ∈ idle, Withstands inv act) :
    Fault.Blameless (fun x => inv x.2 ∧ done x.2.ring = true ∧ x.1 ⊆ idle)
      (d.waitUntil done idle) := by
  induction idle generalizing d with
  | nil =>
    rw [Dispatcher.waitUntil]
    split
    · next hdone => exact ⟨h, hdone, List.Subset.refl _⟩
    · obtain ⟨d', hd', -⟩ := hk.onIdle (hk.ensureRunning h)
      rw [hd']
      rfl
  | cons act rest ih =>
    obtain ⟨hact, hrest⟩ := List.forall_mem_cons.mp hidle
    rw [Dispatcher.waitUntil]
    split
    · next hdone => exact ⟨h, hdone, List.Subset.refl _⟩
    · obtain ⟨d', hd', h'⟩ := hk.onIdle (hk.ensureRunning h)
      rw [hd']
      -- one idle call, and the wait goes on with the others
      refine (hact d' h').bind fun p hp => (ih hp hrest).mono ?_
      rintro x ⟨hx, hdone, hsub⟩
      exact ⟨hx, hdone, List.subset_cons_of_subset _ hsub⟩

end Upkeep

namespace Kept

variable {inv : Dispatcher n σ → Prop} {d : Dispatcher n σ}

theorem waitUntil (hk : Kept inv) (h : inv d) (done : Ring n → Bool) {idle : Idle n σ}
    (hidle : ∀ act ∈ idle, Withstands inv act) :
    Fault.Blameless (fun x => inv x.2 ∧ done x.2.ring = true ∧ ∀ act ∈ x.1, Withstands inv act)
      (d.waitUntil done idle) :=
  (hk.toUpkeep.waitUntil h done hidle).mono fun _ hx =>
    ⟨hx.1, hx.2.1, fun act hact => hidle act (hx.2.2 hact)⟩

/-- Publishing never fails where there is room, and leaves an empty segment behind. -/
theorem publish_ok (hk : Kept inv) (h : inv d) (hactive : d.halted = false)
    (hroom : d.ring.isFull = false) :
    ∃ d', d.publish = .ok d' ∧ inv d' ∧ d'.ring.headSegment = .empty := by
  obtain ⟨r, hr, h', hhead⟩ := hk.publish h hactive hroom
  rw [Dispatcher.publish, hr]
  exact ⟨_, rfl, h', hhead⟩

theorem queueHead (hk : Kept inv) (h : inv d) {idle : Idle n σ}
    (hidle : ∀ act ∈ idle, Withstands inv act) :
    Fault.Blameless (fun x => inv x.2 ∧ x.2.ring.headSegment = .empty ∧
      ∀ act ∈ x.1, Withstands inv act) (d.queueHead idle) := by
  refine (hk.waitUntil h _ hidle).bind ?_
  rintro ⟨idle', d'⟩ ⟨h', hroom, hidle'⟩
  dsimp only at h' hroom hidle' ⊢
  split
  · next hhalted =>
    obtain ⟨hdropped, hhead⟩ := hk.drop h' hhalted
    exact ⟨hdropped, hhead, hidle'⟩
  · next hactive =>
    obtain ⟨d'', hd'', h'', hhead⟩ :=
      hk.publish_ok h' (Bool.eq_false_iff.mpr hactive) (by simpa using hroom)
    rw [hd'']
    exact ⟨h'', hhead, hidle'⟩

theorem pushCarrier (hk : Kept inv) (h : inv d) {idle : Idle n σ}
    (hidle : ∀ act ∈ idle, Withstands inv act) :
    Fault.Blameless (fun x => inv x.2 ∧ ∀ act ∈ x.1, Withstands inv act)
      (d.pushCarrier idle) := by
  unfold Dispatcher.pushCarrier
  split
  · exact (hk.queueHead h hidle).mono fun x hx => ⟨hx.1, hx.2.2⟩
  · exact ⟨h, hidle⟩

theorem onMainLoop (hk : Kept inv) (h : inv d) : ∃ d', d.onMainLoop = .ok d' ∧ inv d' := by
  unfold Dispatcher.onMainLoop
  split
  · exact ⟨d, rfl, h⟩
  next hactive =>
  split
  · next hcarrier =>
    rw [Bool.and_eq_true, Bool.not_eq_true'] at hcarrier
    obtain ⟨d', hd', h', -⟩ := hk.publish_ok h (Bool.eq_false_iff.mpr hactive) hcarrier.2
    rw [hd']
    exact ⟨_, rfl, hk.ensureRunning h'⟩
  · exact ⟨_, rfl, hk.ensureRunning h⟩

theorem of_attachToHead (hk : Kept inv) (h : inv d) {c : Command} {d' : Dispatcher n σ}
    (hd : d.attachToHead c = .ok d') : inv d' := by
  unfold Dispatcher.attachToHead at hd
  cases hs : d.ring.headSegment.attach c with
  | error e =>
    rw [hs] at hd
    cases hd
  | ok s =>
    rw [hs] at hd
    cases hd
    exact hk.attachToHead h hs

/-- A command is never refused. -/
theorem appendCommand (hk : Kept inv) (h : inv d) (c : Command) {idle : Idle n σ}
    (hidle : ∀ act ∈ idle, Withstands inv act) :
    Fault.Blameless (fun x => x.1 = .ok () ∧ inv x.2.2) (d.appendCommand c idle) := by
  unfold Dispatcher.appendCommand
  split
  · exact ⟨rfl, h⟩
  dsimp only
  split
  · next d' hriding =>
    split at hriding
    · cases hriding
    · unfold Dispatcher.attachToNewest? at hriding
      split at hriding
      · cases hriding
      · next i locked hlock =>
        split at hriding
        · next s hs =>
          cases hriding
          exact ⟨rfl, hk.attachToNewest h hlock hs⟩
        · cases hriding
  split
  · next d' hd' => exact ⟨rfl, hk.of_attachToHead h hd'⟩
  · -- the head is full and published, and the next one has room
    refine (hk.queueHead h hidle).bind ?_
    rintro ⟨idle', d₁⟩ ⟨h₁, hhead, -⟩
    dsimp only at h₁ hhead ⊢
    obtain ⟨d₂, hd₂⟩ : ∃ d₂, d₁.attachToHead c = .ok d₂ := by
      unfold Dispatcher.attachToHead
      rw [hhead]
      exact ⟨_, rfl⟩
    rw [hd₂]
    exact ⟨rfl, hk.of_attachToHead h₁ hd₂⟩

end Kept

end Dispatcher

end MotionControl
