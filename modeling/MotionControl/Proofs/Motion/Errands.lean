import MotionControl.Proofs.Motion.Duties
import MotionControl.Proofs.Motion.Moments
import MotionControl.Proofs.Motion.Pipeline

/-!
# Everything the main loop may do

An `Errand` is a call of the pipeline or something that a user of the dispatcher may do besides:
write anything into the segment being prepared, publish it, and revise what is pending in a way of
its own. `Pipeline.errands` is a run of them, with an audit at every point where anything can be
observed, as in `Pipeline.run`.

Whatever the errands are, the machine goes from one moment to another by deeds of `Moment.Deed`, and
no errand ends with a defensive fault (`Pipeline.errands_after`). What ends a run lies outside: a
wait is given up, or a number leaves its machine word. So an audit that holds at all later moments
is passed throughout, and no errand leads out of the states that `Plant.Reachable` describes
(`Pipeline.errands_reachable`).
-/

namespace MotionControl

variable {n : Nat} {good : Segment → Prop} {lowers : Prop} {m₀ : Moment n}

/-! ## Segments of some kind -/

/-- A kind of segments that neither dispatcher nor planner leads out of. -/
structure Segment.Closed (good : Segment → Prop) : Prop where
  /-- the empty segment is of the kind -/
  empty : good .empty
  /-- commands may be attached -/
  attach : ∀ {s s' : Segment} {c : Command}, good s → s.attach c = .ok s' → good s'
  /-- moves become segments of the kind -/
  planned : ∀ {p : Planner} {m : Move} {fromRest : Bool} {s : Segment},
    p.segmentOf m fromRest = .ok s → good s
  /-- speeds may be replanned -/
  replanned : ∀ {boundary final : Float32} {ss ss' : List Segment}, (∀ s ∈ ss, good s) →
    Lookahead.replan boundary final ss = .ok ss' → ∀ s ∈ ss', good s

/-- Any segment at all. -/
theorem Segment.closed_all : Closed fun _ => True :=
  ⟨trivial, fun _ _ => trivial, fun _ => trivial, fun _ _ _ _ => trivial⟩

/-- Segments as the planner makes them. -/
theorem Segment.closed_sound : Closed fun s => s.load.Sound where
  empty := Load.sound_empty
  attach h hs := by
    obtain ⟨⟨l, rfl⟩, -⟩ := Segment.attach_eq_ok hs
    exact h
  planned {p m fromRest s} hs := by
    obtain ⟨s', hs', hsound, -⟩ | herr := p.segmentOf_eq_ok_or m fromRest
    · rw [hs] at hs'
      cases hs'
      exact hsound
    · rw [hs] at herr
      cases herr
  replanned {boundary final ss ss'} hss hok := by
    obtain ⟨ss₁, hok₁, hloads⟩ | herr := Lookahead.replan_eq_ok_or boundary final ss
    · rw [hok] at hok₁
      cases hok₁
      -- the loads are the same ones
      intro s hs
      have hload : s.load ∈ ss.map Segment.load := hloads ▸ List.mem_map_of_mem hs
      obtain ⟨s₀, hs₀, heq⟩ := List.mem_map.mp hload
      exact heq ▸ hss s₀ hs₀
    · rw [hok] at herr
      cases herr

/-! ## Beats -/

namespace Plant

/-- The interrupt does its work and leads out of no moment of some kind, apart from what becomes of
segments. -/
def Spares (kind : Moment n → Prop) (act : Plant n Scribe → Except Fault (Plant n Scribe)) : Prop :=
  ∀ m, kind m →
    Fault.Blameless (fun p => ∃ past, kind { m with plant := p, past := past }) (act m.plant)

theorem beats_spares {kind : Moment n → Prop} {inspect : Plant n Scribe → Bool}
    (hinspect : ∀ m, kind m → inspect m.plant = true) {bs : List Beat}
    (hbs : ∀ b ∈ bs, Spares kind (beat · b)) : Spares kind (beats inspect bs) := by
  intro m h
  induction bs generalizing m with
  | nil =>
    rw [beats, if_pos (hinspect m h)]
    exact ⟨m.past, h⟩
  | cons b bs ih =>
    obtain ⟨hb, hbs⟩ := List.forall_mem_cons.mp hbs
    rw [beats, if_pos (hinspect m h)]
    exact (hb m h).bind fun p ⟨past, hp⟩ => ih hbs _ hp

/-- The interrupt does its work, at whatever moment after another one. -/
def Stays (good : Segment → Prop) (lowers : Prop) (m₀ : Moment n)
    (act : Plant n Scribe → Except Fault (Plant n Scribe)) : Prop :=
  ∀ m, Moment.After good lowers m₀ m →
    Fault.Blameless
      (fun p => ∃ past, Moment.After good lowers m₀ { m with plant := p, past := past })
      (act m.plant)

theorem beat_stays {b : Beat} (hb : b = .rearm → lowers) : Stays good lowers m₀ (beat · b) := by
  intro m h
  dsimp only
  cases hbeat : m.plant.beat b with
  | ok p => exact ⟨_, h.deed (.beat hbeat hb)⟩
  | error e =>
    rw [h.reachable.error_of_beat hbeat]
    rfl

theorem beats_stays {inspect : Plant n Scribe → Bool}
    (hinspect : ∀ m, Moment.After good lowers m₀ m → inspect m.plant = true) {bs : List Beat}
    (hbs : .rearm ∈ bs → lowers) : Stays good lowers m₀ (beats inspect bs) :=
  beats_spares hinspect fun _ hb => beat_stays fun heq => hbs (heq ▸ hb)

end Plant

/-! ## The dispatcher -/

namespace Dispatcher

/-- Revise what has not begun in some way, while the interrupt is at work. -/
def reviseWith {σ : Type} (plan : Float32 → List Segment → Except Fault (List Segment))
    (locked revised : Plant n σ → Except Fault (Plant n σ)) (d : Dispatcher n σ) :
    Except Fault (Dispatcher n σ) := do
  let window := d.ring.lockWindow.1
  let plant ← locked { d.plant with ring := d.ring.lockWindow.2 }
  let planned ← plan window.boundary (plant.ring.segments window.slots)
  let plant ← revised { plant with ring := plant.ring.setSegments window.slots planned }
  return { d with plant := { plant with ring := plant.ring.unlock window.slots } }

/-- A dispatcher between two of its functions, at some moment after another one. Nothing is held. -/
def Follows (good : Segment → Prop) (lowers : Prop) (m₀ : Moment n) (d : Dispatcher n Scribe) :
    Prop :=
  ∃ past, Moment.After good lowers m₀ ⟨d.halted, [], d.plant, past⟩

namespace Follows

variable {d : Dispatcher n Scribe}

theorem work (h : d.Follows good lowers m₀) {r : Ring n} (hw : Ring.Work good [] d.ring [] r)
    (hstill : d.ring.Still r) : (d.setRing r).Follows good lowers m₀ := by
  obtain ⟨past, h⟩ := h
  exact ⟨past, h.deed (.work hw hstill)⟩

theorem write (h : d.Follows good lowers m₀) {s : Segment} (hs : good s) :
    (d.setHead s).Follows good lowers m₀ :=
  h.work (.write hs) (.setHead _ s)

theorem holds (h : d.Follows good lowers m₀) :
    ∃ q, d.ring.Holds [] q ∧ (good .empty → q.All good) := by
  obtain ⟨past, h⟩ := h
  obtain ⟨q, hq⟩ := h.reachable.orderly
  exact ⟨q, hq.attended.holds, hq.attended.all⟩

theorem head_good (h : d.Follows good lowers m₀) (hgood : good .empty) :
    good d.ring.headSegment := by
  obtain ⟨q, hq, hall⟩ := h.holds
  rw [hq.headSegment_eq]
  exact (hall hgood).head

/-- The segments held for revision are of the kind of all others. -/
theorem segments_good {m : Moment n} (h : Moment.After good lowers m₀ m) (hgood : good .empty) :
    ∀ s ∈ m.plant.ring.segments m.held, good s := by
  obtain ⟨q, hq⟩ := h.reachable.orderly
  intro s hs
  change s ∈ m.plant.strip.ring.segments m.held at hs
  rw [hq.attended.holds.segments_held] at hs
  obtain ⟨e, he, rfl⟩ := List.mem_map.mp hs
  exact (hq.attended.all hgood).entries e (List.mem_filter.mp he).1

/-! ### What the dispatcher does -/

/-- Everything that the dispatcher does is a deed. -/
theorem kept (hgood : Segment.Closed good) :
    Kept (Follows (n := n) good lowers m₀) where
  run h hactive hpending := by
    obtain ⟨past, h⟩ := h
    exact ⟨past, h.deed (.run hactive hpending)⟩
  reclaim {d} h hfinished := by
    obtain ⟨q, hq, -⟩ := h.holds
    obtain ⟨hempty, -, -, r, -, hr, -⟩ := hq.reclaim_of_finished hfinished
    exact ⟨hempty, r, hr, h.work (.reclaim hr) (.reclaim hr)⟩
  publish {d} h hactive hroom := by
    obtain ⟨q, hq, -⟩ := h.holds
    obtain ⟨r, hr, hholds⟩ := hq.publish_of_not_full hroom
    obtain ⟨past, h⟩ := h
    exact ⟨r, hr, ⟨_, h.deed (.publish hactive hr)⟩, hholds.headSegment_eq⟩
  drop h _ := by
    obtain ⟨q, hq, -⟩ := h.holds
    exact ⟨h.write hgood.empty, (hq.setHead .empty).headSegment_eq⟩
  attachToNewest {d} h {c i locked s} hlock hs := by
    obtain ⟨past, h⟩ := h
    have hlocked := h.deed (.work (.lockNewest hlock) (.of_slots (Ring.lockNewest_eq hlock)))
    have hold : good (locked.segment i) :=
      segments_good hlocked hgood.empty _ (by simp [Ring.segments])
    have hnew : ∀ s' ∈ [s], good s' := by simpa using hgood.attach hold hs
    have hrevised := hlocked.deed (.work (.revise hnew) (.of_slots (Ring.setSegments_eq _ _ _)))
    exact ⟨past, hrevised.deed (.work .unlock (.of_slots (Ring.unlock_eq _ [i])))⟩
  attachToHead {d} h {c s} hs := h.write (hgood.attach (h.head_good hgood.empty) hs)

/-- And so is what the interrupt does in an idle call. -/
theorem withstands {act : Plant n Scribe → Except Fault (Plant n Scribe)}
    (hact : Plant.Stays good lowers m₀ act) : Withstands (Follows good lowers m₀) act := by
  rintro d ⟨past, h⟩
  exact hact _ h

theorem flush (h : d.Follows good lowers m₀) (hgood : Segment.Closed good) {idle : Idle n Scribe}
    (hidle : ∀ act ∈ idle, Withstands (Follows good lowers m₀) act) :
    Fault.Blameless (fun x => x.2.Follows good lowers m₀) (d.flush idle) := by
  have hflush : (d.setRing (d.ring.setFlush true)).Follows good lowers m₀ :=
    h.work (.setFlush true) (.setFlush _ true)
  refine ((kept hgood).waitUntil hflush _ hidle).bind ?_
  rintro ⟨idle', d'⟩ ⟨h', -⟩
  exact h'.work (.setFlush false) (.setFlush _ false)

/-! ### Holding what is pending -/

/-- Whatever a revision makes of the segments that it holds, if it is of the same kind. -/
theorem reviseWith (h : d.Follows good lowers m₀) (hgood : good .empty)
    (plan : Float32 → List Segment → Except Fault (List Segment))
    (hplan : ∀ boundary ss, (∀ s ∈ ss, good s) →
      Fault.Blameless (fun ss' => ∀ s ∈ ss', good s) (plan boundary ss))
    {locked revised : Plant n Scribe → Except Fault (Plant n Scribe)}
    (hlocked : Plant.Stays good lowers m₀ locked) (hrevised : Plant.Stays good lowers m₀ revised) :
    Fault.Blameless (Follows good lowers m₀) (d.reviseWith plan locked revised) := by
  obtain ⟨past, h⟩ := h
  have hwindow := h.deed (.work .lockWindow (.of_slots (Ring.lockWindow_eq _)))
  refine (hlocked _ hwindow).bind fun p₁ ⟨past₁, h₁⟩ => ?_
  refine (hplan _ _ (segments_good h₁ hgood)).bind fun ss hss => ?_
  have hset := h₁.deed (.work (.revise hss) (.of_slots (Ring.setSegments_eq _ _ ss)))
  refine (hrevised _ hset).bind fun p₂ ⟨past₂, h₂⟩ => ?_
  exact ⟨past₂, h₂.deed (.work .unlock (.of_slots (Ring.unlock_eq _ _)))⟩

/-! ### The planner -/

theorem recalculateWith (h : d.Follows good lowers m₀) (hgood : Segment.Closed good) (p : Planner)
    {locked revised : Plant n Scribe → Except Fault (Plant n Scribe)}
    (hlocked : Plant.Stays good lowers m₀ locked) (hrevised : Plant.Stays good lowers m₀ revised) :
    Fault.Blameless (Follows good lowers m₀) (p.recalculateWith locked revised d) := by
  refine h.reviseWith hgood.empty
    (fun boundary => Lookahead.replan boundary p.tuning.minimumSpeed)
    (fun boundary ss hss => ?_) hlocked hrevised
  obtain ⟨ss', hok, -⟩ | herr := Lookahead.replan_eq_ok_or boundary p.tuning.minimumSpeed ss
  · rw [hok]
    exact hgood.replanned hss hok
  · rw [herr]
    rfl

theorem appendWith (h : d.Follows good lowers m₀) (hgood : Segment.Closed good) (p : Planner)
    (m : Move) {locked revised : Plant n Scribe → Except Fault (Plant n Scribe)}
    (hlocked : Plant.Stays good lowers m₀ locked) (hrevised : Plant.Stays good lowers m₀ revised)
    {idle : Idle n Scribe} (hidle : ∀ act ∈ idle, Withstands (Follows good lowers m₀) act) :
    Fault.Blameless (fun x => x.2.2.2.Follows good lowers m₀)
      (p.appendWith locked revised m idle d) := by
  unfold Planner.appendWith
  split
  · refine ((kept hgood).pushCarrier h hidle).bind ?_
    rintro ⟨idle₁, d₁⟩ ⟨h₁, hidle₁⟩
    refine ((kept hgood).waitUntil h₁ _ hidle₁).bind ?_
    rintro ⟨idle₂, d₂⟩ ⟨h₂, -, hidle₂⟩
    dsimp only at h₂ hidle₂ ⊢
    obtain ⟨s, hs, -⟩ | hs := p.segmentOf_eq_ok_or m
      (!d₂.ring.hasPending || p.previousNominalSpeed ≤ 0)
    · rw [hs]
      refine ((kept hgood).queueHead (h₂.write (hgood.planned hs)) hidle₂).bind ?_
      rintro ⟨idle₃, d₃⟩ ⟨h₃, -⟩
      refine (recalculateWith h₃ hgood _ hlocked hrevised).bind fun d₄ ⟨past, h₄⟩ => ?_
      exact ⟨past, h₄.deed .wakeUp⟩
    · rw [hs]
      rfl
  · exact h

end Follows

end Dispatcher

/-! ## The pipeline -/

/-- One thing that a user of the pipeline does. -/
inductive Errand where
  /-- a call -/
  | call (c : Call)
  /-- change the segment being prepared -/
  | write (f : Segment → Segment)
  /-- publish the segment being prepared -/
  | queueHead (idle : List (List Beat))
  /-- publish the segment being prepared if it carries commands -/
  | pushCarrier (idle : List (List Beat))
  /-- revise what has not begun -/
  | revise (edit : List Segment → List Segment) (locked revised : List Beat)

/-- Whether an errand writes segments of some kind only. -/
def Errand.Writes (good : Segment → Prop) : Errand → Prop
  | write f => ∀ s, good s → good (f s)
  | revise edit _ _ => ∀ ss, (∀ s ∈ ss, good s) → ∀ s ∈ edit ss, good s
  | call _ | queueHead _ | pushCarrier _ => True

/-- Whether stop requests are taken back in the course of a call. -/
def Call.Lowers : Call → Prop
  | append _ idle locked revised => .rearm ∈ idle.flatten ++ locked ++ revised
  | command _ idle | waitForSpace idle | waitForEmpty idle | flush idle => .rearm ∈ idle.flatten
  | recalculate locked revised => .rearm ∈ locked ++ revised
  | hold bs | beats bs => .rearm ∈ bs
  | clearHalt => True
  | onIdle | onMainLoop | ensureRunning | halt | setPosition _ | resync => False

/-- Whether stop requests are taken back in the course of an errand. -/
def Errand.Lowers : Errand → Prop
  | call c => c.Lowers
  | write _ => False
  | queueHead idle | pushCarrier idle => .rearm ∈ idle.flatten
  | revise _ locked revised => .rearm ∈ locked ++ revised

namespace Audit

/-- An audit that is passed in all states of the machine. -/
def Holds (good : Segment → Prop) (audit : Audit n) : Prop :=
  ∀ goal accepted held p, Plant.Reachable good held p.strip → audit goal accepted p = true

/-- An audit that is passed at all moments after some moment. -/
def HoldsAfter (good : Segment → Prop) (lowers : Prop) (m₀ : Moment n) (audit : Audit n) : Prop :=
  ∀ m, Moment.After good lowers m₀ m → ∀ goal accepted, audit goal accepted m.plant = true

/-- The audit of a property of the plant. -/
noncomputable def of (property : Plant n Scribe → Prop) : Audit n :=
  fun _ _ p => @decide (property p) (Classical.propDecidable _)

theorem Holds.after {audit : Audit n} (h : audit.Holds good) : audit.HoldsAfter good lowers m₀ :=
  fun m hm goal accepted => h goal accepted m.held m.plant hm.reachable

theorem holds_none : (Audit.none : Audit n).Holds good := fun _ _ _ _ _ => rfl

end Audit

namespace Pipeline

/-- One errand. -/
def errand (l : Pipeline n) (audit : Audit n) : Errand → Except Fault (Pipeline n)
  | .call c => l.call audit c
  | .write f => l.onDispatcher fun d => .ok (d.setHead (f d.ring.headSegment))
  | .queueHead idle => l.onDispatcher fun d => do
    return (← d.queueHead (l.script audit idle)).2
  | .pushCarrier idle => l.onDispatcher fun d => do
    return (← d.pushCarrier (l.script audit idle)).2
  | .revise edit locked revised => l.onDispatcher
    (Dispatcher.reviseWith (fun _ ss => .ok (edit ss)) (l.audited audit locked)
      (l.audited audit revised))

/-- A sequence of errands, with an audit before each of them and after the last. -/
def errands (audit : Audit n) : List Errand → Pipeline n → Except Fault (Pipeline n)
  | [], l =>
    if audit l.planner.position l.accepted l.plant then .ok l else .error .invariantViolated
  | e :: es, l =>
    if audit l.planner.position l.accepted l.plant then do errands audit es (← l.errand audit e)
    else .error .invariantViolated

/-- Calls are errands. -/
theorem errands_call (audit : Audit n) (cs : List Call) (l : Pipeline n) :
    l.errands audit (cs.map .call) = l.run audit cs := by
  induction cs generalizing l with
  | nil => rfl
  | cons c cs ih =>
    simp only [List.map_cons, errands, Pipeline.run, errand, ih]

variable {audit : Audit n} {l : Pipeline n}

/-- The moment at which a pipeline is between two errands, before anything else is published. -/
def moment (l : Pipeline n) : Moment n := ⟨l.dispatcher.halted, [], l.plant, ⟨0, []⟩⟩

/-- The pipeline is between two errands. -/
abbrev Serves (good : Segment → Prop) (l : Pipeline n) : Prop :=
  Plant.Reachable good [] l.plant.strip

/-- The pipeline is between two errands, at some moment after another one. -/
abbrev Follows (good : Segment → Prop) (lowers : Prop) (m₀ : Moment n) (l : Pipeline n) : Prop :=
  l.dispatcher.Follows good lowers m₀

theorem Serves.follows (h : l.Serves good) : l.Follows good lowers l.moment :=
  ⟨⟨0, []⟩, .start h⟩

namespace Follows

theorem serves (h : l.Follows good lowers m₀) : l.Serves good := by
  obtain ⟨past, h⟩ := h
  exact h.reachable

theorem onDispatcher {act : Dispatcher n Scribe → Except Fault (Dispatcher n Scribe)}
    (hact : Fault.Blameless (Dispatcher.Follows good lowers m₀) (act l.dispatcher)) :
    Fault.Blameless (Follows good lowers m₀) (l.onDispatcher act) :=
  hact.bind fun _ hd => hd

/-- What a wait leaves of its idle script does not matter afterwards. -/
theorem onWait {act : Dispatcher n Scribe → Except Fault (Idle n Scribe × Dispatcher n Scribe)}
    {post : Idle n Scribe × Dispatcher n Scribe → Prop}
    (hact : Fault.Blameless post (act l.dispatcher))
    (hpost : ∀ x, post x → x.2.Follows good lowers m₀) :
    Fault.Blameless (Follows good lowers m₀)
      (l.onDispatcher fun d => do return (← act d).2) :=
  onDispatcher (hact.bind fun x hx => hpost x hx)

theorem audited (haudit : audit.HoldsAfter good lowers m₀) (l : Pipeline n) {bs : List Beat}
    (hbs : .rearm ∈ bs → lowers) : Plant.Stays good lowers m₀ (l.audited audit bs) :=
  Plant.beats_stays (fun m hm => haudit m hm _ _) hbs

theorem script (haudit : audit.HoldsAfter good lowers m₀) (l : Pipeline n)
    {idle : List (List Beat)} (hidle : .rearm ∈ idle.flatten → lowers) :
    ∀ act ∈ l.script audit idle,
      Dispatcher.Withstands (Dispatcher.Follows good lowers m₀) act := by
  intro act hact
  obtain ⟨bs, hbs, rfl⟩ := List.mem_map.mp hact
  exact Dispatcher.Follows.withstands
    (audited haudit l fun hmem => hidle (List.mem_flatten.mpr ⟨bs, hbs, hmem⟩))

theorem call (h : l.Follows good lowers m₀) (hgood : Segment.Closed good)
    (haudit : audit.HoldsAfter good lowers m₀) {c : Call} (hc : c.Lowers → lowers) :
    Fault.Blameless (Follows good lowers m₀) (l.call audit c) := by
  cases c with
  | append m idle locked revised =>
    simp only [Call.Lowers, List.mem_append, or_imp] at hc
    refine (Dispatcher.Follows.appendWith h hgood l.planner m
      (Plant.beats_stays (fun m hm => haudit m hm _ _) hc.1.2)
      (Plant.beats_stays (fun m hm => haudit m hm _ _) hc.2) (script haudit l hc.1.1)).bind ?_
    exact fun x hx => hx
  | command c idle =>
    refine ((Dispatcher.Follows.kept hgood).appendCommand h c (script haudit l hc)).bind ?_
    rintro ⟨answer, idle', d⟩ ⟨rfl, hd⟩
    exact hd
  | recalculate locked revised =>
    simp only [Call.Lowers, List.mem_append, or_imp] at hc
    exact onDispatcher (Dispatcher.Follows.recalculateWith h hgood l.planner
      (audited haudit l hc.1) (audited haudit l hc.2))
  | hold during =>
    obtain ⟨past, h⟩ := h
    have hwindow := h.deed (.work .lockWindow (.of_slots (Ring.lockWindow_eq _)))
    refine ((audited haudit l hc _ hwindow).bind fun p ⟨past₁, hp⟩ => ?_).bind
      (r := fun p => ∃ past, Moment.After good lowers m₀ ⟨l.dispatcher.halted, [], p, past⟩)
      fun p hp => hp
    exact ⟨past₁, hp.deed (.work .unlock (.of_slots (Ring.unlock_eq _ _)))⟩
  | waitForSpace idle =>
    exact onWait ((Dispatcher.Follows.kept hgood).waitUntil h _ (script haudit l hc))
      fun x hx => hx.1
  | waitForEmpty idle =>
    exact onWait ((Dispatcher.Follows.kept hgood).waitUntil h _ (script haudit l hc))
      fun x hx => hx.1
  | onIdle =>
    obtain ⟨d, hd, h'⟩ := (Dispatcher.Follows.kept hgood).onIdle h
    exact onDispatcher (by rw [hd]; exact h')
  | onMainLoop =>
    obtain ⟨d, hd, h'⟩ := (Dispatcher.Follows.kept hgood).onMainLoop h
    exact onDispatcher (by rw [hd]; exact h')
  | ensureRunning => exact (Dispatcher.Follows.kept hgood).ensureRunning h
  | beats bs =>
    obtain ⟨past, h⟩ := h
    exact (audited haudit l hc _ h).bind fun p hp => hp
  | flush idle =>
    exact onWait (Dispatcher.Follows.flush h hgood (script haudit l hc)) fun x hx => hx
  | halt =>
    obtain ⟨past, h⟩ := h
    exact ⟨past, (h.deed .halt).deed (.work (.write hgood.empty) (.setHead _ .empty))⟩
  | clearHalt =>
    obtain ⟨past, h⟩ := h
    exact ⟨past, h.deed (.clearHalt (hc trivial))⟩
  | setPosition position =>
    obtain ⟨past, h⟩ := h
    exact ⟨past, h.deed (.setPosition position)⟩
  | resync => exact h

theorem errand (h : l.Follows good lowers m₀) (hgood : Segment.Closed good)
    (haudit : audit.HoldsAfter good lowers m₀) {e : Errand} (he : e.Writes good)
    (hlowers : e.Lowers → lowers) :
    Fault.Blameless (Follows good lowers m₀) (l.errand audit e) := by
  cases e with
  | call c => exact h.call hgood haudit hlowers
  | write f => exact h.write (he _ (h.head_good hgood.empty))
  | queueHead idle =>
    exact onWait ((Dispatcher.Follows.kept hgood).queueHead h (script haudit l hlowers))
      fun x hx => hx.1
  | pushCarrier idle =>
    exact onWait ((Dispatcher.Follows.kept hgood).pushCarrier h (script haudit l hlowers))
      fun x hx => hx.1
  | revise edit locked revised =>
    simp only [Errand.Lowers, List.mem_append, or_imp] at hlowers
    exact onDispatcher (h.reviseWith hgood.empty (fun _ ss => .ok (edit ss))
      (fun _ ss hss => he ss hss) (audited haudit l hlowers.1) (audited haudit l hlowers.2))

end Follows

/-- Whatever is done to a pipeline, everything that happens is a deed, an audit that holds at all
later moments is passed, and nothing goes wrong that the machine would be to blame for. -/
theorem errands_after (hgood : Segment.Closed good) (haudit : audit.HoldsAfter good lowers m₀)
    {es : List Errand} (hes : ∀ e ∈ es, e.Writes good ∧ (e.Lowers → lowers))
    (h : l.Follows good lowers m₀) :
    Fault.Blameless (Follows good lowers m₀) (l.errands audit es) := by
  have hpass : ∀ {l : Pipeline n}, l.Follows good lowers m₀ →
      audit l.planner.position l.accepted l.plant = true := by
    rintro l ⟨past, h⟩
    exact haudit _ h _ _
  induction es generalizing l with
  | nil =>
    rw [errands, if_pos (hpass h)]
    exact h
  | cons e es ih =>
    obtain ⟨⟨he, hlowers⟩, hes⟩ := List.forall_mem_cons.mp hes
    rw [errands, if_pos (hpass h)]
    exact (h.errand hgood haudit he hlowers).bind fun l' h' => ih hes h'

/-- What holds at all later moments holds at every point of a run. -/
theorem errands_of_after (hgood : Segment.Closed good) {property : Plant n Scribe → Prop}
    (hproperty : ∀ m, Moment.After good lowers m₀ m → property m.plant) {es : List Errand}
    (hes : ∀ e ∈ es, e.Writes good ∧ (e.Lowers → lowers)) (h : l.Follows good lowers m₀) :
    Fault.Blameless (fun l' => property l'.plant) (l.errands (.of property) es) := by
  have haudit : (Audit.of property).HoldsAfter good lowers m₀ :=
    fun m hm _ _ => @decide_eq_true _ (Classical.propDecidable _) (hproperty m hm)
  refine (errands_after hgood haudit hes h).mono ?_
  rintro l' ⟨past, hl'⟩
  exact hproperty _ hl'

/-- No errand leads out of the states of the machine. -/
theorem errands_reachable (hgood : Segment.Closed good) (haudit : audit.Holds good)
    {es : List Errand} (hes : ∀ e ∈ es, e.Writes good) (h : l.Serves good) :
    Fault.Blameless (Serves good) (l.errands audit es) := by
  have hafter : l.Follows good True l.moment := h.follows
  have hwrites : ∀ e ∈ es, e.Writes good ∧ (e.Lowers → True) :=
    fun e he => ⟨hes e he, fun _ => trivial⟩
  exact (errands_after hgood haudit.after hwrites hafter).mono fun l' h' => h'.serves

theorem serves_ofRing {len : Nat} {ring : Ring n} (hring : Ring.new n len = .ok ring)
    {stepper : Stepper} (hidle : stepper.isBusy = false) (planner : Planner) :
    (ofRing ring stepper planner).Serves good :=
  Plant.Reachable.fresh hring hidle

/-- Calls alone bring no other segments into a pipeline than the planner makes. -/
theorem run_reachable {len : Nat} {ring : Ring n} (hring : Ring.new n len = .ok ring)
    {stepper : Stepper} (hidle : stepper.isBusy = false) (planner : Planner)
    (haudit : audit.Holds fun s => s.load.Sound) (cs : List Call) :
    Fault.Blameless (Serves fun s => s.load.Sound)
      ((ofRing ring stepper planner).run audit cs) := by
  rw [← errands_call]
  refine errands_reachable Segment.closed_sound haudit (fun e he => ?_)
    (serves_ofRing hring hidle planner)
  obtain ⟨c, -, rfl⟩ := List.mem_map.mp he
  trivial

end Pipeline

end MotionControl
