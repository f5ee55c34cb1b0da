import MotionControl.Proofs.Motion.Stroke
import MotionControl.Proofs.Ring.Work

/-!
# Every state of the machine

`Plant.Reachable` is every state that a plant with a stepper reaches: the main loop works on the
ring one operation at a time, stops are raised and lowered, and the two timers of the interrupt
tick, all in any order. The segments that the main loop writes may be restricted to some kind.

`Plant.Orderly` holds in all of them. It says that the stepper and the ring agree:

* the stepper executes the segment at the front if that has begun, and nothing otherwise;
* while it does, the ring is running, and a running ring has something to execute;
* the segment that it executes is the one it has announced last, and its traversal tracks it.

What the ring's side of this is worth to the interrupt is `Ring.Attended`.
-/

namespace MotionControl

variable {n : Nat} {good : Segment → Prop}

/-! ## The ring -/

namespace Ring

/-- The interrupt attends to a ring: it knows the slot of the segment that has begun, if any, and
the ring is running while there is one. -/
structure Attended (good : Segment → Prop) (r : Ring n) (held : List Nat) (q : Fifo)
    (next : Option Nat) : Prop where
  /-- the ring stands for the queue -/
  holds : r.Holds held q
  /-- there is a slot if something has begun -/
  begun_eq : q.begun = next.isSome
  /-- the slot is the one at the front -/
  slot_eq : ∀ i, next = some i → i = r.front
  /-- while something is executed, the ring is running -/
  running : q.begun = true → q.running = true
  /-- a running ring has something to execute -/
  pending : q.running = true → q.pending ≠ []
  /-- all segments are of some kind -/
  all : good .empty → q.All good

namespace Attended

variable {r : Ring n} {held : List Nat} {q : Fifo} {next : Option Nat} {slot : Nat}

theorem ofLen {len : Nat} (h₁ : 2 ≤ len) (h₂ : len ≤ n) :
    (Ring.ofLen len h₁ h₂ : Ring n).Attended good [] (.ofCapacity (len - 1)) none where
  holds := .ofLen h₁ h₂
  begun_eq := rfl
  slot_eq i hi := by cases hi
  running hb := by cases hb
  pending hr := by cases hr
  all hempty := ⟨hempty, fun e he => by cases he⟩

/-- The segment that has begun. -/
theorem executing (h : r.Attended good held q (some slot)) :
    ∃ s rest, q.pending = ⟨s, .executing⟩ :: rest ∧ r.executing slot = .ok s := by
  obtain ⟨s, rest, hp⟩ := Fifo.pending_of_begun h.begun_eq
  obtain rfl := h.slot_eq slot rfl
  exact ⟨s, rest, hp, h.holds.executing_front hp⟩

/-- A ring of which nothing has begun may begin its first segment, unless there is none or it is
still being revised. -/
theorem begin_cases (h : r.Attended good held q none) :
    (r.begin? = none ∧ ∀ s rest, q.pending ≠ ⟨s, .ready⟩ :: rest) ∨
    ∃ s rest r', q.pending = ⟨s, .ready⟩ :: rest ∧ r.begin? = some (r.front, r') ∧
      r'.front = r.front ∧ r'.running = r.running ∧ (r.running = true →
        r'.Attended good held { q with pending := ⟨s, .executing⟩ :: rest } (some r.front)) := by
  by_cases hready : ∃ s rest, q.pending = ⟨s, .ready⟩ :: rest
  · obtain ⟨s, rest, hp⟩ := hready
    obtain ⟨r', hr', hfront, hholds⟩ := h.holds.begin?_of_ready hp
    have hrunning : r'.running = r.running := by rw [hholds.running_eq, h.holds.running_eq]
    refine .inr ⟨s, rest, r', hp, hr', hfront, hrunning,
      fun hrun => ⟨hholds, rfl, ?_, fun _ => ?_, ?_, ?_⟩⟩
    · intro i hi
      rw [← Option.some.inj hi, hfront]
    · rw [← hholds.running_eq, hrunning, hrun]
    · exact fun _ => List.cons_ne_nil _ _
    · intro hempty
      refine Fifo.Worked.allOf (h.all hempty) (.inl rfl) fun e he => ?_
      rw [Fifo.entries, hp]
      rcases List.mem_append.mp he with he | he
      · exact ⟨e, List.mem_append_left _ he, rfl⟩
      rcases List.mem_cons.mp he with rfl | he
      · exact ⟨⟨s, .ready⟩, List.mem_append_right _ List.mem_cons_self, rfl⟩
      · exact ⟨e, List.mem_append_right _ (List.mem_cons_of_mem _ he), rfl⟩
  · have hnot : ∀ s rest, q.pending ≠ ⟨s, .ready⟩ :: rest := fun s rest hp => hready ⟨s, rest, hp⟩
    exact .inl ⟨h.holds.begin?_of_not_ready hnot, hnot⟩

/-- Beginning a segment leaves what is queued. -/
theorem begin? (h : r.Attended good held q none) : r.begin? = none ∨
    ∃ r' q', r.begin? = some (r.front, r') ∧ r'.running = r.running ∧ q'.queued = q.queued ∧
      (r.running = true → r'.Attended good held q' (some r.front)) := by
  obtain ⟨hr', -⟩ | ⟨s, rest, r', hp, hr', -, hrunning, h'⟩ := h.begin_cases
  · exact .inl hr'
  · refine .inr ⟨r', _, hr', hrunning, ?_, h'⟩
    rw [Fifo.queued, Fifo.queued, hp]
    rfl

theorem taken (h : r.Attended good held q none) :
    ∃ q', r.taken.2.Attended good held q' r.taken.1 ∧ q'.queued = q.queued := by
  unfold Ring.taken Ring.start?
  by_cases hrun : r.running = true
  · rw [if_pos hrun]
    obtain hr' | ⟨r', q', hr', -, hqueued, h'⟩ := h.begin?
    · rw [hr']
      exact ⟨q, h, rfl⟩
    · rw [hr']
      exact ⟨q', h' hrun, hqueued⟩
  · rw [if_neg hrun]
    exact ⟨q, h, rfl⟩

theorem abort (h : r.Attended good held q next) : r.abort.Attended good held q.abort none where
  holds := h.holds.abort
  begun_eq := rfl
  slot_eq i hi := by cases hi
  running hb := by cases hb
  pending hr := by cases hr
  all hempty := ⟨(h.all hempty).head, fun e he => (h.all hempty).entries e (by
    rwa [Fifo.entries, Fifo.abort, List.append_nil] at he)⟩

/-- Finishing the first pending segment leaves those behind it, if any, and stops the ring if
there are none. -/
theorem finish (h : r.Attended good held q (some slot)) : ∃ r', r.finish slot =
      .ok (r'.running, r') ∧ r'.Attended good held q.finish.2 none := by
  obtain ⟨s, rest, hp, -⟩ := h.executing
  obtain rfl := h.slot_eq slot rfl
  have hne : q.pending ≠ [] := by simp [hp]
  obtain ⟨r', hr', hholds⟩ := h.holds.finish fun _ => hne
  have hrunning : r'.running = q.finish.1 := by
    rw [hholds.running_eq, Fifo.finish, h.running h.begun_eq, Bool.true_and]
  rw [← hrunning] at hr'
  have hbegun := h.holds.valid.begun_finish
  refine ⟨r', hr', hholds, hbegun, fun i hi => (by cases hi), ?_, ?_, ?_⟩
  · rw [hbegun]
    exact fun hb => absurd hb Bool.false_ne_true
  · intro hrun hnil
    simp only [Fifo.finish] at hrun hnil
    simp [hnil] at hrun
  · intro hempty
    obtain ⟨hhead, hall⟩ := h.all hempty
    refine ⟨hhead, fun e he => hall e ?_⟩
    rw [Fifo.entries, q.overAtFinish_append_afterFinish, ← List.append_assoc]
    exact he

/-- Handing a segment back takes it off the queue, perhaps with some that are skipped, and may begin
the next one. -/
theorem release (h : r.Attended good held q (some slot)) :
    ∃ next r' q' s skipped, r.release slot = .ok (next, r') ∧ r'.Attended good held q' next ∧
      r.executing slot = .ok s ∧ q.queued = s :: (skipped ++ q'.queued) := by
  obtain ⟨s, rest, hp, hexec⟩ := h.executing
  obtain ⟨r₁, hr₁, h₁⟩ := h.finish
  obtain ⟨skipped, hskipped⟩ : ∃ skipped, q.queued = s :: (skipped ++ q.finish.2.queued) := by
    by_cases hflush : q.flush = true
    · refine ⟨rest.map Slot.segment, ?_⟩
      simp [Fifo.queued, Fifo.finish, Fifo.afterFinish, hflush, hp]
    · refine ⟨[], ?_⟩
      simp [Fifo.queued, Fifo.finish, Fifo.afterFinish, hflush, hp]
  simp only [Ring.release, hr₁, bind, Except.bind]
  by_cases hrun : r₁.running = true
  · rw [if_pos hrun]
    obtain hr₂ | ⟨r₂, q₂, hr₂, -, hqueued, h₂⟩ := h₁.begin?
    · exact ⟨none, r₁, _, s, skipped, by rw [hr₂], h₁, hexec, hskipped⟩
    · exact ⟨some r₁.front, r₂, q₂, s, skipped, by rw [hr₂], h₂ hrun, hexec,
        by rw [hqueued, hskipped]⟩
  · rw [if_neg hrun]
    exact ⟨none, r₁, _, s, skipped, rfl, h₁, hexec, hskipped⟩

/-- The main loop's work leaves alone what has begun. -/
theorem work (h : r.Attended good held q next) {held' : List Nat} {r' : Ring n}
    (hw : Ring.Work good held r held' r') : ∃ q', r'.Attended good held' q' next ∧
      (q.begun = true → q'.pending.head? = q.pending.head?) := by
  obtain ⟨q', hholds, hfront, hworked⟩ := h.holds.work hw
  refine ⟨q', ⟨hholds, ?_, ?_, ?_, ?_, fun hempty => hworked.all hempty (h.all hempty)⟩,
    hworked.first_eq⟩
  · rw [hworked.begun_eq, h.begun_eq]
  · rw [hfront]
    exact h.slot_eq
  · rw [hworked.begun_eq]
    exact fun hb => hworked.stays (h.running hb)
  · intro hrun
    rcases hworked.running hrun with hold | hne
    · exact hworked.pending_ne (h.pending hold)
    · exact hne

end Attended

end Ring

/-! ## The traversal -/

theorem StopMask.isActive_of_has {s : StopMask} {a : Axis} (h : s.has a = true) :
    s.isActive = true := by
  rw [← Bool.not_eq_false]
  intro hclear
  have hbits : s.bits = 0 := by simpa [isActive] using hclear
  rw [has, hbits] at h
  cases a <;> cases h

namespace Traversal

/-- A stop takes no steps from an actuator. -/
def SparedBy (t : Traversal) (stop : StopMask) (a : Axis) : Prop :=
  stop.has a = true → t.remaining.get a = 0

theorem isCutBy_eq_false_iff {t : Traversal} {stop : StopMask} :
    t.isCutBy stop.bits = false ↔ ∀ a, t.SparedBy stop a := by
  rw [isCutBy, List.any_eq_false]
  refine ⟨fun h a ha => ?_, fun h a _ => ?_⟩
  · have hin : a.isIn stop.bits = true := ha
    simpa [hin] using h a (Axis.mem_all a)
  · rw [Bool.and_eq_true, bne_iff_ne]
    exact fun hcut => hcut.2 (h a hcut.1)

/-- A traversal tracks a load: what it has done so far agrees with Bresenham's rule, apart from what
stops have cut off, and something is left to do. -/
structure Tracks (t : Traversal) (l : Load) : Prop where
  /-- whether a stop has cut it or not, it carries the load out -/
  carries : { t with interrupted := false }.Carries l
  /-- something is left to do -/
  unfinished : t.isComplete = false

namespace Tracks

variable {t t' : Traversal} {l : Load}

theorem directions_eq (h : t.Tracks l) : t.directions = l.directions := h.carries.directions_eq

theorem sameCourse (h : t.Tracks l) (ht : t.SameCourse t') : t'.Tracks l := by
  refine ⟨h.carries.sameCourse ?_, ?_⟩ <;> rw [ht]
  · rfl
  · exact h.unfinished

theorem ofSegment (slot : Nat) {s : Segment} (hs : s.load.Sound) (hm : s.hasMotion = true) :
    (Traversal.ofSegment slot s).Tracks s.load :=
  ⟨.ofSegment slot hs, not_isComplete_ofSegment slot hs hm⟩

/-- Steps that are cut off are not made any more, and nothing else changes. -/
theorem carries_cut (h : t.Tracks l) (stopped : UInt8) :
    { t.cut stopped with interrupted := false }.Carries l := by
  have hleft : ∀ a, (t.cut stopped).remaining.get a ≠ 0 →
      (t.cut stopped).remaining.get a = t.remaining.get a := by
    intro a ha
    rw [Traversal.cut, PerAxis.get_ofFn] at ha ⊢
    by_cases hin : a.isIn stopped = true
    · rw [if_pos hin] at ha
      exact absurd rfl ha
    · exact if_neg hin
  have hc := h.carries
  refine ⟨hc.steps_eq, hc.eventCount_eq, hc.directions_eq, hc.sound, rfl, hc.events_le,
    fun a => ?_, fun a ha => ?_, fun a ha => ?_⟩
  · by_cases ha : (t.cut stopped).remaining.get a = 0
    · change ((t.cut stopped).remaining.get a).toNat ≤ _
      rw [ha]
      exact Nat.zero_le _
    · change ((t.cut stopped).remaining.get a).toNat ≤ _
      rw [hleft a ha]
      exact hc.remaining_le a
  · have ha : (t.cut stopped).remaining.get a ≠ 0 := ha
    exact hc.counter_le a (by rwa [hleft a ha] at ha)
  · have ha : (t.cut stopped).remaining.get a ≠ 0 := ha
    have heq := hc.counter_eq a (by rwa [hleft a ha] at ha)
    rw [← hleft a ha] at heq
    exact heq

theorem stepEvent (h : t.Tracks l) (hmore : t.stepEvent.isComplete = false) :
    t.stepEvent.Tracks l :=
  ⟨h.carries.stepEvent h.unfinished, hmore⟩

end Tracks

/-- A stop that cuts no steps off leaves a traversal as it is. -/
theorem cut_eq_self {t : Traversal} {stop : StopMask} (h : t.isCutBy stop.bits = false) :
    t.cut stop.bits = t := by
  have hremaining : (PerAxis.ofFn fun a => if a.isIn stop.bits then 0 else t.remaining.get a) =
      t.remaining := by
    apply PerAxis.ext_get
    intro a
    rw [PerAxis.get_ofFn]
    split
    · next ha => exact (isCutBy_eq_false_iff.mp h a ha).symm
    · rfl
  rw [cut, hremaining, h, Bool.or_false]

end Traversal

namespace Plant

theorem not_isCutBy_of_clear {stop : StopMask} (h : stop.isActive = false) (t : Traversal) :
    t.isCutBy stop.bits = false := by
  refine Traversal.isCutBy_eq_false_iff.mpr fun a ha => ?_
  rw [StopMask.isActive_of_has ha] at h
  cases h

namespace Turns

variable {p : Plant n Stepper} {t t' : Traversal}

theorem interrupted_eq (h : p.Turns t t') :
    t'.interrupted = (t.interrupted || t.isCutBy p.stop.bits) := by
  rw [h.course]
  rfl

/-- What is left of an actuator after the stop mask has been obeyed. -/
theorem remaining_eq (h : p.Turns t t') (a : Axis) :
    t'.remaining.get a = if a.isIn p.stop.bits then 0 else t.remaining.get a := by
  rw [h.course]
  exact PerAxis.get_ofFn _ a

/-- A stop that cuts nothing off leaves a traversal on its course. -/
theorem sameCourse (h : p.Turns t t') (hcut : t.isCutBy p.stop.bits = false) :
    t.SameCourse t' := by
  have hcourse := h.course
  rwa [Traversal.cut_eq_self hcut] at hcourse

/-- A traversal that has not been cancelled goes on tracking its load. -/
theorem tracks {l : Load} (h : p.Turns t t') (ht : t.Tracks l) : t'.Tracks l := by
  by_cases hcut : t.isCutBy p.stop.bits = true
  · refine ⟨(ht.carries_cut p.stop.bits).sameCourse ?_, ?_⟩
    · rw [h.course]
      rfl
    -- what a stop cuts is cancelled unless something is left
    · refine h.lasts ?_ (by rw [h.interrupted_eq, hcut, Bool.or_true])
      rw [← Bool.not_eq_false]
      intro hclear
      rw [not_isCutBy_of_clear hclear] at hcut
      cases hcut
  · exact ht.sameCourse (h.sameCourse (Bool.eq_false_iff.mpr hcut))

end Turns

end Plant

/-! ## The plant -/

/-- The segment that an event says has begun. -/
def Event.begun? : Event → Option Segment
  | .began s => some s
  | _ => none

namespace Plant

/-- The segment announced last. -/
def announced {σ : Type} (p : Plant n σ) : Option Segment :=
  (p.events.toList.filterMap Event.begun?).getLast?

/-- Stepper and ring agree. -/
structure Orderly (good : Segment → Prop) (p : Plant n Stepper) (held : List Nat) (q : Fifo) :
    Prop where
  /-- what the stepper executes is what has begun -/
  attended : p.ring.Attended good held q (p.side.current.map Traversal.slot)
  /-- it has been announced last, and the traversal tracks it -/
  engaged : ∀ t, p.side.current = some t → ∃ s rest, q.pending = ⟨s, .executing⟩ :: rest ∧
    p.announced = some s ∧ (s.load.Sound → t.Tracks s.load)

theorem announced_append {σ : Type} {p p' : Plant n σ} {es : List Event}
    (h : p'.events.toList = p.events.toList ++ es) :
    p'.announced = ((es.filterMap Event.begun?).getLast?).or p.announced := by
  rw [announced, h, List.filterMap_append, List.getLast?_append]
  rfl

theorem announced_publish {σ : Type} (p : Plant n σ) {e : Event} (he : e.begun? = none) :
    (p.publish e).announced = p.announced := by
  have hevents : (p.publish e).events.toList = p.events.toList ++ [e] := Array.toList_push
  rw [announced_append hevents, List.filterMap_cons_none he]
  rfl

theorem Orderly.coupled {p : Plant n Stepper} {held : List Nat} {q : Fifo}
    (h : p.Orderly good held q) : p.Coupled held q where
  holds := h.attended.holds
  begun_eq := by rw [h.attended.begun_eq, Option.isSome_map, Stepper.isBusy]
  slot_eq t ht := h.attended.slot_eq _ (by rw [ht]; rfl)

/-- A stepper at rest is orderly if its ring is. -/
theorem Orderly.ofRest {p : Plant n Stepper} {held : List Nat} {q : Fifo}
    (h : p.ring.Attended good held q none) (hc : p.side.current = none) :
    p.Orderly good held q :=
  ⟨by rwa [hc], fun t ht => by rw [hc] at ht; cases ht⟩

/-- As long as the ring is left alone, a traversal may go on tracking its load. -/
theorem Orderly.proceed {p p' : Plant n Stepper} {held : List Nat} {q : Fifo}
    (h : p.Orderly good held q) {t t' : Traversal} (hc : p.side.current = some t)
    (hring : p'.ring = p.ring) (hc' : p'.side.current = some t') (hslot : t'.slot = t.slot)
    (hannounced : p'.announced = p.announced)
    (htracks : ∀ l, t.Tracks l → t'.Tracks l) : p'.Orderly good held q := by
  obtain ⟨s, rest, hp, hs, ht⟩ := h.engaged t hc
  have hattended := h.attended
  rw [hc, Option.map_some, ← hslot] at hattended
  refine ⟨by rw [hring, hc']; exact hattended, fun t'' ht'' => ?_⟩
  rw [hc'] at ht''
  cases ht''
  exact ⟨s, rest, hp, hannounced.trans hs, fun hsound => htracks _ (ht hsound)⟩

theorem Onward.orderly {next : Option Nat} {p p' : Plant n Stepper} {es : List Event}
    (h : Onward next p es p') {held : List Nat} {q : Fifo}
    (hr : p.ring.Attended good held q next) : ∃ q', p'.Orderly good held q' := by
  induction h generalizing q with
  | rest => exact ⟨q, .ofRest hr rfl⟩
  | discard hstop => exact ⟨q.abort, .ofRest hr.abort rfl⟩
  | @start p slot s hclear hexec hm =>
    obtain ⟨s', rest, hp, hexec'⟩ := hr.executing
    rw [hexec] at hexec'
    cases hexec'
    refine ⟨q, hr, fun t ht => ⟨s, rest, hp, ?_, fun hsound => ?_⟩⟩
    · rw [announced_append (Onward.start hclear hexec hm).events_eq]
      rfl
    · cases ht
      exact (Traversal.Tracks.ofSegment slot hsound hm).sameCourse rfl
  | pass hclear hexec hm hrelease honward ih =>
    obtain ⟨next', r', q', -, -, hrelease', hr', -⟩ := hr.release
    rw [hrelease] at hrelease'
    cases hrelease'
    exact ih hr'

theorem Stroke.orderly {p p' : Plant n Stepper} {t : Traversal} {o : StepOutput} {es : List Event}
    (h : p.Stroke t o es p') {held : List Nat} {q : Fifo} (hp : p.Orderly good held q)
    (hc : p.side.current = some t) : ∃ q', p'.Orderly good held q' := by
  have hr := hp.attended
  cases h with
  | cancel hstop hint hdone => exact ⟨q.abort, .ofRest hr.abort rfl⟩
  | turn hturn =>
    exact ⟨q, hp.proceed hc rfl rfl hturn.slot_eq rfl fun l ht => hturn.tracks ht⟩
  | strike hturn hpos hmore =>
    exact ⟨q, hp.proceed hc rfl rfl hturn.slot_eq rfl fun l ht => (hturn.tracks ht).stepEvent hmore⟩
  | cutShort hturn hpos hdone hint => exact ⟨q.abort, .ofRest hr.abort rfl⟩
  | last hturn hpos hdone hint hexec hrelease honward =>
    rw [hc, Option.map_some, ← hturn.slot_eq] at hr
    obtain ⟨next', r', q', -, -, hrelease', hr', -⟩ := hr.release
    rw [hrelease] at hrelease'
    cases hrelease'
    exact honward.orderly hr'

theorem Ticks.orderly {p p' : Plant n Stepper} {o : StepOutput} {es : List Event}
    (h : p.Ticks o es p') {held : List Nat} {q : Fifo} (hp : p.Orderly good held q) :
    ∃ q', p'.Orderly good held q' := by
  cases h with
  | busy hc hstroke => exact hstroke.orderly hp hc
  | still hc hstop =>
    split
    · exact ⟨q.abort, .ofRest hp.attended.abort hc⟩
    · exact ⟨q, hp⟩
  | rest hc hclear honward hnone =>
    have hr := hp.attended
    rw [hc] at hr
    obtain ⟨q₁, hr₁, -⟩ := hr.taken
    exact honward.orderly hr₁
  | begins hc hclear honward ht hsame hstroke =>
    have hr := hp.attended
    rw [hc] at hr
    obtain ⟨q₁, hr₁, -⟩ := hr.taken
    obtain ⟨q₂, hready⟩ := honward.orderly hr₁
    exact hstroke.orderly hready ht

namespace Orderly

variable {p p' : Plant n Stepper} {held : List Nat} {q : Fifo}

theorem rampTick (h : p.Orderly good held q) : p.rampTick.Orderly good held q := by
  unfold Plant.rampTick
  cases hc : p.side.current with
  | none => exact h
  | some t =>
    dsimp only
    split
    · exact h
    · exact h.proceed hc rfl rfl rfl (announced_publish _ rfl) fun l ht => ht.sameCourse rfl

theorem work (h : p.Orderly good held q) {held' : List Nat} {r : Ring n}
    (hw : Ring.Work good held p.ring held' r) :
    ∃ q', ({ p with ring := r } : Plant n Stepper).Orderly good held' q' := by
  obtain ⟨q', hr, hfirst⟩ := h.attended.work hw
  refine ⟨q', hr, fun t ht => ?_⟩
  obtain ⟨s, rest, hp, hs, htracks⟩ := h.engaged t ht
  have hbegun := h.coupled.begun_of_busy ht
  obtain ⟨s', rest', hp'⟩ := Fifo.pending_of_begun
    (q := q') (by rw [hr.begun_eq, ← h.attended.begun_eq, hbegun])
  -- what has begun is still the same
  have hsame := hfirst hbegun
  rw [hp, hp'] at hsame
  cases hsame
  exact ⟨s, rest', hp', hs, htracks⟩

/-- If all segments are sound, a traversal tracks the one in its slot. -/
theorem tracks (h : p.Orderly (fun s => s.load.Sound) held q) {t : Traversal}
    (hc : p.side.current = some t) : ∃ s, p.ring.executing t.slot = .ok s ∧ t.Tracks s.load := by
  obtain ⟨s, rest, hp, -, htracks⟩ := h.engaged t hc
  have hmem : (⟨s, .executing⟩ : Slot) ∈ q.entries := by simp [Fifo.entries, hp]
  have hsound : s.load.Sound := (h.attended.all Load.sound_empty).entries _ hmem
  refine ⟨s, ?_, htracks hsound⟩
  rw [h.coupled.slot_eq t hc]
  exact h.attended.holds.executing_front hp

/-- Nothing else matters. -/
theorem congr (h : p.Orderly good held q) (hring : p'.ring = p.ring)
    (hc : p'.side.current = p.side.current) (hannounced : p'.announced = p.announced) :
    p'.Orderly good held q := by
  refine ⟨by rw [hring, hc]; exact h.attended, fun t ht => ?_⟩
  rw [hc] at ht
  rw [hannounced]
  exact h.engaged t ht

end Orderly

/-- The states that a plant with a stepper reaches, with the slots held for revision. -/
inductive Reachable (good : Segment → Prop) : List Nat → Plant n Stepper → Prop
  | fresh {len : Nat} {ring : Ring n} {stepper : Stepper} (hring : Ring.new n len = .ok ring)
      (hidle : stepper.isBusy = false) : Reachable good [] ⟨ring, .clear, #[], stepper⟩
  | work {held held' : List Nat} {p : Plant n Stepper} {r : Ring n} (h : Reachable good held p)
      (hw : Ring.Work good held p.ring held' r) : Reachable good held' { p with ring := r }
  | setStop {held : List Nat} {p : Plant n Stepper} (h : Reachable good held p)
      (stop : StopMask) : Reachable good held { p with stop := stop }
  | wakeUp {held : List Nat} {p : Plant n Stepper} (h : Reachable good held p) :
      Reachable good held (p.publish .wokeUp)
  | setPosition {held : List Nat} {p : Plant n Stepper} (h : Reachable good held p)
      (position : PerAxis Int32) :
      Reachable good held { p with side := { p.side with position := position } }
  | tick {held : List Nat} {p p' : Plant n Stepper} {o : StepOutput} (h : Reachable good held p)
      (htick : p.tick = .ok (o, p')) : Reachable good held p'
  | rampTick {held : List Nat} {p : Plant n Stepper} (h : Reachable good held p) :
      Reachable good held p.rampTick

/-- In every state of the machine stepper and ring agree. -/
theorem Reachable.orderly {held : List Nat} {p : Plant n Stepper} (h : Reachable good held p) :
    ∃ q, p.Orderly good held q := by
  induction h with
  | @fresh len ring stepper hring hidle =>
    unfold Ring.new at hring
    split at hring
    · next hlen =>
      cases hring
      refine ⟨_, .ofRest (.ofLen hlen.1 hlen.2) ?_⟩
      simpa [Stepper.isBusy] using hidle
    · cases hring
  | work h hw ih =>
    obtain ⟨q, hq⟩ := ih
    exact hq.work hw
  | setStop h stop ih =>
    obtain ⟨q, hq⟩ := ih
    exact ⟨q, hq.congr rfl rfl rfl⟩
  | wakeUp h ih =>
    obtain ⟨q, hq⟩ := ih
    exact ⟨q, hq.congr rfl rfl (announced_publish _ rfl)⟩
  | setPosition h position ih =>
    obtain ⟨q, hq⟩ := ih
    exact ⟨q, hq.congr rfl rfl rfl⟩
  | tick h htick ih =>
    obtain ⟨q, hq⟩ := ih
    obtain ⟨o', es, p', hok, hticks⟩ | herr := hq.coupled.ticks
    · rw [htick] at hok
      cases hok
      exact hticks.orderly hq
    · rw [htick] at herr
      cases herr
  | rampTick h ih =>
    obtain ⟨q, hq⟩ := ih
    exact ⟨q, hq.rampTick⟩

/-- Nothing can go wrong with a tick but a step out of the word of a position. -/
theorem Reachable.error_of_tick {held : List Nat} {p : Plant n Stepper} (h : Reachable good held p)
    {e : Fault} (herr : p.tick = .error e) : e = .addOverflow := by
  obtain ⟨q, hq⟩ := h.orderly
  obtain ⟨o, es, p', hok, -⟩ | herr' := hq.coupled.ticks
  · rw [herr] at hok
    cases hok
  · rw [herr] at herr'
    cases herr'
    rfl

end Plant

end MotionControl
