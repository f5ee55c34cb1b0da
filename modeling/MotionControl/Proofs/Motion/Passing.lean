import MotionControl.Proofs.Motion.Moments
import MotionControl.Proofs.Ring.Parts

/-!
# How segments begin

While no stop is latched and nothing is skipped, all that the interrupt does to the queue is to let
waiting segments begin, from the front on, and it reports every one of them
(`Plant.Reachable.passes`). A segment with motion is reported when it begins. A carrier is over as
soon as it has begun, so that its end stands for its begin.
-/

namespace MotionControl

variable {n : Nat} {good : Segment → Prop}

/-! ## Reports -/

/-- The segment that an event reports to have begun. -/
def Event.starts? : Event → Option Segment
  | .began s => some s
  | .ended s => if s.hasMotion then none else some s
  | _ => none

theorem Segment.starts_completion (s : Segment) :
    s.completion.filterMap Event.starts? = if s.hasMotion then [] else [s] := by
  have hcommands : (s.commands.toList.map Event.commandDue).filterMap Event.starts? = [] := by
    rw [List.filterMap_map, List.filterMap_eq_nil_iff]
    exact fun c _ => rfl
  rw [completion, List.filterMap_append, hcommands, List.nil_append, List.filterMap_cons]
  split
  · next h =>
    rw [Event.starts?] at h
    split at h
    · next hm => rw [if_pos hm]; rfl
    · cases h
  · next h =>
    rw [Event.starts?] at h
    split at h
    · cases h
    · next hm => rw [if_neg hm, Option.some.inj h]; rfl

/-- The segments that have begun according to the events, oldest first. -/
def Plant.reported {σ : Type} (p : Plant n σ) : List Segment :=
  p.events.toList.filterMap Event.starts?

theorem Plant.reported_append {σ : Type} {p p' : Plant n σ} {es : List Event}
    (h : p'.events.toList = p.events.toList ++ es) :
    p'.reported = p.reported ++ es.filterMap Event.starts? := by
  rw [reported, h, List.filterMap_append]
  rfl

/-! ## The ring -/

theorem Ring.segment_of_executing {r : Ring n} {slot : Nat} {s : Segment}
    (h : r.executing slot = .ok s) : r.segment slot = s := by
  unfold executing at h
  split at h
  · cases h
  · split at h <;> cases h
    rfl

namespace Ring.Attended

variable {r r' : Ring n} {held : List Nat} {q : Fifo} {slot : Nat} {next : Option Nat}

theorem passes_begin? (h : r.Attended good held q none) (hr : r.begin? = some (slot, r')) :
    ∃ gone, q.Passes gone r'.toFifo ∧ gone.map Slot.segment = [r'.segment slot] := by
  by_cases hready : ∃ s rest, q.pending = ⟨s, .ready⟩ :: rest
  · obtain ⟨s, rest, hp⟩ := hready
    obtain ⟨r₁, hr₁, hfront, hholds⟩ := h.holds.begin?_of_ready hp
    rw [hr] at hr₁
    cases hr₁
    rw [hholds.toFifo_eq]
    refine ⟨_, .begin hp, ?_⟩
    rw [← hfront, segment, hholds.slot_front rfl]
    rfl
  · rw [h.holds.begin?_of_not_ready fun s rest hp => hready ⟨s, rest, hp⟩] at hr
    cases hr

theorem passes_taken (h : r.Attended good held q none) :
    ∃ gone, q.Passes gone r.taken.2.toFifo ∧
      gone.map Slot.segment = (r.taken.1.map r.taken.2.segment).toList := by
  unfold Ring.taken
  split
  · next slot r' hstart =>
    unfold Ring.start? at hstart
    split at hstart
    · exact h.passes_begin? hstart
    · cases hstart
  · exact ⟨[], h.holds.toFifo_eq ▸ .refl _, rfl⟩

theorem passes_release (h : r.Attended good held q (some slot)) (hflush : q.flush = false)
    (hr : r.release slot = .ok (next, r')) :
    ∃ gone, q.Passes gone r'.toFifo ∧ gone.map Slot.segment = (next.map r'.segment).toList := by
  obtain ⟨s, rest, hp, -⟩ := h.executing
  obtain ⟨r₁, hr₁, h₁⟩ := h.finish
  have hfinish := Fifo.Passes.finish h.holds.valid hflush hp
  have hnone : ∃ gone, q.Passes gone r₁.toFifo ∧ gone.map Slot.segment = [] :=
    ⟨[], by rw [h₁.holds.toFifo_eq]; exact hfinish, rfl⟩
  simp only [Ring.release, hr₁, bind, Except.bind] at hr
  split at hr
  · split at hr
    · next j r₂ hbegin =>
      cases hr
      obtain ⟨gone, hpasses, hgone⟩ := h₁.passes_begin? hbegin
      exact ⟨gone, hfinish.trans hpasses, hgone⟩
    · cases hr
      exact hnone
  · cases hr
    exact hnone

end Ring.Attended

/-! ## The interrupt -/

/-- What is executed has motion. -/
theorem Traversal.Tracks.hasMotion {t : Traversal} {s : Segment} (h : t.Tracks s.load) :
    s.hasMotion = true := by
  have hlt := (t.not_isComplete_iff.mp h.unfinished).1
  have hcount : t.eventCount = s.eventCount := h.carries.eventCount_eq
  rw [hcount] at hlt
  exact decide_eq_true (UInt32.lt_iff_toNat_lt.mpr (Nat.zero_lt_of_lt hlt))

/-- No stop has cut anything off what is executed. -/
def Stepper.Uncut (s : Stepper) : Prop := ∀ t, s.current = some t → t.interrupted = false

theorem Stepper.Uncut.of_none {s : Stepper} (h : s.current = none) : s.Uncut :=
  fun t ht => by rw [h] at ht; cases ht

theorem Stepper.Uncut.of_some {s : Stepper} {t : Traversal} (h : s.current = some t)
    (ht : t.interrupted = false) : s.Uncut :=
  fun t' ht' => by rw [h] at ht'; cases ht'; exact ht

namespace Plant

variable {p p' : Plant n Stepper} {held : List Nat} {q : Fifo} {es : List Event}

/-- Segments have begun, and all of them have been reported. -/
def Passes (p : Plant n Stepper) (es : List Event) (p' : Plant n Stepper) : Prop :=
  ∃ gone, p.ring.toFifo.Passes gone p'.ring.toFifo ∧
    es.filterMap Event.starts? = gone.map Slot.segment

theorem Passes.of_ring (h : p'.ring = p.ring) (hes : es.filterMap Event.starts? = []) :
    p.Passes es p' :=
  ⟨[], h ▸ .refl _, hes⟩

theorem Passes.trans {p'' : Plant n Stepper} {es' : List Event} (h : p.Passes es p')
    (h' : p'.Passes es' p'') : p.Passes (es ++ es') p'' := by
  obtain ⟨gone, hpasses, hes⟩ := h
  obtain ⟨gone', hpasses', hes'⟩ := h'
  exact ⟨gone ++ gone', hpasses.trans hpasses', by
    rw [List.filterMap_append, List.map_append, hes, hes']⟩

theorem Onward.uncut {next : Option Nat} (h : Onward next p es p') : p'.side.Uncut := by
  induction h with
  | rest => exact .of_none rfl
  | discard hstop => exact .of_none rfl
  | start hclear hexec hm => exact .of_some rfl rfl
  | pass hclear hexec hm hr honward ih => exact ih

/-- Going on from a segment that has begun reports it, and then all others that begin. -/
theorem Onward.passes {next : Option Nat} (h : Onward next p es p')
    (hp : p.ring.Attended good held q next) (hclear : p.stop.isActive = false)
    (hflush : q.flush = false) :
    ∃ gone, q.Passes gone p'.ring.toFifo ∧
      es.filterMap Event.starts? =
        (next.map p.ring.segment).toList ++ gone.map Slot.segment := by
  induction h generalizing q with
  | rest => exact ⟨[], hp.holds.toFifo_eq ▸ .refl _, rfl⟩
  | discard hstop =>
    rw [hclear] at hstop
    cases hstop
  | @start p slot s hclear' hexec hm =>
    refine ⟨[], ?_, ?_⟩
    · change q.Passes [] p.ring.toFifo
      exact hp.holds.toFifo_eq ▸ .refl _
    · rw [Option.map_some, Ring.segment_of_executing hexec]
      rfl
  | @pass p p' slot s next r es hclear' hexec hm hr honward ih =>
    obtain ⟨next', r', q', -, -, hr', hattended, -⟩ := hp.release
    rw [hr] at hr'
    cases hr'
    obtain ⟨gone, hpasses, hgone⟩ := hp.passes_release hflush hr
    rw [hattended.holds.toFifo_eq] at hpasses
    obtain ⟨gone', hpasses', hes⟩ := ih hattended (by rw [stop_publishCompletion]; exact hclear)
      (hpasses.flush_eq.trans hflush)
    refine ⟨gone ++ gone', hpasses.trans hpasses', ?_⟩
    rw [List.filterMap_append, s.starts_completion, if_neg (Bool.eq_false_iff.mp hm), hes,
      List.map_append, hgone, Option.map_some, Ring.segment_of_executing hexec]
    rfl

/-- A tick of a traversal that has not been cut short. -/
theorem Stroke.passes {t : Traversal} {o : StepOutput} (h : p.Stroke t o es p')
    (hp : p.Orderly (fun s => s.load.Sound) held q) (hc : p.side.current = some t)
    (hclear : p.stop.isActive = false) (hflush : q.flush = false) (hu : p.side.Uncut) :
    p.Passes es p' ∧ p'.side.Uncut := by
  have huncut {t' : Traversal} (hturn : p.Turns t t') : t'.interrupted = false := by
    rw [hturn.interrupted_eq, hu t hc, not_isCutBy_of_clear hclear, Bool.or_false]
  cases h with
  | cancel hstop hint hdone =>
    rw [hclear] at hstop
    cases hstop
  | turn hturn => exact ⟨.of_ring rfl rfl, .of_some rfl (huncut hturn)⟩
  | @strike t' position hturn hpos hmore =>
    have hturned := huncut hturn
    exact ⟨.of_ring rfl rfl, .of_some (t := t'.stepEvent) rfl hturned⟩
  | cutShort hturn hpos hdone hint =>
    rw [huncut hturn] at hint
    cases hint
  | @last t' position s next r es p' hturn hpos hdone hint hexec hr honward =>
    refine ⟨?_, honward.uncut⟩
    have hattended := hp.attended
    rw [hc, Option.map_some, ← hturn.slot_eq] at hattended
    obtain ⟨next', r', q', -, -, hr', hattended', -⟩ := hattended.release
    rw [hr] at hr'
    cases hr'
    -- the segment that is over has been reported when it began
    have hmotion : s.hasMotion = true := by
      obtain ⟨s', hexec', htracks⟩ := hp.tracks hc
      rw [← hturn.slot_eq, hexec] at hexec'
      cases hexec'
      exact htracks.hasMotion
    obtain ⟨gone, hpasses, hgone⟩ := hattended.passes_release hflush hr
    rw [hattended'.holds.toFifo_eq] at hpasses
    obtain ⟨gone', hpasses', hes⟩ := honward.passes hattended'
      (by rw [stop_publishCompletion]; exact hclear) (hpasses.flush_eq.trans hflush)
    refine ⟨gone ++ gone', ?_, ?_⟩
    · rw [hp.attended.holds.toFifo_eq]
      exact hpasses.trans hpasses'
    · rw [List.filterMap_append, s.starts_completion, if_pos hmotion, hes, List.map_append, hgone]
      rfl

theorem Ticks.passes {o : StepOutput} (h : p.Ticks o es p')
    (hp : p.Orderly (fun s => s.load.Sound) held q) (hclear : p.stop.isActive = false)
    (hflush : q.flush = false) (hu : p.side.Uncut) : p.Passes es p' ∧ p'.side.Uncut := by
  -- with nothing to execute, a tick goes on from the segment that it takes
  have hready {ready : Plant n Stepper} {es : List Event} (hc : p.side.current = none)
      (honward : Onward p.ring.taken.1 { p with ring := p.ring.taken.2 } es ready) :
      p.Passes es ready ∧ ready.ring.toFifo.flush = false ∧
        ∃ q', ready.Orderly (fun s => s.load.Sound) held q' := by
    have hattended := hp.attended
    rw [hc] at hattended
    obtain ⟨q₁, hattended₁, -⟩ := hattended.taken
    obtain ⟨gone, hpasses, hgone⟩ := hattended.passes_taken
    rw [hattended₁.holds.toFifo_eq] at hpasses
    obtain ⟨gone', hpasses', hes⟩ :=
      honward.passes hattended₁ hclear (hpasses.flush_eq.trans hflush)
    have hall := hpasses.trans hpasses'
    refine ⟨⟨gone ++ gone', ?_, ?_⟩, hall.flush_eq.trans hflush, honward.orderly hattended₁⟩
    · rw [hp.attended.holds.toFifo_eq]
      exact hall
    · rw [hes, List.map_append, hgone]
  cases h with
  | busy hc hstroke => exact hstroke.passes hp hc hclear hflush hu
  | still hc hstop =>
    rw [hclear] at hstop
    cases hstop
  | rest hc hclear' honward hnone => exact ⟨(hready hc honward).1, .of_none hnone⟩
  | begins hc hclear' honward ht hsame hstroke =>
    obtain ⟨hpasses, hflush', q', hq'⟩ := hready hc honward
    obtain ⟨hpasses', huncut⟩ := hstroke.passes hq' ht (honward.stop_eq ▸ hclear)
      (hq'.attended.holds.toFifo_eq ▸ hflush') honward.uncut
    exact ⟨hpasses.trans hpasses', huncut⟩

end Plant

end MotionControl
