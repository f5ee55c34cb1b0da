import MotionControl.Proofs.Motion.Errands
import MotionControl.Proofs.Motion.Runs
import MotionControl.Proofs.Motion.Watch

/-!
# One group for each segment

What an observer sees of a segment is a `Segment.Group`: nothing if it is dropped before its turn,
its commands and its end if it has no motion, and otherwise its begin, its pulses, its commands and
its end, of which the last two are missing if it has been cancelled. `Segment.Groups` are the groups
of some segments, one behind the other.

`Plant.Accounts` says that what is seen between two plants consists of the groups of the segments
that leave the queue meanwhile, as far as the group of the segment under execution was not seen
before and is not left open. Every beat accounts for what it does, whatever the stop mask is, and
the main loop cannot interfere. So at every moment after one with nothing pending, all that has been
seen since is one group for each segment that is over, in the order of publication, and an open one
for the segment under execution (`Moment.After.chronicled`).
-/

namespace MotionControl

variable {n : Nat} {good : Segment → Prop} {lowers : Prop}

/-! ## What is seen of a segment -/

/-- Whether a happening belongs to a segment: changes of the speed and new work do not. -/
def Happening.isNews : Happening → Bool
  | .event (.speedChanged ..) | .event .wokeUp => false
  | _ => true

/-- The happenings that belong to segments. -/
def news (hs : List Happening) : List Happening := hs.filter Happening.isNews

@[simp] theorem news_append (hs hs' : List Happening) : news (hs ++ hs') = news hs ++ news hs' :=
  List.filter_append hs hs'

@[simp] theorem news_completion (s : Segment) :
    news (s.completion.map .event) = s.completion.map .event := by
  refine List.filter_eq_self.mpr fun h hh => ?_
  obtain ⟨e, he, rfl⟩ := List.mem_map.mp hh
  rcases List.mem_append.mp he with he | he
  · obtain ⟨c, -, rfl⟩ := List.mem_map.mp he
    rfl
  · rw [List.mem_singleton.mp he]
    rfl

namespace StepOutput

/-- The output itself, if an observer sees it. -/
def seen (o : StepOutput) : List StepOutput := if o.hasSteps then [o] else []

theorem news_happenings (o : StepOutput) : news o.happenings = o.seen.map .pulse := by
  unfold happenings seen
  split <;> rfl

theorem directions_of_mem_seen {o o' : StepOutput} (h : o' ∈ o.seen) :
    o'.directions = o.directions := by
  unfold seen at h
  split at h
  · rw [List.mem_singleton.mp h]
  · cases h

end StepOutput

/-- An output that nobody sees makes no step. -/
theorem pulses_seen (a : Axis) (os : List StepOutput) (o : StepOutput) :
    pulses a (os ++ o.seen) = pulses a (os ++ [o]) := by
  unfold StepOutput.seen
  split
  · rfl
  · next hsteps =>
    have hmask : o.step = 0 := by simpa [StepOutput.hasSteps] using hsteps
    have hnone : a.isIn o.step = false := by
      rw [hmask]
      cases a <;> rfl
    rw [pulses_append, pulses_append, pulses_singleton, hnone]
    rfl

namespace Segment

/-- A segment begins, and the step lines are pulsed. -/
def opening (s : Segment) (os : List StepOutput) : List Happening :=
  .event (.began s) :: os.map .pulse

/-- All that is seen of a segment until it is over. -/
inductive Group (s : Segment) : List Happening → Prop
  | dropped : Group s []
  | passed (hm : s.hasMotion = false) : Group s (s.completion.map .event)
  | cancelled {os : List StepOutput} (hm : s.hasMotion = true)
      (hdirections : ∀ o ∈ os, o.directions = s.directions)
      (hpulses : ∀ a, pulses a os ≤ (s.steps.get a).toNat) : Group s (s.opening os)
  | completed {os : List StepOutput} (hm : s.hasMotion = true)
      (hdirections : ∀ o ∈ os, o.directions = s.directions)
      (hpulses : ∀ a, pulses a os = (s.steps.get a).toNat) :
      Group s (s.opening os ++ s.completion.map .event)

/-- One group for each of some segments, in their order. -/
inductive Groups : List Segment → List Happening → Prop
  | nil : Groups [] []
  | cons {s : Segment} {ss : List Segment} {hs hs' : List Happening} (first : s.Group hs)
      (rest : Groups ss hs') : Groups (s :: ss) (hs ++ hs')

theorem Groups.dropped (ss : List Segment) : Groups ss [] := by
  induction ss with
  | nil => exact .nil
  | cons s ss ih => exact .cons .dropped ih

theorem Groups.append {ss ss' : List Segment} {hs hs' : List Happening} (h : Groups ss hs)
    (h' : Groups ss' hs') : Groups (ss ++ ss') (hs ++ hs') := by
  induction h with
  | nil => exact h'
  | cons first rest ih =>
    rw [List.append_assoc]
    exact .cons first ih

/-- A segment whose group is open. -/
structure Underway (s : Segment) (t : Traversal) (os : List StepOutput) : Prop where
  /-- it moves something -/
  hasMotion : s.hasMotion = true
  /-- it is executed in its own directions -/
  directions_eq : t.directions = s.directions
  /-- all pulses went there -/
  pulsed : ∀ o ∈ os, o.directions = s.directions
  /-- the steps made and those left are not more than it has -/
  pulses_le : ∀ a, pulses a os + (t.remaining.get a).toNat ≤ (s.steps.get a).toNat
  /-- and not less, unless a stop has cut some off -/
  pulses_eq : t.interrupted = false →
    ∀ a, pulses a os + (t.remaining.get a).toNat = (s.steps.get a).toNat

namespace Underway

variable {s : Segment} {t t' : Traversal} {os : List StepOutput}

theorem ofSegment (slot : Nat) {s : Segment} (hm : s.hasMotion = true) :
    s.Underway (.ofSegment slot s) [] where
  hasMotion := hm
  directions_eq := rfl
  pulsed o ho := by cases ho
  pulses_le a := Nat.le_of_eq (Nat.zero_add _)
  pulses_eq _ a := Nat.zero_add _

theorem sameCourse (h : s.Underway t os) (ht : t.SameCourse t') : s.Underway t' os := by
  rw [ht]
  exact ⟨h.hasMotion, h.directions_eq, h.pulsed, h.pulses_le, h.pulses_eq⟩

theorem turn {p : Plant n Stepper} (h : s.Underway t os) (hturn : p.Turns t t') :
    s.Underway t' os where
  hasMotion := h.hasMotion
  directions_eq := by
    rw [hturn.course]
    exact h.directions_eq
  pulsed := h.pulsed
  pulses_le a := by
    have hle := h.pulses_le a
    rw [hturn.remaining_eq]
    split
    · exact Nat.le_trans (Nat.add_le_add_left (Nat.zero_le _) _) hle
    · exact hle
  pulses_eq hint a := by
    rw [hturn.interrupted_eq, Bool.or_eq_false_iff] at hint
    have hremaining : t'.remaining = t.remaining := by rw [hturn.sameCourse hint.2]
    rw [hremaining]
    exact h.pulses_eq hint.1 a

theorem stepEvent (h : s.Underway t os) :
    s.Underway t.stepEvent (os ++ StepOutput.seen ⟨t.nextMask, t.directions⟩) where
  hasMotion := h.hasMotion
  directions_eq := h.directions_eq
  pulsed o ho := by
    rcases List.mem_append.mp ho with ho | ho
    · exact h.pulsed o ho
    · exact (StepOutput.directions_of_mem_seen ho).trans h.directions_eq
  pulses_le a := by
    rw [pulses_seen, pulses_stepEvent]
    exact h.pulses_le a
  pulses_eq hint a := by
    rw [pulses_seen, pulses_stepEvent]
    exact h.pulses_eq hint a

theorem group_cancelled (h : s.Underway t os) : s.Group (s.opening os) :=
  .cancelled h.hasMotion h.pulsed fun a => Nat.le_trans (Nat.le_add_right _ _) (h.pulses_le a)

theorem group_completed (h : s.Underway t os) (hint : t.interrupted = false)
    (hover : ∀ a, t.remaining.get a = 0) : s.Group (s.opening os ++ s.completion.map .event) := by
  refine .completed h.hasMotion h.pulsed fun a => ?_
  rw [← h.pulses_eq hint a, hover a]
  rfl

end Underway

theorem opening_append (s : Segment) (os os' : List StepOutput) :
    s.opening (os ++ os') = s.opening os ++ os'.map .pulse := by
  rw [opening, List.map_append]
  rfl

end Segment

/-! ## Accounts -/

namespace Plant

/-- What has been seen so far of the segment under execution, if there is one. -/
inductive Opened (p : Plant n Stepper) : List Happening → Prop
  | rest (hc : p.side.current = none) : Opened p []
  | busy {t : Traversal} {s : Segment} {os : List StepOutput} (hc : p.side.current = some t)
      (hexec : p.ring.executing t.slot = .ok s) (hs : s.Underway t os) : Opened p (s.opening os)

/-- What is seen between two plants are the groups of the segments that leave the queue meanwhile,
apart from what has been seen before of the first one, and with what is seen of the one under
execution in the end. -/
def Accounts (p : Plant n Stepper) (hs : List Happening) (p' : Plant n Stepper) : Prop :=
  ∀ before, p.Opened before → ∃ gone told after, p.ring.queued = gone ++ p'.ring.queued ∧
    Segment.Groups gone told ∧ before ++ news hs = told ++ after ∧ p'.Opened after

theorem Opened.congr {p p' : Plant n Stepper} {hs : List Happening} (h : p.Opened hs)
    (hring : p'.ring = p.ring) (hc : p'.side.current = p.side.current) : p'.Opened hs := by
  cases h with
  | rest hnone => exact .rest (hc.trans hnone)
  | busy hsome hexec hs => exact .busy (hc.trans hsome) (by rw [hring]; exact hexec) hs

/-- The main loop does not touch the segment under execution. -/
theorem Opened.work {p : Plant n Stepper} {held held' : List Nat} {q : Fifo} {r : Ring n}
    {hs : List Happening} (h : p.Opened hs) (hp : p.Orderly good held q)
    (hw : Ring.Work good held p.ring held' r) : Opened { p with ring := r } hs := by
  cases h with
  | rest hc => exact .rest hc
  | @busy t s os hc hexec hs =>
    obtain ⟨q', hr', hfirst⟩ := hp.attended.work hw
    have hattended := hp.attended
    rw [hc, Option.map_some] at hattended hr'
    obtain ⟨s₁, rest, hq, hexec₁⟩ := hattended.executing
    obtain ⟨s₂, rest', hq', hexec₂⟩ := hr'.executing
    have hsame := hfirst hattended.begun_eq
    rw [hq, hq'] at hsame
    cases hsame
    rw [hexec] at hexec₁
    cases hexec₁
    exact .busy hc hexec₂ hs

namespace Accounts

variable {p p₁ p₂ : Plant n Stepper} {hs hs' : List Happening}

theorem of_opened (hring : p₁.ring = p.ring)
    (hopened : ∀ before, p.Opened before → p₁.Opened (before ++ news hs)) :
    p.Accounts hs p₁ :=
  fun before hbefore => ⟨[], [], _, by rw [hring]; rfl, .nil, rfl, hopened before hbefore⟩

theorem refl (p : Plant n Stepper) : p.Accounts [] p :=
  .of_opened rfl fun before hbefore => by rwa [news, List.filter_nil, List.append_nil]

theorem trans (h : p.Accounts hs p₁) (h' : p₁.Accounts hs' p₂) : p.Accounts (hs ++ hs') p₂ := by
  intro before hbefore
  obtain ⟨gone, told, after, hqueued, hgroups, hseen, hafter⟩ := h before hbefore
  obtain ⟨gone', told', after', hqueued', hgroups', hseen', hafter'⟩ := h' after hafter
  refine ⟨gone ++ gone', told ++ told', after', ?_, hgroups.append hgroups', ?_, hafter'⟩
  · rw [hqueued, hqueued', List.append_assoc]
  · rw [news_append, ← List.append_assoc, hseen, List.append_assoc, hseen', List.append_assoc]

end Accounts

/-- Going on from a segment that has begun. -/
theorem Onward.accounts {next : Option Nat} {p p' : Plant n Stepper} {es : List Event}
    (h : Onward next p es p') {held : List Nat} {q : Fifo}
    (hr : p.ring.Attended good held q next) : ∃ gone told after,
      p.ring.queued = gone ++ p'.ring.queued ∧ Segment.Groups gone told ∧
      news (es.map .event) = told ++ after ∧ p'.Opened after := by
  induction h generalizing q with
  | rest => exact ⟨[], [], [], rfl, .nil, rfl, .rest rfl⟩
  | @discard p slot hstop =>
    refine ⟨p.ring.queued, [], [], ?_, .dropped _, rfl, .rest rfl⟩
    rw [cancel, abort, Ring.queued_abort, List.append_nil]
  | @start p slot s hclear hexec hm =>
    obtain ⟨t, ht, hcourse⟩ : ∃ t, (p.execute slot s).side.current = some t ∧
        (Traversal.ofSegment slot s).SameCourse t := ⟨_, rfl, rfl⟩
    have hslot : t.slot = slot := by
      rw [hcourse]
      rfl
    refine ⟨[], [], s.opening [], rfl, .nil, rfl, .busy ht ?_ ?_⟩
    · rw [hslot]
      exact hexec
    · exact (Segment.Underway.ofSegment slot hm).sameCourse hcourse
  | @pass p p' slot s next r es hclear hexec hm hrelease honward ih =>
    obtain ⟨next', r', q', s', skipped, hrelease', hr', hexec', hqueued⟩ := hr.release
    rw [hrelease] at hrelease'
    cases hrelease'
    rw [hexec] at hexec'
    cases hexec'
    obtain ⟨gone, told, after, hgone, hgroups, hseen, hafter⟩ := ih hr'
    change r.queued = gone ++ p'.ring.queued at hgone
    refine ⟨s :: (skipped ++ gone), s.completion.map .event ++ ([] ++ told), after, ?_, ?_, ?_,
      hafter⟩
    · rw [hr.holds.queued_eq, hqueued, ← hr'.holds.queued_eq, hgone, List.cons_append,
        List.append_assoc]
    -- what is skipped has no part in it
    · exact .cons (.passed hm) ((Segment.Groups.dropped skipped).append hgroups)
    · rw [List.map_append, news_append, news_completion, hseen]
      simp

theorem Orderly.queued_of_executing {p : Plant n Stepper} {held : List Nat} {q : Fifo}
    (hp : p.Orderly good held q) {t : Traversal} (hc : p.side.current = some t) {s : Segment}
    (hexec : p.ring.executing t.slot = .ok s) : ∃ rest, p.ring.queued = s :: rest := by
  have hr := hp.attended
  rw [hc, Option.map_some] at hr
  obtain ⟨s', rest, hq, hexec'⟩ := hr.executing
  rw [hexec] at hexec'
  cases hexec'
  exact ⟨rest.map Slot.segment, by rw [hr.holds.queued_eq, Fifo.queued, hq, List.map_cons]⟩

/-- Whatever a tick does to a traversal. -/
theorem Stroke.accounts {p p' : Plant n Stepper} {t : Traversal} {o : StepOutput}
    {es : List Event} (h : p.Stroke t o es p') {held : List Nat} {q : Fifo}
    (hp : p.Orderly good held q) (hc : p.side.current = some t)
    (htracks : ∀ s, p.ring.executing t.slot = .ok s → t.Tracks s.load) :
    p.Accounts (o.happenings ++ es.map .event) p' := by
  intro before hbefore
  cases hbefore with
  | rest hnone =>
    rw [hc] at hnone
    cases hnone
  | @busy t₁ s os hc₁ hexec hs =>
    rw [hc] at hc₁
    cases hc₁
    obtain ⟨rest, hqueued⟩ := hp.queued_of_executing hc hexec
    have hidle : s.opening os ++ news (StepOutput.idle.happenings ++ ([] : List Event).map .event) =
        s.opening os := List.append_nil _
    have hstruck : ∀ (t' : Traversal) (es : List Event), s.opening os ++
        news (StepOutput.happenings ⟨t'.nextMask, t'.directions⟩ ++ es.map .event) =
          s.opening (os ++ StepOutput.seen ⟨t'.nextMask, t'.directions⟩) ++
            news (es.map .event) := by
      intro t' es
      rw [news_append, StepOutput.news_happenings, Segment.opening_append, List.append_assoc]
    have hempty : ∀ hs : List Happening, hs ++ news (([] : List Event).map .event) = hs :=
      List.append_nil
    -- a segment that is cancelled takes all behind it along
    have hcancel : ∀ {os' : List StepOutput}, s.Group (s.opening os') → ∀ p₁ : Plant n Stepper,
        p₁.ring = p.ring → ∃ gone told after, p.ring.queued = gone ++ p₁.cancel.ring.queued ∧
          Segment.Groups gone told ∧ s.opening os' = told ++ after ∧ p₁.cancel.Opened after := by
      intro os' hgroup p₁ hring
      refine ⟨s :: rest, s.opening os' ++ [], [], ?_, .cons hgroup (.dropped rest), ?_, .rest rfl⟩
      · rw [Plant.cancel, Plant.abort, Ring.queued_abort, List.append_nil, hqueued]
      · rw [List.append_nil, List.append_nil]
    cases h with
    | cancel hstop hint hdone =>
      rw [hidle]
      exact hcancel hs.group_cancelled p rfl
    | @turn t' hturn =>
      refine ⟨[], [], _, rfl, .nil, hidle, .busy rfl ?_ (hs.turn hturn)⟩
      rw [hturn.slot_eq]
      exact hexec
    | @strike t' position hturn hpos hmore =>
      refine ⟨[], [], _, rfl, .nil, (hstruck t' []).trans (hempty _),
        .busy rfl ?_ (hs.turn hturn).stepEvent⟩
      exact (congrArg p.ring.executing hturn.slot_eq).trans hexec
    | @cutShort t' position hturn hpos hdone hint =>
      rw [hstruck, hempty]
      exact hcancel (hs.turn hturn).stepEvent.group_cancelled (p.struck position t'.stepEvent) rfl
    | @last t' position s' next r es p' hturn hpos hdone hint hexec' hrelease honward =>
      have hr := hp.attended
      rw [hc, Option.map_some, ← hturn.slot_eq] at hr
      obtain ⟨next', r', q', s'', skipped, hrelease', hr', hexec'', hleft⟩ := hr.release
      rw [hrelease] at hrelease'
      cases hrelease'
      rw [hturn.slot_eq, hexec] at hexec' hexec''
      cases hexec'
      cases hexec''
      obtain ⟨gone, told, after, hgone, hgroups, hseen, hafter⟩ := honward.accounts hr'
      change r.queued = gone ++ p'.ring.queued at hgone
      have htrack := hturn.tracks (htracks s hexec)
      have hgroup := (hs.turn hturn).stepEvent.group_completed hint fun a =>
        (htrack.carries.stepEvent htrack.unfinished).remaining_eq_zero hdone a
      refine ⟨s :: (skipped ++ gone), _ ++ ([] ++ told), after, ?_,
        .cons hgroup ((Segment.Groups.dropped skipped).append hgroups), ?_, hafter⟩
      · rw [hr.holds.queued_eq, hleft, ← hr'.holds.queued_eq, hgone, List.cons_append,
          List.append_assoc]
      · rw [hstruck, List.map_append, news_append, news_completion, hseen]
        simp

/-! ## Beats -/

/-- With nothing to execute, a tick first begins what is next, unless a stop is latched. -/
theorem Orderly.prepare {p : Plant n Stepper} {held : List Nat} {q : Fifo}
    (h : p.Orderly good held q) : ∃ ready es q', p.prepare = .ok ready ∧
      ready.Orderly good held q' ∧ ready.events.toList = p.events.toList ++ es ∧
      p.Accounts (es.map .event) ready := by
  unfold Plant.prepare
  cases hc : p.side.current with
  | some t => exact ⟨p, [], q, rfl, h, (List.append_nil _).symm, .refl p⟩
  | none =>
    have hattended := h.attended
    rw [hc, Option.map_none] at hattended
    dsimp only
    by_cases hstop : p.stop.isActive = true
    · rw [if_pos hstop]
      split
      · refine ⟨_, [], q.abort, rfl, .ofRest hattended.abort hc, (List.append_nil _).symm, ?_⟩
        intro before hbefore
        cases hbefore with
        | rest =>
          refine ⟨p.ring.queued, [], [], ?_, .dropped _, rfl, .rest hc⟩
          rw [abort, Ring.queued_abort, List.append_nil]
        | busy hsome =>
          rw [hc] at hsome
          cases hsome
      · exact ⟨p, [], q, rfl, h, (List.append_nil _).symm, .refl p⟩
    · rw [if_neg hstop, beginNext_eq_advance]
      obtain ⟨q₁, htaken, hqueued⟩ := hattended.taken
      have hpoised : ({ p with ring := p.ring.taken.2 } : Plant n Stepper).Poised held q₁
          p.ring.taken.1 := ⟨htaken.holds, htaken.begun_eq, htaken.slot_eq⟩
      obtain ⟨ready, es, hready, honward⟩ := hpoised.onward
      obtain ⟨q₂, hq₂⟩ := honward.orderly htaken
      refine ⟨ready, es, q₂, hready, hq₂, honward.events_eq, fun before hbefore => ?_⟩
      obtain ⟨gone, told, after, hgone, hgroups, hseen, hafter⟩ := honward.accounts htaken
      refine ⟨gone, told, after, ?_, hgroups, ?_, hafter⟩
      · rw [h.attended.holds.queued_eq, ← hqueued, ← htaken.holds.queued_eq]
        exact hgone
      · cases hbefore with
        | rest => exact hseen
        | busy hsome =>
          rw [hc] at hsome
          cases hsome

theorem Accounts.rampTick (p : Plant n Stepper) : ∃ es, p.Accounts (es.map .event) p.rampTick ∧
    p.rampTick.events.toList = p.events.toList ++ es := by
  unfold Plant.rampTick
  cases hc : p.side.current with
  | none => exact ⟨[], .refl p, (List.append_nil _).symm⟩
  | some t =>
    dsimp only
    split
    · exact ⟨[], .refl p, (List.append_nil _).symm⟩
    · refine ⟨[_], .of_opened rfl fun before hbefore => ?_, Array.toList_push⟩
      cases hbefore with
      | rest hnone =>
        rw [hc] at hnone
        cases hnone
      | @busy t₁ s os hc₁ hexec hs =>
        rw [hc] at hc₁
        cases hc₁
        -- the traversal is the same at another speed
        have hquiet : s.opening os ++ news (([.speedChanged (Single.ceilCount (p.side.nextRate t))
            t.nominalRate] : List Event).map .event) = s.opening os := List.append_nil _
        rw [hquiet]
        exact .busy rfl hexec (hs.sameCourse rfl)

section

variable {p p' : Plant n Scribe} {held : List Nat}

theorem Reachable.accounts_recordTick (h : Reachable (fun s => s.load.Sound) held p.strip)
    (hcounted : p.Counted) (hok : p.recordTick = .ok p') :
    ∃ hs, p'.Counted ∧ p'.log = p.log ++ hs ∧ p.strip.Accounts hs p'.strip := by
  obtain ⟨q, hq⟩ := h.orderly
  obtain ⟨ready, es, q', hready, hq', hevents, haccounts⟩ := hq.prepare
  have htick : p.strip.tick = ready.side.current.elim (.ok (.idle, ready)) ready.traverse := by
    rw [tick_eq_prepare, hready]
    cases hc : ready.side.current <;> simp only [bind, Except.bind, hc] <;> rfl
  unfold recordTick at hok
  rw [hready, htick] at hok
  cases hc : ready.side.current with
  | none =>
    rw [hc] at hok
    cases hok
    have hnothing : ready.events.toList = p.strip.events.toList ++ (es ++ []) := by
      rw [List.append_nil]
      exact hevents
    obtain ⟨hcounted', hlog⟩ := log_note (o := .idle) hcounted hevents hnothing
    refine ⟨_, hcounted', hlog, ?_⟩
    rw [strip_dress_note]
    have hseen : es.map Happening.event ++ StepOutput.idle.happenings ++
        ([] : List Event).map .event = es.map .event := by
      rw [show StepOutput.idle.happenings = [] from rfl, List.map_nil, List.append_nil,
        List.append_nil]
    rw [hseen]
    exact haccounts
  | some t =>
    rw [hc] at hok
    obtain ⟨o, es', p₁, htraverse, hstroke⟩ | ⟨herr, -⟩ := hq'.coupled.stroke hc
    · dsimp only [bind, Except.bind, Option.elim] at hok
      rw [htraverse] at hok
      cases hok
      obtain ⟨s, hexec, htracks⟩ := hq'.tracks hc
      have hall : p₁.events.toList = p.strip.events.toList ++ (es ++ es') := by
        rw [hstroke.events_eq, hevents, List.append_assoc]
      obtain ⟨hcounted', hlog⟩ := log_note (o := o) hcounted hevents hall
      refine ⟨_, hcounted', hlog, ?_⟩
      rw [strip_dress_note, List.append_assoc]
      refine haccounts.trans (hstroke.accounts hq' hc fun s' hexec' => ?_)
      rw [hexec] at hexec'
      cases hexec'
      exact htracks
    · dsimp only [bind, Except.bind, Option.elim] at hok
      rw [herr] at hok
      cases hok

/-- Every beat accounts for what it does. -/
theorem Reachable.accounts_beat (h : Reachable (fun s => s.load.Sound) held p.strip)
    (hcounted : p.Counted) {b : Beat} (hok : p.beat b = .ok p') :
    ∃ hs, p'.Counted ∧ p'.log = p.log ++ hs ∧ p.strip.Accounts hs p'.strip := by
  have hstill : ∀ stop : StopMask, p.strip.Accounts [] { p with stop := stop }.strip := by
    refine fun stop => .of_opened rfl fun before hbefore => ?_
    rw [show news [] = [] from rfl, List.append_nil]
    exact hbefore.congr rfl rfl
  cases b with
  | step => exact h.accounts_recordTick hcounted hok
  | ramp =>
    cases hok
    obtain ⟨es, haccounts, hevents⟩ := Accounts.rampTick p.strip
    obtain ⟨hcounted', hlog⟩ := log_of_events hcounted p.recordRamp hevents rfl rfl
    exact ⟨_, hcounted', hlog, haccounts⟩
  | trigger i =>
    cases hok
    exact ⟨[], hcounted, (List.append_nil _).symm, hstill _⟩
  | rearm =>
    cases hok
    exact ⟨[], hcounted, (List.append_nil _).symm, hstill _⟩

end

end Plant

/-! ## From one moment to another -/

namespace Moment

/-- All that has been seen since some moment consists of one group for each segment that is over by
now and an open one for the segment under execution, in the order of publication. -/
structure Chronicled (before : List Happening) (m : Moment n) : Prop where
  /-- the record is one of this plant -/
  counted : m.plant.Counted
  /-- whatever has been published is over or still in the queue -/
  published_eq : m.past.published = m.past.gone.length + m.plant.ring.pending
  /-- the groups are all that has been seen -/
  grouped : ∃ told after, news m.plant.log = before ++ (told ++ after) ∧
    Segment.Groups m.past.gone told ∧ m.plant.strip.Opened after

variable {m₀ m m' : Moment n} {before : List Happening}

theorem Chronicled.start (m : Moment n) (hcounted : m.plant.Counted)
    (hc : m.plant.side.stepper.current = none) (hpending : m.plant.ring.hasPending = false)
    (hpast : m.past = ⟨0, []⟩) : m.Chronicled (news m.plant.log) := by
  have hzero : m.plant.ring.pending = 0 := by
    simpa [Ring.hasPending] using hpending
  refine ⟨hcounted, ?_, [], [], (List.append_nil _).symm, ?_, .rest hc⟩
  · rw [hpast, hzero]
    rfl
  · rw [hpast]
    exact .nil

/-- What the main loop does to anything but the queue is not seen. -/
theorem Chronicled.congr (h : m.Chronicled before) (hring : m'.plant.ring = m.plant.ring)
    (hc : m'.plant.side.stepper.current = m.plant.side.stepper.current)
    (hcounted : m'.plant.Counted) (hnews : news m'.plant.log = news m.plant.log)
    (hpast : m'.past = m.past) : m'.Chronicled before := by
  obtain ⟨told, after, hseen, hgroups, hopened⟩ := h.grouped
  refine ⟨hcounted, ?_, told, after, hnews.trans hseen, ?_, hopened.congr hring hc⟩
  · rw [hpast, hring]
    exact h.published_eq
  · rw [hpast]
    exact hgroups

theorem Deed.chronicled (hd : Deed (fun s => s.load.Sound) lowers m m')
    (h : Plant.Reachable (fun s => s.load.Sound) m.held m.plant.strip)
    (hm : m.Chronicled before) : m'.Chronicled before := by
  obtain ⟨q, hq⟩ := h.orderly
  obtain ⟨told, after, hseen, hgroups, hopened⟩ := hm.grouped
  cases hd with
  | @publish r hactive hr =>
    refine ⟨hm.counted, ?_, told, after, hseen, hgroups, hopened.work hq (.publish hr)⟩
    have hpending : r.pending = m.plant.ring.pending + 1 := hq.attended.holds.pending_publish hr
    change m.past.published + 1 = m.past.gone.length + r.pending
    rw [hm.published_eq, hpending, Nat.add_assoc]
  | run hactive hr =>
    exact ⟨hm.counted, hm.published_eq, told, after, hseen, hgroups, hopened.work hq (.run hr)⟩
  | @work held r hw hstill =>
    refine ⟨hm.counted, ?_, told, after, hseen, hgroups, hopened.work hq hw⟩
    change m.past.published = m.past.gone.length + r.pending
    rw [hstill.pending_eq, hm.published_eq]
  | wakeUp =>
    obtain ⟨hcounted, hlog⟩ :=
      Plant.log_of_events hm.counted (m.plant.publish .wokeUp) Array.toList_push rfl rfl
    refine hm.congr rfl rfl hcounted ?_ rfl
    rw [hlog, news_append]
    exact List.append_nil _
  | halt => exact hm.congr rfl rfl hm.counted rfl rfl
  | clearHalt hlowers => exact hm.congr rfl rfl hm.counted rfl rfl
  | setPosition position => exact hm.congr rfl rfl hm.counted rfl rfl
  | @beat b p hb hlowers =>
    obtain ⟨hs, hcounted, hlog, haccounts⟩ := h.accounts_beat hm.counted hb
    obtain ⟨gone, told', after', hgone, hgroups', hnews, hopened'⟩ := haccounts after hopened
    have hdeparted : m.plant.ring.departed p.ring = gone := Ring.departed_of_append hgone
    refine ⟨hcounted, ?_, told ++ told', after', ?_, ?_, hopened'⟩
    · have hlength := congrArg List.length hgone
      rw [List.length_append] at hlength
      change m.plant.ring.queued.length = gone.length + p.ring.queued.length at hlength
      rw [Ring.length_queued, Ring.length_queued] at hlength
      change m.past.published =
        (m.past.gone ++ m.plant.ring.departed p.ring).length + p.ring.pending
      rw [hdeparted, List.length_append, hm.published_eq, hlength, Nat.add_assoc]
    · rw [hlog, news_append, hseen, List.append_assoc, List.append_assoc, hnews, List.append_assoc]
    · change Segment.Groups (m.past.gone ++ m.plant.ring.departed p.ring) (told ++ told')
      rw [hdeparted]
      exact hgroups.append hgroups'

/-- With nothing pending and nothing under execution at first, everything is seen in groups. -/
theorem After.chronicled (h : After (fun s => s.load.Sound) lowers m₀ m)
    (h₀ : m₀.Chronicled before) : m.Chronicled before := by
  induction h with
  | start _ => exact h₀
  | deed h hdeed ih => exact hdeed.chronicled h.reachable ih

end Moment

/-! ## Whole runs -/

namespace Pipeline

/-- A plant is one that a pipeline may lead to, and all that has been seen on the way there is
grouped by segments. -/
def Tells (l : Pipeline n) (p : Plant n Scribe) : Prop :=
  ∃ m, Moment.After (fun s => s.load.Sound) True l.moment m ∧ m.plant = p ∧
    m.Chronicled (news l.plant.log)

theorem chronicled_ofRing {len : Nat} {ring : Ring n} (hring : Ring.new n len = .ok ring)
    {stepper : Stepper} (hidle : stepper.isBusy = false) (planner : Planner) :
    (ofRing ring stepper planner).moment.Chronicled
      (news (ofRing ring stepper planner).plant.log) := by
  have hnone : stepper.current = none := by simpa [Stepper.isBusy] using hidle
  have hcounted : (ofRing ring stepper planner).plant.Counted := Nat.le_refl 0
  have hdrained := (atRest_ofRing hring hidle planner).drained
  exact .start (ofRing ring stepper planner).moment hcounted hnone hdrained rfl

/-- With nothing pending at first, all that is seen is grouped by segments. -/
theorem tells_of_serves {l : Pipeline n} (h : l.Serves fun s => s.load.Sound)
    (hl : l.moment.Chronicled (news l.plant.log)) {es : List Errand}
    (hes : ∀ e ∈ es, e.Writes fun s => s.load.Sound) :
    Fault.Blameless (fun l' => l.Tells l'.plant) (l.errands (.of l.Tells) es) :=
  errands_of_after Segment.closed_sound (fun m hm => ⟨m, hm, rfl, hm.chronicled hl⟩)
    (fun e he => ⟨hes e he, fun _ => trivial⟩) h.follows

/-- Whatever is done to a pipeline with segments as the planner makes them, stops, halts and skipped
segments included, at every point of it all that has been seen is one group for each segment that is
over, in the order of publication, and an open one for the segment under execution. -/
theorem tells_of_errands {len : Nat} {ring : Ring n} (hring : Ring.new n len = .ok ring)
    {stepper : Stepper} (hidle : stepper.isBusy = false) (planner : Planner) {es : List Errand}
    (hes : ∀ e ∈ es, e.Writes fun s => s.load.Sound) :
    Fault.Blameless (fun l => (ofRing ring stepper planner).Tells l.plant)
      ((ofRing ring stepper planner).errands (.of (ofRing ring stepper planner).Tells) es) :=
  tells_of_serves (serves_ofRing hring hidle planner) (chronicled_ofRing hring hidle planner) hes

/-- A move with a command, a segment of commands alone, a move of which a stop takes all the steps
of an actuator, and one that is halted. -/
theorem tells_through_stops : ∃ (l : Pipeline 4) (es : List Errand),
    ((l.errands Audit.none es).toOption.map fun l' => l'.plant.strip.events.toList.map Event.kind) =
      some [.wokeUp, .began, .speedChanged, .ended, .commandDue, .ended, .began, .speedChanged,
        .wokeUp, .began, .speedChanged] ∧
    Fault.Blameless (fun l' => l.Tells l'.plant) (l.errands (.of l.Tells) es) := by
  obtain ⟨ring, hring, hnew⟩ : ∃ ring : Ring 4, ring = Ring.ofLen 3 (by decide) (by decide) ∧
      Ring.new 4 3 = .ok ring := ⟨_, rfl, rfl⟩
  refine ⟨.ofRing ring ⟨10, 10, none, .const 0⟩ (.ofTuning ⟨1000, 4, 0, 100⟩),
    [.call (.append ⟨⟨3, -1, 0⟩, 20, 1, .const 0⟩ [] [] []), .call .ensureRunning,
      .call (.beats [.step]), .call (.command ⟨"M106", by decide⟩ []),
      .call (.beats [.step, .ramp, .step]), .call .onMainLoop, .call (.beats [.step]),
      .write fun s => { s with steps := ⟨2, 0, 5⟩, eventCount := 5, initialRate := 10 },
      .queueHead [[.step], [.step]], .call .ensureRunning,
      .call (.beats [.step, .step, .trigger 2, .step, .rearm, .step]), .call .onIdle,
      .call .onIdle, .call (.append ⟨⟨9, -1, 0⟩, 20, 1, .const 0⟩ [] [] []), .call .ensureRunning,
      .call (.beats [.step, .step]), .call .halt, .call (.beats [.step]), .call .clearHalt],
    ?_, tells_of_errands hnew rfl _ ?_⟩
  · rw [hring]
    decide +kernel
  · -- only one of them writes a segment
    have hsound : ∀ d cs, Load.Sound ⟨⟨2, 0, 5⟩, 5, d, cs⟩ := fun _ _ => rfl
    simp [Errand.Writes, Segment.load, hsound]

end Pipeline

end MotionControl
