import MotionControl.Proofs.Motion.Errands
import MotionControl.Proofs.Motion.Watch
import MotionControl.Proofs.Motion.Pace

/-!
# Progress

A traversal makes progress as long as every tick of the step timer advances its phase, which is so
from some lower bound on the step rate on (`Stepper.Geared`).

From there on it is a matter of counting. Every tick adds to the time that the traversal has behind
it (`Traversal.clock`), and before the last event that is less than 65536 for each event, so that a
segment is over after as many ticks at most (`Plant.Pursues.keepsTime`). Below the bound a traversal
can stay where it is forever (`Plant.watch_of_stalled`).
-/

namespace MotionControl

variable {n : Nat}

/-- The way to the end of a traversal is in reach if its end is. -/
theorem Traversal.inWord_maskedStep (t : Traversal) {x : Int32} {a : Axis}
    (h : InWord (x.toInt + t.left a)) :
    InWord (x.toInt + Stepper.maskedStep t.nextMask t.directions a) := by
  have hx := inWord_toInt x
  have hbetween := t.maskedStep_between a
  unfold InWord at h hx ⊢
  omega

/-! ## Counting ticks -/

namespace Plant

variable {p p' : Plant n Stepper} {t : Traversal} {held : List Nat} {q : Fifo}

/-- A plant goes on without a stop, by some number of ticks of the step timer. The main loop may do
whatever it likes meanwhile, and the ramp timer may tick at any time. -/
inductive GoesOn (p₀ : Plant n Stepper) : Nat → Plant n Stepper → Prop
  | start : GoesOn p₀ 0 p₀
  | work {k : Nat} {p : Plant n Stepper} {held : List Nat} {r : Ring n} (h : GoesOn p₀ k p)
      (hw : Ring.Work (fun _ => True) p.ring.lockedSlots p.ring held r) :
      GoesOn p₀ k { p with ring := r }
  | wakeUp {k : Nat} {p : Plant n Stepper} (h : GoesOn p₀ k p) : GoesOn p₀ k (p.publish .wokeUp)
  | setPosition {k : Nat} {p : Plant n Stepper} (h : GoesOn p₀ k p) (position : PerAxis Int32) :
      GoesOn p₀ k { p with side := { p.side with position := position } }
  | rampTick {k : Nat} {p : Plant n Stepper} (h : GoesOn p₀ k p) : GoesOn p₀ k p.rampTick
  | tick {k : Nat} {p p' : Plant n Stepper} {o : StepOutput} (h : GoesOn p₀ k p)
      (htick : p.tick = .ok (o, p')) : GoesOn p₀ (k + 1) p'

/-- A tick reports a segment complete. -/
def ReportsEnd (p : Plant n Stepper) (s : Segment) (p' : Plant n Stepper) : Prop :=
  ∃ o es, p.tick = .ok (o, p') ∧ p'.events.toList = p.events.toList ++ s.completion ++ es

/-- A segment is under execution, and ticks go on with it unless it leads out of the word of a
position. -/
structure Executes (p : Plant n Stepper) (slot : Nat) (s : Segment) : Prop where
  /-- it is the segment in its slot -/
  executing_eq : p.ring.executing slot = .ok s
  /-- its traversal advances -/
  advances : ∃ t, p.side.current = some t ∧ t.slot = slot ∧ t.increment ≠ .zero ∧
    ((∃ o p', p.tick = .ok (o, p')) ∨ p.tick = .error .addOverflow ∧ p.OutOfReach t)

/-- A plant has gone on, and a segment has been reported complete by one of the first ticks, of
which there are 65536 for every step event. -/
def DoneInTime (p₀ : Plant n Stepper) (s : Segment) (k : Nat) (p : Plant n Stepper) : Prop :=
  ∃ j k' p₁ p₂, j < 65536 * s.eventCount.toNat ∧ k = j + 1 + k' ∧ p₀.GoesOn j p₁ ∧
    p₁.ReportsEnd s p₂ ∧ p₂.GoesOn k' p

/-- However a plant goes on without a stop, the segment that it executes is done in time. -/
def KeepsTime (p : Plant n Stepper) (slot : Nat) (s : Segment) : Prop :=
  ∀ k p', p.GoesOn k p' →
    k < 65536 * s.eventCount.toNat ∧ p'.Executes slot s ∨ p.DoneInTime s k p'

theorem GoesOn.trans {p₀ : Plant n Stepper} {k k' : Nat} (h : p₀.GoesOn k p)
    (h' : p.GoesOn k' p') : p₀.GoesOn (k + k') p' := by
  induction h' with
  | start => exact h
  | work h' hw ih => exact ih.work hw
  | wakeUp h' ih => exact ih.wakeUp
  | setPosition h' position ih => exact ih.setPosition position
  | rampTick h' ih => exact ih.rampTick
  | tick h' htick ih => exact ih.tick htick

/-- What is done stays done. -/
theorem DoneInTime.goesOn {p₀ : Plant n Stepper} {s : Segment} {k k' : Nat}
    (h : p₀.DoneInTime s k p) (hgoes : p.GoesOn k' p') : p₀.DoneInTime s (k + k') p' := by
  obtain ⟨j, k₂, p₁, p₂, hj, rfl, hgoes₁, hdone, hgoes₂⟩ := h
  exact ⟨j, k₂ + k', p₁, p₂, hj, by omega, hgoes₁, hdone, hgoes₂.trans hgoes⟩

/-- A segment is under execution, some ticks after it has begun, and no stop has come. -/
structure Pursues (p : Plant n Stepper) (slot : Nat) (s : Segment) (k : Nat) (t : Traversal)
    (q : Fifo) : Prop where
  /-- the phase moves with every tick -/
  paced : p.side.Paced
  /-- no stop is latched -/
  clear : p.stop.isActive = false
  /-- stepper and ring agree -/
  coupled : p.Coupled p.ring.lockedSlots q
  /-- the segment is at the front -/
  first_eq : q.pending.head? = some ⟨s, .executing⟩
  /-- there is a traversal -/
  current_eq : p.side.current = some t
  /-- it is the one of the segment -/
  slot_eq : t.slot = slot
  /-- its load is carried out, and something is left to do -/
  tracks : t.Tracks s.load
  /-- no stop has cut it -/
  uncut : t.interrupted = false
  /-- the ticks have brought it on -/
  le_clock : k ≤ t.clock

/-- The main loop's work on the ring leaves stepper and ring in agreement, and what has begun where
it is. -/
theorem Coupled.work {good : Segment → Prop} (h : p.Coupled held q) {held' : List Nat} {r : Ring n}
    (hw : Ring.Work good held p.ring held' r) :
    ∃ q', ({ p with ring := r } : Plant n Stepper).Coupled r.lockedSlots q' ∧
      (q.begun = true → q'.pending.head? = q.pending.head?) := by
  obtain ⟨q', hholds, hfront, hworked⟩ := h.holds.work hw
  have hlocked := hholds.held_eq
  subst hlocked
  refine ⟨q', ⟨hholds, ?_, ?_⟩, hworked.first_eq⟩
  · rw [hworked.begun_eq]
    exact h.begun_eq
  · rw [hfront]
    exact h.slot_eq

namespace Pursues

variable {slot : Nat} {s : Segment} {k : Nat}

/-- As long as anything is left to do, there have not been too many ticks. -/
theorem lt (h : p.Pursues slot s k t q) : k < 65536 * s.eventCount.toNat := by
  have hphase := (h.paced.advances t h.current_eq).phase_lt
  have hclock := h.le_clock
  obtain ⟨hdone, -⟩ := t.not_isComplete_iff.mp h.tracks.unfinished
  have hcount : t.eventCount = s.eventCount := h.tracks.carries.eventCount_eq
  rw [hcount] at hdone
  rw [Traversal.clock] at hclock
  omega

theorem executing_eq (h : p.Pursues slot s k t q) : p.ring.executing slot = .ok s := by
  obtain ⟨rest, hp⟩ := List.head?_eq_some_iff.mp h.first_eq
  rw [← h.slot_eq, h.coupled.slot_eq t h.current_eq]
  exact h.coupled.holds.executing_front hp

/-- As long as the ring is left alone, the traversal may go on. -/
theorem proceed (h : p.Pursues slot s k t q) {k' : Nat} {t' : Traversal} (hring : p'.ring = p.ring)
    (hstop : p'.stop = p.stop) (hpaced : p'.side.Paced) (hc : p'.side.current = some t')
    (hslot : t'.slot = t.slot) (huncut : t'.interrupted = t.interrupted)
    (htracks : t'.Tracks s.load) (hclock : k' ≤ t'.clock) : p'.Pursues slot s k' t' q where
  paced := hpaced
  clear := by rw [hstop]; exact h.clear
  coupled := by rw [hring]; exact h.coupled.proceed h.current_eq hring hc hslot
  first_eq := h.first_eq
  current_eq := hc
  slot_eq := hslot.trans h.slot_eq
  tracks := htracks
  uncut := huncut.trans h.uncut
  le_clock := hclock

theorem rampTick (h : p.Pursues slot s k t q) : ∃ t', p.rampTick.Pursues slot s k t' q := by
  have hpaced := paced_rampTick h.paced
  rw [rampTick_of_current h.current_eq] at hpaced ⊢
  split at hpaced <;> rename_i hrate
  · rw [if_pos hrate]
    exact ⟨t, h⟩
  · rw [if_neg hrate]
    exact ⟨_, h.proceed rfl rfl hpaced rfl rfl rfl (h.tracks.sameCourse rfl) h.le_clock⟩

theorem work (h : p.Pursues slot s k t q) {held : List Nat} {r : Ring n}
    (hw : Ring.Work (fun _ => True) p.ring.lockedSlots p.ring held r) :
    ∃ q', ({ p with ring := r } : Plant n Stepper).Pursues slot s k t q' := by
  obtain ⟨q', hcoupled, hfirst⟩ := h.coupled.work hw
  have hbegun := h.coupled.begun_of_busy h.current_eq
  exact ⟨q', h.paced, h.clear, hcoupled, (hfirst hbegun).trans h.first_eq, h.current_eq, h.slot_eq,
    h.tracks, h.uncut, h.le_clock⟩

/-- A tick goes on with the segment, or reports it complete, or leads out of the word of a
position. -/
theorem tick (h : p.Pursues slot s k t q) :
    (∃ o p' t', p.tick = .ok (o, p') ∧ p'.Pursues slot s (k + 1) t' q) ∨
    (∃ p', p.ReportsEnd s p') ∨ (p.tick = .error .addOverflow ∧ p.OutOfReach t) := by
  have ht := h.paced.advances t h.current_eq
  have hgeared := h.paced.geared
  have hle := h.le_clock
  have htick := tick_of_clear h.current_eq h.clear
  by_cases hdue : t.advancePhase.isDue = true
  · have hstrike := ht.strike hdue
    have hclock := ht.clock_strike hdue (Traversal.eventsDone_lt h.tracks.unfinished)
    have htracks : t.advancePhase.wrapPhase.Tracks s.load := h.tracks.sameCourse rfl
    rw [advancePhase, if_pos hdue] at htick
    obtain ⟨o, es, p', hok, hperforms⟩ | ⟨herr, a, ha⟩ := h.coupled.performs h.current_eq
      (show t.advancePhase.wrapPhase.slot = t.slot from rfl)
    · cases hperforms with
      | goesOn hpos hmore =>
        exact .inl ⟨_, _, _, htick.trans hok, h.proceed rfl rfl (.of_some hgeared rfl hstrike) rfl
          rfl rfl (htracks.stepEvent hmore) (by omega)⟩
      | cutShort hpos hdone hint =>
        rw [show t.advancePhase.wrapPhase.interrupted = t.interrupted from rfl, h.uncut] at hint
        cases hint
      | @last position s' next r es p' hpos hdone hint hexec hr honward =>
        obtain rfl : s = s' := by
          rw [show t.advancePhase.wrapPhase.slot = slot from h.slot_eq, h.executing_eq] at hexec
          exact Except.ok.inj hexec
        refine .inr (.inl ⟨p', _, es, htick.trans hok, ?_⟩)
        rw [honward.events_eq, events_publishCompletion]
        rfl
    · refine .inr (.inr ⟨htick.trans herr, a, fun hin => ha ?_⟩)
      exact t.advancePhase.wrapPhase.inWord_maskedStep hin
  · obtain ⟨hadvances, hclock⟩ := ht.wait (Bool.eq_false_iff.mpr hdue)
    rw [advancePhase, if_neg hdue] at htick
    exact .inl ⟨_, _, _, htick, h.proceed rfl rfl (.of_some hgeared rfl hadvances) rfl rfl rfl
      (h.tracks.sameCourse rfl) (by omega)⟩

theorem executes (h : p.Pursues slot s k t q) : p.Executes slot s := by
  refine ⟨h.executing_eq, t, h.current_eq, h.slot_eq,
    (h.paced.advances t h.current_eq).increment_ne, ?_⟩
  obtain ⟨o, p', -, htick, -⟩ | ⟨p', o, -, htick, -⟩ | herr := h.tick
  · exact .inl ⟨o, p', htick⟩
  · exact .inl ⟨o, p', htick⟩
  · exact .inr herr

/-- By induction on how the plant goes on: it pursues the segment until that is complete. -/
theorem goesOn {p₀ : Plant n Stepper} {t₀ : Traversal} {q₀ : Fifo} (h : p₀.Pursues slot s 0 t₀ q₀)
    {k : Nat} (hgoes : p₀.GoesOn k p) :
    (∃ t q, p.Pursues slot s k t q) ∨ p₀.DoneInTime s k p := by
  induction hgoes with
  | start => exact .inl ⟨t₀, q₀, h⟩
  | work hgoes hw ih =>
    obtain ⟨t, q, hp⟩ | hdone := ih
    · obtain ⟨q', hp'⟩ := hp.work hw
      exact .inl ⟨t, q', hp'⟩
    · exact .inr (hdone.goesOn (.work .start hw))
  | wakeUp hgoes ih =>
    obtain ⟨t, q, hp⟩ | hdone := ih
    · exact .inl ⟨t, q, hp.proceed rfl rfl hp.paced hp.current_eq rfl rfl hp.tracks hp.le_clock⟩
    · exact .inr (hdone.goesOn (.wakeUp .start))
  | setPosition hgoes position ih =>
    obtain ⟨t, q, hp⟩ | hdone := ih
    · exact .inl ⟨t, q, hp.proceed rfl rfl ⟨hp.paced.geared, hp.paced.advances⟩ hp.current_eq rfl
        rfl hp.tracks hp.le_clock⟩
    · exact .inr (hdone.goesOn (.setPosition .start position))
  | rampTick hgoes ih =>
    obtain ⟨t, q, hp⟩ | hdone := ih
    · obtain ⟨t', hp'⟩ := hp.rampTick
      exact .inl ⟨t', q, hp'⟩
    · exact .inr (hdone.goesOn (.rampTick .start))
  | tick hgoes htick ih =>
    obtain ⟨t, q, hp⟩ | hdone := ih
    · obtain ⟨o', p', t', htick', hp'⟩ | ⟨p', o', es, htick', hevents⟩ | ⟨herr, -⟩ := hp.tick
      · rw [htick] at htick'
        cases htick'
        exact .inl ⟨t', q, hp'⟩
      · rw [htick] at htick'
        cases htick'
        exact .inr ⟨_, 0, _, _, hp.lt, rfl, hgoes, ⟨_, es, htick, hevents⟩, .start⟩
      · rw [htick] at herr
        cases herr
    · exact .inr (hdone.goesOn (.tick .start htick))

theorem keepsTime (h : p.Pursues slot s 0 t q) : p.KeepsTime slot s := by
  intro k p' hgoes
  refine (h.goesOn hgoes).imp_left ?_
  rintro ⟨t', q', hp'⟩
  exact ⟨hp'.lt, hp'.executes⟩

end Pursues

/-- What has begun is over in time. -/
theorem Begins.keepsTime {slot : Nat} {s : Segment} (h : p.Begins slot s)
    (hcount : s.eventCount = Planner.eventCount s.steps) (hp : p.side.Geared) :
    (p.execute slot s).KeepsTime slot s := by
  obtain ⟨⟨held, q, hpoised⟩, hexec, hm, hclear⟩ := h
  obtain ⟨s', rest, hpending⟩ := Fifo.pending_of_begun hpoised.begun_eq
  have hslot := hpoised.slot_eq slot rfl
  obtain rfl : s = s' := by
    rw [hslot, hpoised.holds.executing_front hpending] at hexec
    exact (Except.ok.inj hexec).symm
  obtain ⟨t, hcurrent, hcourse⟩ : ∃ t, (p.execute slot s).side.current = some t ∧
      (Traversal.ofSegment slot s).SameCourse t := ⟨_, rfl, rfl⟩
  have hheld := hpoised.holds.held_eq
  have hpursues : (p.execute slot s).Pursues slot s 0 t q := {
    paced := paced_execute hp slot hm
    clear := hclear
    coupled := ⟨hheld ▸ hpoised.holds, hpoised.begun_eq,
      fun t ht => by cases ht; exact hslot⟩
    first_eq := by rw [hpending]; rfl
    current_eq := hcurrent
    slot_eq := by rw [hcourse]; rfl
    tracks := (Traversal.Tracks.ofSegment slot hcount hm).sameCourse hcourse
    uncut := by rw [hcourse]; rfl
    le_clock := Nat.zero_le _ }
  exact hpursues.keepsTime

/-- What is executed makes progress, and whatever a tick begins is done in time. -/
structure Progresses (p : Plant n Stepper) : Prop where
  /-- the phase of a traversal advances -/
  increment_ne : ∀ t, p.side.current = some t → t.increment ≠ .zero
  /-- a segment that is announced, with as many events as its busiest actuator makes steps, is done
  in time from when it is executed -/
  keepsTime : ∀ {o p' es s}, p.tick = .ok (o, p') → p'.events.toList = p.events.toList ++ es →
    .began s ∈ es → s.eventCount = Planner.eventCount s.steps →
    ∃ (p₀ : Plant n Stepper) (slot : Nat),
      (p.tick = (p₀.execute slot s).tick ∨ p' = p₀.execute slot s) ∧
        (p₀.execute slot s).KeepsTime slot s

theorem Coupled.progresses (h : p.Coupled held q) (hp : p.side.Paced) : p.Progresses where
  increment_ne t hc := (hp.advances t hc).increment_ne
  keepsTime {o p' es s} htick hevents hs hcount := by
    obtain ⟨p₀, slot, hbegins, htimers, hgoes⟩ := h.begins_of_tick htick hevents hs
    have hgeared : p₀.side.Geared := by
      rw [htimers]
      exact hp.geared
    exact ⟨p₀, slot, hgoes, hbegins.keepsTime hcount hgeared⟩

/-- A traversal that does not advance stays where it is. -/
theorem tick_of_stalled (hc : p.side.current = some t) (hclear : p.stop.isActive = false)
    (hphase : t.phase.bits.toNat < 65536) (hstalled : t.increment = .zero) :
    p.tick = .ok (.idle, p) := by
  have hsame : t.advancePhase = t := by
    rw [Traversal.advancePhase, hstalled, Q16.addSat_zero, ← hstalled]
  have hdue : ¬ t.isDue = true := by
    rw [Traversal.isDue_iff]
    omega
  have hp : p.setCurrent (some t) = p := by rw [setCurrent, ← hc]
  rw [tick_of_clear hc hclear]
  simp only [advancePhase, hsame, hdue, if_false, hp, Bool.false_eq_true]

theorem rampTick_of_stalled (hc : p.side.current = some t)
    (hrate : (p.side.nextRate t == t.rate) = true) : p.rampTick = p := by
  rw [rampTick_of_current hc, if_pos hrate]

/-- However often the two timers tick, a traversal that does not advance and is to go no faster
stays where it is. -/
theorem watch_of_stalled (hc : p.side.current = some t) (hclear : p.stop.isActive = false)
    (hphase : t.phase.bits.toNat < 65536) (hstalled : t.increment = .zero)
    (hrate : (p.side.nextRate t == t.rate) = true) {bs : List Beat}
    (hcalm : ∀ b ∈ bs, b.isCalm = true) :
    p.watch bs = .ok (List.replicate (bs.count .step) .idle, p) := by
  induction bs with
  | nil => rfl
  | cons b bs ih =>
    obtain ⟨hb, hbs⟩ := List.forall_mem_cons.mp hcalm
    cases b with
    | step =>
      have htick := react_step (tick_of_stalled hc hclear hphase hstalled)
      rw [watch_cons htick (ih hbs), List.count_cons_self, List.replicate_succ]
      rfl
    | ramp =>
      have hramp : p.react .ramp = .ok ([], p) := by rw [react, rampTick_of_stalled hc hrate]
      rw [watch_cons hramp (ih hbs), List.count_cons_of_ne (by decide)]
      rfl
    | trigger i => cases hb
    | rearm => cases hb

end Plant

/-! ## Whole runs -/

namespace Pipeline

/-- With valid settings whose lower bound on the step rate is at least a 65536th of the step tick
rate, everything that is executed makes progress and is done in time, whatever is done to the
pipeline. -/
theorem progresses_of_errands {len : Nat} {ring : Ring n} (hring : Ring.new n len = .ok ring)
    {s : Settings} (hvalid : s.validate = .ok ())
    (hlow : s.baseFrequency.toNat ≤ 65536 * s.minimumStepRate.toNat) (planner : Planner)
    (es : List Errand) :
    Fault.Blameless (fun l => l.plant.strip.Progresses)
      ((ofRing ring (.ofSettings s) planner).errands (.of fun p => p.strip.Progresses) es) := by
  have hserves : (ofRing ring (.ofSettings s) planner).Serves fun _ => True :=
    serves_ofRing hring rfl planner
  have hwrites : ∀ e ∈ es, (e.Writes fun _ => True) ∧ (e.Lowers → True) := by
    intro e _
    cases e <;> simp [Errand.Writes]
  refine errands_of_after Segment.closed_all (fun m hm => ?_) hwrites hserves.follows
  obtain ⟨q, hq⟩ := hm.reachable.orderly
  have hstart : (Stepper.ofSettings s).Paced := .of_none (Stepper.geared_ofSettings hvalid hlow) rfl
  exact hq.coupled.progresses (hm.paced hstart)

/-- A pipeline with some settings, before anything has been done. -/
def ofSettings (s : Settings) : Pipeline 4 :=
  ofRing .four (.ofSettings s) (.ofTuning ⟨1000, 4, 0, 100⟩)

/-- A slow step timer, in the middle of a move. -/
theorem progresses_in_a_move : ∃ (s : Settings) (es : List Errand) (l : Pipeline 4),
    s.validate = .ok () ∧ (ofSettings s).errands Audit.none es = .ok l ∧
    l.plant.side.stepper.stepRate = 50 ∧ l.plant.side.stepper.position = ⟨1, 0, 0⟩ ∧
    Fault.Blameless (fun l => l.plant.strip.Progresses)
      ((ofSettings s).errands (.of fun p => p.strip.Progresses) es) := by
  obtain ⟨s, es, hproblems, hlow, hrun⟩ : ∃ (s : Settings) (es : List Errand), s.problems = [] ∧
      s.baseFrequency.toNat ≤ 65536 * s.minimumStepRate.toNat ∧
      ((ofSettings s).errands Audit.none es).toOption.any (fun l =>
        l.plant.side.stepper.stepRate == 50 &&
          l.plant.side.stepper.position == ⟨1, 0, 0⟩) = true :=
    ⟨{ Settings.withDefaultPins with baseFrequency := 1000 },
      [.call (.append ⟨⟨3, -1, 0⟩, 20, 1, .const 0⟩ [] [] []), .call .ensureRunning,
        .call (.beats (List.replicate 25 .step))], by decide +kernel⟩
  obtain ⟨l, hl, htest⟩ := Fault.exists_eq_ok hrun
  rw [Bool.and_eq_true, beq_iff_eq, beq_iff_eq] at htest
  have hvalid : s.validate = .ok () := (Settings.validate_eq_ok_iff s).mpr hproblems
  exact ⟨s, es, l, hvalid, hl, htest.1, htest.2,
    progresses_of_errands Ring.new_four hvalid hlow _ es⟩

/-- Where the lower bound on the step rate is too low, a slow move begins and stays where it is,
however often the two timers tick. -/
theorem stalls_at_low_rate : ∃ (s : Settings) (es : List Errand) (l : Pipeline 4) (t : Traversal),
    s.validate = .ok () ∧ (ofSettings s).errands Audit.none es = .ok l ∧
    l.plant.side.stepper.current = some t ∧ t.eventCount = Planner.eventCount t.steps ∧
    t.eventCount = 1 ∧ t.eventsDone = 0 ∧ t.increment = .zero ∧
    ∀ bs : List Beat, (∀ b ∈ bs, b.isCalm = true) →
      l.plant.strip.watch bs = .ok (List.replicate (bs.count .step) .idle, l.plant.strip) := by
  obtain ⟨s, es, hproblems, hrun⟩ : ∃ (s : Settings) (es : List Errand), s.problems = [] ∧
      ((ofSettings s).errands Audit.none es).toOption.any (fun l =>
        !l.plant.stop.isActive && l.plant.side.stepper.current.any fun t =>
          t.eventCount == Planner.eventCount t.steps && t.eventCount == 1 && t.eventsDone == 0 &&
          t.increment == .zero && t.phase == .zero &&
          l.plant.side.stepper.nextRate t == t.rate) = true :=
    ⟨{ Settings.withDefaultPins with minimumStepRate := 1 },
      [.call (.append ⟨⟨1, 0, 0⟩, 1, 1, .const 1⟩ [] [] []), .call .ensureRunning,
        .call (.beats [.step])], by decide +kernel⟩
  obtain ⟨l, hl, htest⟩ := Fault.exists_eq_ok hrun
  rw [Bool.and_eq_true, Bool.not_eq_true', Option.any_eq_true] at htest
  obtain ⟨hclear, t, hc, ht⟩ := htest
  simp only [Bool.and_eq_true] at ht
  obtain ⟨⟨⟨⟨⟨hsound, hone⟩, hnone⟩, hstalled⟩, hphase⟩, hrate⟩ := ht
  have hvalid : s.validate = .ok () := (Settings.validate_eq_ok_iff s).mpr hproblems
  have hphase' : t.phase.bits.toNat < 65536 := by
    rw [beq_iff_eq.mp hphase]
    exact Nat.zero_lt_succ 65535
  exact ⟨s, es, l, t, hvalid, hl, hc, beq_iff_eq.mp hsound, beq_iff_eq.mp hone, beq_iff_eq.mp hnone,
    beq_iff_eq.mp hstalled, fun bs hcalm => Plant.watch_of_stalled (p := l.plant.strip) hc hclear
      hphase' (beq_iff_eq.mp hstalled) hrate hcalm⟩

end Pipeline

end MotionControl
