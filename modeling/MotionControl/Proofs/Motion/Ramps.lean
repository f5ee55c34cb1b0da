import MotionControl.Proofs.Motion.Pace
import MotionControl.Proofs.Motion.Watch
import MotionControl.Proofs.Single.Bounds

/-!
# Ramps

The ramp timer moves the step rate of a segment along its profile. Each tick adds to the rate or
takes from it, and brings the result between the lower bound of the settings and the step tick rate;
all of this in floats, and what is reported is rounded up to a count.

`Stepper.Within` is what the rate of a segment keeps to, whatever its profile is: it is not below
the lower bound, and not above the nominal rate unless that is below the lower bound itself, nor
above the step tick rate. Since such bounds are floats without rounding, what is reported keeps to
them as well. From there on, `Plant.KeepsProfile` is about a segment from its announcement on:
however the two timers interleave and whatever stops are raised, the rates reported are within the
bounds, the phase of the profile only moves forward, and no ramp tick slows a segment down while it
speeds up or speeds it up while it slows down. It is enough that the segment enters with no more
than its nominal rate, and that its rate does not change by less than nothing.
-/

namespace MotionControl

variable {n : Nat}

/-! ## One tick of the ramp timer -/

namespace Stepper

/-- The highest step rate for a nominal rate. -/
def rateLimit (s : Stepper) (nominal : UInt32) : UInt32 :=
  min s.baseFrequency (max nominal s.minimumRate)

/-- The rates of a stepper are within its step tick rate, which is a float without rounding. -/
structure Timed (s : Stepper) : Prop where
  /-- the step tick rate is a float without rounding -/
  frequency_lt : s.baseFrequency.toNat < 2 ^ 24
  /-- the lower bound on the rate is no higher -/
  minimum_le : s.minimumRate ≤ s.baseFrequency

/-- A rate is within the bounds for a nominal rate. -/
structure Within (s : Stepper) (nominal : UInt32) (rate : Float32) : Prop where
  /-- it is not below the lower bound -/
  minimum_le : s.minimumRate.toFloat32 ≤ rate
  /-- it is not above the highest rate -/
  le_limit : rate ≤ (s.rateLimit nominal).toFloat32

theorem rateLimit_le (s : Stepper) (nominal : UInt32) : s.rateLimit nominal ≤ s.baseFrequency := by
  rw [UInt32.le_iff_toNat_le, rateLimit, UInt32.toNat_min]
  omega

theorem rateLimit_rateLimit (s : Stepper) (nominal : UInt32) :
    s.rateLimit (s.rateLimit nominal) = s.rateLimit nominal := by
  rw [← UInt32.toNat_inj]
  simp only [rateLimit, UInt32.toNat_min, UInt32.toNat_max]
  omega

variable {s : Stepper} {t : Traversal} {nominal : UInt32} {rate : Float32}

namespace Timed

theorem minimum_le_rateLimit (h : s.Timed) (nominal : UInt32) :
    s.minimumRate ≤ s.rateLimit nominal := by
  have hle := h.minimum_le
  rw [UInt32.le_iff_toNat_le] at hle ⊢
  rw [rateLimit, UInt32.toNat_min, UInt32.toNat_max]
  omega

theorem rateLimit_lt (h : s.Timed) (nominal : UInt32) : (s.rateLimit nominal).toNat < 2 ^ 24 :=
  Nat.lt_of_le_of_lt (UInt32.le_iff_toNat_le.mp (s.rateLimit_le nominal)) h.frequency_lt

end Timed

namespace Within

theorem isNaN_eq (h : s.Within nominal rate) : rate.isNaN = false :=
  (Single.isNaN_of_le h.minimum_le).2

theorem isFinite (h : s.Within nominal rate) : Rounding.IsFinite rate :=
  Single.isFinite_of_le h.minimum_le h.le_limit

/-- The rate is reported as a count within the same bounds. -/
theorem ceilCount_mem (h : s.Within nominal rate) (hs : s.Timed) :
    s.minimumRate ≤ Single.ceilCount rate ∧ Single.ceilCount rate ≤ s.rateLimit nominal := by
  have hle := UInt32.le_iff_toNat_le.mp (hs.minimum_le_rateLimit nominal)
  have hlt := hs.rateLimit_lt nominal
  exact ⟨Single.le_ceilCount_of_le (by omega) h.minimum_le,
    Single.ceilCount_le hlt (Single.isSpeed_of_le h.minimum_le) h.le_limit⟩

end Within

/-- A rate that is not above some count, brought between the lower bound and the step tick rate. -/
theorem Timed.within_clamp (h : s.Timed) (hle : rate ≤ nominal.toFloat32) :
    s.Within nominal
      (Single.min (Single.max rate s.minimumRate.toFloat32) s.baseFrequency.toFloat32) := by
  have hmin := Single.isNaN_toFloat32 s.minimumRate
  have hbase := Single.isNaN_toFloat32 s.baseFrequency
  have hge := Single.le_max_right (x := rate) hmin
  refine ⟨Single.le_min hge (Single.toFloat32_mono h.minimum_le), ?_⟩
  -- the limit is the step tick rate, or what the rate is limited by before
  have hmax : Single.max rate s.minimumRate.toFloat32 ≤ (max nominal s.minimumRate).toFloat32 := by
    refine Single.max_le (Single.le_trans hle ?_) ?_ <;> refine Single.toFloat32_mono ?_ <;>
      rw [UInt32.le_iff_toNat_le, UInt32.toNat_max] <;> omega
  unfold rateLimit
  rcases Std.MinEqOr.min_eq_or s.baseFrequency (max nominal s.minimumRate) with heq | heq <;>
    rw [heq]
  · exact Single.min_le_right hbase
  · exact Single.le_trans (Single.min_le_left (Single.isNaN_of_le hge).2) hmax

theorem Timed.within_entryRate (h : s.Timed) {segment : Segment}
    (hle : segment.initialRate ≤ segment.nominalRate) :
    s.Within segment.nominalRate (s.entryRate segment) := by
  have hmin := h.minimum_le
  unfold entryRate
  refine ⟨Single.toFloat32_mono ?_, Single.toFloat32_mono ?_⟩ <;>
    rw [UInt32.le_iff_toNat_le] at * <;>
    simp only [rateLimit, UInt32.toNat_min, UInt32.toNat_max] <;> omega

/-- A ramp tick leaves a rate within the bounds: whatever it makes of the rate at first is not above
the nominal rate, or not above what the rate was. -/
theorem Timed.within_nextRate (h : s.Timed) (ht : s.Within t.nominalRate t.rate)
    (hdelta : 0 ≤ t.rateDelta) : s.Within t.nominalRate (s.nextRate t) := by
  have hnominal := Single.isNaN_toFloat32 t.nominalRate
  have hkeep : ∀ {r}, r ≤ t.rate → s.Within t.nominalRate
      (Single.min (Single.max r s.minimumRate.toFloat32) s.baseFrequency.toFloat32) := by
    intro r hr
    have hclamp := h.within_clamp (Single.le_trans hr ht.le_limit)
    exact ⟨hclamp.minimum_le, by rw [← s.rateLimit_rateLimit]; exact hclamp.le_limit⟩
  have hsame := Single.le_refl ht.isNaN_eq
  unfold nextRate
  dsimp only
  split
  · exact h.within_clamp (Single.min_le_right hnominal)
  · split
    · next hlt =>
      exact hkeep (Single.max_le (Single.sub_le_left ht.isFinite hdelta) (Single.le_of_lt hlt))
    · exact hkeep hsame
  · split
    · exact h.within_clamp (Single.le_refl hnominal)
    · exact hkeep hsame
  · exact hkeep hsame

/-- While a segment speeds up, a ramp tick does not lower its rate. -/
theorem Within.le_nextRate (ht : s.Within t.nominalRate t.rate) (hdelta : 0 ≤ t.rateDelta)
    (hphase : t.rampPhase = .accelerating) : t.rate ≤ s.nextRate t := by
  have hbase := Single.le_trans ht.le_limit (Single.toFloat32_mono (s.rateLimit_le t.nominalRate))
  unfold nextRate
  rw [hphase]
  refine Single.le_min ?_ hbase
  by_cases hnominal : t.rate ≤ t.nominalRate.toFloat32
  · have hsum : t.rate ≤ t.rate + t.rateDelta :=
      Single.le_add_right ht.isFinite (Single.isSpeed_of_le ht.minimum_le).nonneg hdelta
    have hfaster := Single.le_min hsum hnominal
    exact Single.le_trans hfaster (Single.le_max_left (Single.isNaN_of_le hfaster).2)
  · -- a segment that is to go slower than the lower bound goes at the lower bound
    have hlow : s.rateLimit t.nominalRate ≤ s.minimumRate := by
      have habove : ¬ s.rateLimit t.nominalRate ≤ t.nominalRate := fun hle =>
        hnominal (Single.le_trans ht.le_limit (Single.toFloat32_mono hle))
      rw [UInt32.le_iff_toNat_le] at habove ⊢
      simp only [rateLimit, UInt32.toNat_min, UInt32.toNat_max] at habove ⊢
      omega
    exact Single.le_trans (Single.le_trans ht.le_limit (Single.toFloat32_mono hlow))
      (Single.le_max_right (Single.isNaN_toFloat32 _))

/-- While it slows down, a ramp tick does not raise it. -/
theorem Within.nextRate_le (ht : s.Within t.nominalRate t.rate) (hdelta : 0 ≤ t.rateDelta)
    (hphase : t.rampPhase = .decelerating) : s.nextRate t ≤ t.rate := by
  have hclamp : ∀ {r}, r ≤ t.rate → Single.min (Single.max r s.minimumRate.toFloat32)
      s.baseFrequency.toFloat32 ≤ t.rate := by
    intro r hr
    have hmax := Single.max_le hr ht.minimum_le
    exact Single.le_trans (Single.min_le_left (Single.isNaN_of_le hmax).1) hmax
  unfold nextRate
  rw [hphase]
  dsimp only
  split
  · next hlt =>
    exact hclamp (Single.max_le (Single.sub_le_left ht.isFinite hdelta) (Single.le_of_lt hlt))
  · exact hclamp (Single.le_refl ht.isNaN_eq)

end Stepper

/-! ## A tick of either timer -/

/-- How far a traversal is along its profile. -/
def RampPhase.rank : RampPhase → Nat
  | idle => 0
  | accelerating => 1
  | cruising => 2
  | decelerating => 3

/-- A traversal of the same segment, with as many step events or more. -/
structure Traversal.Proceeds (t t' : Traversal) : Prop where
  /-- the segment and its profile are the same -/
  same : t' = { t with
    remaining := t'.remaining, counters := t'.counters, eventsDone := t'.eventsDone,
    rate := t'.rate, increment := t'.increment, phase := t'.phase, interrupted := t'.interrupted }
  /-- no step event is taken back -/
  le : t.eventsDone ≤ t'.eventsDone

/-- The phase only moves forward. -/
theorem Traversal.Proceeds.rank_le {t t' : Traversal} (h : t.Proceeds t') :
    t.rampPhase.rank ≤ t'.rampPhase.rank := by
  have hle := UInt32.le_iff_toNat_le.mp h.le
  have hphase : t'.rampPhase = if t'.eventsDone < t.accelerateUntil then .accelerating
      else if t.decelerateAfter < t'.eventsDone then .decelerating else .cruising := by
    rw [rampPhase, h.same]
  rw [hphase, rampPhase]
  by_cases hfirst : t.eventsDone < t.accelerateUntil
  · rw [if_pos hfirst]
    split
    · exact Nat.le_refl _
    · split <;> decide
  · have hfirst' : ¬ t'.eventsDone < t.accelerateUntil := by
      rw [UInt32.lt_iff_toNat_lt] at hfirst ⊢
      omega
    rw [if_neg hfirst, if_neg hfirst']
    by_cases hlast : t.decelerateAfter < t.eventsDone
    · have hlast' : t.decelerateAfter < t'.eventsDone := by
        rw [UInt32.lt_iff_toNat_lt] at hlast ⊢
        omega
      rw [if_pos hlast, if_pos hlast']
    · rw [if_neg hlast]
      split <;> decide

namespace Plant

variable {p p' : Plant n Stepper} {t t' : Traversal} {held : List Nat} {q : Fifo}

/-- The traversal of a plant goes on, with the ring and the timers as they were. -/
structure Proceeds (p : Plant n Stepper) (t : Traversal) (p' : Plant n Stepper) (t' : Traversal) :
    Prop extends t.Proceeds t' where
  /-- there is a traversal -/
  current_eq : p'.side.current = some t'
  /-- some step event is still to come -/
  lt : t'.eventsDone < t'.eventCount
  /-- the ring is left alone -/
  ring_eq : p'.ring = p.ring
  /-- the timers are the same -/
  timers : p.SameTimers p'

/-- A step event out of the word of a position starts from an end of the word. -/
theorem position_of_not_inWord {x : Int32} {mask : UInt8} {d : Directions} {a : Axis}
    (h : ¬ InWord (x.toInt + Stepper.maskedStep mask d a)) :
    x = Int32.minValue ∨ x = Int32.maxValue := by
  obtain ⟨hlow, hhigh⟩ := inWord_toInt x
  have hstep : -1 ≤ Stepper.maskedStep mask d a ∧ Stepper.maskedStep mask d a ≤ 1 := by
    unfold Stepper.maskedStep Directions.signed
    split
    · split <;> decide
    · decide
  rw [← Int32.toInt_inj, ← Int32.toInt_inj]
  unfold InWord at h
  omega

/-- A tick of the step timer leaves the rate alone, or it is the last one of the segment. -/
theorem Coupled.tick_of_lt (h : p.Coupled held q) (hc : p.side.current = some t)
    (hlt : t.eventsDone < t.eventCount) :
    (∃ o p' t', p.tick = .ok (o, p') ∧ p.Proceeds t p' t' ∧ t'.rate = t.rate ∧
      p'.events = p.events) ∨
    (∃ o p', p.tick = .ok (o, p') ∧ (p'.events = p.events ∨ ∃ s es,
      p.ring.executing t.slot = .ok s ∧ p'.events.toList = p.events.toList ++ s.completion ++ es)) ∨
    (p.tick = .error .addOverflow ∧ ∃ a,
      p.side.position.get a = Int32.minValue ∨ p.side.position.get a = Int32.maxValue) := by
  rw [tick_of_busy hc]
  unfold traverse
  dsimp only
  split
  · exact .inr (.inl ⟨_, _, rfl, .inl rfl⟩)
  unfold advancePhase
  dsimp only
  split
  · have hslot : (t.cut p.stop.bits).advancePhase.wrapPhase.slot = t.slot := rfl
    obtain ⟨o, es, p', hok, hperforms⟩ | ⟨herr, a, ha⟩ := h.performs hc hslot
    · cases hperforms with
      | @goesOn position hpos hmore =>
        have hdone : (t.eventsDone + 1).toNat = t.eventsDone.toNat + 1 :=
          Traversal.eventsDone_stepEvent_of_lt hlt
        obtain ⟨hnext, -⟩ := Traversal.not_isComplete_iff _ |>.mp hmore
        refine .inl ⟨_, _, (t.cut p.stop.bits).advancePhase.wrapPhase.stepEvent, hok,
          ⟨⟨rfl, ?_⟩, rfl, UInt32.lt_iff_toNat_lt.mpr hnext, rfl, rfl⟩, rfl, rfl⟩
        rw [UInt32.le_iff_toNat_le]
        change _ ≤ (t.eventsDone + 1).toNat
        omega
      | cutShort hpos hdone hint => exact .inr (.inl ⟨_, _, hok, .inl rfl⟩)
      | @last position s next r es _ hpos hdone hint hexec hr honward =>
        refine .inr (.inl ⟨_, _, hok, .inr ⟨s, es, hexec, ?_⟩⟩)
        rw [honward.events_eq, events_publishCompletion]
        rfl
    · exact .inr (.inr ⟨herr, a, position_of_not_inWord ha⟩)
  · exact .inl ⟨_, _, (t.cut p.stop.bits).advancePhase, rfl,
      ⟨⟨rfl, UInt32.le_refl _⟩, rfl, hlt, rfl, rfl⟩, rfl, rfl⟩

/-- A tick of the ramp timer gives the traversal its next rate, and reports it if it is another
one. -/
theorem rampTick_of_busy (hc : p.side.current = some t) (hlt : t.eventsDone < t.eventCount) :
    ∃ t', p.Proceeds t p.rampTick t' ∧
      (p.rampTick.events = p.events ∧ t' = t ∨
        t'.rate = p.side.nextRate t ∧ p.rampTick.events =
          p.events.push (.speedChanged (Single.ceilCount (p.side.nextRate t)) t.nominalRate)) := by
  rw [rampTick_of_current hc]
  split
  · exact ⟨t, ⟨⟨rfl, UInt32.le_refl _⟩, hc, hlt, rfl, rfl⟩, .inl ⟨rfl, rfl⟩⟩
  · exact ⟨{ t with
      rate := p.side.nextRate t
      increment := p.side.incrementOf (Single.ceilCount (p.side.nextRate t)) },
      ⟨⟨rfl, UInt32.le_refl _⟩, rfl, hlt, rfl, rfl⟩, .inr ⟨rfl, rfl⟩⟩

end Plant

/-! ## Runs -/

/-- The events report step rates that the settings allow for a nominal rate, and nothing else. -/
def Settings.Reports (settings : Settings) (nominal : UInt32) (es : List Event) : Prop :=
  ∀ e ∈ es, ∃ rate, e = .speedChanged rate nominal ∧ settings.minimumStepRate ≤ rate ∧
    rate ≤ min settings.baseFrequency (max nominal settings.minimumStepRate)

namespace Plant

/-- A segment is under execution, and has kept to its profile since it was announced. -/
structure OnProfile (settings : Settings) (p : Plant n Stepper) (slot : Nat) (s : Segment)
    (bs : List Beat) (p' : Plant n Stepper) : Prop where
  /-- all rates reported are allowed -/
  reports : ∃ es, p'.events.toList = p.events.toList ++ .began s :: es ∧
    settings.Reports s.nominalRate es
  /-- the phase has only moved forward -/
  forward : ∀ bs₁ bs₂ os p₁, bs = bs₁ ++ bs₂ → (p.execute slot s).watch bs₁ = .ok (os, p₁) →
    p₁.side.phase.rank ≤ p'.side.phase.rank
  /-- a tick of the ramp timer would not lower the rate while the segment speeds up, and not raise
  it while it slows down -/
  ramps : ∃ t t', p'.side.current = some t ∧ t.slot = slot ∧ p'.rampTick.side.current = some t' ∧
    (p'.side.phase = .accelerating → t.rate ≤ t'.rate) ∧
    (p'.side.phase = .decelerating → t'.rate ≤ t.rate)

/-- A segment is over, and has kept to its profile: it has been cancelled, or is complete. -/
def OffProfile (settings : Settings) (p : Plant n Stepper) (s : Segment) (p' : Plant n Stepper) :
    Prop :=
  ∃ es es', p'.events.toList = p.events.toList ++ .began s :: es ++ es' ∧
    settings.Reports s.nominalRate es ∧ (es' = [] ∨ ∃ es'', es' = s.completion ++ es'')

/-- Executing a segment keeps to its profile until it is over. The only thing that may come in
between is an actuator at an end of the word of its position. -/
def KeepsProfile (settings : Settings) (p : Plant n Stepper) (slot : Nat) (s : Segment)
    (bs : List Beat) : Prop :=
  (p.execute slot s).Until (fun bs _ p' => p.OnProfile settings slot s bs p')
    (fun _ _ _ p' => p.OffProfile settings s p')
    (∃ bs₁ bs₂ os p₁ a, bs = bs₁ ++ bs₂ ∧ (p.execute slot s).watch bs₁ = .ok (os, p₁) ∧
      (p₁.side.position.get a = Int32.minValue ∨ p₁.side.position.get a = Int32.maxValue)) bs

variable {p p' : Plant n Stepper} {settings : Settings} {slot : Nat} {s : Segment}
  {bs : List Beat} {os : List StepOutput} {held : List Nat} {q : Fifo}

theorem SameTimers.nextRate_eq (h : p.SameTimers p') (t : Traversal) :
    p'.side.nextRate t = p.side.nextRate t := by
  rw [SameTimers] at h
  rw [h]
  rfl

/-- What a run of a segment keeps, as long as the segment is under execution. -/
structure Keeping (settings : Settings) (p : Plant n Stepper) (slot : Nat) (s : Segment)
    (bs : List Beat) (p' : Plant n Stepper) (t : Traversal) : Prop where
  /-- there is a traversal -/
  current_eq : p'.side.current = some t
  /-- it is one of the segment -/
  slot_eq : t.slot = slot
  /-- it has the nominal rate of the segment -/
  nominalRate_eq : t.nominalRate = s.nominalRate
  /-- it changes its rate as the segment does -/
  rateDelta_eq : t.rateDelta = s.rateDelta
  /-- some step event is still to come -/
  lt : t.eventsDone < t.eventCount
  /-- its rate is within the bounds -/
  within : p.side.Within t.nominalRate t.rate
  /-- the timers are the same -/
  timers : p.SameTimers p'
  /-- the ring is left alone -/
  ring_eq : p'.ring = p.ring
  /-- all rates reported are allowed -/
  reports : ∃ es, p'.events.toList = p.events.toList ++ .began s :: es ∧
    settings.Reports s.nominalRate es
  /-- the phase has only moved forward -/
  forward : ∀ bs₁ bs₂ os p₁, bs = bs₁ ++ bs₂ → (p.execute slot s).watch bs₁ = .ok (os, p₁) →
    p₁.side.phase.rank ≤ p'.side.phase.rank

namespace Keeping

variable {p₁ p₂ : Plant n Stepper} {t₁ t₂ : Traversal}

theorem proceed (h : Keeping settings p slot s bs p₁ t₁)
    (hrun : (p.execute slot s).watch bs = .ok (os, p₁)) {b : Beat} {os' : List StepOutput}
    (hreact : p₁.react b = .ok (os', p₂)) (hproceeds : p₁.Proceeds t₁ p₂ t₂)
    (hwithin : p.side.Within t₁.nominalRate t₂.rate)
    (hreports : ∃ es, p₂.events.toList = p₁.events.toList ++ es ∧
      settings.Reports s.nominalRate es) :
    Keeping settings p slot s (bs ++ [b]) p₂ t₂ := by
  have hsame := hproceeds.same
  have hnominal : t₂.nominalRate = t₁.nominalRate := by rw [hsame]
  have hdelta : t₂.rateDelta = t₁.rateDelta := by rw [hsame]
  have hslot : t₂.slot = t₁.slot := by rw [hsame]
  have hrank : p₁.side.phase.rank ≤ p₂.side.phase.rank := by
    simp only [Stepper.phase, h.current_eq, hproceeds.current_eq]
    exact hproceeds.rank_le
  obtain ⟨es, hes, hall⟩ := h.reports
  obtain ⟨es', hes', hall'⟩ := hreports
  refine {
    current_eq := hproceeds.current_eq
    slot_eq := hslot.trans h.slot_eq
    nominalRate_eq := hnominal.trans h.nominalRate_eq
    rateDelta_eq := hdelta.trans h.rateDelta_eq
    lt := hproceeds.lt
    within := hnominal ▸ hwithin
    timers := h.timers.trans hproceeds.timers
    ring_eq := hproceeds.ring_eq.trans h.ring_eq
    reports := ⟨es ++ es', by rw [hes', hes]; simp, fun e he =>
      (List.mem_append.mp he).elim (hall e) (hall' e)⟩
    forward := fun bs₁ bs₂ os₁ p₃ hsplit hwatch => ?_ }
  rcases bs₂.eq_nil_or_concat with rfl | ⟨bs₂, b', rfl⟩
  · rw [List.append_nil] at hsplit
    rw [← hsplit, watch_append hrun (watch_singleton hreact)] at hwatch
    cases hwatch
    exact Nat.le_refl _
  · rw [List.concat_eq_append, ← List.append_assoc] at hsplit
    obtain ⟨hbs, -⟩ := List.append_inj' hsplit rfl
    exact (h.forward bs₁ bs₂ os₁ p₃ hbs hwatch).trans hrank

theorem onProfile (h : Keeping settings p slot s bs p₁ t₁) (hdelta : 0 ≤ s.rateDelta) :
    p.OnProfile settings slot s bs p₁ := by
  refine ⟨h.reports, h.forward, ?_⟩
  obtain ⟨t₂, hproceeds, hrate⟩ := rampTick_of_busy h.current_eq h.lt
  have hdelta : 0 ≤ t₁.rateDelta := h.rateDelta_eq ▸ hdelta
  have hphase : p₁.side.phase = t₁.rampPhase := by rw [Stepper.phase, h.current_eq]
  refine ⟨t₁, t₂, h.current_eq, h.slot_eq, hproceeds.current_eq, ?_⟩
  rw [hphase]
  obtain ⟨-, rfl⟩ | ⟨hnext, -⟩ := hrate
  · have hrefl := Single.le_refl h.within.isNaN_eq
    exact ⟨fun _ => hrefl, fun _ => hrefl⟩
  · rw [hnext, h.timers.nextRate_eq]
    exact ⟨h.within.le_nextRate hdelta, h.within.nextRate_le hdelta⟩

end Keeping

end Plant

/-- The timers of a stepper are those of the settings. -/
def Stepper.Runs (s : Stepper) (settings : Settings) : Prop :=
  { s with current := none, position := .const 0 } = Stepper.ofSettings settings

namespace Stepper.Runs

variable {s : Stepper} {settings : Settings}

theorem baseFrequency_eq (h : s.Runs settings) : s.baseFrequency = settings.baseFrequency :=
  congrArg Stepper.baseFrequency h

theorem minimumRate_eq (h : s.Runs settings) (hvalid : settings.validate = .ok ()) :
    s.minimumRate = settings.minimumStepRate :=
  (congrArg Stepper.minimumRate h).trans
    (if_pos (UInt32.le_of_lt (Settings.rates_of_valid hvalid).2))

theorem timed (h : s.Runs settings) (hvalid : settings.validate = .ok ()) : s.Timed := by
  obtain ⟨hfrequency, hminimum⟩ := Settings.rates_of_valid hvalid
  refine ⟨?_, ?_⟩
  · rwa [h.baseFrequency_eq]
  · rw [h.baseFrequency_eq, h.minimumRate_eq hvalid]
    exact UInt32.le_of_lt hminimum

/-- A rate within the bounds of the stepper is reported as one that the settings allow. -/
theorem reports_singleton (h : s.Runs settings) (hvalid : settings.validate = .ok ())
    {nominal : UInt32} {rate : Float32} (hrate : s.Within nominal rate) :
    settings.Reports nominal [.speedChanged (Single.ceilCount rate) nominal] := by
  intro e he
  obtain ⟨hlow, hhigh⟩ := hrate.ceilCount_mem (h.timed hvalid)
  rw [h.minimumRate_eq hvalid] at hlow
  rw [Stepper.rateLimit, h.minimumRate_eq hvalid, h.baseFrequency_eq] at hhigh
  exact ⟨_, List.mem_singleton.mp he, hlow, hhigh⟩

end Stepper.Runs

namespace Plant

variable {p p' : Plant n Stepper} {settings : Settings} {slot : Nat} {s : Segment}
  {bs : List Beat} {os : List StepOutput} {held : List Nat} {q : Fifo}

theorem Begins.keeping (h : p.Begins slot s) (hvalid : settings.validate = .ok ())
    (htimers : p.side.Runs settings) (hrate : s.initialRate ≤ s.nominalRate) :
    ∃ t, Keeping settings p slot s [] (p.execute slot s) t := by
  have htimed := htimers.timed hvalid
  have hwithin := htimed.within_entryRate hrate
  have hlt : (0 : UInt32) < s.eventCount := of_decide_eq_true h.hasMotion
  refine ⟨{ Traversal.ofSegment slot s with
      rate := p.side.entryRate s
      increment := p.side.incrementOf (Single.ceilCount (p.side.entryRate s)) }, ?_⟩
  exact {
    current_eq := rfl
    slot_eq := rfl
    nominalRate_eq := rfl
    rateDelta_eq := rfl
    lt := hlt
    within := hwithin
    timers := rfl
    ring_eq := rfl
    reports := ⟨_, by simp [execute, runAt, publish, setCurrent, Traversal.ofSegment],
      htimers.reports_singleton hvalid hwithin⟩
    forward := fun bs₁ bs₂ os₁ p₁ hsplit hwatch => by
      obtain ⟨rfl, -⟩ := List.append_eq_nil_iff.mp hsplit.symm
      cases hwatch
      exact Nat.le_refl _ }

namespace Keeping

variable {p₁ p₂ : Plant n Stepper} {t₁ : Traversal}

/-- A beat of neither timer changes nothing that matters. -/
theorem idle (h : Keeping settings p slot s bs p₁ t₁)
    (hrun : (p.execute slot s).watch bs = .ok (os, p₁)) {b : Beat} {os' : List StepOutput}
    (hreact : p₁.react b = .ok (os', p₂)) (hring : p₂.ring = p₁.ring) (hside : p₂.side = p₁.side)
    (hevents : p₂.events = p₁.events) : Keeping settings p slot s (bs ++ [b]) p₂ t₁ := by
  have hproceeds : p₁.Proceeds t₁ p₂ t₁ :=
    ⟨⟨rfl, UInt32.le_refl _⟩, by rw [hside]; exact h.current_eq, h.lt, hring,
      by rw [SameTimers, hside]⟩
  exact h.proceed hrun hreact hproceeds h.within
    ⟨[], by rw [hevents, List.append_nil], fun e he => by cases he⟩

/-- A tick of the ramp timer. -/
theorem ramp (h : Keeping settings p slot s bs p₁ t₁) (hvalid : settings.validate = .ok ())
    (htimers : p.side.Runs settings) (hdelta : 0 ≤ s.rateDelta)
    (hrun : (p.execute slot s).watch bs = .ok (os, p₁)) :
    ∃ t₂, Keeping settings p slot s (bs ++ [.ramp]) p₁.rampTick t₂ := by
  obtain ⟨t₂, hproceeds, hnext⟩ := rampTick_of_busy h.current_eq h.lt
  rw [h.timers.nextRate_eq] at hnext
  have hdelta₁ : 0 ≤ t₁.rateDelta := h.rateDelta_eq ▸ hdelta
  have hwithin := (htimers.timed hvalid).within_nextRate h.within hdelta₁
  refine ⟨t₂, h.proceed hrun rfl hproceeds ?_ ?_⟩
  · obtain ⟨-, rfl⟩ | ⟨hrate₂, -⟩ := hnext
    · exact h.within
    · rwa [hrate₂]
  · obtain ⟨hquiet, -⟩ | ⟨-, hreport⟩ := hnext
    · exact ⟨[], by rw [hquiet, List.append_nil], fun e he => by cases he⟩
    · refine ⟨_, by rw [hreport, Array.toList_push], ?_⟩
      rw [← h.nominalRate_eq]
      exact htimers.reports_singleton hvalid hwithin

/-- A tick of the step timer goes on with the segment, or the segment is over. -/
theorem tick (h : Keeping settings p slot s bs p₁ t₁) (hbegins : p.Begins slot s)
    (hcoupled : p₁.Coupled held q) (hrun : (p.execute slot s).watch bs = .ok (os, p₁)) :
    (∃ o p₂ t₂, p₁.tick = .ok (o, p₂) ∧ Keeping settings p slot s (bs ++ [.step]) p₂ t₂) ∨
    (∃ o p₂, p₁.tick = .ok (o, p₂) ∧ p.OffProfile settings s p₂) ∨
    (p₁.tick = .error .addOverflow ∧ ∃ a,
      p₁.side.position.get a = Int32.minValue ∨ p₁.side.position.get a = Int32.maxValue) := by
  obtain ⟨o, p₂, t₂, htick, hproceeds, hrate₂, hquiet⟩ | ⟨o, p₂, htick, hover⟩ | ⟨herr, a, ha⟩ :=
    hcoupled.tick_of_lt h.current_eq h.lt
  · refine .inl ⟨o, p₂, t₂, htick, h.proceed hrun (react_step htick) hproceeds ?_
      ⟨[], by rw [hquiet, List.append_nil], fun e he => by cases he⟩⟩
    rw [hrate₂]
    exact h.within
  · refine .inr (.inl ⟨o, p₂, htick, ?_⟩)
    obtain ⟨es, hes, hall⟩ := h.reports
    obtain hquiet | ⟨s', es', hexec, hevents⟩ := hover
    · exact ⟨es, [], by rw [hquiet, hes, List.append_nil], hall, .inl rfl⟩
    · rw [h.ring_eq, h.slot_eq, hbegins.executing_eq] at hexec
      cases hexec
      exact ⟨es, s.completion ++ es', by rw [hevents, hes]; simp, hall, .inr ⟨es', rfl⟩⟩
  · exact .inr (.inr ⟨herr, a, ha⟩)

end Keeping

theorem Begins.keepsProfile (h : p.Begins slot s) (hvalid : settings.validate = .ok ())
    (htimers : p.side.Runs settings) (hdelta : 0 ≤ s.rateDelta)
    (hrate : s.initialRate ≤ s.nominalRate) (bs : List Beat) :
    p.KeepsProfile settings slot s bs := by
  obtain ⟨t₀, hstart⟩ := h.keeping hvalid htimers hrate
  obtain ⟨held, q, hpoised⟩ := h.poised
  have hcoupled : (p.execute slot s).Coupled held q :=
    ⟨hpoised.holds, hpoised.begun_eq, fun t ht => by cases ht; exact hpoised.slot_eq slot rfl⟩
  refine .mono (?_ : (p.execute slot s).Until
    (fun bs _ p' => ∃ t, Keeping settings p slot s bs p' t) _ _ bs)
    (fun _ _ _ ⟨t, hkeeping⟩ => hkeeping.onProfile hdelta)
    (fun _ _ _ _ _ _ _ hfinal => hfinal) id
  refine .of_beat ⟨t₀, hstart⟩ ?_
  rintro bs₁ b bs₂ os p₁ hbs hrun ⟨t₁, hkeeping⟩
  cases b with
  | trigger i => exact .inl ⟨[], _, rfl, t₁, hkeeping.idle hrun rfl rfl rfl rfl⟩
  | rearm => exact .inl ⟨[], _, rfl, t₁, hkeeping.idle hrun rfl rfl rfl rfl⟩
  | ramp => exact .inl ⟨[], _, rfl, hkeeping.ramp hvalid htimers hdelta hrun⟩
  | step =>
    have hcoupled₁ : p₁.Coupled held q :=
      hcoupled.proceed rfl hkeeping.ring_eq hkeeping.current_eq hkeeping.slot_eq
    obtain ⟨o, p₂, t₂, htick, hkeeping'⟩ | ⟨o, p₂, htick, hover⟩ | ⟨herr, a, ha⟩ :=
      hkeeping.tick h hcoupled₁ hrun
    · exact .inl ⟨[o], p₂, react_step htick, t₂, hkeeping'⟩
    · exact .inr (.inl ⟨rfl, o, p₂, htick, hover⟩)
    · exact .inr (.inr ⟨rfl, herr, bs₁, .step :: bs₂, os, p₁, a, hbs, hrun, ha⟩)

/-- Whenever a tick announces a segment, it goes on with executing the segment, or ends with it. -/
theorem keepsProfile_of_began {good : Segment → Prop} (hvalid : settings.validate = .ok ())
    (h : Reachable good held p) (htimers : p.side.Runs settings) {o : StepOutput}
    (htick : p.tick = .ok (o, p')) {es : List Event}
    (hevents : p'.events.toList = p.events.toList ++ es) (hs : .began s ∈ es)
    (hdelta : 0 ≤ s.rateDelta) (hrate : s.initialRate ≤ s.nominalRate) :
    ∃ (p₀ : Plant n Stepper) (slot : Nat),
      (p.tick = (p₀.execute slot s).tick ∨ p' = p₀.execute slot s) ∧
      ∀ bs : List Beat, p₀.KeepsProfile settings slot s bs := by
  obtain ⟨q, hq⟩ := h.orderly
  obtain ⟨p₀, slot, hbegins, hsame, hgoes⟩ := hq.coupled.begins_of_tick htick hevents hs
  have htimers₀ : p₀.side.Runs settings := by
    rw [hsame]
    exact htimers
  exact ⟨p₀, slot, hgoes, hbegins.keepsProfile hvalid htimers₀ hdelta hrate⟩

/-- A segment that speeds up from 50 to 200 steps per second for two of its six events, and slows
down after the fourth. -/
theorem keepsProfile_of_six : ∃ (settings : Settings) (p : Plant 4 Stepper) (slot : Nat) (s : Segment),
    settings.validate = .ok () ∧ s.initialRate = 50 ∧ s.nominalRate = 200 ∧ s.eventCount = 6 ∧
    p.KeepsProfile settings slot s [.step, .ramp, .step, .ramp, .trigger 0, .rearm, .step] := by
  -- the segment is published in an empty ring, and announced by the next tick
  obtain ⟨settings, p, hproblems, hruns, h, htick⟩ : ∃ (settings : Settings) (p : Plant 4 Stepper),
      settings.problems = [] ∧ p.side.Runs settings ∧ Reachable (fun _ => True) [] p ∧
      (match p.tick with
      | .ok (_, p') => p.events.toList.isEmpty && p'.announced.any fun s =>
        s.initialRate == 50 && s.nominalRate == 200 && s.eventCount == 6 && 0 ≤ s.rateDelta
      | .error _ => false) = true := by
    have hring : Ring.new 4 3 = .ok (Ring.ofLen 3 (by decide) (by decide)) := rfl
    have hfresh : Reachable (fun _ => True) [] ⟨_, .clear, #[],
        .ofSettings { Settings.withDefaultPins with baseFrequency := 1000 }⟩ := .fresh hring rfl
    have hwritten := hfresh.work (.write (s := { Segment.empty with
      steps := ⟨6, 0, 0⟩, eventCount := 6, initialRate := 50, nominalRate := 200, finalRate := 50
      accelerateUntil := 2, decelerateAfter := 4, rateDelta := 40 }) trivial)
    refine ⟨{ Settings.withDefaultPins with baseFrequency := 1000 }, _, by decide +kernel, ?_,
      (hwritten.work (.publish rfl)).work (.run rfl), by decide +kernel⟩
    rfl
  have hvalid : settings.validate = .ok () := (Settings.validate_eq_ok_iff settings).mpr hproblems
  split at htick
  · next o p' hok =>
    rw [Bool.and_eq_true, List.isEmpty_iff, Option.any_eq_true] at htick
    obtain ⟨hnone, s, hs, htest⟩ := htick
    simp only [Bool.and_eq_true, beq_iff_eq, decide_eq_true_iff] at htest
    obtain ⟨⟨⟨hinitial, hnominal⟩, hcount⟩, hdelta⟩ := htest
    obtain ⟨e, he, hbegun⟩ := List.mem_filterMap.mp (List.mem_of_getLast? hs)
    obtain rfl : e = .began s := by cases e <;> simp_all [Event.begun?]
    obtain ⟨p₀, slot, -, hprofile⟩ := keepsProfile_of_began hvalid h hruns hok (by rw [hnone]; rfl)
      he hdelta (by rw [hinitial, hnominal]; decide)
    exact ⟨settings, p₀, slot, s, hvalid, hinitial, hnominal, hcount, hprofile _⟩
  · cases htick

end Plant

end MotionControl
