import MotionControl.Proofs.Motion.Clock
import MotionControl.Proofs.Motion.Moments
import MotionControl.Proofs.Single.Counts
import MotionControl.Settings.Check

/-!
# Pace

The advance of the phase with every tick of the step timer is the step rate divided by the step tick
rate, in 65536ths and rounded down, so that it depends on the settings whether it can become zero.
It cannot if the lower bound on the step rate is at least the 65536th part of the step tick rate
(`Stepper.Geared`), whatever the ramp timer does: `Stepper.Paced` is kept by all deeds.

What the two timers do to a traversal is the same for any property of it: if they keep it, and
segments are begun with it (`Stepper.Keeps`), then whatever a plant executes has it
(`Plant.Coupled.bears_of_tick`).
-/

namespace MotionControl

variable {n : Nat}

/-! ## The rate -/

/-- A step timer ticks at most 65536 times as often as the slowest step events come. -/
structure Gearing (frequency minimum : UInt32) : Prop where
  /-- the step tick rate is a float without rounding -/
  frequency_lt : frequency.toNat < 2 ^ 24
  /-- the lower bound on the rate is one that the timer can keep up with -/
  minimum_le : minimum ≤ frequency
  /-- and it is at least a 65536th of the step tick rate -/
  frequency_le : frequency.toNat ≤ 65536 * minimum.toNat

namespace Stepper

/-- The step timer is not too fast for the slowest step events. -/
abbrev Geared (s : Stepper) : Prop := Gearing s.baseFrequency s.minimumRate

/-- The ratio of two counts in 65536ths. -/
theorem ratio_le {x y : Nat} (h : x ≤ y) : x * 65536 / y ≤ 65536 :=
  Nat.div_le_of_le_mul (Nat.mul_le_mul_right _ h)

/-- The increment of a rate is its ratio to the step tick rate, rounded down. -/
theorem bits_incrementOf_eq {s : Stepper} (hpos : 0 < s.baseFrequency.toNat) (rate : UInt32) :
    (s.incrementOf rate).bits.toNat =
      (min rate s.baseFrequency).toNat * 65536 / s.baseFrequency.toNat := by
  have hle : (min rate s.baseFrequency).toNat ≤ s.baseFrequency.toNat :=
    UInt32.le_iff_toNat_le.mp Std.min_le_right
  have hratio := ratio_le hle
  have hsize : UInt32.size = 4294967296 := rfl
  unfold incrementOf Q16.ofRatio?
  rw [if_neg (fun hzero => by rw [hzero] at hpos; exact absurd hpos (by decide))]
  dsimp only
  rw [if_pos (by omega), Option.getD_some, UInt32.toNat_ofNat_of_lt' (by omega)]

/-- No rate advances the phase by more than one. -/
theorem bits_incrementOf_le (s : Stepper) (rate : UInt32) :
    (s.incrementOf rate).bits.toNat ≤ 65536 := by
  obtain hzero | hpos := Nat.eq_zero_or_pos s.baseFrequency.toNat
  · have hbase : s.baseFrequency = 0 := UInt32.toNat_inj.mp hzero
    rw [incrementOf, Q16.ofRatio?, if_pos hbase]
    decide
  · rw [bits_incrementOf_eq hpos]
    exact ratio_le (UInt32.le_iff_toNat_le.mp Std.min_le_right)

namespace Geared

variable {s : Stepper}

/-- From the lower bound on, a rate advances the phase, and by one at most. -/
theorem bits_incrementOf (h : s.Geared) {rate : UInt32} (hrate : s.minimumRate ≤ rate) :
    0 < (s.incrementOf rate).bits.toNat ∧ (s.incrementOf rate).bits.toNat ≤ 65536 := by
  refine ⟨?_, s.bits_incrementOf_le rate⟩
  have hge : s.minimumRate.toNat ≤ (min rate s.baseFrequency).toNat :=
    UInt32.le_iff_toNat_le.mp (Std.le_min_iff.mpr ⟨hrate, h.minimum_le⟩)
  have hfrequency := h.frequency_le
  obtain hzero | hpos := Nat.eq_zero_or_pos s.baseFrequency.toNat
  · have hbase : s.baseFrequency = 0 := UInt32.toNat_inj.mp hzero
    rw [incrementOf, Q16.ofRatio?, if_pos hbase]
    decide
  · rw [bits_incrementOf_eq hpos]
    exact Nat.div_pos (by omega) hpos

theorem minimumRate_le_entryRate (h : s.Geared) (segment : Segment) :
    s.minimumRate ≤ Single.ceilCount (s.entryRate segment) := by
  have hmax : s.minimumRate ≤ max segment.initialRate s.minimumRate := by
    change s.minimumRate ≤ if segment.initialRate ≤ s.minimumRate then s.minimumRate
      else segment.initialRate
    split
    · exact UInt32.le_refl _
    · next hlt => exact UInt32.le_of_lt (UInt32.not_le.mp hlt)
  have hmin : min (max segment.initialRate s.minimumRate) s.baseFrequency ≤ s.baseFrequency :=
    Std.min_le_right
  refine UInt32.le_trans (Std.le_min_iff.mpr ⟨hmax, h.minimum_le⟩)
    (Single.le_ceilCount_toFloat32 ?_)
  exact Nat.lt_of_le_of_lt (UInt32.le_iff_toNat_le.mp hmin) h.frequency_lt

theorem minimumRate_le_nextRate (h : s.Geared) (t : Traversal) :
    s.minimumRate ≤ Single.ceilCount (s.nextRate t) :=
  Single.le_ceilCount_between h.minimum_le h.frequency_lt _

end Geared

end Stepper

/-- The rates of valid settings: the step tick rate is low enough for a float, and the lower bound
on the step rate is below it. -/
theorem Settings.rates_of_valid {s : Settings} (hvalid : s.validate = .ok ()) :
    s.baseFrequency.toNat < 2 ^ 24 ∧ s.minimumStepRate < s.baseFrequency := by
  rw [Settings.validate_eq_ok_iff, Settings.problems, Settings.scalarProblems] at hvalid
  simp only [List.append_eq_nil_iff, problemUnless_eq_nil_iff, Bool.and_eq_true,
    decide_eq_true_iff, bne_iff_ne] at hvalid
  obtain ⟨⟨⟨⟨-, hminimum⟩, hpulse⟩, -⟩, -⟩ := hvalid
  refine ⟨?_, hminimum.2⟩
  -- a pulse of at least a microsecond fits inside a step tick
  have hwide : 1 ≤ s.stepPulseUs.toNat :=
    Nat.pos_of_ne_zero fun h0 => hpulse.1 (UInt32.toNat_inj.mp h0)
  have hfits := UInt64.lt_iff_toNat_lt.mp hpulse.2
  rw [toNat_toUInt64_mul] at hfits
  exact Nat.lt_of_le_of_lt (Nat.le_mul_of_pos_left _ hwide) (Nat.lt_trans hfits (by decide))

/-- Valid settings leave it open only whether the lower bound on the rate is too low. -/
theorem Stepper.geared_ofSettings {s : Settings} (hvalid : s.validate = .ok ())
    (hlow : s.baseFrequency.toNat ≤ 65536 * s.minimumStepRate.toNat) :
    (ofSettings s).Geared := by
  obtain ⟨hfrequency, hminimum⟩ := Settings.rates_of_valid hvalid
  have hmin : (ofSettings s).minimumRate = s.minimumStepRate :=
    if_pos (UInt32.le_of_lt hminimum)
  exact ⟨hfrequency, Std.min_le_right, by rw [hmin]; exact hlow⟩

/-! ## What the timers keep of a traversal -/

/-- A traversal at some rate. -/
def Stepper.atRate (s : Stepper) (t : Traversal) (rate : Float32) : Traversal :=
  { t with rate := rate, increment := s.incrementOf (Single.ceilCount rate) }

/-- A property that traversals have from the beginning on, and that neither stops nor the two timers
take away. -/
structure Stepper.Keeps (s : Stepper) (kept : Traversal → Prop) : Prop where
  /-- a segment with motion is begun -/
  enter : ∀ slot segment, segment.hasMotion = true →
    kept (s.atRate (.ofSegment slot segment) (s.entryRate segment))
  /-- a tick of the ramp timer changes the rate -/
  ramp : ∀ t, kept t → kept (s.atRate t (s.nextRate t))
  /-- a stop cuts steps off -/
  cut : ∀ t stopped, kept t → kept (t.cut stopped)
  /-- a tick of the step timer performs no event -/
  wait : ∀ t, kept t → t.advancePhase.isDue = false → kept t.advancePhase
  /-- a tick of the step timer performs an event, and not the last one -/
  strike : ∀ t, kept t → t.advancePhase.isDue = true →
    t.advancePhase.wrapPhase.stepEvent.isComplete = false →
    kept t.advancePhase.wrapPhase.stepEvent

namespace Plant

variable {p p' : Plant n Stepper} {s : Stepper} {kept : Traversal → Prop} {t : Traversal}
  {held : List Nat} {q : Fifo}

/-- A plant has the timers of a stepper, and what it executes has a property. -/
structure Bears (p : Plant n Stepper) (s : Stepper) (kept : Traversal → Prop) : Prop where
  /-- the timers are the same -/
  timers : p.side = { s with current := p.side.current, position := p.side.position }
  /-- the traversal has the property -/
  current : ∀ t, p.side.current = some t → kept t

theorem Bears.proceed (h : p.Bears s kept) (htimers : p.SameTimers p')
    (hc : ∀ t, p'.side.current = some t → kept t) : p'.Bears s kept := by
  refine ⟨?_, hc⟩
  rw [SameTimers, h.timers] at htimers
  exact htimers

theorem Bears.rest (h : p.Bears s kept) (htimers : p.SameTimers p')
    (hc : p'.side.current = none) : p'.Bears s kept :=
  h.proceed htimers fun t ht => by rw [hc] at ht; cases ht

theorem bears_runAt (htimers : p.side = { s with
    current := p.side.current, position := p.side.position }) {rate : Float32}
    (ht : kept (s.atRate t rate)) : (p.runAt t rate).Bears s kept := by
  refine ⟨by rw [runAt, publish, setCurrent, htimers], fun t' ht' => ?_⟩
  obtain rfl : p.side.atRate t rate = t' := Option.some.inj ht'
  rw [htimers]
  exact ht

theorem bears_execute (htimers : p.side = { s with
    current := p.side.current, position := p.side.position }) (hs : s.Keeps kept) {slot : Nat}
    {segment : Segment} (hm : segment.hasMotion = true) :
    (p.execute slot segment).Bears s kept := by
  have hentry : p.side.entryRate segment = s.entryRate segment := by
    rw [htimers]
    rfl
  rw [execute, hentry]
  exact bears_runAt (p := p.publish (.began segment)) htimers (hs.enter slot segment hm)

theorem Onward.bears {next : Option Nat} {es : List Event} (h : Onward next p es p')
    (hs : s.Keeps kept) (hp : p.Bears s kept) : p'.Bears s kept := by
  induction h with
  | rest => exact hp.rest rfl rfl
  | discard hstop => exact hp.rest rfl rfl
  | start hclear hexec hm => exact bears_execute hp.timers hs hm
  | pass hclear hexec hm hr honward ih =>
    refine ih ⟨?_, ?_⟩
    · rw [side_publishCompletion]
      exact hp.timers
    · rw [side_publishCompletion]
      exact hp.current

theorem Performs.bears {o : StepOutput} {es : List Event} (h : p.Performs t o es p')
    (hs : s.Keeps kept) (hp : p.Bears s kept)
    (ht : t.stepEvent.isComplete = false → kept t.stepEvent) : p'.Bears s kept := by
  cases h with
  | goesOn hpos hmore => exact hp.proceed rfl fun t ht' => Option.some.inj ht' ▸ ht hmore
  | cutShort hpos hdone hint => exact hp.rest rfl rfl
  | last hpos hdone hint hexec hr honward =>
    refine honward.bears hs (hp.rest ?_ ?_)
    · rw [SameTimers, side_publishCompletion]
      rfl
    · rw [side_publishCompletion]
      rfl

theorem Coupled.bears_of_traverse (h : p.Coupled held q) (hc : p.side.current = some t)
    (hs : s.Keeps kept) (hp : p.Bears s kept) {o : StepOutput}
    (hok : p.traverse t = .ok (o, p')) : p'.Bears s kept := by
  have hcut := hs.cut t p.stop.bits (hp.current t hc)
  unfold traverse at hok
  dsimp only at hok
  split at hok
  · cases hok
    exact hp.rest rfl rfl
  unfold advancePhase at hok
  dsimp only at hok
  split at hok
  · next hdue =>
    obtain ⟨o', es, p₁, hok', hperforms⟩ | ⟨herr, -⟩ := h.performs hc
      (show (t.cut p.stop.bits).advancePhase.wrapPhase.slot = t.slot from rfl)
    · rw [hok] at hok'
      cases hok'
      exact hperforms.bears hs hp (hs.strike _ hcut hdue)
    · rw [hok] at herr
      cases herr
  · next hdue =>
    cases hok
    have hwait := hs.wait _ hcut (Bool.eq_false_iff.mpr hdue)
    exact hp.proceed rfl fun t ht => Option.some.inj ht ▸ hwait

theorem Coupled.bears_of_prepare (h : p.Coupled held q) (hs : s.Keeps kept) (hp : p.Bears s kept)
    {ready : Plant n Stepper} (hready : p.prepare = .ok ready) : ready.Bears s kept := by
  unfold prepare at hready
  split at hready
  · cases hready
    exact hp
  next hc =>
  split at hready
  · cases hready
    split <;> exact ⟨hp.timers, hp.current⟩
  · obtain ⟨q₁, hpoised⟩ := h.taken hc
    obtain ⟨p₁, es, hok, honward⟩ := hpoised.onward
    rw [beginNext_eq_advance, hok] at hready
    cases hready
    exact honward.bears hs ⟨hp.timers, hp.current⟩

/-- A tick of the step timer keeps what the timers keep. -/
theorem Coupled.bears_of_tick (h : p.Coupled held q) (hs : s.Keeps kept) (hp : p.Bears s kept)
    {o : StepOutput} (htick : p.tick = .ok (o, p')) : p'.Bears s kept := by
  obtain ⟨ready, q', es, hready, hout, -⟩ := prepare_eq h
  have hbears := h.bears_of_prepare hs hp hready
  rw [tick_eq_prepare, hready] at htick
  dsimp only [bind, Except.bind] at htick
  cases hc : ready.side.current with
  | some t =>
    rw [hc] at htick
    exact hout.coupled.bears_of_traverse hc hs hbears htick
  | none =>
    rw [hc] at htick
    cases htick
    exact hbears

/-- And so does a tick of the ramp timer. -/
theorem Bears.rampTick (h : p.Bears s kept) (hs : s.Keeps kept) : p.rampTick.Bears s kept := by
  unfold Plant.rampTick
  split
  · next t hc =>
    dsimp only
    split
    · exact h
    · have hnext : p.side.nextRate t = s.nextRate t := by
        rw [h.timers]
        rfl
      rw [hnext]
      exact bears_runAt h.timers (hs.ramp t (h.current t hc))
  · exact h

end Plant

/-! ## Every tick keeps the phase moving -/

/-- Whatever is executed advances with every tick. -/
structure Stepper.Paced (s : Stepper) : Prop where
  /-- the step timer is not too fast -/
  geared : s.Geared
  /-- the traversal advances -/
  advances : ∀ t, s.current = some t → t.Advances

namespace Stepper

variable {s : Stepper} {t : Traversal}

theorem Paced.of_none (h : s.Geared) (hc : s.current = none) : s.Paced :=
  ⟨h, fun t ht => by rw [hc] at ht; cases ht⟩

theorem Paced.of_some (h : s.Geared) (hc : s.current = some t) (ht : t.Advances) : s.Paced :=
  ⟨h, fun t' ht' => by rw [hc] at ht'; cases ht'; exact ht⟩

theorem Geared.advances_atRate (h : s.Geared) (hphase : t.phase.bits.toNat < 65536)
    {rate : Float32} (hrate : s.minimumRate ≤ Single.ceilCount rate) :
    (s.atRate t rate).Advances := by
  obtain ⟨hpos, hle⟩ := h.bits_incrementOf hrate
  exact ⟨⟨hphase, hle⟩, hpos⟩

theorem Geared.keeps_advances (h : s.Geared) : s.Keeps Traversal.Advances where
  enter slot segment _ := h.advances_atRate (t := .ofSegment slot segment)
    (Nat.zero_lt_succ 65535) (h.minimumRate_le_entryRate segment)
  ramp t ht := h.advances_atRate ht.phase_lt (h.minimumRate_le_nextRate t)
  cut _ _ ht := ⟨⟨ht.phase_lt, ht.increment_le⟩, ht.increment_pos⟩
  wait _ ht hdue := (ht.wait hdue).1
  strike _ ht hdue _ := ht.strike hdue

end Stepper

namespace Plant

variable {p p' : Plant n Stepper} {held : List Nat} {q : Fifo}

theorem bears_of_paced (h : p.side.Paced) : p.Bears p.side Traversal.Advances := ⟨rfl, h.advances⟩

theorem Bears.paced {s : Stepper} (h : p.Bears s Traversal.Advances) (hs : s.Geared) :
    p.side.Paced := by
  refine ⟨?_, h.current⟩
  rw [h.timers]
  exact hs

theorem paced_execute (h : p.side.Geared) (slot : Nat) {s : Segment} (hm : s.hasMotion = true) :
    (p.execute slot s).side.Paced :=
  (bears_execute rfl h.keeps_advances hm).paced h

theorem Coupled.paced_of_tick (h : p.Coupled held q) (hp : p.side.Paced) {o : StepOutput}
    (htick : p.tick = .ok (o, p')) : p'.side.Paced :=
  (h.bears_of_tick hp.geared.keeps_advances (bears_of_paced hp) htick).paced hp.geared

theorem paced_rampTick (hp : p.side.Paced) : p.rampTick.side.Paced :=
  ((bears_of_paced hp).rampTick hp.geared.keeps_advances).paced hp.geared

end Plant

namespace Moment

variable {good : Segment → Prop} {lowers : Prop} {m₀ m m' : Moment n}

theorem Deed.paced (hd : Deed good lowers m m')
    (h : Plant.Reachable good m.held m.plant.strip) (hm : m.plant.side.stepper.Paced) :
    m'.plant.side.stepper.Paced := by
  cases hd with
  | setPosition position => exact ⟨hm.geared, hm.advances⟩
  | @beat b p hb hlowers =>
    cases b with
    | step =>
      obtain ⟨q, hq⟩ := h.orderly
      obtain ⟨o, htick⟩ := Plant.tick_of_recordTick hb
      exact hq.coupled.paced_of_tick hm htick
    | ramp =>
      cases hb
      exact Plant.paced_rampTick (p := m.plant.strip) hm
    | _ =>
      cases hb
      exact hm
  | _ => exact hm

theorem After.paced (h : After good lowers m₀ m) (h₀ : m₀.plant.side.stepper.Paced) :
    m.plant.side.stepper.Paced := by
  induction h with
  | start _ => exact h₀
  | deed h hdeed ih => exact hdeed.paced h.reachable ih

end Moment

end MotionControl
