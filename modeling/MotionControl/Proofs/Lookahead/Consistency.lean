import MotionControl.Proofs.Lookahead.Memory
import MotionControl.Proofs.Lookahead.Trapezoid
import MotionControl.Proofs.Single.Order

/-!
# Junctions after replanning

After the three passes every junction is consistent, whatever the speeds were before and whatever
the lengths and accelerations are: each segment is entered no faster than the one before it can be
going by then (`Attainable`), it ends at the speed at which the next one is entered (`Linked`), and
no profile is out of date (`replan_consistent`). All that is needed is that the speeds be numbers,
for nothing is below a NaN.

The passes divide the work. The reverse pass leaves speeds that are numbers, and carriers that are
entered no faster than they say (`Segment.Limited`). The forward pass makes entry speeds attainable,
and the last pass leaves them alone.
-/

namespace MotionControl

namespace Segment

/-- The segment is entered no faster than at a speed, than its junction allows, and than is
requested of it. -/
structure EnteredBelow (s : Segment) (speed : Float32) : Prop where
  /-- the speed is not exceeded -/
  le_speed : s.entrySpeed ≤ speed
  /-- what the junction allows is not exceeded -/
  le_maxEntrySpeed : s.entrySpeed ≤ s.maxEntrySpeed
  /-- what is requested of a segment with motion is not exceeded -/
  le_nominalSpeed : s.hasMotion = true → s.entrySpeed ≤ s.nominalSpeed

/-- The speeds that a segment with motion is given are numbers. A carrier is given none. -/
def HasNumbers (s : Segment) : Prop :=
  s.hasMotion = true → s.maxEntrySpeed.isNaN = false ∧ s.nominalSpeed.isNaN = false

/-- The speeds are numbers, and a carrier is entered no faster than it says. -/
structure Limited (s : Segment) : Prop where
  /-- the speed at the start is a number -/
  entrySpeed : s.entrySpeed.isNaN = false
  /-- so is what the junction allows -/
  maxEntrySpeed : s.maxEntrySpeed.isNaN = false
  /-- and what is requested of a segment with motion -/
  nominalSpeed : s.hasMotion = true → s.nominalSpeed.isNaN = false
  /-- a carrier is entered no faster than it says -/
  carrier : s.hasMotion = false → s.entrySpeed ≤ s.maxEntrySpeed

/-- The ramps of a segment with motion are of a length that can be counted. -/
def HasRamps (s : Segment) : Prop :=
  s.hasMotion = true → Single.isPositive s.length = true ∧
    Single.isPositive s.acceleration = true ∧ s.hasEndlessRamps = false

end Segment

namespace Lookahead

open Segment

variable {s s' : Segment} {ss ss' : List Segment} {x speed final boundary : Float32}

/-- Each segment is entered no faster than the one before it can be going by then, the first one no
faster than at a given speed. -/
def Attainable : Float32 → List Segment → Prop
  | _, [] => True
  | speed, s :: ss => s.EnteredBelow speed ∧ Attainable (handover s) ss

/-! ## The reverse pass -/

theorem hasMotion_reverseStep (s : Segment) (x : Float32) :
    (reverseStep s x).hasMotion = s.hasMotion :=
  hasMotion_eq (basis_eq_of_unplanned (unplanned_reverseStep s x))

/-- The reverse pass enters a segment with motion no faster than its junction allows. -/
theorem entrySpeed_reversePass_le (s : Segment) (hs : s.maxEntrySpeed.isNaN = false)
    (x : Float32) : (s.reversePass x).entrySpeed ≤ s.maxEntrySpeed := by
  rw [(entrySpeed_reversePass s x).le_iff (.refl _), Gear.limitBefore]
  split
  · exact Single.min_le_left hs
  · exact Single.le_refl hs

theorem limited_reverseStep (hs : s.HasNumbers) (hx : x.isNaN = false) :
    (reverseStep s x).Limited := by
  by_cases hm : s.hasMotion = true
  · obtain ⟨hmax, hnominal⟩ := hs hm
    have hle := entrySpeed_reversePass_le s hmax x
    obtain ⟨hunplanned, hkeep⟩ := unplanned_reversePass s x
    have hrequest := nominalSpeed_eq (basis_eq_of_unplanned hunplanned)
    rw [reverseStep, if_pos hm]
    exact ⟨(Single.isNaN_of_le hle).1, hkeep ▸ hmax, fun _ => hrequest ▸ hnominal,
      fun _ => hkeep ▸ hle⟩
  · rw [reverseStep, if_neg hm]
    exact ⟨hx, hx, fun hmoves => absurd hmoves hm, fun _ => Single.le_refl hx⟩

theorem limited_reverse (hf : final.isNaN = false) (hss : ∀ s ∈ ss, s.HasNumbers) :
    ∀ s ∈ reverse final ss, s.Limited := by
  induction ss with
  | nil => exact fun s hs => absurd hs List.not_mem_nil
  | cons s ss ih =>
    obtain ⟨hs, hss⟩ := List.forall_mem_cons.mp hss
    have hrest := ih hss
    have hnext := isNaN_entryOf hf fun t ht => (hrest t ht).entrySpeed
    exact List.forall_mem_cons.mpr ⟨limited_reverseStep hs hnext, hrest⟩

/-! ## The forward pass -/

/-- The forward pass enters a segment with motion no faster than can be reached. -/
theorem entrySpeed_forwardPass_le (hs : s.Limited) (x : Float32) :
    (s.forwardPass x).entrySpeed ≤ Single.min (Single.min x s.nominalSpeed) s.maxEntrySpeed := by
  have hreachable : (Single.min (Single.min x s.nominalSpeed) s.maxEntrySpeed).isNaN = false :=
    Single.isNaN_min (.inr hs.maxEntrySpeed)
  unfold forwardPass
  dsimp only
  split
  · exact Single.le_refl hreachable
  · next hlt => exact Single.le_of_not_lt hreachable hs.entrySpeed hlt

/-- And so it makes a speed attainable. -/
theorem enteredBelow_forwardStep (hs : s.Limited) (hx : x.isNaN = false) :
    (forwardStep s x).EnteredBelow x := by
  by_cases hm : s.hasMotion = true
  · obtain ⟨hunplanned, hkeep⟩ := unplanned_forwardStep s x
    have hnominal := nominalSpeed_eq (basis_eq_of_unplanned hunplanned)
    rw [forwardStep, if_pos hm] at hkeep hnominal ⊢
    have hlesser : (Single.min x s.nominalSpeed).isNaN = false := Single.isNaN_min (.inl hx)
    have hle := entrySpeed_forwardPass_le hs x
    have hle_both := Single.le_trans hle (Single.min_le_left hlesser)
    refine ⟨Single.le_trans hle_both (Single.min_le_left hx), ?_, fun _ => ?_⟩
    · rw [hkeep]
      exact Single.le_trans hle (Single.min_le_right hs.maxEntrySpeed)
    · rw [hnominal]
      exact Single.le_trans hle_both (Single.min_le_right (hs.nominalSpeed hm))
  · rw [forwardStep, if_neg hm]
    have hle : Single.min s.entrySpeed x ≤ s.entrySpeed := Single.min_le_left hs.entrySpeed
    exact ⟨Single.min_le_right hx,
      Single.le_trans hle (hs.carrier (Bool.eq_false_iff.mpr hm)), fun hmoves => absurd hmoves hm⟩

theorem isNaN_handover_forwardStep (hs : s.Limited) (hx : x.isNaN = false) :
    (handover (forwardStep s x)).isNaN = false := by
  have hbasis := basis_eq_of_unplanned (unplanned_forwardStep s x).1
  have hentry := (Single.isNaN_of_le (enteredBelow_forwardStep hs hx).le_speed).1
  unfold handover maxExitSpeed
  rw [hasMotion_eq hbasis, nominalSpeed_eq hbasis]
  split
  · next hm =>
    split
    · exact hs.nominalSpeed hm
    · exact Single.isNaN_min (.inr (hs.nominalSpeed hm))
  · exact hentry

theorem attainable_forward (hss : ∀ s ∈ ss, s.Limited) (hx : x.isNaN = false) :
    Attainable x (forward x ss) := by
  induction ss generalizing x with
  | nil => trivial
  | cons s ss ih =>
    obtain ⟨hs, hss⟩ := List.forall_mem_cons.mp hss
    exact ⟨enteredBelow_forwardStep hs hx, ih hss (isNaN_handover_forwardStep hs hx)⟩

/-! ## Profiles -/

/-- The last pass changes nothing but the speed at the end and the trapezoid. -/
theorem profile_eq_with (h : profile s x = .ok s') : ∃ initial final up down, s' = { s with
    exitSpeed := x, initialRate := initial, finalRate := final, accelerateUntil := up
    decelerateAfter := down, stale := false } := by
  obtain ⟨t, ht, h⟩ := Fault.bind_eq_ok.mp h
  obtain ⟨initial, final, up, down, rfl⟩ := planTrapezoid_eq ht
  cases h
  exact ⟨initial, final, up, down, rfl⟩

/-- So it leaves speeds attainable, and profiles that are up to date. -/
theorem attainable_profiles (hss : Attainable x ss) (h : profiles final ss = .ok ss') :
    Attainable x ss' ∧ ∀ s ∈ ss', s.stale = false := by
  induction ss generalizing x ss' with
  | nil =>
    cases h
    exact ⟨trivial, fun s hs => absurd hs List.not_mem_nil⟩
  | cons s ss ih =>
    obtain ⟨t, ht, h⟩ := Fault.bind_eq_ok.mp h
    obtain ⟨ts, hts, h⟩ := Fault.bind_eq_ok.mp h
    cases h
    obtain ⟨hrest, hfresh⟩ := ih hss.2 hts
    obtain ⟨_, _, _, _, rfl⟩ := profile_eq_with ht
    exact ⟨⟨⟨hss.1.le_speed, hss.1.le_maxEntrySpeed, hss.1.le_nominalSpeed⟩, hrest⟩,
      List.forall_mem_cons.mpr ⟨rfl, hfresh⟩⟩

/-- The trapezoid of a carrier has no ramps. -/
theorem planTrapezoid_of_carrier (hm : ¬ s.hasMotion = true) (entryFactor exitFactor : Float32) :
    s.planTrapezoid entryFactor exitFactor = .ok { s with
      initialRate := s.rateOfFactor entryFactor, finalRate := s.rateOfFactor exitFactor
      accelerateUntil := 0, decelerateAfter := s.eventCount } := by
  unfold planTrapezoid
  dsimp only
  rw [eventCount_of_carrier hm]
  rfl

/-- Where ramps can be counted there is a trapezoid for any factors. -/
theorem exists_planTrapezoid (hs : s.HasRamps) (entryFactor exitFactor : Float32) :
    ∃ t, s.planTrapezoid entryFactor exitFactor = .ok t := by
  by_cases hm : s.hasMotion = true
  · obtain ⟨hlength, hacceleration, hramps⟩ := hs hm
    obtain ⟨t, ht, -⟩ | ⟨-, hendless⟩ :=
      planTrapezoid_fits hlength hacceleration entryFactor exitFactor
    · exact ⟨t, ht⟩
    · exact absurd hendless (Bool.eq_false_iff.mp hramps)
  · exact ⟨_, planTrapezoid_of_carrier hm entryFactor exitFactor⟩

theorem exists_profile (hs : s.HasRamps) (x : Float32) : ∃ s', profile s x = .ok s' := by
  obtain ⟨t, ht⟩ := exists_planTrapezoid (s := { s with exitSpeed := x }) hs s.entryFactor
    ({ s with exitSpeed := x } : Segment).exitFactor
  exact ⟨_, Fault.bind_eq_ok.mpr ⟨t, ht, rfl⟩⟩

theorem exists_profiles (hss : ∀ s ∈ ss, s.HasRamps) (final : Float32) :
    ∃ ss', profiles final ss = .ok ss' := by
  induction ss with
  | nil => exact ⟨[], rfl⟩
  | cons s ss ih =>
    obtain ⟨hs, hss⟩ := List.forall_mem_cons.mp hss
    obtain ⟨s', hs'⟩ := exists_profile hs (entryOf final ss)
    obtain ⟨ss', hss'⟩ := ih hss
    exact ⟨s' :: ss', Fault.bind_eq_ok.mpr ⟨s', hs', Fault.bind_eq_ok.mpr ⟨ss', hss', rfl⟩⟩⟩

/-! ## All passes -/

/-- Replanning makes every junction consistent. -/
theorem replan_consistent (hb : boundary.isNaN = false) (hf : final.isNaN = false)
    (hss : ∀ s ∈ ss, s.HasNumbers) (h : replan boundary final ss = .ok ss') :
    Attainable boundary ss' ∧ Linked final ss' ∧ ∀ s ∈ ss', s.stale = false := by
  have hattainable := attainable_forward (limited_reverse hf hss) hb
  obtain ⟨hattainable', hfresh⟩ := attainable_profiles hattainable h
  exact ⟨hattainable', (profiles_spec h).2, hfresh⟩

theorem hasRamps_of_unplanned (h : ss'.map unplanned = ss.map unplanned)
    (hss : ∀ s ∈ ss, s.HasRamps) : ∀ s ∈ ss', s.HasRamps := by
  intro s' hs'
  have hmem : s'.unplanned ∈ ss.map unplanned := h ▸ List.mem_map_of_mem hs'
  obtain ⟨s, hs, heq⟩ := List.mem_map.mp hmem
  have hramps : s.unplanned.HasRamps := hss s hs
  rw [heq] at hramps
  exact hramps

/-- Where all ramps can be counted replanning does not fail. -/
theorem exists_replan (hss : ∀ s ∈ ss, s.HasRamps) (boundary final : Float32) :
    ∃ ss', replan boundary final ss = .ok ss' := by
  refine exists_profiles (hasRamps_of_unplanned ?_ hss) final
  rw [unplanned_forward, unplanned_reverse]

end Lookahead

end MotionControl
