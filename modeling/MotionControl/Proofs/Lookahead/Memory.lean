import MotionControl.Proofs.Lookahead.Passes
import MotionControl.Proofs.Single.Alike

/-!
# Replanning has no memory

What replanning makes of some segments, their `plan`s, depends on the speeds before and behind them
and on the `Basis` of every segment: number of events, requested speed and rate, and the gear. Entry
speeds and profiles of an earlier plan leave no trace (`Lookahead.replan_congr`), except for the
sign of a zero. The reverse pass reads the old entry speed, but only to see whether it is the new
one.

Replanning takes no notice of anything else in a segment and leaves it as it is
(`Lookahead.unplanned_replan`). So it makes the same of what was planned before as of what was not
(`Lookahead.replan_same`).
-/

namespace MotionControl

open Single (Alike)

/-- Two results that come with the same fault, or with related values. -/
inductive Fault.Agree {α β : Type} (R : α → β → Prop) : Except Fault α → Except Fault β → Prop
  | ok {a : α} {b : β} (h : R a b) : Agree R (.ok a) (.ok b)
  | error (e : Fault) : Agree R (.error e) (.error e)

namespace Fault.Agree

variable {α β γ δ : Type} {R : α → β → Prop} {S : γ → δ → Prop}

theorem bind {x : Except Fault α} {y : Except Fault β} {f : α → Except Fault γ}
    {g : β → Except Fault δ} (h : Agree R x y) (hfg : ∀ a b, R a b → Agree S (f a) (g b)) :
    Agree S (x >>= f) (y >>= g) := by
  cases h with
  | ok h => exact hfg _ _ h
  | error e => exact .error e

theorem mono {T : α → β → Prop} {x : Except Fault α} {y : Except Fault β} (h : Agree R x y)
    (hRT : ∀ a b, R a b → T a b) : Agree T x y := by
  cases h with
  | ok h => exact .ok (hRT _ _ h)
  | error e => exact .error e

theorem refl (x : Except Fault α) : Agree Eq x x := by
  cases x with
  | ok a => exact .ok rfl
  | error e => exact .error e

/-- Values are related as results. -/
theorem attach {x : Except Fault α} {y : Except Fault β} (h : Agree R x y) :
    Agree (fun a b => R a b ∧ x = .ok a ∧ y = .ok b) x y := by
  cases h with
  | ok h => exact .ok ⟨h, rfl, rfl⟩
  | error e => exact .error e

theorem exists_ok {x : Except Fault α} {y : Except Fault β} {a : α} (h : Agree R x y)
    (hx : x = .ok a) : ∃ b, y = .ok b ∧ R a b := by
  subst hx
  cases h with
  | ok h => exact ⟨_, rfl, h⟩

end Fault.Agree

namespace Segment

/-- What replanning reads of a segment. -/
structure Basis where
  /-- number of step events -/
  eventCount : UInt32
  /-- requested speed -/
  nominalSpeed : Float32
  /-- step event rate at the requested speed -/
  nominalRate : UInt32
  /-- what the passes read of a segment with motion -/
  gear : Option Gear

/-- What replanning reads of a segment. -/
def basis (s : Segment) : Basis := ⟨s.eventCount, s.nominalSpeed, s.nominalRate, s.gear⟩

/-- The segment without what replanning writes. -/
def unplanned (s : Segment) : Segment :=
  { s with
    entrySpeed := 0, exitSpeed := 0, maxEntrySpeed := if s.hasMotion then s.maxEntrySpeed else 0
    initialRate := 0, finalRate := 0, accelerateUntil := 0, decelerateAfter := 0, stale := false }

/-- The same speeds, up to the sign of a zero, and the same profile. -/
structure SamePlan (s s' : Segment) : Prop where
  /-- the speed at the start -/
  entrySpeed : Alike s.entrySpeed s'.entrySpeed
  /-- the speed at the end -/
  exitSpeed : Alike s.exitSpeed s'.exitSpeed
  /-- what the junction allows, which a carrier takes over from the segment behind it -/
  maxEntrySpeed : Alike s.maxEntrySpeed s'.maxEntrySpeed
  /-- the rate at the first event -/
  initialRate : s.initialRate = s'.initialRate
  /-- the rate at the last event -/
  finalRate : s.finalRate = s'.finalRate
  /-- the end of acceleration -/
  accelerateUntil : s.accelerateUntil = s'.accelerateUntil
  /-- the start of deceleration -/
  decelerateAfter : s.decelerateAfter = s'.decelerateAfter
  /-- whether the profile is out of date -/
  stale : s.stale = s'.stale

/-- The same segment, up to the sign of zero speeds. -/
structure Same (s s' : Segment) : Prop where
  /-- the same apart from the plan -/
  unplanned : s.unplanned = s'.unplanned
  /-- the same plan -/
  plan : s.SamePlan s'

/-- The same speeds on the same basis. This is what the first two passes lead to. -/
structure Paired (s s' : Segment) : Prop where
  /-- the same basis -/
  basis : s.basis = s'.basis
  /-- the speed at the start -/
  entrySpeed : Alike s.entrySpeed s'.entrySpeed
  /-- what the junction allows -/
  maxEntrySpeed : Alike s.maxEntrySpeed s'.maxEntrySpeed

variable {s s' : Segment} {x x' : Float32}

theorem hasMotion_eq_isSome (s : Segment) : s.hasMotion = s.gear.isSome := by
  unfold gear
  split
  · next h => exact h
  · next h => exact Bool.eq_false_iff.mpr h

theorem basis_unplanned (s : Segment) : s.unplanned.basis = s.basis := by
  have hgear : s.unplanned.gear = s.gear := by
    unfold gear
    change (if s.hasMotion = true then some _ else none) = _
    split
    · next h => simp only [toGear, unplanned, if_pos h]
    · rfl
  rw [basis, hgear]
  rfl

theorem basis_eq_of_unplanned (h : s.unplanned = s'.unplanned) : s.basis = s'.basis := by
  rw [← basis_unplanned, h, basis_unplanned]

theorem eventCount_of_carrier (h : ¬ s.hasMotion = true) : s.eventCount = 0 := by
  rw [hasMotion, decide_eq_true_iff, UInt32.not_lt] at h
  exact UInt32.le_antisymm h (UInt32.le_iff_toNat_le.mpr (Nat.zero_le _))

end Segment

namespace Lookahead

open Segment

variable {s s' : Segment} {ss ss' : List Segment} {x x' final final' boundary boundary' : Float32}

/-! ## The reverse pass -/

theorem hasMotion_eq (h : s.basis = s'.basis) : s.hasMotion = s'.hasMotion := by
  rw [hasMotion_eq_isSome, hasMotion_eq_isSome, show s.gear = s'.gear from congrArg Basis.gear h]

theorem nominalSpeed_eq (h : s.basis = s'.basis) : s.nominalSpeed = s'.nominalSpeed :=
  congrArg Basis.nominalSpeed h

/-- Segments with motion have the same gear. -/
theorem toGear_eq (h : s.basis = s'.basis) (hm : s.hasMotion = true) : s.toGear = s'.toGear := by
  have hgear : s.gear = s'.gear := congrArg Basis.gear h
  rw [gear, gear, if_pos hm, if_pos (hasMotion_eq h ▸ hm)] at hgear
  exact Option.some.inj hgear

theorem limitBefore_congr (g : Gear) (h : Alike x x') : g.limitBefore x = g.limitBefore x' := by
  have hconstrained : g.isConstrainedBy x = g.isConstrainedBy x' := by
    rw [Gear.isConstrainedBy, Gear.isConstrainedBy,
      decide_eq_decide.mpr (h.lt_iff (.refl g.maxEntrySpeed))]
  rw [Gear.limitBefore, Gear.limitBefore, hconstrained, Gear.reach, Gear.reach,
    h.maxAllowableSpeed]

theorem entrySpeed_planEntry (s : Segment) (x : Float32) : Alike (s.planEntry x).entrySpeed x := by
  unfold planEntry
  split
  · next heq => exact Alike.symm (.inl heq)
  · exact .refl x

/-- The reverse pass enters a segment with motion at its limit, however it was entered before. -/
theorem entrySpeed_reversePass (s : Segment) (x : Float32) :
    Alike (s.reversePass x).entrySpeed (s.toGear.limitBefore x) := by
  unfold reversePass
  dsimp only
  split
  · -- the segment is left alone where it is entered at its limit already
    next hkeep =>
    rw [Bool.and_eq_true, Bool.not_eq_true'] at hkeep
    rw [show s.toGear.limitBefore x = s.maxEntrySpeed from if_neg (Bool.eq_false_iff.mp hkeep.2)]
    exact .inl hkeep.1
  · split
    · next hcon =>
      rw [show s.toGear.limitBefore x = Single.min s.maxEntrySpeed
        (Profile.maxAllowableSpeed (-s.acceleration) x s.length) from if_pos hcon]
      exact entrySpeed_planEntry s _
    · next hcon =>
      rw [show s.toGear.limitBefore x = s.maxEntrySpeed from if_neg hcon]
      exact entrySpeed_planEntry s _

theorem unplanned_planEntry (s : Segment) (x : Float32) :
    (s.planEntry x).unplanned = s.unplanned ∧ (s.planEntry x).maxEntrySpeed = s.maxEntrySpeed := by
  unfold planEntry
  split <;> exact ⟨rfl, rfl⟩

theorem unplanned_reversePass (s : Segment) (x : Float32) :
    (s.reversePass x).unplanned = s.unplanned ∧
      (s.reversePass x).maxEntrySpeed = s.maxEntrySpeed := by
  unfold reversePass
  dsimp only
  split
  · exact ⟨rfl, rfl⟩
  · split <;> exact unplanned_planEntry s _

theorem unplanned_reverseStep (s : Segment) (x : Float32) :
    (reverseStep s x).unplanned = s.unplanned := by
  unfold reverseStep
  split
  · exact (unplanned_reversePass s x).1
  · next hm =>
    change ({ s.unplanned with maxEntrySpeed := if s.hasMotion then x else 0 } : Segment) = _
    rw [if_neg hm, unplanned, if_neg hm]

theorem reverseStep_congr (h : s.basis = s'.basis) (hx : Alike x x') :
    Paired (reverseStep s x) (reverseStep s' x') := by
  have hbasis : (reverseStep s x).basis = (reverseStep s' x').basis := by
    rw [basis_eq_of_unplanned (unplanned_reverseStep s x), h,
      basis_eq_of_unplanned (unplanned_reverseStep s' x')]
  by_cases hm : s.hasMotion = true
  · have hm' := hasMotion_eq h ▸ hm
    have hgear := toGear_eq h hm
    rw [reverseStep, reverseStep, if_pos hm, if_pos hm'] at hbasis ⊢
    have hlimit : Alike (s.reversePass x).entrySpeed (s'.toGear.limitBefore x') := by
      rw [← limitBefore_congr s'.toGear hx, ← hgear]
      exact entrySpeed_reversePass s x
    refine ⟨hbasis, hlimit.trans (entrySpeed_reversePass s' x').symm, ?_⟩
    rw [(unplanned_reversePass s x).2, (unplanned_reversePass s' x').2,
      show s.maxEntrySpeed = s'.maxEntrySpeed from congrArg Gear.maxEntrySpeed hgear]
    exact .refl _
  · have hm' := hasMotion_eq h ▸ hm
    rw [reverseStep, reverseStep, if_neg hm, if_neg hm'] at hbasis ⊢
    exact ⟨hbasis, hx, hx⟩

theorem entryOf_congr {R : Segment → Segment → Prop}
    (hR : ∀ s s', R s s' → Alike s.entrySpeed s'.entrySpeed) (hf : Alike final final')
    (h : List.Forall₂ R ss ss') : Alike (entryOf final ss) (entryOf final' ss') := by
  cases h with
  | nil => exact hf
  | cons h _ => exact hR _ _ h

theorem reverse_congr (hf : Alike final final') (h : ss.map basis = ss'.map basis) :
    List.Forall₂ Paired (reverse final ss) (reverse final' ss') := by
  induction ss generalizing ss' with
  | nil =>
    rw [List.map_nil, eq_comm, List.map_eq_nil_iff] at h
    rw [h]
    exact .nil
  | cons s ss ih =>
    rw [List.map_cons, eq_comm, List.map_eq_cons_iff] at h
    obtain ⟨s', ss', rfl, hs, hss⟩ := h
    have hrest := ih hss.symm
    exact .cons (reverseStep_congr hs.symm (entryOf_congr (fun _ _ => Paired.entrySpeed) hf hrest))
      hrest

/-! ## The forward pass -/

theorem unplanned_forwardStep (s : Segment) (x : Float32) :
    (forwardStep s x).unplanned = s.unplanned ∧
      (forwardStep s x).maxEntrySpeed = s.maxEntrySpeed := by
  unfold forwardStep forwardPass
  dsimp only
  split
  · split <;> exact ⟨rfl, rfl⟩
  · exact ⟨rfl, rfl⟩

theorem forwardStep_congr (h : Paired s s') (hx : Alike x x') :
    Paired (forwardStep s x) (forwardStep s' x') := by
  have hbasis : (forwardStep s x).basis = (forwardStep s' x').basis := by
    rw [basis_eq_of_unplanned (unplanned_forwardStep s x).1, h.basis,
      basis_eq_of_unplanned (unplanned_forwardStep s' x').1]
  refine ⟨hbasis, ?_, ?_⟩
  · unfold forwardStep forwardPass
    dsimp only
    rw [hasMotion_eq h.basis, nominalSpeed_eq h.basis]
    have hreach := (hx.min (.refl s'.nominalSpeed)).min h.maxEntrySpeed
    split
    · simp only [hreach.lt_iff h.entrySpeed]
      split
      · exact hreach
      · exact h.entrySpeed
    · exact h.entrySpeed.min hx
  · rw [(unplanned_forwardStep s x).2, (unplanned_forwardStep s' x').2]
    exact h.maxEntrySpeed

theorem handover_congr (h : Paired s s') : Alike (handover s) (handover s') := by
  rw [handover_eq, handover_eq, show s.gear = s'.gear from congrArg Basis.gear h.basis]
  cases s'.gear with
  | none => exact h.entrySpeed
  | some g =>
    rw [Option.elim_some, Option.elim_some, Gear.handover, Gear.handover, Gear.reach, Gear.reach,
      h.entrySpeed.maxAllowableSpeed]
    exact .refl _

theorem forward_congr (hx : Alike x x') (h : List.Forall₂ Paired ss ss') :
    List.Forall₂ Paired (forward x ss) (forward x' ss') := by
  induction h generalizing x x' with
  | nil => exact .nil
  | cons h _ ih =>
    have hstep := forwardStep_congr h hx
    exact .cons hstep (ih (handover_congr hstep))

/-! ## Profiles -/

theorem rateOfFactor_congr (hrate : s.nominalRate = s'.nominalRate) (hx : Alike x x') :
    s.rateOfFactor x = s'.rateOfFactor x' := by
  rw [rateOfFactor, rateOfFactor, hx.mul_unitFactor, hrate]

theorem speedFactor_congr (hspeed : s.nominalSpeed = s'.nominalSpeed) (hx : Alike x x') :
    Alike (s.speedFactor x) (s'.speedFactor x') := by
  rw [speedFactor, speedFactor, hspeed]
  split
  · exact (hx.div s'.nominalSpeed).unitFactor
  · exact .refl 0

theorem stepAcceleration_congr (h : s.basis = s'.basis) (hm : s.hasMotion = true) :
    s.stepAcceleration = s'.stepAcceleration := by
  have hgear := toGear_eq h hm
  rw [stepAcceleration, stepAcceleration, show s.length = s'.length from congrArg Gear.length hgear,
    show s.acceleration = s'.acceleration from congrArg Gear.acceleration hgear,
    show s.eventCount = s'.eventCount from congrArg Basis.eventCount h]

/-- The rates and events of a trapezoid depend on the basis and on the factors. -/
theorem planTrapezoid_congr (h : s.basis = s'.basis) {e e' : Float32} (he : Alike e e')
    (hx : Alike x x') :
    Fault.Agree (fun t t' => t.initialRate = t'.initialRate ∧ t.finalRate = t'.finalRate ∧
        t.accelerateUntil = t'.accelerateUntil ∧ t.decelerateAfter = t'.decelerateAfter)
      (s.planTrapezoid e x) (s'.planTrapezoid e' x') := by
  have hcount : s.eventCount = s'.eventCount := congrArg Basis.eventCount h
  have hrate : s.nominalRate = s'.nominalRate := congrArg Basis.nominalRate h
  have hinitial := rateOfFactor_congr hrate he
  have hfinal := rateOfFactor_congr hrate hx
  unfold planTrapezoid
  dsimp only
  by_cases hm : s.hasMotion = true
  · have hacceleration : ({ s with
        initialRate := s.rateOfFactor e
        finalRate := s.rateOfFactor x } : Segment).stepAcceleration =
        ({ s' with initialRate := s'.rateOfFactor e'
                   finalRate := s'.rateOfFactor x' } : Segment).stepAcceleration :=
      stepAcceleration_congr h hm
    rw [hacceleration, hcount, hrate, hinitial, hfinal]
    split
    · exact .ok ⟨rfl, rfl, rfl, rfl⟩
    · refine (Fault.Agree.refl _).bind ?_
      rintro k _ rfl
      refine (Fault.Agree.refl _).bind ?_
      rintro plateau _ rfl
      split <;> exact .ok ⟨rfl, rfl, rfl, rfl⟩
  · have hzero := eventCount_of_carrier hm
    have hzero' := hcount.symm.trans hzero
    rw [if_pos (by rw [hzero]; rfl), if_pos (by rw [hzero']; rfl)]
    exact .ok ⟨hinitial, hfinal, rfl, hcount⟩

theorem profile_congr (h : Paired s s') (hx : Alike x x') :
    Fault.Agree SamePlan (profile s x) (profile s' x') := by
  have hspeed := nominalSpeed_eq h.basis
  have hbasis : ({ s with exitSpeed := x } : Segment).basis =
      ({ s' with exitSpeed := x' } : Segment).basis := h.basis
  have htrapezoid := planTrapezoid_congr hbasis (speedFactor_congr hspeed h.entrySpeed)
    (speedFactor_congr hspeed hx)
  refine htrapezoid.attach.bind ?_
  rintro t t' ⟨⟨hinitial, hfinal, hup, hdown⟩, ht, ht'⟩
  obtain ⟨_, _, _, _, rfl⟩ := planTrapezoid_eq ht
  obtain ⟨_, _, _, _, rfl⟩ := planTrapezoid_eq ht'
  exact .ok ⟨h.entrySpeed, hx, h.maxEntrySpeed, hinitial, hfinal, hup, hdown, rfl⟩

theorem profiles_congr (hf : Alike final final') (h : List.Forall₂ Paired ss ss') :
    Fault.Agree (List.Forall₂ SamePlan) (profiles final ss) (profiles final' ss') := by
  induction h with
  | nil => exact .ok .nil
  | cons h hrest ih =>
    refine (profile_congr h (entryOf_congr (fun _ _ => Paired.entrySpeed) hf hrest)).bind ?_
    intro s s' hs
    refine ih.bind fun ss ss' hss => ?_
    exact .ok (.cons hs hss)

/-! ## All passes -/

/-- Replanning depends on nothing but the basis of the segments and the speeds before and behind
them. -/
theorem replan_congr (hb : Alike boundary boundary') (hf : Alike final final')
    (h : ss.map basis = ss'.map basis) :
    Fault.Agree (List.Forall₂ SamePlan) (replan boundary final ss)
      (replan boundary' final' ss') :=
  profiles_congr hf (forward_congr hb (reverse_congr hf h))

theorem unplanned_profile (h : profile s x = .ok s') : s'.unplanned = s.unplanned := by
  obtain ⟨t, ht, h⟩ := Fault.bind_eq_ok.mp h
  obtain ⟨_, _, _, _, rfl⟩ := planTrapezoid_eq ht
  cases h
  rfl

theorem unplanned_profiles (h : profiles final ss = .ok ss') :
    ss'.map unplanned = ss.map unplanned := by
  induction ss generalizing ss' with
  | nil =>
    cases h
    rfl
  | cons s ss ih =>
    obtain ⟨t, ht, h⟩ := Fault.bind_eq_ok.mp h
    obtain ⟨ts, hts, h⟩ := Fault.bind_eq_ok.mp h
    cases h
    rw [List.map_cons, List.map_cons, unplanned_profile ht, ih hts]

theorem unplanned_reverse (final : Float32) (ss : List Segment) :
    (reverse final ss).map unplanned = ss.map unplanned := by
  induction ss with
  | nil => rfl
  | cons s ss ih => rw [reverse, List.map_cons, List.map_cons, unplanned_reverseStep, ih]

theorem unplanned_forward (x : Float32) (ss : List Segment) :
    (forward x ss).map unplanned = ss.map unplanned := by
  induction ss generalizing x with
  | nil => rfl
  | cons s ss ih => rw [forward, List.map_cons, List.map_cons, (unplanned_forwardStep s x).1, ih]

/-- Replanning leaves alone what is not the plan. -/
theorem unplanned_replan (h : replan boundary final ss = .ok ss') :
    ss'.map unplanned = ss.map unplanned := by
  rw [unplanned_profiles h, unplanned_forward, unplanned_reverse]

theorem map_basis_eq (h : ss.map unplanned = ss'.map unplanned) : ss.map basis = ss'.map basis := by
  have hmap (ss : List Segment) : ss.map basis = (ss.map unplanned).map basis := by
    rw [List.map_map]
    exact List.map_congr_left fun s _ => (basis_unplanned s).symm
  rw [hmap, h, ← hmap]

/-- The same plans for what is otherwise the same. -/
theorem forall₂_same (h : ss.map unplanned = ss'.map unplanned)
    (hplan : List.Forall₂ SamePlan ss ss') : List.Forall₂ Same ss ss' := by
  induction hplan with
  | nil => exact .nil
  | cons hs _ ih =>
    obtain ⟨hu, hus⟩ := List.cons.inj h
    exact .cons ⟨hu, hs⟩ (ih hus)

/-- Replanning depends on nothing that an earlier plan left behind. -/
theorem replan_same (hb : Alike boundary boundary') (h : ss.map unplanned = ss'.map unplanned) :
    Fault.Agree (List.Forall₂ Same) (replan boundary final ss) (replan boundary' final ss') := by
  refine (replan_congr hb (.refl final) (map_basis_eq h)).attach.mono ?_
  rintro ts ts' ⟨hplan, hts, hts'⟩
  refine forall₂_same ?_ hplan
  rw [unplanned_replan hts, unplanned_replan hts', h]

/-! ## Numbers

Where all speeds are numbers, so are those of the plan. Then alike means equal. -/

theorem isNaN_entryOf (hf : final.isNaN = false) (h : ∀ s ∈ ss, s.entrySpeed.isNaN = false) :
    (entryOf final ss).isNaN = false := by
  cases ss with
  | nil => exact hf
  | cons s ss => exact h s List.mem_cons_self

theorem isNaN_reverse (hf : final.isNaN = false)
    (hss : ∀ s ∈ ss, s.hasMotion = true → s.maxEntrySpeed.isNaN = false) :
    ∀ s ∈ reverse final ss, s.entrySpeed.isNaN = false := by
  induction ss with
  | nil => exact fun s hs => absurd hs List.not_mem_nil
  | cons s ss ih =>
    obtain ⟨hs, hss⟩ := List.forall_mem_cons.mp hss
    have hnext := isNaN_entryOf hf (ih hss)
    refine List.forall_mem_cons.mpr ⟨?_, ih hss⟩
    unfold reverseStep
    split
    · next hm =>
      rw [(entrySpeed_reversePass s _).isNaN_eq, Gear.limitBefore]
      split
      · exact Single.isNaN_min (.inl (hs hm))
      · exact hs hm
    · exact hnext

theorem isNaN_forward (hss : ∀ s ∈ ss, s.entrySpeed.isNaN = false) (x : Float32) :
    ∀ s ∈ forward x ss, s.entrySpeed.isNaN = false := by
  induction ss generalizing x with
  | nil => exact fun s hs => absurd hs List.not_mem_nil
  | cons s ss ih =>
    obtain ⟨hs, hss⟩ := List.forall_mem_cons.mp hss
    refine List.forall_mem_cons.mpr ⟨?_, ih hss _⟩
    unfold forwardStep forwardPass
    dsimp only
    split
    · split
      · next hlt => exact Single.isNaN_of_lt hlt
      · exact hs
    · exact Single.isNaN_min (.inl hs)

theorem replan_numbers (hf : final.isNaN = false)
    (hss : ∀ s ∈ ss, s.hasMotion = true → s.maxEntrySpeed.isNaN = false)
    (h : replan boundary final ss = .ok ss') :
    ∀ s ∈ ss', s.entrySpeed.isNaN = false ∧ s.exitSpeed.isNaN = false := by
  obtain ⟨hmap, hlinked⟩ := profiles_spec h
  have hentries : ∀ s ∈ ss', s.entrySpeed.isNaN = false := by
    intro s hs
    have hmem : (s.gear, s.entrySpeed) ∈ ss'.map fun s => (s.gear, s.entrySpeed) :=
      List.mem_map_of_mem hs
    rw [hmap] at hmem
    obtain ⟨s₀, hs₀, heq⟩ := List.mem_map.mp hmem
    obtain ⟨-, hentry⟩ := Prod.mk.inj heq
    rw [← hentry]
    exact isNaN_forward (isNaN_reverse hf hss) boundary s₀ hs₀
  clear h hmap hss
  induction ss' with
  | nil => exact fun s hs => absurd hs List.not_mem_nil
  | cons s ss' ih =>
    obtain ⟨hs, hss'⟩ := List.forall_mem_cons.mp hentries
    refine List.forall_mem_cons.mpr ⟨⟨hs, ?_⟩, ih hlinked.2 hss'⟩
    rw [hlinked.1]
    exact isNaN_entryOf hf hss'

end Lookahead

end MotionControl
