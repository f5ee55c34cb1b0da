import MotionControl.Lookahead
import MotionControl.Proofs.Lookahead.Speeds

/-!
# The passes of lookahead

What lookahead reads of a segment with motion, and leaves as it is, is its `Gear`. The gears of some
segments alone say how fast the first of them may be entered at most, so that all of them can still
slow down in time: this is the `limit` that the reverse pass finds. The forward pass enters each
segment at its limit, or at the speed that the segment before it hands over if that is less
(`Paced`). And then each segment ends at the speed at which the next one is entered (`Linked`).

A limit grows with the speed at the end. So more segments behind do not make it less
(`limit_le_append`).
-/

namespace MotionControl

open Rounding

/-- What lookahead reads of a segment with motion, and leaves as it is. -/
structure Gear where
  /-- acceleration in mm/s² -/
  acceleration : Float32
  /-- length in mm -/
  length : Float32
  /-- requested speed -/
  nominalSpeed : Float32
  /-- the most the junction with the previous segment allows -/
  maxEntrySpeed : Float32
  /-- the requested speed can be reached from the final speed -/
  reachesNominal : Bool

/-- The gear of a segment with motion. -/
def Segment.toGear (s : Segment) : Gear where
  acceleration := s.acceleration
  length := s.length
  nominalSpeed := s.nominalSpeed
  maxEntrySpeed := s.maxEntrySpeed
  reachesNominal := s.reachesNominal

/-- The gear of a segment; a carrier has none. -/
def Segment.gear (s : Segment) : Option Gear := if s.hasMotion then some s.toGear else none

namespace Gear

/-- The speed at one end of the segment that goes with a speed at the other end, at most. -/
def reach (g : Gear) (speed : Float32) : Float32 :=
  Profile.maxAllowableSpeed (-g.acceleration) speed g.length

/-- Whether the speed at the end limits the speed at the beginning. -/
def isConstrainedBy (g : Gear) (next : Float32) : Bool :=
  !g.reachesNominal && decide (next < g.maxEntrySpeed)

/-- The speed at the beginning that goes with a speed at the end, at most. -/
def limitBefore (g : Gear) (next : Float32) : Float32 :=
  if g.isConstrainedBy next then Single.min g.maxEntrySpeed (g.reach next) else g.maxEntrySpeed

/-- The speed at the end that goes with a speed at the beginning, at most. -/
def handover (g : Gear) (entry : Float32) : Float32 :=
  if g.reachesNominal then g.nominalSpeed else Single.min (g.reach entry) g.nominalSpeed

/-- The gear is one that the planner makes, for a final speed. -/
structure Sound (final : Float32) (g : Gear) : Prop where
  /-- the acceleration is finite -/
  acceleration_finite : IsFinite g.acceleration
  /-- and positive -/
  acceleration_pos : 0 < value g.acceleration
  /-- the length is finite -/
  length_finite : IsFinite g.length
  /-- and positive -/
  length_pos : 0 < value g.length
  /-- the requested speed is one -/
  nominalSpeed : IsSpeed g.nominalSpeed
  /-- what the junction allows is a speed -/
  maxEntrySpeed : IsSpeed g.maxEntrySpeed
  /-- a junction does not allow more than is requested -/
  maxEntrySpeed_le : value g.maxEntrySpeed ≤ value g.nominalSpeed
  /-- the requested speed can be reached if that is said -/
  reaches : g.reachesNominal = true → value g.nominalSpeed ≤ value (g.reach final)

namespace Sound

variable {final : Float32} {g : Gear} {x y : Float32}

theorem grows_reach (h : g.Sound final) : Grows g.reach :=
  grows_maxAllowableSpeed h.acceleration_finite h.acceleration_pos h.length_finite h.length_pos

theorem le_reach (h : g.Sound final) (hx : IsSpeed x) (hmin : (2 : ℝ) ^ (-10 : ℤ) ≤ value x) :
    value x ≤ value (g.reach x) :=
  le_maxAllowableSpeed h.acceleration_finite h.acceleration_pos h.length_finite h.length_pos hx hmin

theorem isConstrainedBy_iff (h : g.Sound final) (hx : IsSpeed x) :
    g.isConstrainedBy x = true ↔ g.reachesNominal = false ∧ value x < value g.maxEntrySpeed := by
  rw [isConstrainedBy, Bool.and_eq_true, Bool.not_eq_true', decide_eq_true_iff,
    lt_iff hx.isNumber h.maxEntrySpeed.isNumber]

theorem limitBefore_le (h : g.Sound final) (hx : IsSpeed x) :
    value (g.limitBefore x) ≤ value g.maxEntrySpeed := by
  unfold limitBefore
  split
  · rw [value_min h.maxEntrySpeed (h.grows_reach.isSpeed hx)]
    exact min_le_left _ _
  · exact le_rfl

theorem grows_limitBefore (h : g.Sound final) : Grows g.limitBefore where
  isSpeed hx := by
    unfold limitBefore
    split
    · exact h.maxEntrySpeed.min (h.grows_reach.isSpeed hx)
    · exact h.maxEntrySpeed
  mono {x y} hx hy hle := by
    by_cases hcy : g.isConstrainedBy y = true
    · -- what limits one speed limits a lesser one
      obtain ⟨hreaches, hlt⟩ := (h.isConstrainedBy_iff hy).mp hcy
      have hcx := (h.isConstrainedBy_iff hx).mpr ⟨hreaches, hle.trans_lt hlt⟩
      rw [limitBefore, limitBefore, if_pos hcx, if_pos hcy,
        value_min h.maxEntrySpeed (h.grows_reach.isSpeed hx),
        value_min h.maxEntrySpeed (h.grows_reach.isSpeed hy)]
      exact min_le_min_left _ (h.grows_reach.mono hx hy hle)
    · refine (h.limitBefore_le hx).trans ?_
      rw [limitBefore, if_neg hcy]

theorem isSpeed_handover (h : g.Sound final) (hx : IsSpeed x) : IsSpeed (g.handover x) := by
  unfold handover
  split
  · exact h.nominalSpeed
  · exact (h.grows_reach.isSpeed hx).min h.nominalSpeed

end Sound

end Gear

namespace Lookahead

variable {final boundary : Float32} {s : Segment} {ss : List Segment}

/-- How fast the first of some segments may be entered at most, given the speed at their end. -/
def limit (final : Float32) (gears : List (Option Gear)) : Float32 :=
  gears.foldr (fun gear next => gear.elim next (·.limitBefore next)) final

/-- All gears are those that the planner makes. -/
def Geared (final : Float32) (gears : List (Option Gear)) : Prop :=
  ∀ g, some g ∈ gears → g.Sound final

theorem grows_limit {gears : List (Option Gear)} (h : Geared final gears) :
    Grows fun speed => limit speed gears := by
  induction gears with
  | nil => exact ⟨fun hx => hx, fun _ _ hle => hle⟩
  | cons gear gears ih =>
    have ih := ih fun g hg => h g (List.mem_cons_of_mem _ hg)
    cases gear with
    | none => exact ih
    | some g => exact (h g List.mem_cons_self).grows_limitBefore.comp ih

theorem isSpeed_limit {gears : List (Option Gear)} (h : Geared final gears) (hf : IsSpeed final) :
    IsSpeed (limit final gears) :=
  (grows_limit h).isSpeed hf

/-- With a final speed of zero, more segments behind do not make a limit less. -/
theorem limit_le_append {gears more : List (Option Gear)} (h : Geared final (gears ++ more))
    (hf : IsSpeed final) (hzero : value final = 0) :
    value (limit final gears) ≤ value (limit final (gears ++ more)) := by
  have hmore := isSpeed_limit (fun g hg => h g (List.mem_append_right _ hg)) hf
  rw [limit, limit, List.foldr_append]
  refine (grows_limit fun g hg => h g (List.mem_append_left _ hg)).mono hf hmore ?_
  rw [hzero]
  exact hmore.nonneg

/-! ## The reverse pass -/

@[simp] theorem gear_entry (s : Segment) (speed : Float32) (stale : Bool) :
    ({ s with entrySpeed := speed, stale := stale } : Segment).gear = s.gear := rfl

theorem gear_planEntry (s : Segment) (speed : Float32) : (s.planEntry speed).gear = s.gear := by
  unfold Segment.planEntry
  split <;> rfl

theorem value_planEntry (h : IsSpeed s.entrySpeed) {speed : Float32} (hspeed : IsSpeed speed) :
    IsSpeed (s.planEntry speed).entrySpeed ∧
      value (s.planEntry speed).entrySpeed = value speed := by
  unfold Segment.planEntry
  split
  · next heq => exact ⟨h, ((beq_iff hspeed.isNumber h.isNumber).mp heq).symm⟩
  · exact ⟨hspeed, rfl⟩

/-- One step of the reverse pass enters a segment at its limit. -/
theorem reverseStep_spec (hgear : ∀ g, s.gear = some g → g.Sound final)
    (hs : IsSpeed s.entrySpeed) {next : Float32} (hnext : IsSpeed next) :
    (reverseStep s next).gear = s.gear ∧ IsSpeed (reverseStep s next).entrySpeed ∧
      value (reverseStep s next).entrySpeed =
        value (s.gear.elim next (·.limitBefore next)) := by
  unfold reverseStep
  split
  · next hm =>
    have hg : s.gear = some s.toGear := if_pos hm
    have hsound := hgear _ hg
    have hlimit := hsound.grows_limitBefore.isSpeed hnext
    rw [hg, Option.elim_some, Segment.reversePass]
    split
    · -- the entry speed is what the junction allows already
      next hkeep =>
      rw [Bool.and_eq_true, Bool.not_eq_true'] at hkeep
      have hlimit_eq : s.toGear.limitBefore next = s.maxEntrySpeed :=
        if_neg (Bool.eq_false_iff.mp hkeep.2)
      rw [hlimit_eq]
      exact ⟨hg, hs, (beq_iff hs.isNumber hsound.maxEntrySpeed.isNumber).mp hkeep.1⟩
    · split
      · next hcon =>
        have hlimit_eq : s.toGear.limitBefore next = Single.min s.maxEntrySpeed
            (Profile.maxAllowableSpeed (-s.acceleration) next s.length) :=
          if_pos hcon
        rw [gear_planEntry, hg, ← hlimit_eq]
        exact ⟨rfl, value_planEntry hs hlimit⟩
      · next hcon =>
        have hlimit_eq : s.toGear.limitBefore next = s.maxEntrySpeed := if_neg hcon
        rw [gear_planEntry, hg, ← hlimit_eq]
        exact ⟨rfl, value_planEntry hs hlimit⟩
  · next hm =>
    have hg : s.gear = none := if_neg hm
    rw [hg]
    exact ⟨if_neg hm, hnext, rfl⟩

/-- Every segment is entered at its limit. -/
def AtLimit (final : Float32) : List Segment → Prop
  | [] => True
  | s :: ss => IsSpeed s.entrySpeed ∧
      value s.entrySpeed = value (limit final ((s :: ss).map Segment.gear)) ∧ AtLimit final ss

theorem AtLimit.entryOf (h : AtLimit final ss) (hf : IsSpeed final) :
    IsSpeed (entryOf final ss) ∧
      value (entryOf final ss) = value (limit final (ss.map Segment.gear)) := by
  cases ss with
  | nil => exact ⟨hf, rfl⟩
  | cons s ss => exact ⟨h.1, h.2.1⟩

/-- The reverse pass finds the limits. -/
theorem reverse_spec (hgears : Geared final (ss.map Segment.gear))
    (hentries : ∀ s ∈ ss, IsSpeed s.entrySpeed) (hf : IsSpeed final) :
    (reverse final ss).map Segment.gear = ss.map Segment.gear ∧
      AtLimit final (reverse final ss) := by
  induction ss with
  | nil => exact ⟨rfl, trivial⟩
  | cons s ss ih =>
    obtain ⟨hs, hss⟩ := List.forall_mem_cons.mp hentries
    have hgears' : Geared final (ss.map Segment.gear) :=
      fun g hg => hgears g (List.mem_cons_of_mem _ hg)
    obtain ⟨hgear, hlimit⟩ := ih hgears' hss
    obtain ⟨hnext, hvalue⟩ := hlimit.entryOf hf
    obtain ⟨hgear_s, hspeed, hentry⟩ := reverseStep_spec (s := s)
      (fun g hg => hgears g (List.mem_cons.mpr (.inl hg.symm))) hs hnext
    have hmap : (reverse final (s :: ss)).map Segment.gear = (s :: ss).map Segment.gear := by
      rw [reverse, List.map_cons, List.map_cons, hgear_s, hgear]
    refine ⟨hmap, hspeed, ?_, hlimit⟩
    refine hentry.trans ?_
    -- the same step from the same speed
    have hsame : value (limit final ((reverse final ss).map Segment.gear)) =
        value (limit final (ss.map Segment.gear)) := by rw [hgear]
    have hgeared : Geared final [s.gear] := fun g hg =>
      hgears g (List.mem_cons.mpr (.inl (List.mem_singleton.mp hg)))
    have hstep := grows_limit hgeared
    have hlimit' := isSpeed_limit hgears' hf
    rw [hsame] at hvalue
    refine (le_antisymm (hstep.mono hnext hlimit' hvalue.le)
      (hstep.mono hlimit' hnext hvalue.ge)).trans ?_
    change value (limit final (s.gear :: ss.map Segment.gear)) = _
    rw [← List.map_cons, ← hmap]
    rfl

/-! ## The forward pass -/

theorem handover_eq (s : Segment) :
    handover s = s.gear.elim s.entrySpeed (·.handover s.entrySpeed) := by
  unfold handover Segment.gear
  split <;> rfl

/-- Every segment is entered at its limit, or at the speed that the one before hands over if that is
less. -/
def Paced (final : Float32) : Float32 → List Segment → Prop
  | _, [] => True
  | speed, s :: ss => IsSpeed s.entrySpeed ∧
      value s.entrySpeed = min (value speed) (value (limit final ((s :: ss).map Segment.gear))) ∧
      Paced final (handover s) ss

theorem isSpeed_handover (hgear : ∀ g, s.gear = some g → g.Sound final)
    (hs : IsSpeed s.entrySpeed) : IsSpeed (handover s) := by
  rw [handover_eq]
  cases hg : s.gear with
  | none => exact hs
  | some g => exact (hgear g hg).isSpeed_handover hs

/-- One step of the forward pass lowers an entry speed to what is handed over. -/
theorem forwardStep_spec (hgear : ∀ g, s.gear = some g → g.Sound final)
    (hs : IsSpeed s.entrySpeed)
    (hle : ∀ g, s.gear = some g → value s.entrySpeed ≤ value g.maxEntrySpeed) {speed : Float32}
    (hspeed : IsSpeed speed) :
    (forwardStep s speed).gear = s.gear ∧ IsSpeed (forwardStep s speed).entrySpeed ∧
      value (forwardStep s speed).entrySpeed = min (value speed) (value s.entrySpeed) := by
  unfold forwardStep
  split
  · next hm =>
    have hg : s.gear = some s.toGear := if_pos hm
    have hsound := hgear _ hg
    have hjunction : value s.entrySpeed ≤ value s.maxEntrySpeed := hle s.toGear hg
    have hnominal : value s.maxEntrySpeed ≤ value s.nominalSpeed := hsound.maxEntrySpeed_le
    have hrequest : IsSpeed s.nominalSpeed := hsound.nominalSpeed
    have hmost : IsSpeed s.maxEntrySpeed := hsound.maxEntrySpeed
    have hreachable := (hspeed.min hrequest).min hmost
    have hvalue := value_min (hspeed.min hrequest) hmost
    rw [value_min hspeed hrequest] at hvalue
    -- the requested speed and the junction have been taken into account already
    have hall : min (min (min (value speed) (value s.nominalSpeed)) (value s.maxEntrySpeed))
        (value s.entrySpeed) = min (value speed) (value s.entrySpeed) := by
      rw [min_assoc, min_eq_right hjunction, min_assoc, min_eq_right (hjunction.trans hnominal)]
    unfold Segment.forwardPass
    dsimp only
    split
    · next hlt =>
      rw [lt_iff hreachable.isNumber hs.isNumber, hvalue] at hlt
      refine ⟨rfl, hreachable, ?_⟩
      rw [← hall, min_eq_left hlt.le]
      exact hvalue
    · next hlt =>
      rw [lt_iff hreachable.isNumber hs.isNumber, hvalue, not_lt] at hlt
      exact ⟨rfl, hs, by rw [← hall, min_eq_right hlt]⟩
  · next hm => exact ⟨rfl, hs.min hspeed, (value_min hs hspeed).trans (min_comm _ _)⟩

theorem limit_le_maxEntrySpeed {g : Gear} {gears : List (Option Gear)}
    (h : Geared final (some g :: gears)) (hf : IsSpeed final) :
    value (limit final (some g :: gears)) ≤ value g.maxEntrySpeed :=
  (h g List.mem_cons_self).limitBefore_le
    (isSpeed_limit (fun g hg => h g (List.mem_cons_of_mem _ hg)) hf)

/-- The forward pass paces segments that are at their limits. -/
theorem forward_spec (hgears : Geared final (ss.map Segment.gear)) (hf : IsSpeed final)
    (hlimit : AtLimit final ss) (hb : IsSpeed boundary) :
    (forward boundary ss).map Segment.gear = ss.map Segment.gear ∧
      Paced final boundary (forward boundary ss) := by
  induction ss generalizing boundary with
  | nil => exact ⟨rfl, trivial⟩
  | cons s ss ih =>
    obtain ⟨hs, hentry, hrest⟩ := hlimit
    have hgear : ∀ g, s.gear = some g → g.Sound final :=
      fun g hg => hgears g (List.mem_cons.mpr (.inl hg.symm))
    have hle : ∀ g, s.gear = some g → value s.entrySpeed ≤ value g.maxEntrySpeed := by
      intro g hg
      rw [List.map_cons, hg] at hgears hentry
      rw [hentry]
      exact limit_le_maxEntrySpeed hgears hf
    obtain ⟨hgear_s, hspeed, hvalue⟩ := forwardStep_spec hgear hs hle hb
    have hgear' : ∀ g, (forwardStep s boundary).gear = some g → g.Sound final := by
      rw [hgear_s]
      exact hgear
    obtain ⟨hmap, hpaced⟩ := ih (fun g hg => hgears g (List.mem_cons_of_mem _ hg)) hrest
      (isSpeed_handover hgear' hspeed)
    have hall : (forward boundary (s :: ss)).map Segment.gear = (s :: ss).map Segment.gear := by
      rw [forward, List.map_cons, List.map_cons, hgear_s, hmap]
    refine ⟨hall, hspeed, ?_, hpaced⟩
    rw [hvalue, hentry]
    exact congrArg (fun gears => min (value boundary) (value (limit final gears))) hall.symm

/-! ## Exit speeds -/

/-- Every segment ends at the speed at which the next one is entered. -/
def Linked (final : Float32) : List Segment → Prop
  | [] => True
  | s :: ss => s.exitSpeed = entryOf final ss ∧ Linked final ss

/-- Planning a trapezoid changes nothing but rates and events. -/
theorem planTrapezoid_eq {s' : Segment} {entryFactor exitFactor : Float32}
    (h : s.planTrapezoid entryFactor exitFactor = .ok s') :
    ∃ initial final up down, s' = { s with
      initialRate := initial, finalRate := final
      accelerateUntil := up, decelerateAfter := down } := by
  unfold Segment.planTrapezoid at h
  dsimp only at h
  split at h
  · cases h
    exact ⟨_, _, _, _, rfl⟩
  · obtain ⟨k, -, h⟩ := Fault.bind_eq_ok.mp h
    obtain ⟨k', -, h⟩ := Fault.bind_eq_ok.mp h
    split at h <;> cases h <;> exact ⟨_, _, _, _, rfl⟩

theorem profile_eq {s' : Segment} {speed : Float32} (h : profile s speed = .ok s') :
    s'.gear = s.gear ∧ s'.entrySpeed = s.entrySpeed ∧ s'.exitSpeed = speed := by
  obtain ⟨s₁, hs₁, h⟩ := Fault.bind_eq_ok.mp h
  obtain ⟨initial, final, up, down, rfl⟩ := planTrapezoid_eq hs₁
  cases h
  exact ⟨rfl, rfl, rfl⟩

/-- The last pass changes neither gears nor entry speeds. -/
theorem profiles_spec {ss' : List Segment} (h : profiles final ss = .ok ss') :
    (ss'.map fun s => (s.gear, s.entrySpeed)) = (ss.map fun s => (s.gear, s.entrySpeed)) ∧
      Linked final ss' := by
  induction ss generalizing ss' with
  | nil =>
    cases h
    exact ⟨rfl, trivial⟩
  | cons s ss ih =>
    obtain ⟨s₁, hs₁, h⟩ := Fault.bind_eq_ok.mp h
    obtain ⟨ss₁, hss₁, h⟩ := Fault.bind_eq_ok.mp h
    cases h
    obtain ⟨hgear, hentry, hexit⟩ := profile_eq hs₁
    obtain ⟨hmap, hlinked⟩ := ih hss₁
    refine ⟨by rw [List.map_cons, List.map_cons, hgear, hentry, hmap], ?_, hlinked⟩
    rw [hexit]
    cases ss with
    | nil =>
      cases hss₁
      rfl
    | cons s₂ ss₂ =>
      cases ss₁ with
      | nil => cases hmap
      | cons s₃ ss₃ =>
        rw [List.map_cons, List.map_cons, List.cons.injEq, Prod.mk.injEq] at hmap
        exact hmap.1.2.symm

/-! ## All passes -/

/-- Only gears and entry speeds matter to the pace. -/
theorem Paced.congr {ss' : List Segment} (h : Paced final boundary ss)
    (hmap : (ss'.map fun s => (s.gear, s.entrySpeed)) = ss.map fun s => (s.gear, s.entrySpeed)) :
    Paced final boundary ss' := by
  induction ss generalizing boundary ss' with
  | nil =>
    rw [List.map_nil, List.map_eq_nil_iff] at hmap
    rw [hmap]
    trivial
  | cons s ss ih =>
    have hgears := congrArg (List.map Prod.fst) hmap
    rw [List.map_map, List.map_map] at hgears
    obtain ⟨s', ss', rfl, hs, hss⟩ := List.map_eq_cons_iff.mp hmap
    obtain ⟨hgear, hentry⟩ := Prod.mk.inj hs
    obtain ⟨hspeed, hvalue, hrest⟩ := h
    have hlimit : limit final ((s' :: ss').map Segment.gear) =
        limit final ((s :: ss).map Segment.gear) := congrArg (limit final) hgears
    refine ⟨hentry ▸ hspeed, by rw [hlimit, hentry]; exact hvalue, ih ?_ hss⟩
    rw [handover_eq, hgear, hentry, ← handover_eq]
    exact hrest

/-- Replanning leaves the gears as they are. The segments are paced by it, and linked. -/
theorem replan_spec (hgears : Geared final (ss.map Segment.gear))
    (hentries : ∀ s ∈ ss, IsSpeed s.entrySpeed) (hf : IsSpeed final) (hb : IsSpeed boundary)
    {ss' : List Segment} (h : replan boundary final ss = .ok ss') :
    ss'.map Segment.gear = ss.map Segment.gear ∧ Paced final boundary ss' ∧ Linked final ss' := by
  obtain ⟨hgears₁, hlimit⟩ := reverse_spec hgears hentries hf
  obtain ⟨hgears₂, hpaced⟩ := forward_spec (hgears₁ ▸ hgears) hf hlimit hb
  obtain ⟨hmap, hlinked⟩ := profiles_spec h
  have hgears₃ := congrArg (List.map Prod.fst) hmap
  rw [List.map_map, List.map_map] at hgears₃
  exact ⟨hgears₃.trans (hgears₂.trans hgears₁), hpaced.congr hmap, hlinked⟩

end Lookahead

end MotionControl
