import MotionControl.Proofs.Lookahead.Consistency

/-!
# Replanning does not see carriers

A carrier hands on the speed at its junction: the reverse pass enters it at the very speed at which
the segment behind it is entered (`HandsOn`). The forward pass may lower that speed, and then it
lowers the one behind by as much, because a segment with motion is entered no faster than its
junction allows, and no more is allowed there than is requested (`HasHeadroom`). So each pass makes
the same of the segments with motion as it makes of them alone, bit for bit (`replan_filter`), if
the newest segment has motion: behind it there is no speed that a carrier could hand on.
-/

namespace MotionControl.Lookahead

open Segment

variable {s : Segment} {ss ss' : List Segment} {x final boundary : Float32}

/-- Every carrier is entered at the very speed at which the segment behind it is entered. -/
def HandsOn (final : Float32) : List Segment → Prop
  | [] => True
  | s :: ss => (s.hasMotion = false → s.entrySpeed = entryOf final ss) ∧ HandsOn final ss

/-- The newest segment, if there is one, has motion. -/
def EndsInMotion (ss : List Segment) : Prop := ∀ s ∈ ss.getLast?, s.hasMotion = true

/-- A segment with motion is entered no faster than allowed, and no more is allowed than is
requested. -/
def HasHeadroom (s : Segment) : Prop :=
  s.hasMotion = true → s.entrySpeed ≤ s.maxEntrySpeed ∧ s.maxEntrySpeed ≤ s.nominalSpeed

theorem EndsInMotion.tail (h : EndsInMotion (s :: ss)) : EndsInMotion ss := by
  cases ss with
  | nil => exact fun t ht => nomatch ht
  | cons t ts => exact h

/-- Replanning leaves motion where it is. -/
theorem EndsInMotion.of_unplanned (h : EndsInMotion ss)
    (hmap : ss'.map unplanned = ss.map unplanned) :
    EndsInMotion ss' := by
  intro s' hs'
  have hlast : s'.unplanned ∈ (ss'.map unplanned).getLast? := by
    rw [List.getLast?_map]
    exact Option.mem_map_of_mem unplanned hs'
  rw [hmap, List.getLast?_map] at hlast
  obtain ⟨s, hs, heq⟩ := Option.mem_map.mp hlast
  rw [← hasMotion_eq (basis_eq_of_unplanned heq)]
  exact h s hs

theorem entryOf_filter (h : HandsOn final ss) :
    entryOf final (ss.filter hasMotion) = entryOf final ss := by
  induction ss with
  | nil => rfl
  | cons s ss ih =>
    by_cases hm : s.hasMotion = true
    · rw [List.filter_cons_of_pos hm]
      rfl
    · rw [List.filter_cons_of_neg hm, ih h.2]
      exact (h.1 (Bool.eq_false_iff.mpr hm)).symm

/-! ## The reverse pass -/

theorem handsOn_reverse (final : Float32) (ss : List Segment) :
    HandsOn final (reverse final ss) := by
  induction ss with
  | nil => trivial
  | cons s ss ih =>
    refine ⟨fun hm => ?_, ih⟩
    rw [hasMotion_reverseStep] at hm
    rw [reverseStep, if_neg (Bool.eq_false_iff.mp hm)]

theorem reverse_filter (final : Float32) (ss : List Segment) :
    reverse final (ss.filter hasMotion) = (reverse final ss).filter hasMotion := by
  induction ss with
  | nil => rfl
  | cons s ss ih =>
    have hmotion := hasMotion_reverseStep s (entryOf final (reverse final ss))
    by_cases hm : s.hasMotion = true
    · rw [List.filter_cons_of_pos hm, reverse, reverse, ih,
        entryOf_filter (handsOn_reverse final ss), List.filter_cons_of_pos (hmotion.trans hm)]
    · rw [List.filter_cons_of_neg hm, reverse, ih, List.filter_cons_of_neg (hmotion ▸ hm)]

theorem hasHeadroom_reverseStep (hs : s.hasMotion = true → s.maxEntrySpeed ≤ s.nominalSpeed)
    (x : Float32) : HasHeadroom (reverseStep s x) := by
  intro hm
  rw [hasMotion_reverseStep] at hm
  obtain ⟨hunplanned, hkeep⟩ := unplanned_reversePass s x
  rw [reverseStep, if_pos hm, hkeep, nominalSpeed_eq (basis_eq_of_unplanned hunplanned)]
  exact ⟨entrySpeed_reversePass_le s (Single.isNaN_of_le (hs hm)).1 x, hs hm⟩

theorem hasHeadroom_reverse
    (hss : ∀ s ∈ ss, s.hasMotion = true → s.maxEntrySpeed ≤ s.nominalSpeed) (final : Float32) :
    ∀ s ∈ reverse final ss, HasHeadroom s := by
  induction ss with
  | nil => exact fun s hs => absurd hs List.not_mem_nil
  | cons s ss ih =>
    obtain ⟨hs, hss⟩ := List.forall_mem_cons.mp hss
    exact List.forall_mem_cons.mpr ⟨hasHeadroom_reverseStep hs _, ih hss⟩

/-! ## The forward pass -/

theorem hasMotion_forwardStep (s : Segment) (x : Float32) :
    (forwardStep s x).hasMotion = s.hasMotion :=
  hasMotion_eq (basis_eq_of_unplanned (unplanned_forwardStep s x).1)

/-- With headroom, a lower speed is reached as it is. -/
theorem forwardPass_of_lt (hm : s.hasMotion = true) (hs : HasHeadroom s) (hlt : x < s.entrySpeed) :
    s.forwardPass x = { s with entrySpeed := x, stale := true } := by
  obtain ⟨hentry, hmax⟩ := hs hm
  have hx := Single.le_trans (Single.le_of_lt hlt) hentry
  rw [forwardPass, Single.min_of_le (Single.le_trans hx hmax), Single.min_of_le hx]
  exact if_pos hlt

/-- And no other speed makes a difference. -/
theorem forwardPass_of_not_lt (hm : s.hasMotion = true) (hs : HasHeadroom s)
    (hlt : ¬ x < s.entrySpeed) : s.forwardPass x = s := by
  obtain ⟨hentry, hmax⟩ := hs hm
  have hnominal := Single.le_trans hentry hmax
  have hreach : s.entrySpeed ≤ Single.min x s.nominalSpeed := by
    by_cases hx : x.isNaN = true
    · rwa [Single.min_of_isNaN hx]
    · rw [Bool.not_eq_true] at hx
      exact Single.le_min (Single.le_of_not_lt hx (Single.isNaN_of_le hentry).1 hlt) hnominal
  rw [forwardPass]
  exact if_neg (Single.not_lt_of_le (Single.le_min hreach hentry))

/-- With headroom the forward pass enters every segment at the lesser one of two speeds. -/
theorem entrySpeed_forwardStep (hs : HasHeadroom s) (x : Float32) :
    (forwardStep s x).entrySpeed = Single.min s.entrySpeed x := by
  by_cases hm : s.hasMotion = true
  · rw [forwardStep, if_pos hm]
    by_cases hlt : x < s.entrySpeed
    · rw [forwardPass_of_lt hm hs hlt, Single.min_of_lt hlt]
    · rw [forwardPass_of_not_lt hm hs hlt,
        Single.min_of_not_lt (Single.isNaN_of_le (hs hm).1).1 hlt]
  · rw [forwardStep, if_neg hm]

/-- What a carrier before a segment hands on is as good as what is handed to the carrier. -/
theorem forwardStep_min (hm : s.hasMotion = true) (hs : HasHeadroom s) (x : Float32) :
    forwardStep s (Single.min s.entrySpeed x) = forwardStep s x := by
  have hentry := (Single.isNaN_of_le (hs hm).1).1
  rw [forwardStep, forwardStep, if_pos hm, if_pos hm]
  by_cases hlt : x < s.entrySpeed
  · rw [Single.min_of_lt hlt]
  · rw [Single.min_of_not_lt hentry hlt, forwardPass_of_not_lt hm hs hlt,
      forwardPass_of_not_lt hm hs (Single.not_lt_of_le (Single.le_refl hentry))]

theorem handsOn_forward (h : HandsOn final ss) (hss : ∀ s ∈ ss, HasHeadroom s)
    (hlast : EndsInMotion ss) (x : Float32) : HandsOn final (forward x ss) := by
  induction ss generalizing x with
  | nil => trivial
  | cons s ss ih =>
    obtain ⟨hs, hss⟩ := List.forall_mem_cons.mp hss
    refine ⟨fun hm => ?_, ih h.2 hss hlast.tail _⟩
    rw [hasMotion_forwardStep] at hm
    have hcarrier := Bool.eq_false_iff.mp hm
    cases ss with
    | nil => exact absurd (hlast s rfl) hcarrier
    | cons t ts =>
      have hsame : s.entrySpeed = t.entrySpeed := h.1 hm
      have hhandover : handover (forwardStep s x) = Single.min t.entrySpeed x := by
        rw [handover, hasMotion_forwardStep, if_neg hcarrier, entrySpeed_forwardStep hs, hsame]
      change (forwardStep s x).entrySpeed = (forwardStep t (handover (forwardStep s x))).entrySpeed
      rw [hhandover, entrySpeed_forwardStep hs, hsame,
        entrySpeed_forwardStep (hss t List.mem_cons_self), Single.min_min_self]

theorem forward_filter (h : HandsOn final ss) (hss : ∀ s ∈ ss, HasHeadroom s) (x : Float32) :
    forward x (ss.filter hasMotion) = (forward x ss).filter hasMotion := by
  induction ss generalizing x with
  | nil => rfl
  | cons s ss ih =>
    obtain ⟨hs, hss⟩ := List.forall_mem_cons.mp hss
    have hmotion := hasMotion_forwardStep s x
    by_cases hm : s.hasMotion = true
    · rw [List.filter_cons_of_pos hm, forward, forward, ih h.2 hss,
        List.filter_cons_of_pos (hmotion.trans hm)]
    · have hhandover : handover (forwardStep s x) =
          Single.min (entryOf final (ss.filter hasMotion)) x := by
        rw [handover, hmotion, if_neg hm, entrySpeed_forwardStep hs, entryOf_filter h.2,
          h.1 (Bool.eq_false_iff.mpr hm)]
      have hfilter : ∀ t ∈ ss.filter hasMotion, t.hasMotion = true ∧ HasHeadroom t := fun t ht =>
        ⟨(List.mem_filter.mp ht).2, hss t (List.mem_filter.mp ht).1⟩
      rw [List.filter_cons_of_neg hm, forward, List.filter_cons_of_neg (hmotion ▸ hm), hhandover,
        ← ih h.2 hss]
      -- only the first segment with motion takes notice of what is handed over
      cases hts : ss.filter hasMotion with
      | nil => rfl
      | cons t ts =>
        rw [hts] at hfilter
        obtain ⟨hmt, ht⟩ := hfilter t List.mem_cons_self
        rw [forward, forward, entryOf, forwardStep_min hmt ht]

/-! ## Profiles -/

theorem hasMotion_profile {s' : Segment} (h : profile s x = .ok s') :
    s'.hasMotion = s.hasMotion :=
  hasMotion_eq (basis_eq_of_unplanned (unplanned_profile h))

theorem profiles_filter (h : HandsOn final ss) : profiles final (ss.filter hasMotion) =
    (profiles final ss).map fun ts => ts.filter hasMotion := by
  induction ss with
  | nil => rfl
  | cons s ss ih =>
    have hrest := ih h.2
    by_cases hm : s.hasMotion = true
    · rw [List.filter_cons_of_pos hm, profiles, profiles, entryOf_filter h.2, hrest]
      cases hs : profile s (entryOf final ss) with
      | error e => rfl
      | ok s' =>
        cases profiles final ss with
        | error e => rfl
        | ok ts =>
          have hm' := (hasMotion_profile hs).trans hm
          exact congrArg Except.ok (List.filter_cons_of_pos hm').symm
    · obtain ⟨s', hs⟩ := exists_profile (fun hmoves => absurd hmoves hm) (entryOf final ss)
      have hm' : ¬ s'.hasMotion = true := hasMotion_profile hs ▸ hm
      rw [List.filter_cons_of_neg hm, profiles, hs, hrest]
      cases profiles final ss with
      | error e => rfl
      | ok ts => exact congrArg Except.ok (List.filter_cons_of_neg hm').symm

/-! ## All passes -/

/-- Replanning without the carriers is replanning, and leaving out the carriers. -/
theorem replan_filter (hlast : EndsInMotion ss)
    (hss : ∀ s ∈ ss, s.hasMotion = true → s.maxEntrySpeed ≤ s.nominalSpeed)
    (boundary final : Float32) : replan boundary final (ss.filter hasMotion) =
      (replan boundary final ss).map fun ts => ts.filter hasMotion := by
  have hreverse := handsOn_reverse final ss
  have hroom := hasHeadroom_reverse hss final
  have hlast' := hlast.of_unplanned (unplanned_reverse final ss)
  rw [replan, reverse_filter, forward_filter hreverse hroom,
    profiles_filter (handsOn_forward hreverse hroom hlast' boundary)]
  rfl

end MotionControl.Lookahead
