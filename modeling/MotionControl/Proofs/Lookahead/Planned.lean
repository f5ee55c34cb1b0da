import MotionControl.Planner
import MotionControl.Proofs.Lookahead.Passes
import MotionControl.Settings.Check

/-!
# The segments of moves

The segments that a planner makes of moves have the gears that lookahead relies on
(`Planner.segmentOf_spec`), provided that its tuning is valid and the moves are finite. The one that
needs an argument is what the junction with the previous move allows: with more than the largest
jerk the lesser one of the two feeds is lowered by their ratio, and the rounded product is no more
than the feed even if the jerk is too large for a float.
-/

namespace MotionControl

open Rounding

/-! ## Tunings -/

/-- Acceleration and jerk are positive and finite, and the final speed is not negative. -/
def Tuning.isValid (t : Tuning) : Bool :=
  Single.isPositive t.acceleration && Single.isPositive t.maxJerk && 0 ≤ t.minimumSpeed

/-- Valid settings make a valid tuning. -/
theorem Tuning.isValid_ofSettings {s : Settings} (h : s.validate = .ok ()) :
    (ofSettings s).isValid = true := by
  rw [Settings.validate_eq_ok_iff, Settings.problems, Settings.scalarProblems] at h
  simp only [List.append_eq_nil_iff, problemUnless_eq_nil_iff] at h
  obtain ⟨⟨⟨⟨⟨⟨⟨⟨-, ha⟩, hj⟩, hm⟩, -⟩, -⟩, -⟩, -⟩, -⟩ := h
  rw [Bool.and_eq_true] at hm
  rw [isValid, Bool.and_eq_true, Bool.and_eq_true]
  exact ⟨⟨ha, hj⟩, hm.2⟩

namespace Rounding

variable {x y : Float32}

theorem isSpeed_of_nonneg (h : 0 ≤ x) : IsSpeed x := by
  have hnum : IsNumber x := by
    rw [isNumber_iff]
    intro hnan
    change decide (((Single.unpacked 0).compare (Single.unpacked x)).any Ordering.isLE = true) =
      true at h
    rw [hnan] at h
    cases h
  rw [le_iff IsSpeed.zero.isNumber hnum, value_zero] at h
  exact ⟨hnum, h⟩

theorem isFinite_of_isPositive (h : Single.isPositive x = true) : IsFinite x ∧ 0 < value x := by
  rw [Single.isPositive, Bool.and_eq_true, decide_eq_true_iff] at h
  have hfin : IsFinite x := h.1
  refine ⟨hfin, ?_⟩
  have hlt := h.2
  rwa [lt_iff IsSpeed.zero.isNumber hfin.isNumber, value_zero] at hlt

theorem isFinite_of_pos (hfin : x.isFinite = true) (hpos : 0 < x) : IsFinite x ∧ 0 < value x := by
  refine isFinite_of_isPositive ?_
  rw [Single.isPositive, hfin, Bool.true_and]
  exact decide_eq_true hpos

theorem IsFinite.isSpeed (h : IsFinite x) (h0 : 0 < value x) : IsSpeed x := ⟨h.isNumber, h0.le⟩

/-- The smaller one of two values of which the first is positive or no number at all. -/
theorem isSpeed_min_of_not_le (h : ¬ x ≤ 0) (hy : IsFinite y) (hy0 : 0 < value y) :
    IsSpeed (Single.min x y) ∧ value (Single.min x y) ≤ value y := by
  by_cases hnan : x.isNaN = true
  · rw [Single.min, hnan, Bool.or_true, if_pos rfl]
    exact ⟨hy.isSpeed hy0, le_rfl⟩
  · have hx : IsNumber x := Bool.eq_false_iff.mpr hnan
    rw [le_iff hx IsSpeed.zero.isNumber, value_zero, not_le] at h
    have hspeed : IsSpeed x := ⟨hx, h.le⟩
    refine ⟨hspeed.min (hy.isSpeed hy0), ?_⟩
    rw [value_min hspeed (hy.isSpeed hy0)]
    exact min_le_right _ _

/-- A speed times a ratio of at most one. -/
theorem isSpeed_scale {limit jerk : Float32} (hx : IsSpeed x) (hlt : value x < 2 ^ 128)
    (hlimit : IsFinite limit) (hpos : 0 < value limit) (hjerk : limit < jerk) :
    IsSpeed (x * (limit / jerk)) ∧ value (x * (limit / jerk)) ≤ value x := by
  have hnum : IsNumber jerk := by
    rw [isNumber_iff]
    intro hnan
    rw [Single.lt_iff, hnan] at hjerk
    cases hu : Single.unpacked limit <;> rw [hu] at hjerk <;> cases hjerk
  rw [lt_iff hlimit.isNumber hnum] at hjerk
  have hjerk_pos := hpos.trans hjerk
  have hone : value 1 = 1 := by
    have h1 : Single.unpacked 1 = .finite .positive 8388608 (-23) (by decide) := by rfl
    rw [value_of_finite h1, factor]
    norm_num
  obtain ⟨hratio, hle⟩ := isSpeed_div hlimit hnum hjerk_pos.ne' (div_nonneg hpos.le hjerk_pos.le)
  have h1 : value (limit / jerk) ≤ 1 :=
    (hle 1 (hone ▸ (div_le_one hjerk_pos).mpr hjerk.le)).trans_eq hone
  have hfin := hratio.isFinite (h1.trans_lt (by norm_num))
  have hround := rounds_mul (hx.isFinite hlt) hfin
  exact ⟨⟨hround.isNumber, hround.nonneg (mul_nonneg hx.nonneg hratio.nonneg)⟩,
    hround.ge_of_ge (mul_le_of_le_one_right hx.nonneg h1)⟩

end Rounding

theorem Tuning.isSpeed_minimumSpeed {t : Tuning} (h : t.isValid = true) :
    IsSpeed t.minimumSpeed := by
  rw [isValid, Bool.and_eq_true, decide_eq_true_iff] at h
  exact isSpeed_of_nonneg h.2

/-! ## Moves -/

/-- Feed and length of a move are finite. -/
def Move.isFinite (m : Move) : Bool := m.feed.isFinite && m.distance.isFinite

namespace Planner

variable {p : Planner} {m : Move} {fromRest : Bool}

/-- A junction allows no more than the feed. -/
theorem junctionSpeed_spec (hvalid : p.tuning.isValid = true) (hfeed : IsFinite m.feed)
    (hpos : 0 < value m.feed) (hrest : fromRest = false → ¬ p.previousNominalSpeed ≤ 0) :
    IsSpeed (p.junctionSpeed m fromRest) ∧
      value (p.junctionSpeed m fromRest) ≤ value m.feed := by
  rw [Tuning.isValid, Bool.and_eq_true, Bool.and_eq_true] at hvalid
  obtain ⟨hjerk, hjerk_pos⟩ := isFinite_of_isPositive hvalid.1.2
  unfold junctionSpeed
  cases fromRest with
  | true =>
    have hhalf := rounds_div hjerk isFinite_two.1 isFinite_two.2.ne'
    have hspeed : IsSpeed (p.tuning.maxJerk / 2) :=
      ⟨hhalf.isNumber, hhalf.nonneg (div_nonneg hjerk_pos.le isFinite_two.2.le)⟩
    rw [if_pos rfl]
    refine ⟨hspeed.min (hfeed.isSpeed hpos), ?_⟩
    rw [value_min hspeed (hfeed.isSpeed hpos)]
    exact min_le_right _ _
  | false =>
    obtain ⟨hspeed, hle⟩ := isSpeed_min_of_not_le (hrest rfl) hfeed hpos
    rw [if_neg Bool.false_ne_true]
    dsimp only
    split
    · next hlt =>
      obtain ⟨hspeed', hle'⟩ :=
        isSpeed_scale hspeed (hle.trans_lt hfeed.value_lt) hjerk hjerk_pos hlt
      exact ⟨hspeed', hle'.trans hle⟩
    · exact ⟨hspeed, hle⟩

/-- The gear of the segment of a move is one that lookahead can rely on. -/
theorem segmentOf_spec (hvalid : p.tuning.isValid = true) (haccepts : p.accepts m = true)
    (hfinite : m.isFinite = true) (hrest : fromRest = false → ¬ p.previousNominalSpeed ≤ 0)
    {s : Segment} (hok : p.segmentOf m fromRest = .ok s) :
    (∀ g, s.gear = some g → g.Sound p.tuning.minimumSpeed) ∧ IsSpeed s.entrySpeed := by
  rw [accepts, Bool.and_eq_true, Bool.and_eq_true, decide_eq_true_iff, decide_eq_true_iff]
    at haccepts
  rw [Move.isFinite, Bool.and_eq_true] at hfinite
  obtain ⟨hfeed, hfeed_pos⟩ := isFinite_of_pos hfinite.1 haccepts.1.2
  obtain ⟨hdistance, hdistance_pos⟩ := isFinite_of_pos hfinite.2 haccepts.2
  obtain ⟨hjunction, hjunction_le⟩ := junctionSpeed_spec hvalid hfeed hfeed_pos hrest
  have hminimum := Tuning.isSpeed_minimumSpeed hvalid
  rw [Tuning.isValid, Bool.and_eq_true, Bool.and_eq_true] at hvalid
  obtain ⟨hacceleration, hacceleration_pos⟩ := isFinite_of_isPositive hvalid.1.1
  have hallowable := (grows_maxAllowableSpeed hacceleration hacceleration_pos hdistance
    hdistance_pos).isSpeed hminimum
  obtain ⟨initial, final, up, down, rfl⟩ := Lookahead.planTrapezoid_eq hok
  refine ⟨fun g hg => ?_, hjunction.min hallowable⟩
  unfold Segment.gear at hg
  split at hg
  · cases hg
    exact {
      acceleration_finite := hacceleration
      acceleration_pos := hacceleration_pos
      length_finite := hdistance
      length_pos := hdistance_pos
      nominalSpeed := hfeed.isSpeed hfeed_pos
      maxEntrySpeed := hjunction
      maxEntrySpeed_le := hjunction_le
      reaches := fun hreaches =>
        (le_iff hfeed.isNumber hallowable.isNumber).mp (of_decide_eq_true hreaches) }
  · cases hg

end Planner

end MotionControl
