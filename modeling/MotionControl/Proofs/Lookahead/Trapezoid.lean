import Mathlib.Data.Nat.Cast.Order.Field
import MotionControl.Proofs.Lookahead.Planned
import MotionControl.Proofs.Motion.Load

/-!
# Trapezoids

The ramps of a trapezoid are measured in floats, rounded to whole steps and taken away from the
number of step events in a machine word. However long they are measured, rates and events of the
segment fit each other afterwards (`Segment.planTrapezoid_fits`). What can fail is the word: two
ramps that are both longer than half of its range leave no difference
(`Segment.crawling_overflows`). They are no longer than that if the square of the nominal rate is at
most `2 ^ 63` times the acceleration in steps, that is, unless the segment `hasEndlessRamps`.
-/

namespace MotionControl

namespace Rounding

open Float.Model (UnpackedFloat)
open Single (unpacked truncate)

variable {x y : Float32}

/-! ## Whole parts -/

section

variable (hx : IsSpeed x)
include hx

theorem IsSpeed.not_neg : ¬ x < 0 := by
  rw [lt_iff hx.isNumber IsSpeed.zero.isNumber, value_zero, not_lt]
  exact hx.nonneg

theorem truncate_nonneg : 0 ≤ truncate x := by
  rw [truncate, if_neg hx.not_neg]
  exact Int.natCast_nonneg _

theorem truncate_le : (truncate x : ℝ) ≤ value x := by
  rw [truncate, if_neg hx.not_neg, Single.toUInt64_eq]
  have hclamp (n : ℕ) : ((((UInt64.ofNatClamp n).toNat : ℕ) : ℤ) : ℝ) ≤ n := by
    have hle : (UInt64.ofNatClamp n).toNat ≤ n := by
      obtain hlt | hge := Nat.lt_or_ge n UInt64.size
      · exact (UInt64.toNat_ofNatClamp_of_lt hlt).le
      · exact (UInt64.toNat_ofNatClamp_of_le hge).trans_le ((Nat.sub_le _ _).trans hge)
    exact_mod_cast hle
  obtain hfin | htop := hx.cases
  · obtain ⟨s, hu⟩ | ⟨m, e, hm, hu, -⟩ := hfin.cases_of_nonneg hx.nonneg
    · rw [hu, value_of_zero hu]
      exact (hclamp _).trans_eq Nat.cast_zero
    · rw [hu, Single.toInt_positive, Int.toNat_natCast, value_of_finite hu, factor, one_mul]
      refine (hclamp _).trans (Nat.cast_div_le.trans_eq ?_)
      -- at most one of the two shifts moves anything
      obtain ⟨k, rfl | rfl⟩ := e.eq_nat_or_neg
      · simp
      · simp [zpow_neg, div_eq_mul_inv]
  · have hword (n : UInt64) : (((n.toNat : ℕ) : ℤ) : ℝ) ≤ 2 ^ 128 := by
      have hlt := n.toNat_lt
      have hle : (n.toNat : ℤ) ≤ 2 ^ 128 := by omega
      exact_mod_cast hle
    rw [value_of_top htop]
    exact hword _

theorem ceil_mem : 0 ≤ Single.ceil x ∧ (Single.ceil x : ℝ) ≤ value x + 1 := by
  have h0 := truncate_nonneg hx
  have hle := truncate_le hx
  unfold Single.ceil
  dsimp only
  split
  · push_cast
    exact ⟨by omega, by linarith⟩
  · exact ⟨h0, by linarith⟩

theorem floor_mem : 0 ≤ Single.floor x ∧ (Single.floor x : ℝ) ≤ value x := by
  have h0 := truncate_nonneg hx
  have hle := truncate_le hx
  unfold Single.floor
  dsimp only
  split
  · next hlt =>
    refine ⟨?_, by push_cast; linarith⟩
    have hne : truncate x ≠ 0 := by
      intro hzero
      rw [hzero] at hlt
      exact hx.not_neg hlt
    omega
  · exact ⟨h0, hle⟩

end

/-! ## Counts -/

theorem value_eq_two_pow {k : ℕ}
    (h : unpacked x = .finite .positive 8388608 ((k : ℤ) - 23) (by decide)) :
    IsFinite x ∧ value x = 2 ^ k := by
  refine ⟨congrArg UnpackedFloat.isFinite h, ?_⟩
  rw [value_of_finite h, factor, one_mul, zpow_sub₀ (by norm_num), zpow_natCast,
    show ((8388608 : ℕ) : ℝ) = 2 ^ (23 : ℤ) by norm_num, mul_div_cancel₀ _ (by norm_num)]

theorem isFinite_toFloat32 (n : UInt32) :
    IsFinite n.toFloat32 ∧ 0 ≤ value n.toFloat32 ∧ value n.toFloat32 ≤ 2 ^ 32 := by
  have hround := rounds_toFloat32 n
  have hword : value 4294967296 = 2 ^ 32 := (value_eq_two_pow (by rfl)).2
  have h0 := hround.nonneg (Nat.cast_nonneg _)
  have hle : value n.toFloat32 ≤ 2 ^ 32 := by
    rw [← hword]
    refine hround.ge_of_ge ?_
    rw [hword]
    exact_mod_cast n.toNat_lt.le
  exact ⟨IsSpeed.isFinite ⟨hround.isNumber, h0⟩ (hle.trans_lt (by norm_num)), h0, hle⟩

theorem isSpeed_toFloat32 (n : UInt32) : IsSpeed n.toFloat32 :=
  ⟨(rounds_toFloat32 n).isNumber, (isFinite_toFloat32 n).2.1⟩

theorem value_toFloat32_mono {m n : UInt32} (h : m ≤ n) :
    value m.toFloat32 ≤ value n.toFloat32 := by
  obtain heq | hlt := (UInt32.le_iff_toNat_le.mp h).eq_or_lt
  · rw [UInt32.toNat.inj heq]
  · exact (rounds_toFloat32 m).mono (rounds_toFloat32 n) (by exact_mod_cast hlt)

/-- Squares of counts are finite. -/
theorem isFinite_square (n : UInt32) : IsFinite (n.toFloat32 * n.toFloat32) := by
  obtain ⟨hfin, h0, hle⟩ := isFinite_toFloat32 n
  have hround := rounds_mul hfin hfin
  have hlarge : value 18446744073709551616 = 2 ^ 64 := (value_eq_two_pow (by rfl)).2
  have hsquare : value (n.toFloat32 * n.toFloat32) ≤ 2 ^ 64 := by
    rw [← hlarge]
    refine hround.ge_of_ge ?_
    rw [hlarge]
    nlinarith
  exact IsSpeed.isFinite ⟨hround.isNumber, hround.nonneg (mul_nonneg h0 h0)⟩
    (hsquare.trans_lt (by norm_num))

theorem square_mono {m n : UInt32} (h : m ≤ n) :
    value (m.toFloat32 * m.toFloat32) ≤ value (n.toFloat32 * n.toFloat32) :=
  grows_square.mono (isSpeed_toFloat32 m) (isSpeed_toFloat32 n) (value_toFloat32_mono h)

/-! ## Lengths of ramps -/

theorem cut_neg (r : ℝ) : cut (-r) = -cut r := by
  rw [cut, cut, ← min_neg_neg, neg_neg, ← max_neg_neg, max_min_distrib_left,
    max_eq_right (by norm_num : (-2 ^ 128 : ℝ) ≤ 2 ^ 128), min_comm, max_comm]

/-- A multiple by a power of two is exact, or too large. -/
theorem value_two_pow_mul {c : Float32} {k : ℕ} (hc : IsFinite c) (hck : value c = 2 ^ k)
    (hx : IsNumber x) : IsNumber (c * x) ∧ value (c * x) = cut (2 ^ k * value x) := by
  obtain hfin | ⟨s, hinf⟩ := hx.cases
  · have hround := rounds_mul hc hfin
    rw [hck] at hround
    refine ⟨hround.isNumber, hround.value_eq ?_⟩
    obtain ⟨n, e, hn, he, hvalue⟩ := representable_value (x := x)
    refine ⟨n, e + k, hn, by omega, ?_⟩
    rw [hvalue, zpow_add₀ (by norm_num), zpow_natCast]
    ring
  · have hmul := mul_infinite hc (hck ▸ by positivity) hinf
    have hlarge : (2 : ℝ) ^ 128 ≤ 2 ^ k * 2 ^ 128 :=
      le_mul_of_one_le_left (by positivity) (one_le_pow₀ (by norm_num))
    have hcut : cut (2 ^ k * 2 ^ 128) = 2 ^ 128 := by
      rw [cut, min_eq_right hlarge, max_eq_right (by norm_num)]
    refine ⟨isNumber_iff.mpr (hmul ▸ UnpackedFloat.noConfusion), ?_⟩
    rw [value_of_infinite hmul, value_of_infinite hinf]
    cases s with
    | positive => rw [factor, one_mul, hcut]
    | negative => rw [factor, neg_one_mul, mul_neg, cut_neg, hcut]

theorem cut_pos {r : ℝ} (h : 0 < r) : 0 < cut r :=
  (lt_min h (by norm_num)).trans_le (le_max_right _ _)

/-- A number of steps that is at most half of what a machine word can count. -/
theorem div_cut_le {w a : ℝ} (ha : 0 < a) (hw : w ≤ 2 ^ 63 * a) (hmax : w ≤ 2 ^ 128) :
    w / cut (2 * a) ≤ 2 ^ 62 := by
  rw [div_le_iff₀ (cut_pos (by positivity))]
  have hcut : cut (2 * a) = min (2 * a) (2 ^ 128) :=
    max_eq_right ((by norm_num : -2 ^ 128 ≤ (0 : ℝ)).trans (le_min (by positivity) (by norm_num)))
  rw [hcut]
  obtain hle | hle := min_choice (2 * a) ((2 : ℝ) ^ 128) <;> rw [hle] <;> linarith

/-- A difference of squares, divided by twice an acceleration of the same sign. -/
theorem ramp_spec {w : ℝ} (hx : IsNumber x) (hxw : |value x| ≤ w) (hw : w < 2 ^ 128)
    (hy : IsNumber y) (hy0 : value y ≠ 0) (hsame : 0 ≤ value x * value y) :
    IsSpeed (x / (2 * y)) ∧ (w ≤ 2 ^ 63 * |value y| → value (x / (2 * y)) ≤ 2 ^ 62) := by
  have hmost : value 4611686018427387904 = 2 ^ 62 := (value_eq_two_pow (by rfl)).2
  obtain ⟨hnum, htwice⟩ := value_two_pow_mul isFinite_two.1 (value_two.trans (pow_one 2).symm) hy
  rw [pow_one] at htwice
  have hpos : 0 < cut (2 * |value y|) := cut_pos (by positivity)
  -- the signs cancel, so that only the magnitudes are left
  obtain ⟨hne, hquot⟩ : value (2 * y) ≠ 0 ∧
      value x / value (2 * y) = |value x| / cut (2 * |value y|) := by
    rw [htwice]
    obtain hneg | hy0 := hy0.lt_or_gt
    · rw [abs_of_neg hneg, mul_neg, cut_neg, neg_pos] at hpos
      rw [abs_of_neg hneg, mul_neg, cut_neg,
        abs_of_nonpos (nonpos_of_mul_nonneg_left hsame hneg), neg_div_neg_eq]
      exact ⟨hpos.ne, rfl⟩
    · rw [abs_of_pos hy0] at hpos ⊢
      rw [abs_of_nonneg (nonneg_of_mul_nonneg_left hsame hy0)]
      exact ⟨hpos.ne', rfl⟩
  obtain ⟨hspeed, hle⟩ := isSpeed_div (hx.isFinite (hxw.trans_lt hw)) hnum hne
    (hquot ▸ div_nonneg (abs_nonneg _) hpos.le)
  refine ⟨hspeed, fun hbound => hmost ▸ hle _ ?_⟩
  rw [hquot, hmost]
  exact (div_le_div_of_nonneg_right hxw hpos.le).trans
    (div_cut_le (abs_pos.mpr hy0) hbound hw.le)

theorem accelerationDistance_eq {a : Float32} (ha : IsNumber a) (ha0 : value a ≠ 0) :
    Profile.accelerationDistance x y a = (y * y - x * x) / (2 * a) := by
  rw [Profile.accelerationDistance, if_neg]
  rwa [beq_iff ha IsSpeed.zero.isNumber, value_zero]

section

variable {m n : UInt32} {a : Float32} (hmn : m ≤ n) (ha : IsSpeed a) (ha0 : 0 < value a)
include hmn ha ha0

/-- The ramp up to a rate. -/
theorem rampUp_spec : IsSpeed (Profile.accelerationDistance m.toFloat32 n.toFloat32 a) ∧
    (value (n.toFloat32 * n.toFloat32) ≤ 2 ^ 63 * value a →
      value (Profile.accelerationDistance m.toFloat32 n.toFloat32 a) ≤ 2 ^ 62) := by
  have hm0 := (grows_square.isSpeed (isSpeed_toFloat32 m)).nonneg
  have hround := rounds_sub (isFinite_square n) (isFinite_square m)
  have h0 := hround.nonneg (sub_nonneg.mpr (square_mono hmn))
  have hle := hround.ge_of_ge (sub_le_self _ hm0)
  rw [accelerationDistance_eq ha.isNumber ha0.ne']
  have hspec := ramp_spec hround.isNumber ((abs_of_nonneg h0).trans_le hle)
    (isFinite_square n).value_lt ha.isNumber ha0.ne' (mul_nonneg h0 ha0.le)
  rwa [abs_of_pos ha0] at hspec

/-- The ramp down from a rate. -/
theorem rampDown_spec : IsSpeed (Profile.accelerationDistance n.toFloat32 m.toFloat32 (-a)) ∧
    (value (n.toFloat32 * n.toFloat32) ≤ 2 ^ 63 * value a →
      value (Profile.accelerationDistance n.toFloat32 m.toFloat32 (-a)) ≤ 2 ^ 62) := by
  have hm0 := (grows_square.isSpeed (isSpeed_toFloat32 m)).nonneg
  have hround := rounds_sub (isFinite_square m) (isFinite_square n)
  have h0 := hround.nonpos (sub_nonpos.mpr (square_mono hmn))
  have hle : -value (n.toFloat32 * n.toFloat32) ≤ _ :=
    value_neg (n.toFloat32 * n.toFloat32) ▸
      hround.le_of_le (by rw [value_neg]; linarith)
  have hneg : value (-a) < 0 := by rw [value_neg]; linarith
  rw [accelerationDistance_eq ha.isNumber.neg hneg.ne]
  have hspec := ramp_spec hround.isNumber ((abs_of_nonpos h0).trans_le (neg_le.mp hle))
    (isFinite_square n).value_lt ha.isNumber.neg hneg.ne (mul_nonneg_of_nonpos_of_nonpos h0 hneg.le)
  rwa [value_neg, abs_neg, abs_of_pos ha0] at hspec

end

theorem IsSpeed.mul (hx : IsSpeed x) (hy : IsFinite y) (hy0 : 0 < value y) : IsSpeed (x * y) := by
  obtain hfin | htop := hx.cases
  · have hround := rounds_mul hfin hy
    exact ⟨hround.isNumber, hround.nonneg (mul_nonneg hx.nonneg hy0.le)⟩
  · exact .of_top (infinite_mul htop hy hy0)

end Rounding

namespace Segment

open Rounding Profile

variable {s : Segment}

theorem isSpeed_stepAcceleration (hlength : Single.isPositive s.length = true)
    (hacceleration : Single.isPositive s.acceleration = true) : IsSpeed s.stepAcceleration := by
  obtain ⟨hl, hl0⟩ := isFinite_of_isPositive hlength
  obtain ⟨ha, ha0⟩ := isFinite_of_isPositive hacceleration
  obtain ⟨hcount, hcount0, -⟩ := isFinite_toFloat32 s.eventCount
  unfold stepAcceleration
  split
  · exact (isSpeed_div hcount hl.isNumber hl0.ne' (div_nonneg hcount0 hl0.le)).1.mul ha ha0
  · exact .zero

theorem rateOfFactor_le (factor : Float32) : s.rateOfFactor factor ≤ s.nominalRate :=
  Std.min_le_right

/-- Rates and events fit each other: the ramps do not overlap, they lie within the segment, and
no rate is above the nominal one. -/
structure IsTrapezoid (s : Segment) : Prop where
  /-- acceleration ends before deceleration starts -/
  accelerateUntil_le : s.accelerateUntil ≤ s.decelerateAfter
  /-- deceleration starts within the segment -/
  decelerateAfter_le : s.decelerateAfter ≤ s.eventCount
  /-- the segment does not start too fast -/
  initialRate_le : s.initialRate ≤ s.nominalRate
  /-- the segment does not end too fast -/
  finalRate_le : s.finalRate ≤ s.nominalRate

/-- The acceleration is so small against the rate that ramps from rest to the nominal rate are
longer than half of what a machine word counts. -/
def hasEndlessRamps (s : Segment) : Bool :=
  0 < s.stepAcceleration &&
    9223372036854775808 * s.stepAcceleration < s.nominalRate.toFloat32 * s.nominalRate.toFloat32

theorem toNat_ofInt {n : ℤ} (h0 : 0 ≤ n) (hlt : n < 2 ^ 32) :
    ((UInt32.ofInt n).toNat : ℤ) = n := by
  change ((UInt32.ofNat (n % 2 ^ 32).toNat).toNat : ℤ) = n
  rw [UInt32.toNat_ofNat', Int.emod_eq_of_lt h0 hlt, Nat.mod_eq_of_lt (by omega),
    Int.toNat_of_nonneg h0]

theorem isTrapezoid_of_events {initial final : UInt32} {up down : ℤ}
    (hinitial : initial ≤ s.nominalRate) (hfinal : final ≤ s.nominalRate) (h0 : 0 ≤ up)
    (hle : up ≤ down) (hcount : down ≤ s.eventCount.toNat) :
    IsTrapezoid { s with
      initialRate := initial, finalRate := final
      accelerateUntil := .ofInt up, decelerateAfter := .ofInt down } := by
  have hword := s.eventCount.toNat_lt
  have hup := toNat_ofInt h0 (by omega)
  have hdown := toNat_ofInt (h0.trans hle) (by omega)
  refine ⟨?_, ?_, hinitial, hfinal⟩ <;> rw [UInt32.le_iff_toNat_le] <;> dsimp only <;> omega

theorem clampWord_mem {n : ℤ} (h : 0 ≤ n) :
    0 ≤ clampWord n ∧ clampWord n < 2 ^ 63 ∧ clampWord n ≤ n := by
  have hmin : Int64.minValue.toInt = -2 ^ 63 := rfl
  have hmax : Int64.maxValue.toInt = 2 ^ 63 - 1 := rfl
  rw [clampWord, Single.clamp, hmin, hmax]
  split
  · omega
  · split <;> omega

/-- Steps of a ramp, rounded up. -/
theorem clampWord_ceil {x : Float32} (hx : IsSpeed x) :
    0 ≤ clampWord (Single.ceil x) ∧ clampWord (Single.ceil x) < 2 ^ 63 ∧
      (value x ≤ 2 ^ 62 → clampWord (Single.ceil x) ≤ 2 ^ 62 + 1) := by
  obtain ⟨hceil, hle⟩ := ceil_mem hx
  obtain ⟨h0, hlt, hclamp⟩ := clampWord_mem hceil
  refine ⟨h0, hlt, fun hshort => hclamp.trans ?_⟩
  exact_mod_cast hle.trans (add_le_add_left hshort 1)

/-- Steps of a ramp, rounded down. -/
theorem clampWord_floor {x : Float32} (hx : IsSpeed x) :
    0 ≤ clampWord (Single.floor x) ∧ clampWord (Single.floor x) < 2 ^ 63 ∧
      (value x ≤ 2 ^ 62 → clampWord (Single.floor x) ≤ 2 ^ 62) := by
  obtain ⟨hfloor, hle⟩ := floor_mem hx
  obtain ⟨h0, hlt, hclamp⟩ := clampWord_mem hfloor
  refine ⟨h0, hlt, fun hshort => hclamp.trans ?_⟩
  exact_mod_cast hle.trans hshort

theorem subWord_eq {m n : ℤ} (hlo : -2 ^ 63 ≤ m - n) (hhi : m - n < 2 ^ 63) :
    subWord m n = .ok (m - n) :=
  if_pos ⟨hlo, Int.le_sub_one_of_lt hhi⟩

theorem subWord_eq_error {m n : ℤ} (h : m - n < -2 ^ 63) : subWord m n = .error .subtractOverflow :=
  if_neg fun hmem => absurd hmem.1 (not_le.mpr h)

@[simp]
theorem stepAcceleration_rates (initial final : UInt32) :
    ({ s with initialRate := initial, finalRate := final } : Segment).stepAcceleration =
      s.stepAcceleration :=
  rfl

/-- Ramps that are not endless are at most half as long as a word counts. -/
theorem square_le_of_not_hasEndlessRamps (hspeed : IsSpeed s.stepAcceleration)
    (h0 : 0 < value s.stepAcceleration) (h : ¬ s.hasEndlessRamps = true) :
    value (s.nominalRate.toFloat32 * s.nominalRate.toFloat32) ≤
      2 ^ 63 * value s.stepAcceleration := by
  have hword : IsFinite 9223372036854775808 ∧ value 9223372036854775808 = 2 ^ 63 :=
    value_eq_two_pow (by rfl)
  obtain ⟨hnum, hvalue⟩ := value_two_pow_mul hword.1 hword.2 hspeed.isNumber
  have hsquare := isFinite_square s.nominalRate
  have hpos : 0 < s.stepAcceleration := by
    rwa [lt_iff IsSpeed.zero.isNumber hspeed.isNumber, value_zero]
  rw [hasEndlessRamps, decide_eq_true hpos, Bool.true_and, decide_eq_true_iff,
    lt_iff hnum hsquare.isNumber, not_lt, hvalue] at h
  refine h.trans (max_le ?_ (min_le_left _ _))
  exact (by norm_num : (-2 ^ 128 : ℝ) ≤ 0).trans (by positivity)

/-- Rates and events fit each other, unless the ramps are endless and overflow the word in which
they are taken away from the number of events. -/
theorem planTrapezoid_fits (hlength : Single.isPositive s.length = true)
    (hacceleration : Single.isPositive s.acceleration = true) (entryFactor exitFactor : Float32) :
    (∃ s', s.planTrapezoid entryFactor exitFactor = .ok s' ∧ s'.IsTrapezoid ∧
        s'.eventCount = s.eventCount ∧ s'.nominalRate = s.nominalRate) ∨
      s.planTrapezoid entryFactor exitFactor = .error .subtractOverflow ∧
        s.hasEndlessRamps = true := by
  have hspeed := isSpeed_stepAcceleration hlength hacceleration
  have hentry := rateOfFactor_le (s := s) entryFactor
  have hexit := rateOfFactor_le (s := s) exitFactor
  obtain ⟨r, hr⟩ : ∃ r, s.planTrapezoid entryFactor exitFactor = r := ⟨_, rfl⟩
  rw [hr]
  unfold planTrapezoid at hr
  dsimp only at hr
  split at hr
  · subst hr
    refine .inl ⟨_, rfl, ⟨?_, UInt32.le_refl _, hentry, hexit⟩, rfl, rfl⟩
    exact UInt32.le_iff_toNat_le.mpr (Nat.zero_le _)
  next hsteps =>
  rw [stepAcceleration_rates, Bool.or_eq_true, not_or, decide_eq_true_iff, decide_eq_true_iff,
    le_iff hspeed.isNumber IsSpeed.zero.isNumber, value_zero, not_le] at hsteps
  rw [stepAcceleration_rates] at hr
  have hcount := s.eventCount.toNat_lt
  have hpos : 0 < s.eventCount.toNat :=
    Nat.pos_of_ne_zero fun hzero => hsteps.1 (UInt32.toNat.inj hzero)
  obtain ⟨hup, hupshort⟩ := rampUp_spec hentry hspeed hsteps.2
  obtain ⟨hdown, hdownshort⟩ := rampDown_spec hexit hspeed hsteps.2
  obtain ⟨hup0, hupmax, huple⟩ := clampWord_ceil hup
  obtain ⟨hdown0, hdownmax, hdownle⟩ := clampWord_floor hdown
  have hsquare := square_le_of_not_hasEndlessRamps hspeed hsteps.2
  generalize clampWord (Single.ceil (accelerationDistance (s.rateOfFactor entryFactor).toFloat32
    s.nominalRate.toFloat32 s.stepAcceleration)) = up at *
  generalize clampWord (Single.floor (accelerationDistance s.nominalRate.toFloat32
    (s.rateOfFactor exitFactor).toFloat32 (-s.stepAcceleration))) = down at *
  rw [subWord_eq (by omega) (by omega)] at hr
  simp only [bind, Except.bind] at hr
  obtain hlt | hle := lt_or_ge (s.eventCount.toNat - up - down) (-2 ^ 63)
  · rw [subWord_eq_error hlt] at hr
    refine .inr ⟨hr.symm, ?_⟩
    by_contra hsmall
    -- ramps of at most half a word each leave a difference
    have := huple (hupshort (hsquare hsmall))
    have := hdownle (hdownshort (hsquare hsmall))
    omega
  · rw [subWord_eq hle (by omega)] at hr
    dsimp only at hr
    split at hr <;> subst hr <;> refine .inl ⟨_, rfl, ?_, rfl, rfl⟩
    · have h0 := Int.natCast_nonneg s.eventCount.toNat
      exact isTrapezoid_of_events hentry hexit (Single.le_clamp h0 _) le_rfl (Single.clamp_le h0 _)
    · exact isTrapezoid_of_events hentry hexit hup0 (by omega) (by omega)

/-- From rest up to the rate and down again, with an exit factor that is no number. -/
theorem planTrapezoid_fits_cruise :
    Single.isPositive 10 = true ∧ Single.isPositive 1000 = true ∧
      ∃ s', planTrapezoid { Segment.empty with
          eventCount := 1000, nominalRate := 100, length := 10, acceleration := 1000 } 0 (0 / 0) =
        .ok s' ∧ s'.IsTrapezoid := by
  have hlength : Single.isPositive 10 = true := by decide +kernel
  have hacceleration : Single.isPositive 1000 = true := by decide +kernel
  refine ⟨hlength, hacceleration, ?_⟩
  obtain ⟨s', h, hfits, -⟩ | ⟨-, h⟩ := planTrapezoid_fits (s := { Segment.empty with
    eventCount := 1000, nominalRate := 100, length := 10, acceleration := 1000 })
    hlength hacceleration 0 (0 / 0)
  · exact ⟨s', h, hfits⟩
  · exact absurd h (by decide +kernel)

/-- Ten steps over a millimetre, at an acceleration of `2 ^ (-100)` mm/s². -/
def crawling : Segment :=
  { empty with
    eventCount := 10, nominalRate := 100, length := 1, acceleration := .ofBits 0x0d800000 }

/-- From rest to rest each ramp fills a machine word, and the two ramps are more than it takes. -/
theorem crawling_overflows :
    Single.isPositive crawling.length = true ∧ Single.isPositive crawling.acceleration = true ∧
      crawling.planTrapezoid 0 0 = .error .subtractOverflow := by
  refine ⟨by decide +kernel, by decide +kernel, (planTrapezoid_eq_ok_or _ _ _).resolve_left ?_⟩
  rintro ⟨s', h, -⟩
  have hfail : (crawling.planTrapezoid 0 0).toBool = false := by decide +kernel
  rw [h] at hfail
  cases hfail

end Segment

end MotionControl
