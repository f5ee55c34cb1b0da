import MotionControl.Proofs.Single.Bounds
import MotionControl.Proofs.Single.Errors
import MotionControl.Settings.Check

/-!
# Speed limits brought within the step timer

`Settings.clampRates` lowers the limit of an axis that may be asked for more steps than the step
timer has ticks. The new limit is the whole part of a rounded quotient, and the step rate it is
judged by is a rounded product. The two agree unless the quotient is rounded up and a whole number
then (`Settings.limitRoundsUp`): whatever else is below the rounded quotient and whole is below the
exact one, since nothing nearer lies in between (`wholeBelow_le`). Where they agree, clamping leaves
every axis within the timer, and counts the axes that it changes (`Settings.clampRates_spec`). Where
they do not, the step rate is off by two roundings at most, but clamping counts the same axis again
each time.
-/

namespace MotionControl

namespace Rounding

open Float.Model (UnpackedFloat)
open Single (wholeBelow)

variable {x : Float32}

/-! ## Rounding down -/

/-- From `2 ^ 24` on every float is whole. -/
theorem exists_value_eq_nat (hx : IsFinite x) (h : (2 : ℝ) ^ 24 ≤ value x) :
    ∃ k : ℕ, value x = k := by
  obtain ⟨m, e, hm, hux, hc, -⟩ := hx.cases_of_pos (lt_of_lt_of_le (by norm_num) h)
  rw [value_of_finite hux, factor, one_mul] at h ⊢
  obtain ⟨k, rfl | rfl⟩ := e.eq_nat_or_neg
  · exact ⟨m * 2 ^ k, by push_cast; rw [zpow_natCast]⟩
  · have hle : (m : ℝ) * 2 ^ (-(k : ℤ)) ≤ m :=
      mul_le_of_le_one_right (Nat.cast_nonneg m)
        (zpow_le_one_of_nonpos₀ one_le_two (by omega))
    have hlt : (m : ℝ) < 2 ^ 24 := by exact_mod_cast hc.lt
    linarith

/-- The whole number below a speed is whole and below it. -/
theorem wholeBelow_spec (hx : IsFinite x) (h0 : 0 ≤ value x) :
    IsFinite (wholeBelow x) ∧ value (wholeBelow x) ≤ value x ∧
      ∃ k : ℕ, value (wholeBelow x) = k := by
  have hspeed : IsSpeed x := ⟨hx.isNumber, h0⟩
  have habs := hx.abs.isNumber
  have hvalue : value x.abs = value x := (value_abs x).trans (abs_of_nonneg h0)
  obtain ⟨hbound, hsize⟩ : IsFinite 16777216 ∧ value 16777216 = 2 ^ 24 := value_eq_two_pow (by rfl)
  rw [wholeBelow]
  split
  · next hlt =>
    rw [lt_iff habs hbound.isNumber, hvalue, hsize] at hlt
    obtain ⟨hfloor0, hfloor⟩ := floor_mem hspeed
    obtain ⟨k, hk⟩ := Int.eq_ofNat_of_zero_le hfloor0
    rw [hk, Int.cast_natCast] at hfloor
    have hbits : k < 2 ^ 24 := by exact_mod_cast hfloor.trans_lt hlt
    have hword : (UInt32.ofNat k).toNat = k := UInt32.toNat_ofNat_of_lt' (hbits.trans (by decide))
    have hround := Single.rounds_ofInt (.ofNat k)
    have hwhole := Single.value_eq_of_rounds (by rwa [hword]) hround
    rw [hword] at hround hwhole
    rw [hk, hwhole]
    refine ⟨hround.isNumber.isFinite ?_, hfloor, k, rfl⟩
    rw [hwhole, Nat.abs_cast]
    exact_mod_cast hbits.trans (by norm_num)
  · next hge =>
    rw [lt_iff habs hbound.isNumber, hvalue, hsize, not_lt] at hge
    exact ⟨hx, le_rfl, exists_value_eq_nat hx hge⟩

/-- The whole number below a rounded result is below the exact one, unless the result is rounded up
and whole itself. -/
theorem wholeBelow_le {v : ℝ} (h : Rounds v x) (hx : IsFinite x) (h0 : 0 ≤ value x)
    (hup : ¬ (v < value x ∧ value (wholeBelow x) = value x)) : value (wholeBelow x) ≤ v := by
  obtain ⟨-, hle, -⟩ := wholeBelow_spec hx h0
  obtain hdown | hlt := le_or_gt (value x) v
  · exact hle.trans hdown
  · -- a float between the exact result and the rounded one would be nearer
    by_contra hgt
    have hnear := (h.nearest hx).le _ (representable_value (x := wholeBelow x))
    rw [abs_of_pos (by linarith), abs_of_pos (by linarith)] at hnear
    exact hup ⟨hlt, le_antisymm hle (by linarith)⟩

end Rounding

open Rounding (IsFinite IsSpeed value)

/-- A frequency is zero or at least one. -/
theorem one_le_value_toFloat32 {m : UInt32} (h : m ≠ 0) : 1 ≤ value m.toFloat32 := by
  have hone : value (1 : UInt32).toFloat32 = 1 := by
    rw [Single.value_toFloat32 (by decide), UInt32.toNat_one, Nat.cast_one]
  rw [← hone]
  refine Rounding.value_toFloat32_mono (UInt32.le_iff_toNat_le.mpr ?_)
  exact Nat.one_le_iff_ne_zero.mpr fun hzero => h (UInt32.toNat.inj hzero)

/-! ## Quantities -/

/-- A quantity is worth the float it was made of. -/
theorem Quantity.unpacked_value_ofFloat (x : Float32) :
    Single.unpacked (Quantity.ofFloat x).value = Single.unpacked x :=
  Rounding.unpacked_pack (Rounding.fits_unpacked x)

theorem Quantity.value_ofFloat (x : Float32) :
    Rounding.value (Quantity.ofFloat x).value = Rounding.value x :=
  congrArg Rounding.number (unpacked_value_ofFloat x)

theorem Quantity.isFinite_ofFloat {x : Float32} (h : IsFinite x) :
    IsFinite (Quantity.ofFloat x).value := by
  change (Single.unpacked (Quantity.ofFloat x).value).isFinite = true
  rw [unpacked_value_ofFloat]
  exact h

namespace AxisSettings

/-- The scale and the speed limit are finite and above zero. -/
def HasPositiveRates (a : AxisSettings) : Prop :=
  Single.isPositive a.stepsPerMm.value = true ∧ Single.isPositive a.maxRate.value = true

end AxisSettings

namespace Settings

/-- The limit that the step timer sets to an axis. -/
def timerLimit (s : Settings) (a : AxisSettings) : Float32 :=
  s.baseFrequency.toFloat32 / a.stepsPerMm.value

/-- The step timer limits an axis, and the limit is rounded up and whole after that. -/
def LimitRoundsUp (s : Settings) (a : AxisSettings) : Prop :=
  s.exceedsTimer a = true ∧
    value s.baseFrequency.toFloat32 / value a.stepsPerMm.value < value (s.timerLimit a) ∧
    value (Single.wholeBelow (s.timerLimit a)) = value (s.timerLimit a)

section

variable {s : Settings} {a : AxisSettings}

theorem exceedsTimer_iff (ha : a.HasPositiveRates) :
    s.exceedsTimer a = true ↔ value s.baseFrequency.toFloat32 < value a.maxStepRate := by
  obtain ⟨hscale, hscale0⟩ := Rounding.isFinite_of_isPositive ha.1
  obtain ⟨hrate, -⟩ := Rounding.isFinite_of_isPositive ha.2
  have hbase := Rounding.isSpeed_toFloat32 s.baseFrequency
  have hstep := (Rounding.rounds_mul hrate hscale).isNumber
  rw [exceedsTimer, Bool.and_eq_true, decide_eq_true_iff, decide_eq_true_iff,
    Rounding.lt_iff IsSpeed.zero.isNumber hscale.isNumber, Rounding.value_zero,
    AxisSettings.maxStepRate, Rounding.lt_iff hbase.isNumber hstep]
  exact and_iff_right hscale0

theorem exceedsTimer_of_le (h : a.maxStepRate ≤ s.baseFrequency.toFloat32) :
    s.exceedsTimer a = false := by
  rw [exceedsTimer, decide_eq_false (Single.not_lt_of_le h), Bool.and_false]

/-- The limit of an axis is above what the timer sets to it. -/
theorem timerLimit_spec (ha : a.HasPositiveRates) (h : s.exceedsTimer a = true) :
    Rounding.Rounds (value s.baseFrequency.toFloat32 / value a.stepsPerMm.value)
      (s.timerLimit a) ∧
    IsFinite (s.timerLimit a) ∧ 0 ≤ value (s.timerLimit a) ∧
      value (s.timerLimit a) ≤ value a.maxRate.value := by
  obtain ⟨hscale, hscale0⟩ := Rounding.isFinite_of_isPositive ha.1
  obtain ⟨hrate, -⟩ := Rounding.isFinite_of_isPositive ha.2
  obtain ⟨hbase, hbase0, -⟩ := Rounding.isFinite_toFloat32 s.baseFrequency
  have hround := Rounding.rounds_div hbase hscale hscale0.ne'
  have h0 := hround.nonneg (div_nonneg hbase0 hscale0.le)
  rw [exceedsTimer_iff ha] at h
  have hexact :
      value s.baseFrequency.toFloat32 < value a.maxRate.value * value a.stepsPerMm.value := by
    by_contra hle
    exact absurd ((Rounding.rounds_mul hrate hscale).ge_of_ge (not_lt.mp hle)) (not_le.mpr h)
  have hle := hround.ge_of_ge ((div_lt_iff₀ hscale0).mpr hexact).le
  exact ⟨hround, IsSpeed.isFinite ⟨hround.isNumber, h0⟩ (hle.trans_lt hrate.value_lt), h0, hle⟩

theorem clampAxis_of_not_exceedsTimer (h : s.exceedsTimer a = false) : s.clampAxis a = a := by
  rw [clampAxis, h]
  rfl

theorem clampAxis_of_exceedsTimer (h : s.exceedsTimer a = true) :
    s.clampAxis a = { a with maxRate := .ofFloat (Single.wholeBelow (s.timerLimit a)) } := by
  rw [clampAxis, h]
  rfl

/-- Nothing but the limit of an axis is changed. -/
theorem clampAxis_eq (s : Settings) (a : AxisSettings) :
    s.clampAxis a = { a with maxRate := (s.clampAxis a).maxRate } := by
  unfold clampAxis
  split <;> rfl

/-- Clamping an axis again computes the same limit. -/
theorem clampAxis_clampAxis (s : Settings) (a : AxisSettings) :
    s.clampAxis (s.clampAxis a) = s.clampAxis a := by
  cases h : s.exceedsTimer a with
  | false =>
    rw [clampAxis_of_not_exceedsTimer h]
    exact clampAxis_of_not_exceedsTimer h
  | true =>
    rw [clampAxis_of_exceedsTimer h]
    cases h' : s.exceedsTimer
        { a with maxRate := .ofFloat (Single.wholeBelow (s.timerLimit a)) } with
    | false => exact clampAxis_of_not_exceedsTimer h'
    | true => exact clampAxis_of_exceedsTimer h'

theorem value_maxRate_clampAxis_le (ha : a.HasPositiveRates) :
    IsFinite (s.clampAxis a).maxRate.value ∧ 0 ≤ value (s.clampAxis a).maxRate.value ∧
      value (s.clampAxis a).maxRate.value ≤ value a.maxRate.value := by
  obtain ⟨hrate, hrate0⟩ := Rounding.isFinite_of_isPositive ha.2
  cases h : s.exceedsTimer a with
  | false =>
    rw [clampAxis_of_not_exceedsTimer h]
    exact ⟨hrate, hrate0.le, le_rfl⟩
  | true =>
    obtain ⟨-, hfin, h0, hle⟩ := timerLimit_spec ha h
    obtain ⟨hwhole, hbelow, k, hk⟩ := Rounding.wholeBelow_spec hfin h0
    rw [clampAxis_of_exceedsTimer h, Quantity.value_ofFloat]
    exact ⟨Quantity.isFinite_ofFloat hwhole, hk ▸ Nat.cast_nonneg k, hbelow.trans hle⟩

/-- What is asked of an axis that is clamped to a whole limit. -/
theorem rounds_maxStepRate_clampAxis (ha : a.HasPositiveRates) (h : s.exceedsTimer a = true) :
    Rounding.Rounds (value (Single.wholeBelow (s.timerLimit a)) * value a.stepsPerMm.value)
      (s.clampAxis a).maxStepRate := by
  obtain ⟨hscale, -⟩ := Rounding.isFinite_of_isPositive ha.1
  obtain ⟨hfin, -⟩ := value_maxRate_clampAxis_le (s := s) ha
  have hround := Rounding.rounds_mul hfin hscale
  rw [clampAxis_of_exceedsTimer h] at hround ⊢
  rwa [Quantity.value_ofFloat] at hround

/-- A clamped axis keeps within the timer, unless its limit is rounded up. -/
theorem maxStepRate_clampAxis (ha : a.HasPositiveRates) (hup : ¬ s.LimitRoundsUp a) :
    (s.clampAxis a).maxStepRate ≤ s.baseFrequency.toFloat32 := by
  obtain ⟨hscale, hscale0⟩ := Rounding.isFinite_of_isPositive ha.1
  obtain ⟨hrate, -⟩ := Rounding.isFinite_of_isPositive ha.2
  have hbase := (Rounding.isSpeed_toFloat32 s.baseFrequency).isNumber
  cases h : s.exceedsTimer a with
  | false =>
    rw [clampAxis_of_not_exceedsTimer h]
    rw [← Bool.not_eq_true, exceedsTimer_iff ha, not_lt] at h
    exact (Rounding.le_iff (Rounding.rounds_mul hrate hscale).isNumber hbase).mpr h
  | true =>
    obtain ⟨hround, hfin, h0, -⟩ := timerLimit_spec ha h
    have hwhole := Rounding.wholeBelow_le hround hfin h0 fun hboth => hup ⟨h, hboth⟩
    rw [le_div_iff₀ hscale0] at hwhole
    have hstep := rounds_maxStepRate_clampAxis ha h
    exact (Rounding.le_iff hstep.isNumber hbase).mpr (hstep.ge_of_ge hwhole)

/-- A limit that is rounded up is off by one rounding, and the timer has ticks. -/
theorem LimitRoundsUp.bounds (ha : a.HasPositiveRates) (hup : s.LimitRoundsUp a) :
    1 ≤ value s.baseFrequency.toFloat32 ∧
      value s.baseFrequency.toFloat32 < value (s.timerLimit a) * value a.stepsPerMm.value ∧
      value (s.timerLimit a) * value a.stepsPerMm.value ≤
        value s.baseFrequency.toFloat32 * (1 + 2 ^ (-24 : ℤ)) := by
  obtain ⟨h, hlt, hwhole⟩ := hup
  obtain ⟨-, hscale0⟩ := Rounding.isFinite_of_isPositive ha.1
  obtain ⟨-, hbase0, -⟩ := Rounding.isFinite_toFloat32 s.baseFrequency
  obtain ⟨hround, hfin, h0, -⟩ := timerLimit_spec ha h
  obtain ⟨-, -, k, hk⟩ := Rounding.wholeBelow_spec hfin h0
  rw [hwhole] at hk
  have hlimit1 : 1 ≤ value (s.timerLimit a) := by
    have hk0 : 0 < k := by exact_mod_cast hk ▸ (div_nonneg hbase0 hscale0.le).trans_lt hlt
    rw [hk]
    exact_mod_cast hk0
  have hexact := hround.half_le hfin hlimit1
  refine ⟨one_le_value_toFloat32 fun hzero => ?_, (div_lt_iff₀ hscale0).mp hlt, ?_⟩
  · rw [hzero, Single.value_toFloat32 (by decide), UInt32.toNat_zero, Nat.cast_zero,
      zero_div] at hexact
    norm_num at hexact
  · have hquot := hround.le_of_normal hfin (le_trans (by norm_num) hexact)
    rwa [div_mul_eq_mul_div, le_div_iff₀ hscale0] at hquot

/-- In any case it is off by two roundings at most. -/
theorem value_maxStepRate_clampAxis_le (ha : a.HasPositiveRates) :
    value (s.clampAxis a).maxStepRate ≤
      value s.baseFrequency.toFloat32 * (1 + 2 ^ (-22 : ℤ)) := by
  obtain ⟨hbase, hbase0, hbase_le⟩ := Rounding.isFinite_toFloat32 s.baseFrequency
  by_cases hup : s.LimitRoundsUp a
  · obtain ⟨hbase1, hlarge, hlimit⟩ := hup.bounds ha
    have hstep := rounds_maxStepRate_clampAxis ha hup.1
    rw [hup.2.2] at hstep
    -- the step rate is far from the largest floats and from the smallest
    obtain ⟨hbound, hsize⟩ : IsFinite 18446744073709551616 ∧ value 18446744073709551616 = 2 ^ 64 :=
      Rounding.value_eq_two_pow (by rfl)
    have hfinite : IsFinite (s.clampAxis a).maxStepRate := by
      refine IsSpeed.isFinite ⟨hstep.isNumber, hstep.nonneg (hbase0.trans hlarge.le)⟩
        (lt_of_le_of_lt (hstep.ge_of_ge ?_) hbound.value_lt)
      rw [hsize]
      norm_num at hlimit
      linarith
    have hproduct := hstep.le_of_normal hfinite (le_trans (by norm_num) (hbase1.trans hlarge.le))
    norm_num at hlimit hproduct ⊢
    linarith
  · have hwithin := maxStepRate_clampAxis ha hup
    rw [Rounding.le_iff (Single.isNaN_of_le hwithin).1 hbase.isNumber] at hwithin
    exact hwithin.trans (le_mul_of_one_le_right hbase0 (by norm_num))

end

/-! ## All axes -/

theorem problems_axis_of_validate {s : Settings} (hs : s.validate = .ok ()) (a : Axis) :
    (s.axes.get a).problems a = [] := by
  rw [validate_eq_ok_iff, problems, List.append_eq_nil_iff, List.append_eq_nil_iff] at hs
  exact List.flatMap_eq_nil_iff.mp hs.1.2 a a.mem_all

/-- Settings that are accepted have positive scales and limits. -/
theorem hasPositiveRates_of_validate {s : Settings} (hs : s.validate = .ok ()) (a : Axis) :
    (s.axes.get a).HasPositiveRates := by
  have haxis := problems_axis_of_validate hs a
  rw [AxisSettings.problems, List.append_eq_nil_iff, List.append_eq_nil_iff,
    problemUnless_eq_nil_iff, Bool.and_eq_true] at haxis
  exact haxis.1.1

@[simp] theorem get_clampRates (s : Settings) (a : Axis) :
    s.clampRates.axes.get a = s.clampAxis (s.axes.get a) :=
  PerAxis.get_map _ _ _

theorem clampRates_clampRates (s : Settings) : s.clampRates.clampRates = s.clampRates := by
  have haxes : s.clampRates.axes.map s.clampAxis = s.clampRates.axes := by
    refine PerAxis.ext_get fun a => ?_
    rw [PerAxis.get_map, get_clampRates, clampAxis_clampAxis]
  exact congrArg (fun axes => { s with axes := axes }) haxes

theorem clampCount_eq (s : Settings) :
    s.clampCount = Axis.all.countP fun a => s.exceedsTimer (s.axes.get a) := by
  rw [clampCount, PerAxis.toList_eq_map_get, List.countP_map]
  rfl

variable {s : Settings}

/-- Clamping the limits of axes with positive rates raises none of them, changes nothing else, and
leaves an axis as it is that is within the step timer already. Done twice it is done once. Unless
the limit of an axis is rounded up, the axis is within the timer afterwards, and if none is rounded
up, the axes that have changed are counted, and no axis is counted again. In any case the step rate
of an axis is within two roundings of the timer. -/
theorem clampRates_spec (hs : ∀ a, (s.axes.get a).HasPositiveRates) :
    (∀ a, s.clampRates.axes.get a =
        { s.axes.get a with maxRate := (s.clampRates.axes.get a).maxRate } ∧
      (s.clampRates.axes.get a).maxRate.value ≤ (s.axes.get a).maxRate.value ∧
      ((s.axes.get a).maxStepRate ≤ s.baseFrequency.toFloat32 →
        s.clampRates.axes.get a = s.axes.get a) ∧
      (¬ s.LimitRoundsUp (s.axes.get a) →
        (s.clampRates.axes.get a).maxStepRate ≤ s.baseFrequency.toFloat32) ∧
      value (s.clampRates.axes.get a).maxStepRate ≤
        value s.baseFrequency.toFloat32 * (1 + 2 ^ (-22 : ℤ))) ∧
    { s.clampRates with axes := s.axes } = s ∧
    s.clampRates.clampRates = s.clampRates ∧
    ((∀ a, ¬ s.LimitRoundsUp (s.axes.get a)) →
      s.clampCount = Axis.all.countP (fun a => s.clampRates.axes.get a ≠ s.axes.get a) ∧
      s.clampRates.clampCount = 0) := by
  refine ⟨fun a => ?_, rfl, s.clampRates_clampRates, fun hup => ⟨?_, ?_⟩⟩
  · rw [get_clampRates]
    obtain ⟨hfin, -, hle⟩ := value_maxRate_clampAxis_le (s := s) (hs a)
    have hrate := (Rounding.isFinite_of_isPositive (hs a).2).1
    exact ⟨s.clampAxis_eq _, (Rounding.le_iff hfin.isNumber hrate.isNumber).mpr hle,
      fun hwithin => clampAxis_of_not_exceedsTimer (exceedsTimer_of_le hwithin),
      maxStepRate_clampAxis (hs a), value_maxStepRate_clampAxis_le (hs a)⟩
  · rw [clampCount_eq]
    refine List.countP_congr fun a _ => ?_
    rw [decide_eq_true_iff, get_clampRates]
    constructor
    · intro h heq
      have hwithin := maxStepRate_clampAxis (hs a) (hup a)
      rw [heq] at hwithin
      rw [exceedsTimer_of_le hwithin] at h
      cases h
    · intro hne
      by_contra h
      exact hne (clampAxis_of_not_exceedsTimer (Bool.eq_false_iff.mpr h))
  · rw [clampCount_eq, List.countP_eq_zero]
    intro a _
    rw [get_clampRates]
    exact Bool.eq_false_iff.mp (exceedsTimer_of_le (maxStepRate_clampAxis (hs a) (hup a)))

/-- Default settings with another scale of the first axis. -/
def scaled (stepsPerMm : Quantity) : Settings :=
  { withDefaultPins with
    axes := withDefaultPins.axes.set .alpha
      { withDefaultPins.axes.alpha with stepsPerMm := stepsPerMm } }

/-- With 400 steps per mm the first axis is limited to 250 mm/s, which is no rounding at all. -/
theorem clampRates_spec_scaled :
    (scaled ⟨0x43c80000⟩).clampCount = Axis.all.countP (fun a =>
      (scaled ⟨0x43c80000⟩).clampRates.axes.get a ≠ (scaled ⟨0x43c80000⟩).axes.get a) ∧
    (scaled ⟨0x43c80000⟩).clampRates.clampCount = 0 ∧
    (scaled ⟨0x43c80000⟩).clampRates.axes.alpha.maxRate = .ofFloat 250 := by
  have hpositive : ∀ a, ((scaled ⟨0x43c80000⟩).axes.get a).HasPositiveRates := by
    intro a
    cases a <;> exact ⟨by decide +kernel, by decide +kernel⟩
  have hexact : ∀ a, ¬ (scaled ⟨0x43c80000⟩).LimitRoundsUp ((scaled ⟨0x43c80000⟩).axes.get a) := by
    rintro a ⟨hexceeds, hup, -⟩
    cases a with
    | alpha =>
      have hbase : value (scaled ⟨0x43c80000⟩).baseFrequency.toFloat32 = 100000 :=
        Single.value_toFloat32 (m := 100000) (by decide)
      rw [PerAxis.get, hbase,
        Rounding.value_of_positive (m := 13107200) (e := -15) (by decide) (by rfl),
        Rounding.value_of_positive (m := 16384000) (e := -16) (by decide) (by rfl)] at hup
      norm_num at hup
    | beta => exact absurd hexceeds (by decide +kernel)
    | gamma => exact absurd hexceeds (by decide +kernel)
  obtain ⟨-, -, -, hcount⟩ := clampRates_spec hpositive
  exact ⟨(hcount hexact).1, (hcount hexact).2, by decide +kernel⟩

/-- With 719.4245 steps per mm the first axis is limited to 139 mm/s, which is rounded up from a
little less. It stays beyond the timer, and is counted again though nothing changes any more. -/
theorem clampRates_again :
    (scaled ⟨0x4433db2b⟩).clampCount = 1 ∧
    (scaled ⟨0x4433db2b⟩).clampRates.axes.alpha.maxRate = .ofFloat 139 ∧
    (scaled ⟨0x4433db2b⟩).baseFrequency.toFloat32 <
      (scaled ⟨0x4433db2b⟩).clampRates.axes.alpha.maxStepRate ∧
    (scaled ⟨0x4433db2b⟩).clampRates.clampCount = 1 ∧
    (scaled ⟨0x4433db2b⟩).clampRates.clampRates = (scaled ⟨0x4433db2b⟩).clampRates := by
  decide +kernel

end Settings

end MotionControl
