import Mathlib.Analysis.Real.Sqrt
import Mathlib.Tactic.FieldSimp
import MotionControl.Proofs.Single.Value

/-!
# Arithmetic on floats

An operation on floats gives the exact result, rounded once and cut at the infinities (`Rounds`).
This is proved for the operations and the signs that speeds and lengths need. Orders of exact
results are kept by rounding, and a float that bounds the exact result bounds the rounded one.
-/

namespace MotionControl.Rounding

open Float.Model (Format UnpackedFloat totalExponent)
open Float.Model.UnpackedFloat
open Single (unpacked)

/-- The float is the exact result `v`, rounded. -/
structure Rounds (v : ℝ) (x : Float32) : Prop where
  /-- it is a number -/
  isNumber : IsNumber x
  /-- it stands for a nearest number, unless that is too large -/
  exists_nearest : ∃ r, Nearest v r ∧ value x = cut r

/-! ## The values of floats -/

/-- The float is neither infinite nor a NaN. -/
def IsFinite (x : Float32) : Prop := x.isFinite = true

theorem IsFinite.cases {x : Float32} (h : IsFinite x) :
    (∃ s, unpacked x = .zero s) ∨
      ∃ s m e hm, unpacked x = .finite s m e hm ∧ Canonical m e ∧ e ≤ 104 := by
  change (unpacked x).isFinite = true at h
  cases hx : unpacked x with
  | notANumber => rw [hx] at h; cases h
  | infinity s => rw [hx] at h; cases h
  | zero s => exact .inl ⟨s, rfl⟩
  | finite s m e hm => exact .inr ⟨s, m, e, hm, rfl, canonical_unpacked hx⟩

theorem not_isFinite_of_infinite {x : Float32} {s : Sign} (h : unpacked x = .infinity s) :
    ¬ IsFinite x := by
  intro hfin
  change (unpacked x).isFinite = true at hfin
  rw [h] at hfin
  cases hfin

theorem IsFinite.isNumber {x : Float32} (h : IsFinite x) : IsNumber x := by
  rw [isNumber_iff]
  obtain ⟨s, hx⟩ | ⟨s, m, e, hm, hx, -⟩ := h.cases <;> rw [hx] <;> nofun

theorem IsNumber.cases {x : Float32} (h : IsNumber x) :
    IsFinite x ∨ ∃ s, unpacked x = .infinity s := by
  rw [isNumber_iff] at h
  cases hx : unpacked x with
  | notANumber => exact absurd hx h
  | infinity s => exact .inr ⟨s, rfl⟩
  | zero s => exact .inl (congrArg UnpackedFloat.isFinite hx)
  | finite s m e hm => exact .inl (congrArg UnpackedFloat.isFinite hx)

theorem value_of_zero {x : Float32} {s : Sign} (h : unpacked x = .zero s) : value x = 0 :=
  congrArg number h

theorem value_of_infinite {x : Float32} {s : Sign} (h : unpacked x = .infinity s) :
    value x = factor s * 2 ^ 128 :=
  congrArg number h

theorem value_of_finite {x : Float32} {s : Sign} {m : ℕ} {e : ℤ} {hm : 0 < m}
    (h : unpacked x = .finite s m e hm) : value x = factor s * (m * 2 ^ e) :=
  congrArg number h

theorem value_of_positive {x : Float32} {m : ℕ} {e : ℤ} (hm : 0 < m)
    (h : unpacked x = .finite .positive m e hm) : value x = m * 2 ^ e := by
  rw [value_of_finite h, factor, one_mul]

/-- A float is given by its bits. -/
theorem eq_of_toBits {x y : Float32} (h : x.toBits = y.toBits) : x = y := by
  obtain ⟨⟨b, hx⟩⟩ := x
  obtain ⟨⟨b', hy⟩⟩ := y
  obtain rfl : b = b' := h
  rfl

theorem unpacked_pack {u : UnpackedFloat} (h : Fits u) :
    unpacked (.ofModel (.pack u)) = u :=
  unpack_pack_of_fits h

theorem factor_mul (s t : Sign) : factor (s * t) = factor s * factor t := by
  cases s <;> cases t
  · change (1 : ℝ) = -1 * -1
    norm_num
  · change (-1 : ℝ) = -1 * 1
    norm_num
  · change (-1 : ℝ) = 1 * -1
    norm_num
  · change (1 : ℝ) = 1 * 1
    norm_num

theorem factor_neg (s : Sign) : factor (-s) = -factor s := by
  cases s
  · exact (neg_neg (1 : ℝ)).symm
  · rfl

theorem abs_factor_mul (s : Sign) (r : ℝ) : |factor s * r| = |r| := by
  cases s <;> simp [factor]

theorem Representable.factor_mul (s : Sign) {r : ℝ} (h : Representable r) :
    Representable (factor s * r) := by
  obtain ⟨n, e, hn, he, rfl⟩ := h
  cases s with
  | negative => exact ⟨-n, e, by rwa [abs_neg], he, by rw [factor]; push_cast; ring⟩
  | positive => exact ⟨n, e, hn, he, by rw [factor, one_mul]⟩

theorem Nearest.factor_mul (s : Sign) {v r : ℝ} (h : Nearest v r) :
    Nearest (factor s * v) (factor s * r) := by
  refine ⟨h.representable.factor_mul s, fun y hy => ?_⟩
  have hsq : factor s * factor s = 1 := by cases s <;> simp [factor]
  have hy' : y - factor s * v = factor s * (factor s * y - v) := by
    rw [mul_sub, ← mul_assoc, hsq, one_mul]
  rw [hy', ← mul_sub, abs_factor_mul, abs_factor_mul]
  exact h.le _ (hy.factor_mul s)

theorem representable_value {x : Float32} : Representable (value x) := by
  cases hx : unpacked x with
  | notANumber => exact (show value x = 0 from congrArg number hx) ▸ Representable.zero
  | infinity s =>
    rw [value_of_infinite hx]
    exact Representable.factor_mul s
      (by exact_mod_cast Representable.two_pow (e := 128) (by norm_num))
  | zero s => exact value_of_zero hx ▸ Representable.zero
  | finite s m e hm =>
    rw [value_of_finite hx]
    exact (canonical_unpacked hx).1.representable.factor_mul s

theorem abs_value_le (x : Float32) : |value x| ≤ 2 ^ 128 := by
  have hfits := fits_unpacked x
  cases hx : unpacked x with
  | notANumber => rw [show value x = 0 from congrArg number hx, abs_zero]; positivity
  | infinity s =>
    rw [value_of_infinite hx, abs_factor_mul]
    norm_num
  | zero s => rw [value_of_zero hx, abs_zero]; positivity
  | finite s m e hm =>
    rw [hx] at hfits
    rw [value_of_finite hx, abs_factor_mul, abs_of_nonneg (by positivity)]
    exact hfits.lt.le

theorem value_le (x : Float32) : value x ≤ 2 ^ 128 := (abs_le.mp (abs_value_le x)).2

/-! ## Rounded results -/

namespace Rounds

variable {v w : ℝ} {x y z : Float32}

/-- Rounding keeps a strict order. -/
theorem mono (hx : Rounds v x) (hy : Rounds w y) (h : v < w) : value x ≤ value y := by
  obtain ⟨r, hr, hx⟩ := hx.exists_nearest
  obtain ⟨q, hq, hy⟩ := hy.exists_nearest
  rw [hx, hy]
  exact cut_mono (hr.mono hq h)

theorem le_of_le (hx : Rounds v x) (h : value z ≤ v) : value z ≤ value x := by
  obtain ⟨r, hr, hx⟩ := hx.exists_nearest
  rw [hx, ← cut_eq_self (abs_value_le z)]
  exact cut_mono (hr.le_of_le representable_value h)

theorem ge_of_ge (hx : Rounds v x) (h : v ≤ value z) : value x ≤ value z := by
  obtain ⟨r, hr, hx⟩ := hx.exists_nearest
  rw [hx, ← cut_eq_self (abs_value_le z)]
  exact cut_mono (hr.ge_of_ge representable_value h)

theorem nonneg (hx : Rounds v x) (h : 0 ≤ v) : 0 ≤ value x := by
  have hzero : value 0 = 0 := value_of_zero Single.unpacked_zero
  rw [← hzero]
  exact hx.le_of_le (hzero ▸ h)

theorem nonpos (hx : Rounds v x) (h : v ≤ 0) : value x ≤ 0 := by
  have hzero : value 0 = 0 := value_of_zero Single.unpacked_zero
  rw [← hzero]
  exact hx.ge_of_ge (hzero ▸ h)

end Rounds

theorem rounds_pack {u : UnpackedFloat} (h : Fits u) (hn : u ≠ .notANumber) :
    Rounds (number u) (.ofModel (.pack u)) := by
  have hvalue : value (.ofModel (.pack u)) = number u := congrArg number (unpacked_pack h)
  refine ⟨?_, number u, hvalue ▸ representable_value.nearest, ?_⟩
  · rw [isNumber_iff, unpacked_pack h]
    exact hn
  · rw [← hvalue, cut_eq_self (abs_value_le _)]

/-- A mantissa with residual bits is rounded. -/
theorem rounds_roundWithAccuracy (s : Sign) {m : ℕ} {e : ℤ} {a : Accuracy} {x : ℝ}
    (hx : Locates (.ofMantissaAndAccuracy m a) x) (he : e ≤ max (m.log2 + e - 23) (-149)) :
    Rounds (factor s * (x * 2 ^ e))
      (.ofModel (.pack (roundWithAccuracy .binary32 s m e a))) := by
  obtain ⟨r, hr, ⟨hzero, rfl⟩ | ⟨m', e', hm', hfinite, hc, rfl⟩⟩ := exists_nearest s hx he
  · rw [hzero]
    refine ⟨isNumber_iff.mpr ?_, _, hr.factor_mul s, ?_⟩
    · rw [unpacked_pack (u := .zero s) trivial]
      nofun
    · rw [value_of_zero (unpacked_pack (u := .zero s) trivial), mul_zero, cut_eq_self (by norm_num)]
  · rw [hfinite]
    by_cases hle : e' ≤ 104
    · have hunpacked : unpacked (.ofModel (.pack (.finite s m' e' hm'))) = .finite s m' e' hm' :=
        (unpack_pack_of_canonical s hm' hc).trans (if_pos hle)
      refine ⟨isNumber_iff.mpr ?_, _, hr.factor_mul s, ?_⟩
      · rw [hunpacked]
        nofun
      · rw [← value_of_finite hunpacked, cut_eq_self (abs_value_le _)]
    · have hunpacked : unpacked (.ofModel (.pack (.finite s m' e' hm'))) = .infinity s :=
        (unpack_pack_of_canonical s hm' hc).trans (if_neg hle)
      refine ⟨isNumber_iff.mpr ?_, _, hr.factor_mul s, ?_⟩
      · rw [hunpacked]
        nofun
      · -- the value is beyond the finite floats
        have hm : (2 : ℝ) ^ 23 ≤ m' := by exact_mod_cast hc.normal.resolve_left (by omega)
        have hlarge : (2 : ℝ) ^ 128 ≤ m' * 2 ^ e' := by
          calc (2 : ℝ) ^ 128 = (2 : ℝ) ^ 23 * (2 : ℝ) ^ (105 : ℤ) := by norm_num
            _ ≤ (m' : ℝ) * 2 ^ e' :=
                mul_le_mul hm (zpow_le_zpow_right₀ (by norm_num) (by omega)) (by positivity)
                  (by positivity)
        rw [value_of_infinite hunpacked, cut]
        cases s with
        | negative =>
          rw [factor, max_eq_left]
          · ring
          · exact min_le_of_left_le (by linarith)
        | positive =>
          rw [factor, one_mul, one_mul, min_eq_right hlarge, max_eq_right]
          norm_num

/-! ## Operations -/

variable {x y : Float32}

theorem Fits.neg {u : UnpackedFloat} (h : Fits u) : Fits u.neg := by
  cases u <;> exact h

theorem unpacked_neg (x : Float32) : unpacked (-x) = (unpacked x).neg :=
  unpacked_pack (fits_unpacked x).neg

theorem value_neg (x : Float32) : value (-x) = -value x := by
  rw [value, unpacked_neg, value]
  cases unpacked x with
  | notANumber => exact neg_zero.symm
  | infinity s =>
    change factor (-s) * _ = -(factor s * _)
    rw [factor_neg, neg_mul]
  | zero s => exact neg_zero.symm
  | finite s m e hm =>
    change factor (-s) * _ = -(factor s * _)
    rw [factor_neg, neg_mul]

theorem Fits.abs {u : UnpackedFloat} (h : Fits u) : Fits u.abs := by
  cases u <;> exact h

theorem unpacked_abs (x : Float32) : unpacked x.abs = (unpacked x).abs :=
  unpacked_pack (fits_unpacked x).abs

theorem value_abs (x : Float32) : value x.abs = |value x| := by
  rw [value, unpacked_abs, value]
  cases unpacked x with
  | notANumber => exact abs_zero.symm
  | infinity s =>
    change factor .positive * _ = |factor s * _|
    rw [abs_factor_mul, abs_of_pos (by norm_num)]
    exact one_mul _
  | zero s => exact abs_zero.symm
  | finite s m e hm =>
    change factor .positive * _ = |factor s * _|
    rw [abs_factor_mul, abs_of_nonneg (by positivity)]
    exact one_mul _

theorem IsFinite.abs (h : IsFinite x) : IsFinite x.abs := by
  change (unpacked x.abs).isFinite = true
  rw [unpacked_abs]
  obtain ⟨s, hx⟩ | ⟨s, m, e, hm, hx, -⟩ := h.cases <;> rw [hx] <;> rfl

theorem IsFinite.neg (h : IsFinite x) : IsFinite (-x) := by
  change (unpacked (-x)).isFinite = true
  rw [unpacked_neg]
  obtain ⟨s, hx⟩ | ⟨s, m, e, hm, hx, -⟩ := h.cases <;> rw [hx] <;> rfl

theorem IsNumber.neg (h : IsNumber x) : IsNumber (-x) := by
  rw [isNumber_iff] at h ⊢
  rw [unpacked_neg]
  cases hu : unpacked x with
  | notANumber => exact absurd hu h
  | _ => nofun

theorem sign_of_nonneg {s : Sign} {r : ℝ} (hr : 0 < r) (h : 0 ≤ factor s * r) :
    s = .positive := by
  cases s with
  | positive => rfl
  | negative =>
    rw [factor] at h
    linarith

theorem IsFinite.cases_of_nonneg (h : IsFinite x) (h0 : 0 ≤ value x) :
    (∃ s, unpacked x = .zero s) ∨
      ∃ m e hm, unpacked x = .finite .positive m e hm ∧ Canonical m e ∧ e ≤ 104 := by
  obtain hzero | ⟨s, m, e, hm, hx, hc⟩ := h.cases
  · exact .inl hzero
  · rw [value_of_finite hx] at h0
    obtain rfl := sign_of_nonneg (by positivity) h0
    exact .inr ⟨m, e, hm, hx, hc⟩

theorem IsFinite.cases_of_pos (h : IsFinite x) (h0 : 0 < value x) :
    ∃ m e hm, unpacked x = .finite .positive m e hm ∧ Canonical m e ∧ e ≤ 104 := by
  obtain ⟨s, hx⟩ | hfinite := h.cases_of_nonneg h0.le
  · rw [value_of_zero hx] at h0
    exact absurd h0 (lt_irrefl 0)
  · exact hfinite

/-- A product has enough bits, unless it is among the smallest numbers. -/
theorem mul_exponent_le {m m' : ℕ} {e e' : ℤ} (hm : 0 < m) (hm' : 0 < m') (hc : Canonical m e)
    (hc' : Canonical m' e') : e + e' ≤ max ((m * m').log2 + (e + e') - 23) (-149) := by
  have hlog (h : 2 ^ 23 ≤ m * m') : 23 ≤ (m * m').log2 :=
    (Nat.le_log2 (Nat.mul_pos hm hm').ne').mpr h
  obtain rfl | hbits := hc.normal
  · obtain rfl | hbits' := hc'.normal
    · omega
    · have := hlog (hbits'.trans (Nat.le_mul_of_pos_left m' hm))
      omega
  · have := hlog (hbits.trans (Nat.le_mul_of_pos_right m hm'))
    omega

theorem rounds_mul (hx : IsFinite x) (hy : IsFinite y) : Rounds (value x * value y) (x * y) := by
  change Rounds _ (.ofModel (.pack (mul .binary32 (unpacked x) (unpacked y))))
  obtain ⟨s, hx⟩ | ⟨s, m, e, hm, hx, hc, -⟩ := hx.cases
  · rw [value_of_zero hx, zero_mul, hx]
    obtain ⟨s', hy⟩ | ⟨s', m', e', hm', hy, -⟩ := hy.cases <;> rw [hy] <;>
      exact rounds_pack (u := .zero (s * s')) trivial nofun
  · obtain ⟨s', hy⟩ | ⟨s', m', e', hm', hy, hc', -⟩ := hy.cases
    · rw [value_of_zero hy, mul_zero, hx, hy]
      exact rounds_pack (u := .zero (s * s')) trivial nofun
    · have hexact : value x * value y = factor (s * s') * ((m * m' : ℕ) * 2 ^ (e + e')) := by
        rw [value_of_finite hx, value_of_finite hy, factor_mul, zpow_add₀ (by norm_num)]
        push_cast
        ring
      rw [hexact, hx, hy]
      exact rounds_roundWithAccuracy _ (a := .exact) rfl (mul_exponent_le hm hm' hc hc')

theorem mul_self_of_infinite {s : Sign} (h : unpacked x = .infinity s) :
    unpacked (x * x) = .infinity .positive := by
  change unpacked (.ofModel (.pack (mul .binary32 (unpacked x) (unpacked x)))) = _
  rw [h]
  cases s <;> exact unpacked_pack (u := .infinity .positive) trivial

theorem infinite_mul {s : Sign} (hx : unpacked x = .infinity s) (hy : IsFinite y)
    (hy0 : 0 < value y) : unpacked (x * y) = .infinity s := by
  obtain ⟨m, e, hm, hy, -⟩ := hy.cases_of_pos hy0
  change unpacked (.ofModel (.pack (mul .binary32 (unpacked x) (unpacked y)))) = _
  rw [hx, hy]
  cases s <;> exact unpacked_pack (u := .infinity _) trivial

theorem mul_infinite {s : Sign} (hx : IsFinite x) (hx0 : 0 < value x)
    (hy : unpacked y = .infinity s) : unpacked (x * y) = .infinity s := by
  obtain ⟨m, e, hm, hx, -⟩ := hx.cases_of_pos hx0
  change unpacked (.ofModel (.pack (mul .binary32 (unpacked x) (unpacked y)))) = _
  rw [hx, hy]
  cases s <;> exact unpacked_pack (u := .infinity _) trivial

theorem mul_nonpos (hx : IsNumber x) (hx0 : value x ≤ 0) (hy : IsFinite y) (hy0 : 0 < value y) :
    IsNumber (x * y) ∧ value (x * y) ≤ 0 := by
  obtain hfin | ⟨s, hinf⟩ := hx.cases
  · have h := rounds_mul hfin hy
    exact ⟨h.isNumber, h.nonpos (mul_nonpos_of_nonpos_of_nonneg hx0 hy0.le)⟩
  · have hmul := infinite_mul hinf hy hy0
    refine ⟨isNumber_iff.mpr (hmul ▸ UnpackedFloat.noConfusion), ?_⟩
    rwa [value_of_infinite hmul, ← value_of_infinite hinf]

/-- A fraction with its residual bits is located. -/
theorem locates_div (m : ℕ) {k : ℕ} (hk : 0 < k) :
    Locates (.ofMantissaAndAccuracy (m / k) (accuracyOfFraction (m % k) k)) (m / k : ℝ) := by
  have hk' : (0 : ℝ) < k := by exact_mod_cast hk
  have hdiv : (m : ℝ) / k = (m / k : ℕ) + (m % k : ℕ) / (k : ℝ) := by
    rw [eq_comm, ← mul_left_inj' hk'.ne', add_mul, div_mul_cancel₀ _ hk'.ne',
      div_mul_cancel₀ _ hk'.ne']
    exact_mod_cast Nat.div_add_mod' m k
  have hrem : ((m % k : ℕ) : ℝ) < k := by exact_mod_cast Nat.mod_lt m hk
  have hlt1 : ((m % k : ℕ) : ℝ) / k < 1 := (div_lt_one hk').mpr hrem
  rw [accuracyOfFraction]
  split
  · next hzero =>
    change (m : ℝ) / k = (m / k : ℕ)
    rw [hdiv, hzero, Nat.cast_zero, zero_div, add_zero]
  · next hpos =>
    have hpos' : (0 : ℝ) < (m % k : ℕ) / (k : ℝ) :=
      div_pos (by exact_mod_cast Nat.pos_of_ne_zero hpos) hk'
    obtain hlt | heq | hgt := lt_trichotomy (2 * (m % k)) k
    · rw [compare_lt_iff_lt.mpr hlt]
      have hhalf : ((m % k : ℕ) : ℝ) / k < 1 / 2 := by
        rw [div_lt_iff₀ hk']
        have : (2 : ℝ) * (m % k : ℕ) < k := by exact_mod_cast hlt
        linarith
      change ((m / k : ℕ) : ℝ) < (m : ℝ) / k ∧ (m : ℝ) / k < (m / k : ℕ) + 1 / 2
      constructor <;> linarith
    · rw [compare_eq_iff_eq.mpr heq]
      have hhalf : ((m % k : ℕ) : ℝ) / k = 1 / 2 := by
        rw [div_eq_iff hk'.ne']
        have : (2 : ℝ) * (m % k : ℕ) = k := by exact_mod_cast heq
        linarith
      change (m : ℝ) / k = (m / k : ℕ) + 1 / 2
      linarith
    · rw [compare_gt_iff_gt.mpr hgt]
      have hhalf : 1 / 2 < ((m % k : ℕ) : ℝ) / k := by
        rw [lt_div_iff₀ hk']
        have : (k : ℝ) < 2 * (m % k : ℕ) := by exact_mod_cast hgt
        linarith
      change ((m / k : ℕ) : ℝ) + 1 / 2 < (m : ℝ) / k ∧ (m : ℝ) / k < (m / k : ℕ) + 1
      constructor <;> linarith

/-- A root with its residual bits is located. -/
theorem locates_sqrt (m : ℕ) :
    Locates (.ofMantissaAndAccuracy m.sqrt
      (if m - m.sqrt * m.sqrt = 0 then .exact
        else .inexact (if m - m.sqrt * m.sqrt ≤ m.sqrt then .lt else .gt))) (√m) := by
  have hle := m.sqrt_le
  have hlt := Real.real_sqrt_lt_nat_sqrt_succ (a := m)
  have hbound (h : m - m.sqrt * m.sqrt ≤ m.sqrt) : √(m : ℝ) < m.sqrt + 1 / 2 := by
    rw [Real.sqrt_lt' (by positivity)]
    have : (m : ℝ) ≤ m.sqrt * m.sqrt + m.sqrt := by exact_mod_cast Nat.sub_le_iff_le_add'.mp h
    nlinarith
  split
  · next hzero =>
    have hsquare : m = m.sqrt * m.sqrt := by omega
    change √(m : ℝ) = m.sqrt
    rw [Real.sqrt_eq_iff_mul_self_eq (by positivity) (by positivity)]
    exact_mod_cast hsquare
  · next hpos =>
    split
    · next hsmall =>
      refine ⟨?_, hbound hsmall⟩
      refine Real.lt_sqrt_of_sq_lt ?_
      have : m.sqrt * m.sqrt < m := by omega
      rw [sq]
      exact_mod_cast this
    · next hlarge =>
      refine ⟨?_, hlt⟩
      refine Real.lt_sqrt_of_sq_lt ?_
      change ((m.sqrt : ℝ) + 1 / 2) ^ 2 < m
      have : (m.sqrt : ℝ) * m.sqrt + m.sqrt + 1 ≤ m := by
        have : m.sqrt * m.sqrt + m.sqrt + 1 ≤ m := by omega
        exact_mod_cast this
      nlinarith

theorem rounds_sqrt (h : IsFinite x) (h0 : 0 ≤ value x) : Rounds (√(value x)) x.sqrt := by
  change Rounds _ (.ofModel (.pack (sqrt .binary32 (unpacked x))))
  obtain ⟨s, hx⟩ | ⟨m, e, hm, hx, -⟩ := h.cases_of_nonneg h0
  · rw [value_of_zero hx, Real.sqrt_zero, hx]
    exact rounds_pack (u := .zero s) trivial nofun
  · obtain ⟨t, ht⟩ : ∃ t, t = min (e / 2) (max ((m.log2 + 1 + e + 1) / 2 - 24) (-149)) := ⟨_, rfl⟩
    obtain ⟨k, hk⟩ : ∃ k : ℕ, e = 2 * t + k := ⟨(e - 2 * t).toNat, by omega⟩
    have hshift : (e - 2 * t).toNat = k := by omega
    -- the root has as many bits as a mantissa, unless it is among the smallest numbers
    have hbits : t ≤ max ((m * 2 ^ k).sqrt.log2 + t - 23) (-149) := by
      obtain hle | hlt := le_or_gt t (-149)
      · exact hle.trans (le_max_right _ _)
      · have hk46 : 46 ≤ m.log2 + k := by omega
        have hroot : 2 ^ 23 ≤ (m * 2 ^ k).sqrt := by
          rw [Nat.le_sqrt, ← pow_add]
          calc 2 ^ (23 + 23) ≤ 2 ^ (m.log2 + k) := Nat.pow_le_pow_right (by decide) hk46
            _ = 2 ^ m.log2 * 2 ^ k := pow_add _ _ _
            _ ≤ m * 2 ^ k := Nat.mul_le_mul_right _ (Nat.log2_self_le hm.ne')
        have := (Nat.le_log2 (by omega)).mpr hroot
        omega
    have hexact : √(value x) = factor .positive * (√((m * 2 ^ k : ℕ) : ℝ) * 2 ^ t) := by
      have hsquare : value x = ((m * 2 ^ k : ℕ) : ℝ) * (2 ^ t) ^ 2 := by
        rw [value_of_finite hx, hk, zpow_add₀ (by norm_num), two_mul, zpow_add₀ (by norm_num),
          zpow_natCast, factor]
        push_cast
        ring
      rw [hsquare, Real.sqrt_mul (by positivity), Real.sqrt_sq (by positivity), factor, one_mul]
    have hcore : sqrtCore .binary32 m e = ((m * 2 ^ k).sqrt, t,
        if m * 2 ^ k - (m * 2 ^ k).sqrt * (m * 2 ^ k).sqrt = 0 then .exact
        else .inexact (if m * 2 ^ k - (m * 2 ^ k).sqrt * (m * 2 ^ k).sqrt ≤ (m * 2 ^ k).sqrt
          then .lt else .gt)) := by
      have htarget : min (e.ediv 2) (Format.binary32.targetExponent
          ((totalExponent m e + 1).ediv 2)) = t := by
        change min (e / 2) (max ((totalExponent m e + 1) / 2 - 24) (-149)) = t
        rw [ht, totalExponent]
      simp only [sqrtCore, htarget, hshift, Nat.shiftLeft_eq]
    have hround := congrArg (fun (m, e, a) => roundWithAccuracy .binary32 .positive m e a) hcore
    rw [hexact, hx, show sqrt .binary32 (.finite .positive m e hm) = _ from hround]
    exact rounds_roundWithAccuracy _ (locates_sqrt _) hbits

theorem sqrt_of_infinite (h : unpacked x = .infinity .positive) :
    unpacked x.sqrt = .infinity .positive := by
  change unpacked (.ofModel (.pack (sqrt .binary32 (unpacked x)))) = _
  rw [h]
  exact unpacked_pack (u := .infinity .positive) trivial

theorem factor_div (s t : Sign) : factor (s / t) = factor s / factor t := by
  cases s <;> cases t
  · change (1 : ℝ) = -1 / -1
    norm_num
  · change (-1 : ℝ) = -1 / 1
    norm_num
  · change (-1 : ℝ) = 1 / -1
    norm_num
  · change (1 : ℝ) = 1 / 1
    norm_num

theorem IsFinite.cases_of_ne (h : IsFinite x) (h0 : value x ≠ 0) :
    ∃ s m e hm, unpacked x = .finite s m e hm ∧ Canonical m e ∧ e ≤ 104 :=
  h.cases.resolve_left fun ⟨_, hx⟩ => h0 (value_of_zero hx)

theorem rounds_div (hx : IsFinite x) (hy : IsFinite y) (hy0 : value y ≠ 0) :
    Rounds (value x / value y) (x / y) := by
  change Rounds _ (.ofModel (.pack (div .binary32 (unpacked x) (unpacked y))))
  obtain ⟨s', m', e', hm', hy, -⟩ := hy.cases_of_ne hy0
  obtain ⟨s, hx⟩ | ⟨s, m, e, hm, hx, -⟩ := hx.cases
  · rw [value_of_zero hx, zero_div, hx, hy]
    exact rounds_pack (u := .zero (s / s')) trivial nofun
  obtain ⟨t, ht⟩ : ∃ t, t = min (e - e')
      (max (m.log2 + 1 + e - (m'.log2 + 1 + e') - 24) (-149)) := ⟨_, rfl⟩
  obtain ⟨k, hk⟩ : ∃ k : ℕ, e - e' = t + k := ⟨(e - e' - t).toNat, by omega⟩
  have hshift : (e - e' - t).toNat = k := by omega
  -- the quotient has as many bits as a mantissa, unless it is among the smallest numbers
  have hbits : t ≤ max ((m * 2 ^ k / m').log2 + t - 23) (-149) := by
    obtain hle | hlt := le_or_gt t (-149)
    · exact hle.trans (le_max_right _ _)
    · have hk24 : m'.log2 + 1 + 23 ≤ m.log2 + k := by omega
      have hquot : 2 ^ 23 ≤ m * 2 ^ k / m' := by
        rw [Nat.le_div_iff_mul_le hm']
        calc 2 ^ 23 * m' ≤ 2 ^ 23 * 2 ^ (m'.log2 + 1) := Nat.mul_le_mul_left _ m'.lt_log2_self.le
          _ ≤ 2 ^ (m.log2 + k) := by
              rw [← pow_add, add_comm]
              exact Nat.pow_le_pow_right (by decide) hk24
          _ = 2 ^ m.log2 * 2 ^ k := pow_add _ _ _
          _ ≤ m * 2 ^ k := Nat.mul_le_mul_right _ (Nat.log2_self_le hm.ne')
      have := (Nat.le_log2 (by omega)).mpr hquot
      omega
  have hexact : value x / value y =
      factor (s / s') * (((m * 2 ^ k : ℕ) : ℝ) / m' * 2 ^ t) := by
    have hexp : (2 : ℝ) ^ e = 2 ^ e' * (2 ^ t * 2 ^ k) := by
      rw [show e = e' + (t + k) by omega, zpow_add₀ (by norm_num), zpow_add₀ (by norm_num),
        zpow_natCast]
    have hm0 : (m' : ℝ) ≠ 0 := by exact_mod_cast hm'.ne'
    have hs0 : factor s' ≠ 0 := by cases s' <;> norm_num [factor]
    rw [value_of_finite hx, value_of_finite hy, hexp, factor_div]
    push_cast
    field_simp
  have hcore : divCore .binary32 m e m' e' =
      (m * 2 ^ k / m', t, accuracyOfFraction (m * 2 ^ k % m') m') := by
    have htarget : min (e - e')
        (Format.binary32.targetExponent (totalExponent m e - totalExponent m' e')) = t := by
      change min (e - e') (max (totalExponent m e - totalExponent m' e' - 24) (-149)) = t
      rw [ht, totalExponent, totalExponent]
    simp only [divCore, htarget, hshift, Nat.shiftLeft_eq]
  have hround := congrArg (fun (m, e, a) => roundWithAccuracy .binary32 (s / s') m e a) hcore
  rw [hexact, hx, hy, show div .binary32 (.finite s m e hm) (.finite s' m' e' hm') = _ from hround]
  exact rounds_roundWithAccuracy _ (locates_div _ hm') hbits

theorem div_of_infinite {s : Sign} (hx : IsFinite x) (hy : unpacked y = .infinity s) :
    IsNumber (x / y) ∧ value (x / y) = 0 := by
  obtain ⟨t, hdiv⟩ : ∃ t, unpacked (x / y) = .zero t := by
    change ∃ t, unpacked (.ofModel (.pack (div .binary32 (unpacked x) (unpacked y)))) = _
    obtain ⟨t, hx⟩ | ⟨t, m, e, hm, hx, -⟩ := hx.cases <;> rw [hx, hy] <;>
      exact ⟨t / s, unpacked_pack (u := .zero (t / s)) trivial⟩
  exact ⟨isNumber_iff.mpr (by rw [hdiv]; nofun), value_of_zero hdiv⟩

/-- Rounding a mantissa of any length. -/
theorem rounds_round (s : Sign) {m : ℕ} (hm : 0 < m) (e : ℤ) :
    Rounds (factor s * (m * 2 ^ e)) (.ofModel (.pack (UnpackedFloat.round .binary32 s m e))) := by
  obtain ⟨t, ht⟩ : ∃ t : ℤ, t = max (m.log2 + e - 23) (-149) := ⟨_, rfl⟩
  obtain ⟨k, hk⟩ : ∃ k : ℕ, k = (e - t).toNat := ⟨_, rfl⟩
  have hround : UnpackedFloat.round .binary32 s m e =
      roundWithAccuracy .binary32 s (m * 2 ^ k) (e - k) .exact := by
    simp only [UnpackedFloat.round, Single.targetExponent_eq, ← ht, decreaseExponent, ← hk,
      Nat.shiftLeft_eq]
  have hexact : (m : ℝ) * 2 ^ e = (m * 2 ^ k : ℕ) * 2 ^ (e - k) := by
    rw [zpow_sub₀ (by norm_num), zpow_natCast]
    push_cast
    field_simp
  have hlog : (m * 2 ^ k).log2 = m.log2 + k := by
    rw [Nat.log2_eq_iff (by positivity), pow_add, show m.log2 + k + 1 = m.log2 + 1 + k by omega,
      pow_add]
    exact ⟨Nat.mul_le_mul_right _ (Nat.log2_self_le hm.ne'),
      Nat.mul_lt_mul_of_pos_right m.lt_log2_self (by positivity)⟩
  rw [hround, hexact]
  refine rounds_roundWithAccuracy s (a := .exact) rfl ?_
  rw [hlog]
  omega

/-- Rounding a whole number of units. -/
theorem rounds_normalize (n : ℤ) (e : ℤ) (s : Sign) :
    Rounds (n * 2 ^ e) (.ofModel (.pack (UnpackedFloat.normalize .binary32 n e s))) := by
  obtain hlt | rfl | hgt := lt_trichotomy n 0
  · have hexact : (n : ℝ) * 2 ^ e = factor .negative * ((-n).toNat * 2 ^ e) := by
      have hcast : ((-n).toNat : ℝ) = -n := by exact_mod_cast Int.toNat_of_nonneg (by omega)
      rw [hcast, factor]
      ring
    rw [hexact, UnpackedFloat.normalize, compare_lt_iff_lt.mpr hlt]
    exact rounds_round .negative (by omega) e
  · rw [Int.cast_zero, zero_mul]
    exact rounds_pack (u := .zero s) trivial fun h => by cases h
  · have hexact : (n : ℝ) * 2 ^ e = factor .positive * (n.toNat * 2 ^ e) := by
      have hcast : (n.toNat : ℝ) = n := by exact_mod_cast Int.toNat_of_nonneg hgt.le
      rw [hcast, factor, one_mul]
    rw [hexact, UnpackedFloat.normalize, compare_gt_iff_gt.mpr hgt]
    exact rounds_round .positive (by omega) e

theorem cast_apply (s : Sign) (n : ℤ) : ((s.apply n : ℤ) : ℝ) = factor s * n := by
  cases s with
  | negative =>
    change ((-n : ℤ) : ℝ) = -1 * n
    push_cast
    ring
  | positive => exact (one_mul _).symm

theorem rounds_add (hx : IsFinite x) (hy : IsFinite y) : Rounds (value x + value y) (x + y) := by
  change Rounds _ (.ofModel (.pack (add .binary32 (unpacked x) (unpacked y))))
  obtain ⟨s, hux⟩ | ⟨s, m, e, hm, hux, hc, he⟩ := hx.cases
  · rw [value_of_zero hux, zero_add, hux]
    obtain ⟨s', huy⟩ | ⟨s', m', e', hm', huy, hc', he'⟩ := hy.cases
    · rw [value_of_zero huy, huy]
      cases s <;> cases s' <;> exact rounds_pack (u := .zero _) trivial nofun
    · rw [value_of_finite huy, huy]
      exact rounds_pack (u := .finite s' m' e' hm') ⟨hc', he'⟩ nofun
  · obtain ⟨s', huy⟩ | ⟨s', m', e', hm', huy, hc', he'⟩ := hy.cases
    · rw [value_of_zero huy, add_zero, value_of_finite hux, hux, huy]
      exact rounds_pack (u := .finite s m e hm) ⟨hc, he⟩ nofun
    · obtain ⟨k, hk⟩ : ∃ k : ℕ, e = min e e' + k := ⟨(e - min e e').toNat, by omega⟩
      obtain ⟨k', hk'⟩ : ∃ k : ℕ, e' = min e e' + k := ⟨(e' - min e e').toNat, by omega⟩
      have hadd : add .binary32 (unpacked x) (unpacked y) = UnpackedFloat.normalize .binary32
          (s.apply (m * 2 ^ k : ℕ) + s'.apply (m' * 2 ^ k' : ℕ)) (min e e') .positive := by
        have hshift : (e - min e e').toNat = k := by omega
        have hshift' : (e' - min e e').toNat = k' := by omega
        rw [hux, huy]
        change UnpackedFloat.normalize .binary32 (s.apply (decreaseExponent m e (min e e')).1 +
          s'.apply (decreaseExponent m' e' _).1) _ _ = _
        simp only [decreaseExponent, hshift, hshift', Nat.shiftLeft_eq]
      have hexact : value x + value y =
          ((s.apply (m * 2 ^ k : ℕ) + s'.apply (m' * 2 ^ k' : ℕ) : ℤ) : ℝ) * 2 ^ min e e' := by
        have hexp : (2 : ℝ) ^ e = 2 ^ min e e' * 2 ^ k := by
          rw [← zpow_natCast, ← zpow_add₀ (by norm_num), ← hk]
        have hexp' : (2 : ℝ) ^ e' = 2 ^ min e e' * 2 ^ k' := by
          rw [← zpow_natCast, ← zpow_add₀ (by norm_num), ← hk']
        rw [value_of_finite hux, value_of_finite huy, hexp, hexp', Int.cast_add, cast_apply,
          cast_apply]
        push_cast
        ring
      rw [hadd, hexact]
      exact rounds_normalize _ _ _

theorem add_of_infinite (hx : IsNumber x) (hy : IsNumber y) (hx0 : 0 ≤ value x)
    (hy0 : 0 ≤ value y) (h : ¬ IsFinite x ∨ ¬ IsFinite y) :
    unpacked (x + y) = .infinity .positive := by
  have hadd : add .binary32 (unpacked x) (unpacked y) = .infinity .positive := by
    obtain hfin | ⟨s, hux⟩ := hx.cases
    · obtain ⟨s', huy⟩ := hy.cases.resolve_left (h.resolve_left (not_not_intro hfin))
      rw [value_of_infinite huy] at hy0
      obtain rfl := sign_of_nonneg (by norm_num) hy0
      obtain ⟨s, hux⟩ | ⟨s, m, e, hm, hux, -⟩ := hfin.cases <;> rw [hux, huy] <;> rfl
    · rw [value_of_infinite hux] at hx0
      obtain rfl := sign_of_nonneg (by norm_num) hx0
      obtain hfin | ⟨s', huy⟩ := hy.cases
      · obtain ⟨s', huy⟩ | ⟨s', m, e, hm, huy, -⟩ := hfin.cases <;> rw [hux, huy] <;> rfl
      · rw [value_of_infinite huy] at hy0
        obtain rfl := sign_of_nonneg (by norm_num) hy0
        rw [hux, huy]
        rfl
  change unpacked (.ofModel (.pack (add .binary32 (unpacked x) (unpacked y)))) = _
  rw [hadd]
  exact unpacked_pack (u := .infinity .positive) trivial

theorem sub_eq_add_neg (x y : Float32) : x - y = x + -y := by
  change Float32.ofModel (.pack (sub .binary32 (unpacked x) (unpacked y))) =
    .ofModel (.pack (add .binary32 (unpacked x) (unpacked (-y))))
  rw [unpacked_neg]
  cases unpacked x with
  | notANumber => rfl
  | infinity s => cases unpacked y <;> rfl
  | zero s => cases unpacked y <;> rfl
  | finite s m e hm =>
    cases unpacked y with
    | notANumber => rfl
    | infinity s' => rfl
    | zero s' => rfl
    | finite s' m' e' hm' =>
      have hsign (n : ℤ) : (-s').apply n = -s'.apply n := by
        cases s'
        · exact (neg_neg n).symm
        · rfl
      change Float32.ofModel (.pack (UnpackedFloat.normalize .binary32 (_ - s'.apply _) _ _)) =
        .ofModel (.pack (UnpackedFloat.normalize .binary32 (_ + (-s').apply _) _ _))
      rw [hsign, Int.sub_eq_add_neg]

theorem rounds_sub (hx : IsFinite x) (hy : IsFinite y) : Rounds (value x - value y) (x - y) := by
  rw [sub_eq_add_neg, show value x - value y = value x + value (-y) by rw [value_neg]; ring]
  exact rounds_add hx hy.neg

/-- A count that becomes a float is rounded. -/
theorem rounds_toFloat32 (n : UInt32) : Rounds n.toNat n.toFloat32 := by
  have h := rounds_normalize n.toNat 0 .positive
  rwa [zpow_zero, mul_one] at h

end MotionControl.Rounding
