import MotionControl.Proofs.Lookahead.Speeds

/-!
# How far rounding goes

A rounded result is off by at most `2 ^ -24` of the exact one, or by `2 ^ -150` where floats are
spaced evenly (`Rounds.abs_sub_le`). Floats are multiples of `2 ^ -149`, so that differences of
them never suffer from the even spacing: those are off by a share of themselves only
(`abs_sub_sub_le`).
-/

namespace MotionControl.Rounding

/-- Some float is as near as that. -/
theorem exists_representable_near (v : ℝ) :
    ∃ y, Representable y ∧ |y - v| ≤ max ((2 : ℝ) ^ (-24 : ℤ) * |v|) (2 ^ (-150 : ℤ)) := by
  obtain rfl | hv := eq_or_ne v 0
  · exact ⟨0, .zero, by rw [sub_self, abs_zero]; positivity⟩
  obtain ⟨k, hlo, hhi⟩ := exists_mem_Ico_zpow (abs_pos.mpr hv) one_lt_two
  obtain ⟨t, ht⟩ : ∃ t, t = max (k - 23) (-149) := ⟨_, rfl⟩
  have hpos : (0 : ℝ) < 2 ^ t := by positivity
  -- counted in the last place there are at most 24 bits, and rounding the count costs a half
  have hcount : |v / 2 ^ t| < 2 ^ 24 := by
    rw [abs_div, abs_of_pos hpos, div_lt_iff₀ hpos]
    refine hhi.trans_le ?_
    rw [← zpow_natCast, ← zpow_add₀ two_ne_zero]
    exact zpow_le_zpow_right₀ one_le_two (by push_cast; omega)
  have hround := abs_sub_round (v / 2 ^ t)
  have hbits : |round (v / 2 ^ t)| ≤ 2 ^ 24 := by
    have hlt : (|round (v / 2 ^ t)| : ℝ) < 2 ^ 24 + 1 := by
      have htriangle := abs_sub_abs_le_abs_sub ((round (v / 2 ^ t) : ℤ) : ℝ) (v / 2 ^ t)
      rw [abs_sub_comm] at htriangle
      linarith
    have hlt : |round (v / 2 ^ t)| < 2 ^ 24 + 1 := by exact_mod_cast hlt
    omega
  refine ⟨round (v / 2 ^ t) * 2 ^ t, ⟨_, t, hbits, by omega, rfl⟩, ?_⟩
  have hhalf : |round (v / 2 ^ t) * 2 ^ t - v| ≤ 2 ^ (t - 1) := by
    have hscale : round (v / 2 ^ t) * 2 ^ t - v = -((v / 2 ^ t - round (v / 2 ^ t)) * 2 ^ t) := by
      field_simp
      ring
    rw [hscale, abs_neg, abs_mul, abs_of_pos hpos, zpow_sub_one₀ two_ne_zero]
    linarith [mul_le_mul_of_nonneg_right hround hpos.le]
  refine hhalf.trans ?_
  obtain hsub | hnormal := le_or_gt (k - 23) (-149)
  · rw [max_eq_right hsub] at ht
    rw [ht]
    exact le_max_right _ _
  · rw [max_eq_left hnormal.le] at ht
    refine le_max_of_le_left ?_
    calc (2 : ℝ) ^ (t - 1) = 2 ^ (-24 : ℤ) * 2 ^ k := by
          rw [← zpow_add₀ two_ne_zero]
          congr 1
          omega
      _ ≤ 2 ^ (-24 : ℤ) * |v| := mul_le_mul_of_nonneg_left hlo (by positivity)

namespace Rounds

variable {v : ℝ} {x : Float32}

/-- A finite result is a nearest one. -/
theorem nearest (h : Rounds v x) (hx : IsFinite x) : Nearest v (value x) := by
  obtain ⟨r, hr, hvalue⟩ := h.exists_nearest
  have hlt := hx.value_lt
  have hneg := hx.neg.value_lt
  rw [value_neg] at hneg
  have hcut : cut r = r := by
    rw [hvalue, cut] at hlt hneg
    refine cut_eq_self (abs_le.mpr ⟨?_, ?_⟩)
    · by_contra hr
      rw [min_eq_left (by linarith), max_eq_left (by linarith)] at hneg
      linarith
    · by_contra hr
      rw [min_eq_right (by linarith), max_eq_right (by norm_num)] at hlt
      linarith
  rw [hvalue, hcut]
  exact hr

/-- What rounding costs. -/
theorem abs_sub_le (h : Rounds v x) (hx : IsFinite x) :
    |value x - v| ≤ max ((2 : ℝ) ^ (-24 : ℤ) * |v|) (2 ^ (-150 : ℤ)) := by
  obtain ⟨y, hy, hnear⟩ := exists_representable_near v
  exact ((h.nearest hx).le y hy).trans hnear

/-- What rounding costs where floats are not spaced evenly. -/
theorem abs_sub_le_of_normal (h : Rounds v x) (hx : IsFinite x) (hv : (2 : ℝ) ^ (-126 : ℤ) ≤ |v|) :
    |value x - v| ≤ (2 : ℝ) ^ (-24 : ℤ) * |v| := by
  refine (h.abs_sub_le hx).trans (max_le le_rfl ?_)
  calc (2 : ℝ) ^ (-150 : ℤ) = 2 ^ (-24 : ℤ) * 2 ^ (-126 : ℤ) := by norm_num
    _ ≤ 2 ^ (-24 : ℤ) * |v| := mul_le_mul_of_nonneg_left hv (by positivity)

/-- What rounding adds to a positive result at most. -/
theorem le_of_normal (h : Rounds v x) (hx : IsFinite x) (hv : (2 : ℝ) ^ (-126 : ℤ) ≤ v) :
    value x ≤ v * (1 + 2 ^ (-24 : ℤ)) := by
  have hpos : 0 < v := lt_of_lt_of_le (by positivity) hv
  have herror := (abs_sub_le_iff.mp (h.abs_sub_le_of_normal hx (hv.trans (le_abs_self v)))).1
  rw [abs_of_pos hpos] at herror
  linarith

/-- What is rounded to one or more is a half or more. -/
theorem half_le (h : Rounds v x) (hx : IsFinite x) (h1 : 1 ≤ value x) : 2⁻¹ ≤ v := by
  by_contra hsmall
  have herror := (abs_sub_le_iff.mp (h.abs_sub_le hx)).1
  obtain ⟨habs, -⟩ | ⟨habs, -⟩ := abs_cases v <;> rw [habs] at herror <;>
    obtain hle | hle := le_max_iff.mp herror <;> norm_num at hle <;> linarith

end Rounds

/-! ## Sums and differences -/

/-- A float is a multiple of the least one. -/
theorem exists_units (x : Float32) : ∃ n : ℤ, value x = n * 2 ^ (-149 : ℤ) := by
  obtain ⟨n, e, -, he, hx⟩ := representable_value (x := x)
  obtain ⟨k, rfl⟩ : ∃ k : ℕ, e = k + -149 := ⟨(e + 149).toNat, by omega⟩
  refine ⟨n * 2 ^ k, ?_⟩
  rw [hx, zpow_add₀ two_ne_zero, zpow_natCast]
  push_cast
  ring

theorem le_value_of_pos {x : Float32} (h : 0 < value x) : (2 : ℝ) ^ (-149 : ℤ) ≤ value x := by
  obtain ⟨n, hn⟩ := exists_units x
  rw [hn] at h ⊢
  have hpos : 0 < n := by exact_mod_cast pos_of_mul_pos_left h (by positivity)
  exact le_mul_of_one_le_left (by positivity) (by exact_mod_cast hpos)

/-- A multiple of the least float that is not a float is not among the smallest numbers. -/
theorem abs_sub_le_of_units {v : ℝ} {x : Float32} (h : Rounds v x) (hx : IsFinite x) {n : ℤ}
    (hv : v = n * 2 ^ (-149 : ℤ)) : |value x - v| ≤ (2 : ℝ) ^ (-24 : ℤ) * |v| := by
  obtain hsmall | hlarge := le_or_gt |n| (2 ^ 24)
  · have hexact : Representable v := ⟨n, -149, hsmall, le_rfl, hv⟩
    have hle := (h.nearest hx).le v hexact
    rw [sub_self, abs_zero] at hle
    exact hle.trans (by positivity)
  · refine h.abs_sub_le_of_normal hx ?_
    have hn : (2 : ℝ) ^ 24 ≤ |(n : ℝ)| := by exact_mod_cast hlarge.le
    rw [hv, abs_mul, abs_of_pos (by positivity : (0 : ℝ) < 2 ^ (-149 : ℤ))]
    calc (2 : ℝ) ^ (-126 : ℤ) ≤ 2 ^ 24 * 2 ^ (-149 : ℤ) := by norm_num
      _ ≤ |(n : ℝ)| * 2 ^ (-149 : ℤ) := mul_le_mul_of_nonneg_right hn (by positivity)

variable {x y : Float32}

theorem abs_sub_sub_le (hx : IsFinite x) (hy : IsFinite y) (h : IsFinite (x - y)) :
    |value (x - y) - (value x - value y)| ≤ (2 : ℝ) ^ (-24 : ℤ) * |value x - value y| := by
  obtain ⟨n, hn⟩ := exists_units x
  obtain ⟨m, hm⟩ := exists_units y
  exact abs_sub_le_of_units (rounds_sub hx hy) h (n := n - m) (by rw [hn, hm]; push_cast; ring)

end MotionControl.Rounding
