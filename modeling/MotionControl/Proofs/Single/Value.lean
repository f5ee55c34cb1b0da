import MotionControl.Proofs.Single.Rounding

/-!
# The numbers floats stand for

Every float that is not a NaN has a `value`; the infinities are given the least number beyond all
finite floats. Comparing floats is comparing their values.
-/

namespace MotionControl.Rounding

open Float.Model (Format UnpackedFloat totalExponent)
open Float.Model.UnpackedFloat
open Single (unpacked)

/-- The number that a float stands for. -/
noncomputable def value (x : Float32) : ℝ := number (unpacked x)

/-! ## Packing -/

/-- The float is not a NaN. -/
def IsNumber (x : Float32) : Prop := x.isNaN = false

theorem isNumber_iff {x : Float32} : IsNumber x ↔ unpacked x ≠ .notANumber := by
  rw [IsNumber, ← Bool.not_eq_true, Single.isNaN_iff]

/-- Floats have 24 bits, or the least exponent, and no exponent is beyond the greatest one. -/
theorem canonical_unpacked {x : Float32} {s : Sign} {m : ℕ} {e : ℤ} {h : 0 < m}
    (hx : unpacked x = .finite s m e h) : Canonical m e ∧ e ≤ 104 := by
  have hnormal := Single.exponent_or_normal hx
  obtain ⟨-, ⟨-, rfl, rfl⟩ | ⟨hzero, hones, rfl, rfl⟩⟩ := Single.unpack_eq_finite_iff.mp hx
  · exact ⟨⟨(BitVec.isLt _).trans (by decide), by decide, hnormal⟩, by decide⟩
  · have hne := mt BitVec.eq_of_toNat_eq hones
    have hpos := mt BitVec.eq_of_toNat_eq hzero
    change _ ≠ 255 at hne
    change _ ≠ 0 at hpos
    have hlt := (@unpackExponent .binary32 x.toModel.toBits.toBitVec).isLt
    change _ < 256 at hlt
    refine ⟨⟨BitVec.isLt _, ?_, hnormal⟩, ?_⟩ <;> omega

/-- A value that is too small for all bits is kept as it is. -/
theorem unpack_pack_subnormal (s : Sign) {m : ℕ} (h : 0 < m) (hm : m < 2 ^ 23) :
    unpack .binary32 (pack .binary32 (.finite s m (-149) h)) = .finite s m (-149) h := by
  have hlog := (Nat.log2_lt h.ne').mpr hm
  have hmant : (BitVec.ofNat 23 m).toNat = m := by
    rw [BitVec.toNat_ofNat]
    exact Nat.mod_eq_of_lt hm
  rw [Single.pack_finite, if_neg (by decide), if_neg (by omega), Single.unpack_eq_finite_iff,
    Single.unpackSign_packComponents, unpackExponent_packComponents, unpackMantissa_packComponents]
  exact ⟨by cases s <;> rfl, .inl ⟨rfl, hmant.symm, rfl⟩⟩

/-- A value that is too large becomes infinite. -/
theorem unpack_pack_infinite (s : Sign) {m : ℕ} {e : ℤ} (h : 0 < m) (he : 104 < e) :
    unpack .binary32 (pack .binary32 (.finite s m e h)) = .infinity s := by
  rw [Single.pack_finite, if_pos (by omega)]
  cases s <;> rfl

theorem unpack_pack_of_canonical (s : Sign) {m : ℕ} {e : ℤ} (h : 0 < m) (hc : Canonical m e) :
    unpack .binary32 (pack .binary32 (.finite s m e h)) =
      if e ≤ 104 then .finite s m e h else .infinity s := by
  by_cases he : e ≤ 104
  · rw [if_pos he]
    obtain hlt | hge := lt_or_ge m (2 ^ 23)
    · obtain rfl := hc.normal.resolve_right (by omega)
      exact unpack_pack_subnormal s h hlt
    · refine Single.unpack_pack s h ?_ hc.le he
      rw [Nat.log2_eq_iff h.ne']
      exact ⟨hge, hc.lt⟩
  · rw [if_neg he]
    exact unpack_pack_infinite s h (not_le.mp he)

/-! ## Comparing -/

/-- Values in canonical form are compared by their exponents, and then by their mantissas. -/
theorem compare_canonical {m m' : ℕ} {e e' : ℤ} (hc : Canonical m e) (hc' : Canonical m' e') :
    (compare e e').then (compare m m') = compare ((m : ℝ) * 2 ^ e) (m' * 2 ^ e') := by
  have hbelow {m m' : ℕ} {e e' : ℤ} (hc : Canonical m e) (hc' : Canonical m' e') (hlt : e < e') :
      (m : ℝ) * 2 ^ e < m' * 2 ^ e' := by
    have hm' := hc'.normal.resolve_left (by have := hc.le; omega)
    calc (m : ℝ) * 2 ^ e < 2 ^ 24 * 2 ^ e := by
          refine mul_lt_mul_of_pos_right ?_ (by positivity)
          exact_mod_cast hc.lt
      _ = 2 ^ 23 * 2 ^ (e + 1) := by
          rw [zpow_add₀ (by norm_num)]
          ring
      _ ≤ m' * 2 ^ e' := by
          refine mul_le_mul ?_ (zpow_le_zpow_right₀ (by norm_num) (by omega)) (by positivity)
            (by positivity)
          exact_mod_cast hm'
  obtain hlt | rfl | hgt := lt_trichotomy e e'
  · rw [compare_lt_iff_lt.mpr hlt, compare_lt_iff_lt.mpr (hbelow hc hc' hlt)]
    rfl
  · have hpos : (0 : ℝ) < 2 ^ e := by positivity
    rw [compare_eq_iff_eq.mpr rfl, Ordering.eq_then]
    obtain hlt | rfl | hgt := lt_trichotomy m m'
    · rw [compare_lt_iff_lt.mpr hlt, eq_comm, compare_lt_iff_lt]
      exact mul_lt_mul_of_pos_right (by exact_mod_cast hlt) hpos
    · rw [compare_eq_iff_eq.mpr rfl, compare_eq_iff_eq.mpr rfl]
    · rw [compare_gt_iff_gt.mpr hgt, eq_comm, compare_gt_iff_gt]
      exact mul_lt_mul_of_pos_right (by exact_mod_cast hgt) hpos
  · rw [compare_gt_iff_gt.mpr hgt, compare_gt_iff_gt.mpr (hbelow hc' hc hgt)]
    rfl

/-- The unpacked float is one that packing keeps. -/
def Fits : UnpackedFloat → Prop
  | .finite _ m e _ => Canonical m e ∧ e ≤ 104
  | _ => True

theorem fits_unpacked (x : Float32) : Fits (unpacked x) := by
  cases hx : unpacked x with
  | finite s m e h => exact canonical_unpacked hx
  | _ => trivial

theorem unpack_pack_of_fits {u : UnpackedFloat} (h : Fits u) :
    unpack .binary32 (pack .binary32 u) = u := by
  cases u with
  | notANumber => rfl
  | infinity s => cases s <;> rfl
  | zero s => cases s <;> rfl
  | finite s m e hm => rw [unpack_pack_of_canonical s hm h.1, if_pos h.2]

theorem Fits.lt {s : Sign} {m : ℕ} {e : ℤ} {h : 0 < m} (hu : Fits (.finite s m e h)) :
    (m : ℝ) * 2 ^ e < 2 ^ 128 := by
  have hm : (m : ℝ) < 2 ^ 24 := by exact_mod_cast hu.1.lt
  calc (m : ℝ) * 2 ^ e < 2 ^ 24 * 2 ^ e := mul_lt_mul_of_pos_right hm (by positivity)
    _ ≤ 2 ^ 24 * 2 ^ (104 : ℤ) :=
        mul_le_mul_of_nonneg_left (zpow_le_zpow_right₀ (by norm_num) hu.2) (by positivity)
    _ = 2 ^ 128 := by norm_num

/-! The order of two values is that of their kinds unless both are finite. -/

theorem some_lt {a b : ℝ} (h : a < b) : some Ordering.lt = some (compare a b) := by
  rw [compare_lt_iff_lt.mpr h]

theorem some_gt {a b : ℝ} (h : b < a) : some Ordering.gt = some (compare a b) := by
  rw [compare_gt_iff_gt.mpr h]

theorem some_eq (a : ℝ) : some Ordering.eq = some (compare a a) := by
  rw [compare_eq_iff_eq.mpr rfl]

theorem compare_infinity (s : Sign) {v : UnpackedFloat} (hv : Fits v) (hnv : v ≠ .notANumber) :
    (UnpackedFloat.infinity s).compare v = some (compare (number (.infinity s)) (number v)) := by
  cases v with
  | notANumber => exact absurd rfl hnv
  | infinity s' =>
    cases s <;> cases s' <;> dsimp only [number, factor]
    · exact some_eq _
    · exact some_lt (by norm_num)
    · exact some_gt (by norm_num)
    · exact some_eq _
  | zero s' =>
    cases s <;> dsimp only [number, factor]
    · exact some_lt (by norm_num)
    · exact some_gt (by norm_num)
  | finite s' m' e' h' =>
    have hpos : (0 : ℝ) < m' * 2 ^ e' := by positivity
    have hlt := hv.lt
    cases s <;> cases s' <;> dsimp only [number, factor]
    · exact some_lt (by linarith)
    · exact some_lt (by linarith)
    · exact some_gt (by linarith)
    · exact some_gt (by linarith)

theorem compare_zero (s : Sign) {v : UnpackedFloat} (hnv : v ≠ .notANumber) :
    (UnpackedFloat.zero s).compare v = some (compare (number (.zero s)) (number v)) := by
  cases v with
  | notANumber => exact absurd rfl hnv
  | infinity s' =>
    cases s' <;> dsimp only [number, factor]
    · exact some_gt (by norm_num)
    · exact some_lt (by norm_num)
  | zero s' => exact some_eq _
  | finite s' m' e' h' =>
    have hpos : (0 : ℝ) < m' * 2 ^ e' := by positivity
    cases s' <;> dsimp only [number, factor]
    · exact some_gt (by linarith)
    · exact some_lt (by linarith)

theorem compare_finite {s s' : Sign} {m m' : ℕ} {e e' : ℤ} {h : 0 < m} {h' : 0 < m'}
    (hu : Fits (.finite s m e h)) (hv : Fits (.finite s' m' e' h')) :
    (UnpackedFloat.finite s m e h).compare (.finite s' m' e' h') =
      some (compare (number (.finite s m e h)) (number (.finite s' m' e' h'))) := by
  have hpos : (0 : ℝ) < m * 2 ^ e := by positivity
  have hpos' : (0 : ℝ) < m' * 2 ^ e' := by positivity
  have hcompare := compare_canonical hu.1 hv.1
  cases s <;> cases s' <;> dsimp only [number, factor]
  · -- the order is the other way for negative values
    change some (Ordering.swap _) = _
    rw [hcompare]
    obtain hab | hab | hab := lt_trichotomy ((m : ℝ) * 2 ^ e) (m' * 2 ^ e')
    · rw [compare_lt_iff_lt.mpr hab]
      exact some_gt (by linarith)
    · rw [hab, compare_eq_iff_eq.mpr rfl]
      exact some_eq _
    · rw [compare_gt_iff_gt.mpr hab]
      exact some_lt (by linarith)
  · exact some_lt (by linarith)
  · exact some_gt (by linarith)
  · change some _ = _
    rw [hcompare, one_mul, one_mul]

theorem compare_eq {u v : UnpackedFloat} (hu : Fits u) (hv : Fits v) (hnu : u ≠ .notANumber)
    (hnv : v ≠ .notANumber) : u.compare v = some (compare (number u) (number v)) := by
  cases u with
  | notANumber => exact absurd rfl hnu
  | infinity s => exact compare_infinity s hv hnv
  | zero s => exact compare_zero s hnv
  | finite s m e h =>
    have hpos : (0 : ℝ) < m * 2 ^ e := by positivity
    have hlt := hu.lt
    cases v with
    | notANumber => exact absurd rfl hnv
    | infinity s' =>
      cases s <;> cases s' <;> dsimp only [number, factor]
      · exact some_gt (by linarith)
      · exact some_lt (by linarith)
      · exact some_gt (by linarith)
      · exact some_lt (by linarith)
    | zero s' =>
      cases s <;> dsimp only [number, factor]
      · exact some_lt (by linarith)
      · exact some_gt (by linarith)
    | finite s' m' e' h' => exact compare_finite hu hv

section

variable {x y : Float32} (hx : IsNumber x) (hy : IsNumber y)
include hx hy

theorem compare_unpacked : (unpacked x).compare (unpacked y) = some (compare (value x) (value y)) :=
  compare_eq (fits_unpacked x) (fits_unpacked y) (isNumber_iff.mp hx) (isNumber_iff.mp hy)

theorem lt_iff : x < y ↔ value x < value y := by
  rw [Single.lt_iff, compare_unpacked hx hy, Option.some_inj, compare_lt_iff_lt]

theorem le_iff : x ≤ y ↔ value x ≤ value y := by
  change decide (((unpacked x).compare (unpacked y)).any Ordering.isLE = true) = true ↔ _
  rw [decide_eq_true_iff, compare_unpacked hx hy, Option.any_some,
    ← Ordering.ne_gt_iff_isLE]
  exact compare_le_iff_le

theorem beq_iff : (x == y) = true ↔ value x = value y := by
  change ((unpacked x).compare (unpacked y) == some .eq) = true ↔ _
  rw [compare_unpacked hx hy, beq_iff_eq, Option.some_inj, compare_eq_iff_eq]

end

end MotionControl.Rounding
