import MotionControl.Proofs.Lookahead.Trapezoid
import MotionControl.Proofs.Single.Counts
import MotionControl.Proofs.Single.Order

/-!
# Floats between counts

A float between two counts below `2 ^ 24` is rounded up to a count between the two
(`le_ceilCount_of_le`, `ceilCount_le`), since such counts are floats without rounding. Adding what
is not negative leads to no less, and taking it away to no more (`le_add_right`, `sub_le_left`):
sums and differences are rounded, but not past what they are compared with.
-/

namespace MotionControl.Single

open Float.Model (UnpackedFloat)
open Rounding (IsNumber IsFinite IsSpeed value)

variable {x d : Float32} {m k : UInt32}

/-! ## Counts -/

theorem isNaN_toFloat32 (m : UInt32) : m.toFloat32.isNaN = false :=
  (Rounding.isSpeed_toFloat32 m).isNumber

theorem toFloat32_mono (h : m ≤ k) : m.toFloat32 ≤ k.toFloat32 :=
  (Rounding.le_iff (isNaN_toFloat32 m) (isNaN_toFloat32 k)).mpr (Rounding.value_toFloat32_mono h)

/-- What is not below a count is a speed. -/
theorem isSpeed_of_le (h : m.toFloat32 ≤ x) : IsSpeed x := by
  have hx := (isNaN_of_le h).2
  rw [Rounding.le_iff (isNaN_toFloat32 m) hx] at h
  exact ⟨hx, (Rounding.isSpeed_toFloat32 m).nonneg.trans h⟩

/-- What is between two counts is finite. -/
theorem isFinite_of_le (hm : m.toFloat32 ≤ x) (hk : x ≤ k.toFloat32) : IsFinite x := by
  have hspeed := isSpeed_of_le hm
  rw [Rounding.le_iff hspeed.isNumber (isNaN_toFloat32 k)] at hk
  exact hspeed.isFinite (hk.trans_lt (Rounding.isFinite_toFloat32 k).1.value_lt)

/-- A count below `2 ^ 24` is a float without rounding. -/
theorem value_eq_of_rounds (hm : m.toNat < 2 ^ 24) (h : Rounding.Rounds m.toNat x) :
    value x = m.toNat := by
  have hexact : Rounding.Representable m.toNat :=
    ⟨m.toNat, 0, by rw [Nat.abs_cast]; exact_mod_cast hm.le, by norm_num, by simp⟩
  have hle : |(m.toNat : ℝ)| ≤ 2 ^ 128 := by
    rw [Nat.abs_cast]
    exact_mod_cast hm.le.trans (by norm_num)
  rw [h.value_eq hexact, Rounding.cut_eq_self hle]

theorem value_toFloat32 (hm : m.toNat < 2 ^ 24) : value m.toFloat32 = m.toNat :=
  value_eq_of_rounds hm (Rounding.rounds_toFloat32 m)

theorem rounds_ofInt (m : UInt32) : Rounding.Rounds m.toNat (ofInt m.toNat) := by
  have hword : m.toNat.toUInt64.toNat = m.toNat :=
    UInt64.toNat_ofNat_of_lt' (m.toNat_lt.trans (by decide))
  have h : Rounding.Rounds m.toNat.toUInt64.toNat m.toNat.toUInt64.toFloat32 := by
    have h := Rounding.rounds_normalize m.toNat.toUInt64.toNat 0 .positive
    rwa [zpow_zero, mul_one] at h
  rw [hword] at h
  rwa [ofInt, if_neg (by omega), Int.natAbs_natCast]

/-! ## Rounding up -/

theorem le_ceilCount_of_le (hm : m.toNat < 2 ^ 24) (h : m.toFloat32 ≤ x) : m ≤ ceilCount x :=
  le_ceilCount hm (Bool.eq_false_iff.mp (isNaN_of_le h).2) (not_lt_of_le h)

/-- Rounding up does not lead above a count that the float is not above. -/
theorem ceilCount_le (hm : m.toNat < 2 ^ 24) (hx : IsSpeed x) (h : x ≤ m.toFloat32) :
    ceilCount x ≤ m := by
  have hvalue : value x ≤ m.toNat := by
    rw [← value_toFloat32 hm]
    exact (Rounding.le_iff hx.isNumber (isNaN_toFloat32 m)).mp h
  have htruncate : truncate x ≤ m.toNat := by
    exact_mod_cast (Rounding.truncate_le hx).trans hvalue
  have hceil : ceil x ≤ m.toNat := by
    unfold ceil
    dsimp only
    split
    · next hlt =>
      -- what is above its whole part is not the count itself
      have hne : truncate x ≠ m.toNat := by
        intro heq
        rw [heq, Rounding.lt_iff (rounds_ofInt m).isNumber hx.isNumber,
          value_eq_of_rounds hm (rounds_ofInt m)] at hlt
        exact absurd hlt (not_lt.mpr hvalue)
      omega
    · exact htruncate
  have hsize : UInt32.size = 4294967296 := rfl
  rw [UInt32.le_iff_toNat_le, ceilCount, UInt32.toNat_ofNatClamp_of_lt (by omega)]
  omega

/-! ## Sums and differences -/

theorem value_nonneg_of_le (hd : 0 ≤ d) : IsNumber d ∧ 0 ≤ value d := by
  obtain ⟨-, hnum⟩ := isNaN_of_le hd
  have h0 := (Rounding.le_iff IsSpeed.zero.isNumber hnum).mp hd
  rw [Rounding.value_zero] at h0
  exact ⟨hnum, h0⟩

/-- Adding what is not negative leads to no less. -/
theorem le_add_right (hx : IsFinite x) (h0 : 0 ≤ value x) (hd : 0 ≤ d) : x ≤ x + d := by
  obtain ⟨hnum, hd0⟩ := value_nonneg_of_le hd
  obtain hfin | ⟨s, hinf⟩ := hnum.cases
  · have hround := Rounding.rounds_add hx hfin
    rw [Rounding.le_iff hx.isNumber hround.isNumber]
    exact hround.le_of_le (le_add_of_nonneg_right hd0)
  · have htop := Rounding.add_of_infinite hx.isNumber hnum h0 hd0
      (.inr (Rounding.not_isFinite_of_infinite hinf))
    rw [Rounding.le_iff hx.isNumber (IsSpeed.of_top htop).isNumber, Rounding.value_of_top htop]
    exact Rounding.value_le x

/-- Taking away what is not negative leads to no more. -/
theorem sub_le_left (hx : IsFinite x) (hd : 0 ≤ d) : x - d ≤ x := by
  obtain ⟨hnum, hd0⟩ := value_nonneg_of_le hd
  obtain hfin | ⟨s, hinf⟩ := hnum.cases
  · have hround := Rounding.rounds_sub hx hfin
    rw [Rounding.le_iff hround.isNumber hx.isNumber]
    exact hround.ge_of_ge (sub_le_self _ hd0)
  · rw [Rounding.value_of_infinite hinf] at hd0
    rw [Rounding.sign_of_nonneg (by norm_num) hd0] at hinf
    have hbottom : unpacked (x - d) = .infinity .negative := by
      change unpacked (.ofModel (.pack (UnpackedFloat.sub .binary32 (unpacked x) (unpacked d)))) = _
      obtain ⟨s, hx⟩ | ⟨s, m, e, hm, hx, -⟩ := hx.cases <;> rw [hx, hinf] <;>
        exact Rounding.unpacked_pack (u := .infinity .negative) trivial
    have hnum' : IsNumber (x - d) := Rounding.isNumber_iff.mpr (by rw [hbottom]; nofun)
    rw [Rounding.le_iff hnum' hx.isNumber, Rounding.value_of_infinite hbottom]
    have hle := (abs_le.mp (Rounding.abs_value_le x)).1
    rw [Rounding.factor]
    linarith

end MotionControl.Single
