import MotionControl.Proofs.Single.Alike
import MotionControl.Proofs.Single.Value

/-!
# The order of floats

Floats that are numbers are ordered by their values, so that `≤` among them is an order but for the
two zeros. A NaN is neither below nor above anything. The lesser one of two floats is below both of
them (`min_le_left`, `min_le_right`), and it is the very same float as one of them
(`min_of_le`, `min_of_lt`). The greater one is above both (`le_max_left`, `le_max_right`).
-/

namespace MotionControl.Single

variable {x y z : Float32}

theorem le_iff_isLE (x y : Float32) :
    x ≤ y ↔ ((unpacked x).compare (unpacked y)).any Ordering.isLE = true := by
  change decide (((unpacked x).compare (unpacked y)).any Ordering.isLE = true) = true ↔ _
  rw [decide_eq_true_iff]

/-- What compares is a number. -/
theorem isNaN_of_le (h : x ≤ y) : x.isNaN = false ∧ y.isNaN = false := by
  rw [le_iff_isLE] at h
  constructor <;> refine Bool.eq_false_iff.mpr fun hnan => ?_ <;> rw [isNaN_iff] at hnan
  · rw [hnan] at h
    cases h
  · rw [hnan] at h
    cases hx : unpacked x <;> rw [hx] at h <;> cases h

theorem le_of_lt (h : x < y) : x ≤ y := by
  rw [lt_iff] at h
  rw [le_iff_isLE, h]
  rfl

theorem le_of_not_lt (hx : x.isNaN = false) (hy : y.isNaN = false) (h : ¬ x < y) : y ≤ x := by
  rw [Rounding.lt_iff hx hy, not_lt] at h
  exact (Rounding.le_iff hy hx).mpr h

theorem not_lt_of_le (h : x ≤ y) : ¬ y < x := by
  obtain ⟨hx, hy⟩ := isNaN_of_le h
  rw [Rounding.lt_iff hy hx, not_lt]
  exact (Rounding.le_iff hx hy).mp h

protected theorem le_refl (hx : x.isNaN = false) : x ≤ x := (Rounding.le_iff hx hx).mpr le_rfl

protected theorem le_trans (hxy : x ≤ y) (hyz : y ≤ z) : x ≤ z := by
  obtain ⟨hx, hy⟩ := isNaN_of_le hxy
  obtain ⟨-, hz⟩ := isNaN_of_le hyz
  rw [Rounding.le_iff hx hy] at hxy
  rw [Rounding.le_iff hy hz] at hyz
  exact (Rounding.le_iff hx hz).mpr (hxy.trans hyz)

/-! ## The lesser one of two -/

theorem min_of_lt (h : y < x) : min x y = y := by
  rw [min, decide_eq_true h, Bool.true_or, if_pos rfl]

theorem min_of_not_lt (hx : x.isNaN = false) (h : ¬ y < x) : min x y = x := by
  rw [min, hx, Bool.or_false, if_neg]
  rwa [decide_eq_true_iff]

theorem min_of_le (h : x ≤ y) : min x y = x := min_of_not_lt (isNaN_of_le h).1 (not_lt_of_le h)

theorem min_of_isNaN (hx : x.isNaN = true) : min x y = y := by
  rw [min, hx, Bool.or_true, if_pos rfl]

theorem min_le_left (hx : x.isNaN = false) : min x y ≤ x := by
  by_cases hlt : y < x
  · rw [min_of_lt hlt]
    exact le_of_lt hlt
  · rw [min_of_not_lt hx hlt]
    exact Single.le_refl hx

theorem min_le_right (hy : y.isNaN = false) : min x y ≤ y := by
  by_cases hx : x.isNaN = true
  · rw [min_of_isNaN hx]
    exact Single.le_refl hy
  rw [Bool.not_eq_true] at hx
  by_cases hlt : y < x
  · rw [min_of_lt hlt]
    exact Single.le_refl hy
  · rw [min_of_not_lt hx hlt]
    exact le_of_not_lt hy hx hlt

theorem le_min (hx : z ≤ x) (hy : z ≤ y) : z ≤ min x y := by
  unfold min
  split
  · exact hy
  · exact hx

/-- Taking the lesser one twice is taking it once. -/
theorem min_min_self (x y : Float32) : min x (min x y) = min x y := by
  by_cases hx : x.isNaN = true
  · rw [min_of_isNaN hx]
  rw [Bool.not_eq_true] at hx
  by_cases hlt : y < x
  · rw [min_of_lt hlt, min_of_lt hlt]
  · rw [min_of_not_lt hx hlt, min_of_le (Single.le_refl hx)]

/-! ## The greater one of two -/

theorem max_of_lt (h : x < y) : max x y = y := by
  rw [max, decide_eq_true h, Bool.true_or, if_pos rfl]

theorem max_of_not_lt (hx : x.isNaN = false) (h : ¬ x < y) : max x y = x := by
  rw [max, hx, Bool.or_false, if_neg]
  rwa [decide_eq_true_iff]

theorem max_of_isNaN (hx : x.isNaN = true) : max x y = y := by
  rw [max, hx, Bool.or_true, if_pos rfl]

theorem le_max_left (hx : x.isNaN = false) : x ≤ max x y := by
  by_cases hlt : x < y
  · rw [max_of_lt hlt]
    exact le_of_lt hlt
  · rw [max_of_not_lt hx hlt]
    exact Single.le_refl hx

theorem le_max_right (hy : y.isNaN = false) : y ≤ max x y := by
  by_cases hx : x.isNaN = true
  · rw [max_of_isNaN hx]
    exact Single.le_refl hy
  rw [Bool.not_eq_true] at hx
  by_cases hlt : x < y
  · rw [max_of_lt hlt]
    exact Single.le_refl hy
  · rw [max_of_not_lt hx hlt]
    exact le_of_not_lt hx hy hlt

theorem max_le (hx : x ≤ z) (hy : y ≤ z) : max x y ≤ z := by
  unfold max
  split
  · exact hy
  · exact hx

end MotionControl.Single
