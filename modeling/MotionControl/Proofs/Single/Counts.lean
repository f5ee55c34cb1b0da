import Mathlib.Algebra.Group.Int.Defs
import Mathlib.Algebra.Group.Nat.Defs
import MotionControl.Single.Basic

/-!
# Counts rounded up

A count is rounded up from a float, and floats are compared with counts that have become floats. The
two agree for counts of at most 24 bits, which are floats without any rounding: what is not below
such a count is not rounded up to less (`le_ceilCount`).
-/

namespace MotionControl.Single

open Float.Model (Format totalExponent UnpackedFloat)
open Float.Model.UnpackedFloat hiding ofInt round

/-- What a float is made of. -/
def unpacked (x : Float32) : UnpackedFloat := x.toModel.unpack

theorem lt_iff (x y : Float32) : x < y ↔ (unpacked x).compare (unpacked y) = some .lt := by
  change decide ((unpacked x).lt (unpacked y) = true) = true ↔ _
  rw [decide_eq_true_iff, UnpackedFloat.lt, beq_iff_eq]

theorem isNaN_iff (x : Float32) : x.isNaN = true ↔ unpacked x = .notANumber := by
  change (unpacked x).isNaN = true ↔ _
  cases unpacked x with
  | notANumber => exact iff_of_true rfl rfl
  | _ => exact iff_of_false Bool.false_ne_true fun h => by cases h

theorem unpacked_zero : unpacked 0 = .zero .positive := by rfl

/-! ## Bits -/

theorem targetExponent_eq (m : Nat) (e : Int) :
    Format.binary32.targetExponent (totalExponent m e) = Max.max (m.log2 + e - 23) (-149) := by
  change Max.max (m.log2 + 1 + e - 24) (-149) = _
  omega

/-- A mantissa that is not too long stays as it is. -/
theorem shiftToTargetExponent_of_lt {m : Nat} {e : Int} (hm : m < 2 ^ 24) (he : -149 ≤ e) :
    shiftToTargetExponent .binary32 m e .exact = (⟨m, false, false⟩, e) := by
  have hlog : m.log2 ≤ 23 := by
    by_cases hz : m = 0
    · rw [hz]
      decide
    · exact Nat.lt_succ_iff.mp ((Nat.log2_lt hz).mpr hm)
  have hshift : (Max.max (m.log2 + e - 23) (-149) - e).toNat = 0 := by omega
  rw [shiftToTargetExponent, targetExponent_eq, shiftToExponent, hshift]
  exact congrArg _ (Int.add_zero e)

/-- A mantissa is brought to the target exponent twice, since rounding may make it longer. -/
theorem roundWithAccuracy_eq (s : Sign) {m : Nat} {e t t' : Int} {a : Accuracy}
    {em em' : ExtendedMantissa} (hfirst : shiftToTargetExponent .binary32 m e a = (em, t))
    (hsecond : shiftToTargetExponent .binary32 em.roundedMantissa t .exact = (em', t')) :
    roundWithAccuracy .binary32 s m e a =
      if h : em'.mantissa = 0 then .zero s
      else .finite s em'.mantissa t' (Nat.pos_of_ne_zero h) := by
  rw [roundWithAccuracy, hfirst]
  dsimp only
  rw [hsecond]

theorem pack_finite (s : Sign) {m : Nat} (e : Int) (h : 0 < m) :
    pack .binary32 (.finite s m e h) =
      if 256 ≤ (e + 127 + 23).toNat + 1 then packedInfinity .binary32 s
      else if m.log2 + 1 = 24 then
        packComponents .binary32 s (.ofNat 8 (e + 127 + 23).toNat) (.ofNat 23 m)
      else packComponents .binary32 s 0#8 (.ofNat 23 m) := rfl

theorem unpackSign_packComponents (s : Sign) (e : BitVec 8) (m : BitVec 23) :
    unpackSign (packComponents .binary32 s e m) = s.toBitVec := by
  change (s.toBitVec ++ e ++ m).extractLsb' 31 1 = s.toBitVec
  rw [BitVec.extractLsb'_append_eq_of_le (by decide),
    BitVec.extractLsb'_append_eq_of_le (by decide)]
  cases s <;> rfl

/-- The least exponent belongs to the smallest values, and the greatest one to no finite value. -/
theorem unpack_eq_finite_iff {b : BitVec 32} {s : Sign} {m : Nat} {e : Int} {h : 0 < m} :
    unpack .binary32 b = .finite s m e h ↔ s = .ofBitVec (@unpackSign .binary32 b) ∧
      (@unpackExponent .binary32 b = 0#8 ∧ m = (@unpackMantissa .binary32 b).toNat ∧ e = -149 ∨
        @unpackExponent .binary32 b ≠ 0#8 ∧ @unpackExponent .binary32 b ≠ -1#8 ∧
          m = (1#1 ++ @unpackMantissa .binary32 b).toNat ∧
          e = (@unpackExponent .binary32 b).toNat - 150) := by
  by_cases hones : @unpackExponent .binary32 b = -1#8
  · refine iff_of_false (fun hb => ?_) ?_
    · by_cases hnone : @unpackMantissa .binary32 b = 0#23
      · cases ((if_pos hones).trans (if_pos hnone)).symm.trans hb
      · cases ((if_pos hones).trans (if_neg hnone)).symm.trans hb
    · rintro ⟨-, ⟨hzero, -⟩ | ⟨-, hne, -⟩⟩
      · rw [hones] at hzero
        cases hzero
      · exact hne hones
  by_cases hzero : @unpackExponent .binary32 b = 0#8
  · by_cases hnone : @unpackMantissa .binary32 b = 0#23
    · refine iff_of_false (fun hb => ?_) ?_
      · cases (((if_neg hones).trans (if_pos hzero)).trans (dif_pos hnone)).symm.trans hb
      · rintro ⟨-, ⟨-, hm, -⟩ | ⟨hne, -⟩⟩
        · rw [hm, hnone] at h
          exact absurd h (by decide)
        · exact hne hzero
    · have hb : unpack .binary32 b = .finite _ _ _ _ :=
        ((if_neg hones).trans (if_pos hzero)).trans (dif_neg hnone)
      rw [hb, UnpackedFloat.finite.injEq]
      constructor
      · rintro ⟨rfl, rfl, rfl⟩
        exact ⟨rfl, .inl ⟨hzero, rfl, by rw [hzero]; rfl⟩⟩
      · rintro ⟨rfl, ⟨-, rfl, rfl⟩ | ⟨hne, -⟩⟩
        · exact ⟨rfl, rfl, by rw [hzero]; rfl⟩
        · exact absurd hzero hne
  · have hb : unpack .binary32 b = .finite _ _ _ _ := (if_neg hones).trans (if_neg hzero)
    rw [hb, UnpackedFloat.finite.injEq]
    constructor
    · rintro ⟨rfl, rfl, rfl⟩
      exact ⟨rfl, .inr ⟨hzero, hones, rfl, rfl⟩⟩
    · rintro ⟨rfl, ⟨hzero', -⟩ | ⟨-, -, rfl, rfl⟩⟩
      · exact absurd hzero' hzero
      · exact ⟨rfl, rfl, rfl⟩

/-! ## Whole numbers become floats -/

theorem mantissa_shiftRight (em : ExtendedMantissa) (k : Nat) :
    (em >>> k).mantissa = em.mantissa / 2 ^ k := by
  induction k with
  | zero => exact (Nat.div_one _).symm
  | succ k ih =>
    change (em >>> k).mantissa / 2 = _
    rw [ih, Nat.div_div_eq_div_mul, Nat.pow_succ]

/-- A mantissa of 24 bits is not rounded. -/
theorem roundWithAccuracy_of_normal {m : Nat} {e : Int} (h : 0 < m) (hlog : m.log2 = 23)
    (he : -149 ≤ e) :
    roundWithAccuracy .binary32 .positive m e .exact = .finite .positive m e h := by
  have hshift := shiftToTargetExponent_of_lt ((Nat.log2_lt (Nat.ne_of_gt h)).mp (by omega)) he
  exact (roundWithAccuracy_eq .positive hshift hshift).trans (dif_neg (Nat.ne_of_gt h))

/-- A whole number of at most 24 bits is brought to 24 bits by shifting it. -/
theorem ofNat_eq {m : Nat} (hpos : 0 < m) (hm : m < 2 ^ 24) :
    ∃ (k : Nat) (h : 0 < m * 2 ^ k), k ≤ 23 ∧ (m * 2 ^ k).log2 = 23 ∧
      ofNat .binary32 m = .finite .positive (m * 2 ^ k) (-k) h := by
  have hle : m.log2 ≤ 23 := Nat.lt_succ_iff.mp ((Nat.log2_lt (Nat.ne_of_gt hpos)).mpr hm)
  have hlo := Nat.log2_self_le (Nat.ne_of_gt hpos)
  have hhi := m.lt_log2_self
  obtain ⟨k, hk⟩ : ∃ k, m.log2 + k = 23 := ⟨23 - m.log2, by omega⟩
  have h : 0 < m * 2 ^ k := Nat.mul_pos hpos (Nat.two_pow_pos k)
  have hlog : (m * 2 ^ k).log2 = 23 := by
    rw [Nat.log2_eq_iff (Nat.ne_of_gt h)]
    constructor
    · rw [← hk, Nat.pow_add]
      exact Nat.mul_le_mul_right _ hlo
    · rw [show 23 + 1 = m.log2 + 1 + k by omega, Nat.pow_add]
      exact Nat.mul_lt_mul_of_pos_right hhi (Nat.two_pow_pos k)
  refine ⟨k, h, by omega, hlog, ?_⟩
  have hcompare : compare (m : Int) 0 = .gt := Int.compare_eq_gt.mpr (by omega)
  have htarget : Format.binary32.targetExponent (totalExponent m 0) = -k := by
    rw [targetExponent_eq]
    omega
  refine Eq.trans ?_ (roundWithAccuracy_of_normal h hlog (by omega))
  simp only [ofNat, UnpackedFloat.ofInt, UnpackedFloat.normalize, hcompare, Int.toNat_natCast,
    UnpackedFloat.round, htarget, decreaseExponent, Int.zero_sub, Int.neg_neg, Nat.shiftLeft_eq]

/-- A normal value is kept as it is. -/
theorem unpack_pack (s : Sign) {m : Nat} {e : Int} (h : 0 < m) (hlog : m.log2 = 23)
    (hlo : -149 ≤ e) (hhi : e ≤ 104) : unpack .binary32 (pack .binary32 (.finite s m e h)) =
      .finite s m e h := by
  obtain ⟨hmin, hmax⟩ := (Nat.log2_eq_iff (Nat.ne_of_gt h)).mp hlog
  -- the exponent is neither of the two special ones
  have hexp : (BitVec.ofNat 8 (e + 127 + 23).toNat).toNat = (e + 150).toNat := by
    rw [BitVec.toNat_ofNat]
    omega
  have hnotones : BitVec.ofNat 8 (e + 127 + 23).toNat ≠ -1#8 := by
    intro heq
    have hnat := congrArg BitVec.toNat heq
    rw [hexp] at hnat
    change (e + 150).toNat = 255 at hnat
    omega
  have hnotzero : BitVec.ofNat 8 (e + 127 + 23).toNat ≠ 0#8 := by
    intro heq
    have hnat := congrArg BitVec.toNat heq
    rw [hexp] at hnat
    change (e + 150).toNat = 0 at hnat
    omega
  -- the leading bit is put in again
  have hmantissa : (1#1 ++ BitVec.ofNat 23 m).toNat = m := by
    simp only [BitVec.toNat_append, BitVec.toNat_ofNat, Nat.shiftLeft_eq]
    change 2 ^ 23 ||| m % 2 ^ 23 = m
    rw [Nat.or_comm, Nat.or_two_pow_eq_add_of_lt (Nat.mod_lt m (Nat.two_pow_pos 23))]
    omega
  rw [pack_finite, if_neg (by omega), if_pos (by omega), unpack_eq_finite_iff,
    unpackSign_packComponents, unpackExponent_packComponents, unpackMantissa_packComponents]
  refine ⟨by cases s <;> rfl, .inr ⟨hnotzero, hnotones, hmantissa.symm, ?_⟩⟩
  rw [hexp]
  omega

/-- A count of at most 24 bits is a float without any rounding. -/
theorem unpacked_toFloat32 {m : UInt32} (hpos : 0 < m.toNat) (hm : m.toNat < 2 ^ 24) :
    ∃ (k : Nat) (h : 0 < m.toNat * 2 ^ k), k ≤ 23 ∧ (m.toNat * 2 ^ k).log2 = 23 ∧
      unpacked m.toFloat32 = .finite .positive (m.toNat * 2 ^ k) (-k) h := by
  obtain ⟨k, h, hk, hlog, heq⟩ := ofNat_eq hpos hm
  refine ⟨k, h, hk, hlog, ?_⟩
  change unpack .binary32 (pack .binary32 (ofNat .binary32 m.toNat)) = _
  rw [heq, unpack_pack .positive h hlog (by omega) (by omega)]

/-! ## Floats become whole numbers -/

theorem toUInt64_eq (x : Float32) :
    x.toUInt64 = UInt64.ofNatClamp ((unpacked x).toInt 0 (UInt64.size - 1)).toNat := rfl

/-- The whole part of a positive value. -/
theorem toInt_positive (m : Nat) (e : Int) (h : 0 < m) (lo hi : Int) :
    (UnpackedFloat.finite .positive m e h).toInt lo hi =
      ((m * 2 ^ e.toNat / 2 ^ (-e).toNat : Nat) : Int) := by
  have hamount : (0 - (e - (e.toNat : Int))).toNat = (-e).toNat := by omega
  change UnpackedFloat.roundToInt .positive m e = _
  simp only [roundToInt, decreaseExponent, shiftToExponent, mantissa_shiftRight,
    ExtendedMantissa.ofMantissaAndAccuracy, Nat.shiftLeft_eq, Sign.apply, Int.sub_zero, hamount]

/-- A value with less than 24 bits is as small as a value can be. -/
theorem exponent_or_normal {x : Float32} {s : Sign} {m : Nat} {e : Int} {h : 0 < m}
    (hx : unpacked x = .finite s m e h) : e = -149 ∨ 2 ^ 23 ≤ m := by
  obtain ⟨-, ⟨-, -, he⟩ | ⟨-, -, rfl, -⟩⟩ := unpack_eq_finite_iff.mp hx
  · exact .inl he
  · right
    rw [BitVec.toNat_append]
    exact Nat.le_trans (by decide) Nat.left_le_or

/-- Of two positive values, the one that is not below the other. -/
theorem mul_two_pow_le {m M k i j : Nat} (hlog : (m * 2 ^ k).log2 = 23)
    (h : j < i + k ∧ 2 ^ 23 ≤ M ∨ j = i + k ∧ m * 2 ^ k ≤ M) : m * 2 ^ j ≤ M * 2 ^ i := by
  refine Nat.le_of_mul_le_mul_right ?_ (Nat.two_pow_pos k)
  rw [Nat.mul_assoc M, ← Nat.pow_add, Nat.mul_right_comm]
  obtain ⟨hlt, hM⟩ | ⟨rfl, hM⟩ := h
  · have hm : m * 2 ^ k ≤ 2 ^ 23 * 2 := by
      have hhi := (m * 2 ^ k).lt_log2_self
      rw [hlog] at hhi
      exact Nat.le_of_lt hhi
    calc m * 2 ^ k * 2 ^ j ≤ 2 ^ 23 * 2 * 2 ^ j := Nat.mul_le_mul_right _ hm
      _ = 2 ^ 23 * 2 ^ (j + 1) := by rw [Nat.mul_assoc, ← Nat.pow_succ']
      _ ≤ M * 2 ^ (i + k) := Nat.mul_le_mul hM (Nat.pow_le_pow_right (by decide) hlt)
  · exact Nat.mul_le_mul_right _ hM

/-- Positive values are ordered by their exponents, and then by their mantissas. -/
theorem exponents_le_or {M N : Nat} {e f : Int} {hM : 0 < M} {hN : 0 < N}
    (h : ¬ (finite .positive M e hM).compare (finite .positive N f hN) = some .lt) :
    f < e ∨ e = f ∧ N ≤ M := by
  change ¬ some ((compare e f).then (compare M N)) = some .lt at h
  obtain hlt | rfl | hgt := Int.lt_trichotomy e f
  · rw [Int.compare_eq_lt.mpr hlt] at h
    exact absurd rfl h
  · refine .inr ⟨rfl, Nat.le_of_not_lt fun hlt => h ?_⟩
    rw [Int.compare_eq_eq.mpr rfl, Nat.compare_eq_lt.mpr hlt]
    rfl
  · exact .inl hgt

/-- The whole part of a float that is not below a count is not below it either. -/
theorem le_toInt {m : UInt32} (hpos : 0 < m.toNat) (hm : m.toNat < 2 ^ 24) {x : Float32}
    (hnan : ¬ x.isNaN = true) (h : ¬ x < m.toFloat32) :
    (m.toNat : Int) ≤ (unpacked x).toInt 0 (UInt64.size - 1) := by
  obtain ⟨k, hmant, hk, hlog, hunpacked⟩ := unpacked_toFloat32 hpos hm
  rw [isNaN_iff] at hnan
  rw [lt_iff, hunpacked] at h
  cases hx : unpacked x with
  | notANumber => exact absurd hx hnan
  | infinity s =>
    cases s with
    | positive =>
      change (m.toNat : Int) ≤ UInt64.size - 1
      have hsize : UInt64.size = 18446744073709551616 := rfl
      omega
    | negative => exact absurd (by rw [hx]; rfl) h
  | zero s => exact absurd (by rw [hx]; rfl) h
  | finite s M e hM =>
    cases s with
    | negative => exact absurd (by rw [hx]; rfl) h
    | positive =>
      have hge := exponents_le_or (hx ▸ h)
      rw [toInt_positive, Int.ofNat_le, Nat.le_div_iff_mul_le (Nat.two_pow_pos _)]
      refine mul_two_pow_le hlog ?_
      have hnormal := exponent_or_normal hx
      omega

/-- What is below zero is below every count. -/
theorem lt_toFloat32_of_neg {m : UInt32} (hpos : 0 < m.toNat) (hm : m.toNat < 2 ^ 24) {x : Float32}
    (h : x < 0) : x < m.toFloat32 := by
  obtain ⟨k, hmant, -, -, hunpacked⟩ := unpacked_toFloat32 hpos hm
  rw [lt_iff, unpacked_zero] at h
  rw [lt_iff, hunpacked]
  cases hx : unpacked x with
  | notANumber => rw [hx] at h; cases h
  | zero s => rfl
  | infinity s => cases s <;> rw [hx] at h <;> first | rfl | cases h
  | finite s => cases s <;> rw [hx] at h <;> first | rfl | cases h

/-! ## Rounding up -/

theorem le_truncate {m : UInt32} (hpos : 0 < m.toNat) (hm : m.toNat < 2 ^ 24) {x : Float32}
    (hnan : ¬ x.isNaN = true) (h : ¬ x < m.toFloat32) : m.toNat ≤ (truncate x).toNat := by
  have hge := le_toInt hpos hm hnan h
  have hsize : UInt64.size = 18446744073709551616 := rfl
  rw [truncate, if_neg (mt (lt_toFloat32_of_neg hpos hm) h), toUInt64_eq, Int.toNat_natCast]
  obtain hlt | hle := Nat.lt_or_ge ((unpacked x).toInt 0 (UInt64.size - 1)).toNat UInt64.size
  · rw [UInt64.toNat_ofNatClamp_of_lt hlt]
    omega
  · rw [UInt64.toNat_ofNatClamp_of_le hle]
    omega

/-- Rounding up does not lead below a count that the float is not below. -/
theorem le_ceilCount {m : UInt32} (hm : m.toNat < 2 ^ 24) {x : Float32}
    (hnan : ¬ x.isNaN = true) (h : ¬ x < m.toFloat32) : m ≤ ceilCount x := by
  rw [UInt32.le_iff_toNat_le]
  by_cases hpos : 0 < m.toNat
  · have htrunc := le_truncate hpos hm hnan h
    have hceil : truncate x ≤ ceil x := by
      unfold ceil
      dsimp only
      split <;> omega
    obtain hlt | hle := Nat.lt_or_ge (ceil x).toNat UInt32.size
    · rw [ceilCount, UInt32.toNat_ofNatClamp_of_lt hlt]
      omega
    · rw [ceilCount, UInt32.toNat_ofNatClamp_of_le hle]
      exact Nat.le_sub_one_of_lt m.toNat_lt
  · omega

/-- A count is rounded up to nothing less than itself. -/
theorem le_ceilCount_toFloat32 {m : UInt32} (hm : m.toNat < 2 ^ 24) :
    m ≤ ceilCount m.toFloat32 := by
  by_cases hpos : 0 < m.toNat
  · obtain ⟨k, hmant, -, -, hunpacked⟩ := unpacked_toFloat32 hpos hm
    refine le_ceilCount hm (fun hnan => ?_) fun hlt => ?_
    · rw [isNaN_iff, hunpacked] at hnan
      cases hnan
    · -- nothing is below itself
      rw [lt_iff, hunpacked] at hlt
      change some ((compare (-(k : Int)) (-k)).then (compare (m.toNat * 2 ^ k) _)) = _ at hlt
      rw [Int.compare_eq_eq.mpr rfl, Nat.compare_eq_eq.mpr rfl] at hlt
      cases hlt
  · rw [UInt32.le_iff_toNat_le]
    omega

/-- A float brought between two counts is not rounded up to less than the lower one. -/
theorem le_ceilCount_between {lo hi : UInt32} (hle : lo ≤ hi) (hhi : hi.toNat < 2 ^ 24)
    (x : Float32) : lo ≤ ceilCount (min (max x lo.toFloat32) hi.toFloat32) := by
  have hlo : lo.toNat < 2 ^ 24 := Nat.lt_of_le_of_lt (UInt32.le_iff_toNat_le.mp hle) hhi
  have hmax : lo ≤ ceilCount (max x lo.toFloat32) := by
    unfold max
    split
    · exact le_ceilCount_toFloat32 hlo
    · next h =>
      rw [Bool.or_eq_true, decide_eq_true_iff, not_or] at h
      exact le_ceilCount hlo h.2 h.1
  unfold min
  split
  · exact UInt32.le_trans hle (le_ceilCount_toFloat32 hhi)
  · exact hmax

end MotionControl.Single
