import Mathlib.Algebra.Order.Field.Power
import Mathlib.Algebra.Order.Archimedean.Real.Basic
import Mathlib.Tactic.Linarith
import Mathlib.Tactic.NormNum
import Mathlib.Tactic.Positivity
import Mathlib.Tactic.Ring
import MotionControl.Proofs.Single.Counts

/-!
# Rounding to the nearest

Every operation on floats is exact but for one rounding at its end. What rounding does is said here
on real numbers: of all numbers that a float of unbounded range can stand for, the result is one
that is nearest (`Nearest`). So rounding keeps an order that is strict, and it does not lead across
a number that needs no rounding. Which of two numbers at the same distance is taken does not matter.
What is too large for a float becomes an infinity, which stands for a number too (`cut`, `number`).

`Locates` is what the residual bits of a mantissa say about the number that is being rounded.
Shifting keeps it true, and so `roundWithAccuracy` rounds to the nearest (`exists_nearest`).
-/

namespace MotionControl.Rounding

open Float.Model (Format totalExponent UnpackedFloat)
open Float.Model.UnpackedFloat
open Single (mantissa_shiftRight targetExponent_eq shiftToTargetExponent_of_lt
  roundWithAccuracy_eq)

/-! ## Nearest numbers -/

/-- A float of unbounded range stands for the number. -/
def Representable (y : ℝ) : Prop :=
  ∃ n e : ℤ, |n| ≤ 2 ^ 24 ∧ -149 ≤ e ∧ y = n * (2 : ℝ) ^ e

/-- No other representable number is nearer. -/
structure Nearest (v r : ℝ) : Prop where
  /-- the number is representable itself -/
  representable : Representable r
  /-- no other one is nearer -/
  le : ∀ y, Representable y → |r - v| ≤ |y - v|

theorem Representable.nearest {v : ℝ} (h : Representable v) : Nearest v v :=
  ⟨h, fun y _ => by rw [sub_self, abs_zero]; exact abs_nonneg _⟩

theorem Representable.zero : Representable 0 := ⟨0, 0, by norm_num, by norm_num, by norm_num⟩

theorem Representable.two_pow {e : ℤ} (h : -149 ≤ e) : Representable ((2 : ℝ) ^ e) :=
  ⟨1, e, by norm_num, h, by norm_num⟩

namespace Nearest

variable {v v' r r' y : ℝ}

/-- What is rounded down is not above the middle. -/
theorem two_mul_le (h : Nearest v r) (hy : Representable y) (hlt : r < y) : 2 * v ≤ r + y := by
  have hsq : (r - v) ^ 2 ≤ (y - v) ^ 2 := sq_le_sq.mpr (h.le y hy)
  nlinarith

/-- What is rounded up is not below the middle. -/
theorem le_two_mul (h : Nearest v r) (hy : Representable y) (hlt : y < r) : y + r ≤ 2 * v := by
  have hsq : (r - v) ^ 2 ≤ (y - v) ^ 2 := sq_le_sq.mpr (h.le y hy)
  nlinarith

theorem mono (h : Nearest v r) (h' : Nearest v' r') (hlt : v < v') : r ≤ r' := by
  by_contra hgt
  have hdown := h'.two_mul_le h.representable (not_le.mp hgt)
  have hup := h.le_two_mul h'.representable (not_le.mp hgt)
  linarith

theorem le_of_le (h : Nearest v r) (hy : Representable y) (hle : y ≤ v) : y ≤ r := by
  by_contra hgt
  have hdown := h.two_mul_le hy (not_le.mp hgt)
  have := not_le.mp hgt
  linarith

theorem ge_of_ge (h : Nearest v r) (hy : Representable y) (hle : v ≤ y) : r ≤ y := by
  by_contra hgt
  have hup := h.le_two_mul hy (not_le.mp hgt)
  have := not_le.mp hgt
  linarith

theorem nonneg (h : Nearest v r) (hv : 0 ≤ v) : 0 ≤ r := h.le_of_le .zero hv

end Nearest

/-- A number that is rounded to a whole one in units of the last place is rounded to the nearest. -/
theorem nearest_of_units {v : ℝ} {N : ℕ} {e : ℤ} (hN : N ≤ 2 ^ 24) (he : -149 ≤ e)
    (hround : |(N : ℝ) - v / (2 : ℝ) ^ e| ≤ 1 / 2)
    (hunit : e = -149 ∨ (2 : ℝ) ^ (e + 23) ≤ v) : Nearest v (N * (2 : ℝ) ^ e) := by
  have hpos : (0 : ℝ) < 2 ^ e := by positivity
  -- in units of the last place no whole number is nearer
  have hwhole (z : ℤ) : |(N : ℝ) * 2 ^ e - v| ≤ |(z : ℝ) * 2 ^ e - v| := by
    have hz : |(N : ℝ) - v / 2 ^ e| ≤ |(z : ℝ) - v / 2 ^ e| := by
      by_cases heq : z = N
      · rw [heq]
        norm_cast
      · have hone : (1 : ℝ) ≤ |(z : ℝ) - N| := by
          have : 1 ≤ |z - (N : ℤ)| := Int.one_le_abs (sub_ne_zero.mpr heq)
          exact_mod_cast this
        have htri := abs_sub_le (z : ℝ) (v / 2 ^ e) N
        rw [abs_sub_comm (v / 2 ^ e)] at htri
        linarith
    have hscale (w : ℝ) : |w * 2 ^ e - v| = |w - v / 2 ^ e| * 2 ^ e := by
      rw [← abs_of_pos hpos, ← abs_mul, abs_of_pos hpos, sub_mul, div_mul_cancel₀ _ hpos.ne']
    rw [hscale, hscale]
    exact mul_le_mul_of_nonneg_right hz hpos.le
  refine ⟨⟨N, e, by rw [Nat.abs_cast]; exact_mod_cast hN, he, by norm_cast⟩, ?_⟩
  rintro y ⟨n, f, hn, hf, rfl⟩
  obtain hle | hlt := le_or_gt e f
  · -- a number with larger units is a whole number of these
    have hy : (n : ℝ) * 2 ^ f = ((n * 2 ^ (f - e).toNat : ℤ) : ℝ) * 2 ^ e := by
      have hexp : (2 : ℝ) ^ f = 2 ^ (f - e).toNat * 2 ^ e := by
        rw [← zpow_natCast, ← zpow_add₀ (by norm_num), Int.toNat_of_nonneg (sub_nonneg.mpr hle),
          sub_add_cancel]
      push_cast
      rw [hexp, mul_assoc]
    rw [hy]
    exact hwhole _
  · -- a number with smaller units lies below the binade
    have hv := hunit.resolve_left (by omega)
    have hbinade : (n : ℝ) * 2 ^ f ≤ 2 ^ (e + 23) := by
      have hn' : (n : ℝ) ≤ 2 ^ 24 := by exact_mod_cast (abs_le.mp hn).2
      calc (n : ℝ) * 2 ^ f ≤ 2 ^ 24 * 2 ^ (e - 1) := by
            refine mul_le_mul hn' (zpow_le_zpow_right₀ (by norm_num) (by omega)) ?_ (by norm_num)
            positivity
        _ = 2 ^ (e + 23) := by
            rw [← zpow_natCast, ← zpow_add₀ (by norm_num)]
            congr 1
            push_cast
            ring
    have hedge := hwhole (2 ^ 23)
    have hedge' : ((2 ^ 23 : ℤ) : ℝ) * 2 ^ e = 2 ^ (e + 23) := by
      rw [zpow_add₀ (by norm_num)]
      norm_num [mul_comm]
    rw [hedge', abs_of_nonpos (show (2 : ℝ) ^ (e + 23) - v ≤ 0 by linarith)] at hedge
    rw [abs_of_nonpos (show (n : ℝ) * 2 ^ f - v ≤ 0 by linarith)]
    linarith

/-- A number, brought between the infinities. -/
noncomputable def cut (r : ℝ) : ℝ := max (-2 ^ 128) (min r (2 ^ 128))

theorem cut_mono : Monotone cut :=
  fun _ _ h => max_le_max le_rfl (min_le_min h le_rfl)

theorem cut_eq_self {r : ℝ} (h : |r| ≤ 2 ^ 128) : cut r = r := by
  rw [cut, min_eq_left (abs_le.mp h).2, max_eq_right (abs_le.mp h).1]

/-! ## Unpacked floats -/

/-- The factor that a sign stands for. -/
def factor : Sign → ℝ
  | .negative => -1
  | .positive => 1

/-- The number that an unpacked float stands for. -/
noncomputable def number : UnpackedFloat → ℝ
  | .notANumber => 0
  | .infinity s => factor s * 2 ^ 128
  | .zero _ => 0
  | .finite s m e _ => factor s * (m * 2 ^ e)

/-! ## Mantissas with residual bits -/

/-- The number is where a mantissa and its residual bits say, in units of the last place. -/
def Locates (em : ExtendedMantissa) (x : ℝ) : Prop :=
  match em.roundBit, em.stickyBit with
  | false, false => x = em.mantissa
  | false, true => em.mantissa < x ∧ x < em.mantissa + 1 / 2
  | true, false => x = em.mantissa + 1 / 2
  | true, true => em.mantissa + 1 / 2 < x ∧ x < em.mantissa + 1

namespace Locates

variable {em : ExtendedMantissa} {x : ℝ}

theorem bounds (h : Locates em x) : (em.mantissa : ℝ) ≤ x ∧ x < em.mantissa + 1 := by
  obtain ⟨m, r, s⟩ := em
  cases r <;> cases s <;> simp only [Locates] at h ⊢ <;> constructor <;> linarith

theorem rounded (h : Locates em x) : |(em.roundedMantissa : ℝ) - x| ≤ 1 / 2 := by
  obtain ⟨m, r, s⟩ := em
  rw [abs_le]
  cases r <;> cases s <;>
    simp only [Locates, ExtendedMantissa.roundedMantissa, ExtendedMantissa.accuracy,
      Accuracy.roundToNearestEven] at h ⊢
  · constructor <;> linarith
  · constructor <;> linarith
  · -- half way, either neighbour will do
    obtain heven | hodd := Nat.mod_two_eq_zero_or_one m
    · rw [heven]
      push_cast
      constructor <;> linarith
    · rw [hodd]
      push_cast
      constructor <;> linarith
  · push_cast
    constructor <;> linarith

theorem shiftRightOne (h : Locates em x) : Locates em.shiftRightOne (x / 2) := by
  obtain ⟨m, r, s⟩ := em
  have hm : (m : ℝ) = 2 * (m / 2 : ℕ) + (m % 2 : ℕ) := by
    exact_mod_cast (Nat.div_add_mod m 2).symm
  obtain heven | hodd := Nat.mod_two_eq_zero_or_one m
  · rw [heven] at hm
    push_cast at hm
    cases r <;> cases s <;>
      simp only [Locates, ExtendedMantissa.shiftRightOne, heven, bne_self_eq_false, Bool.or_false,
        Bool.or_true] at h ⊢ <;> first | constructor <;> linarith | linarith
  · rw [hodd] at hm
    push_cast at hm
    cases r <;> cases s <;>
      simp only [Locates, ExtendedMantissa.shiftRightOne, hodd, Bool.or_false, Bool.or_true,
        show (1 != 0) = true from rfl] at h ⊢ <;>
      first | constructor <;> linarith | linarith

theorem shiftRight (h : Locates em x) (k : ℕ) : Locates (em >>> k) (x / 2 ^ k) := by
  induction k with
  | zero =>
    rw [pow_zero, div_one]
    exact h
  | succ k ih =>
    rw [pow_succ, ← div_div]
    exact ih.shiftRightOne

end Locates

/-! ## Rounding a mantissa -/

/-- Mantissa and exponent of a float of unbounded range: all 24 bits are used unless the exponent is
the least one. -/
structure Canonical (m : ℕ) (e : ℤ) : Prop where
  /-- there are 24 bits -/
  lt : m < 2 ^ 24
  /-- the exponent is not below the least one -/
  le : -149 ≤ e
  /-- all bits are used, or the exponent is the least one -/
  normal : e = -149 ∨ 2 ^ 23 ≤ m

theorem Canonical.representable {m : ℕ} {e : ℤ} (h : Canonical m e) :
    Representable (m * (2 : ℝ) ^ e) :=
  ⟨m, e, by rw [Nat.abs_cast]; exact_mod_cast h.lt.le, h.le, by norm_cast⟩

/-- A mantissa that has become too long by rounding loses a zero. -/
theorem shiftToTargetExponent_carry {e : ℤ} (he : -149 ≤ e) :
    shiftToTargetExponent .binary32 (2 ^ 24) e .exact = (⟨2 ^ 23, false, false⟩, e + 1) := by
  have hshift : (max (((2 ^ 24 : ℕ).log2 : ℤ) + e - 23) (-149) - e).toNat = 1 := by
    rw [Nat.log2_two_pow]
    omega
  rw [shiftToTargetExponent, targetExponent_eq, shiftToExponent, hshift]
  rfl

theorem mantissa_ofMantissaAndAccuracy (m : ℕ) (a : Accuracy) :
    (ExtendedMantissa.ofMantissaAndAccuracy m a).mantissa = m := by
  cases a with
  | exact => rfl
  | inexact o => cases o <;> rfl

/-- Where the leading bit of a mantissa puts the target exponent, and what is left of the mantissa
there. -/
theorem exists_shiftToTargetExponent {m : ℕ} {e : ℤ} {a : Accuracy} {x : ℝ}
    (hx : Locates (.ofMantissaAndAccuracy m a) x) (he : e ≤ max (m.log2 + e - 23) (-149)) :
    ∃ em t, shiftToTargetExponent .binary32 m e a = (em, t) ∧ -149 ≤ t ∧
      Locates em (x * 2 ^ e / 2 ^ t) ∧ em.mantissa < 2 ^ 24 ∧
      (t = -149 ∨ (2 : ℝ) ^ (t + 23) ≤ x * 2 ^ e) := by
  obtain ⟨t, ht⟩ : ∃ t, t = max (m.log2 + e - 23) (-149) := ⟨_, rfl⟩
  obtain ⟨k, hk⟩ : ∃ k : ℕ, t = e + k := ⟨(t - e).toNat, by omega⟩
  refine ⟨ExtendedMantissa.ofMantissaAndAccuracy m a >>> k, t, ?_, by omega, ?_, ?_, ?_⟩
  · have hshift : (t - e).toNat = k := by omega
    rw [shiftToTargetExponent, targetExponent_eq, ← ht, shiftToExponent, hshift, hk]
  · have hscale : x * 2 ^ e / 2 ^ t = x / 2 ^ k := by
      rw [hk, zpow_add₀ (by norm_num), zpow_natCast, mul_comm x, mul_div_mul_left]
      positivity
    rw [hscale]
    exact hx.shiftRight k
  · rw [mantissa_shiftRight, mantissa_ofMantissaAndAccuracy,
      Nat.div_lt_iff_lt_mul (Nat.two_pow_pos k), ← pow_add]
    exact m.lt_log2_self.trans_le (Nat.pow_le_pow_right (by decide) (by omega))
  · -- the leading bit says in which binade the number lies
    by_cases hleast : t = -149
    · exact .inl hleast
    · have hz : m ≠ 0 := by
        rintro rfl
        rw [Nat.log2_zero] at ht
        omega
      have hexp : t + 23 = m.log2 + e := by omega
      have hmx := hx.bounds.1
      rw [mantissa_ofMantissaAndAccuracy] at hmx
      have hlog : (2 : ℝ) ^ m.log2 ≤ x := le_trans (by exact_mod_cast Nat.log2_self_le hz) hmx
      refine .inr ?_
      rw [hexp, zpow_add₀ (by norm_num), zpow_natCast]
      exact mul_le_mul_of_nonneg_right hlog (by positivity)

/-- A mantissa with residual bits, which has enough bits, is rounded to the nearest number. -/
theorem exists_nearest (s : Sign) {m : ℕ} {e : ℤ} {a : Accuracy} {x : ℝ}
    (hx : Locates (.ofMantissaAndAccuracy m a) x) (he : e ≤ max (m.log2 + e - 23) (-149)) :
    ∃ r, Nearest (x * 2 ^ e) r ∧
      (roundWithAccuracy .binary32 s m e a = .zero s ∧ r = 0 ∨
        ∃ (m' : ℕ) (e' : ℤ) (h : 0 < m'), roundWithAccuracy .binary32 s m e a =
          .finite s m' e' h ∧ Canonical m' e' ∧ r = m' * 2 ^ e') := by
  obtain ⟨em, t, hfirst, hle, hloc, hshort, hunit⟩ := exists_shiftToTargetExponent hx he
  have hN : em.roundedMantissa ≤ 2 ^ 24 := by
    have hbelow := (abs_le.mp hloc.rounded).2
    have habove := hloc.bounds.2
    have hlt : (em.roundedMantissa : ℝ) < (em.mantissa + 2 : ℕ) := by
      push_cast
      linarith
    have := Nat.cast_lt.mp hlt
    omega
  have hnear := nearest_of_units hN hle hloc.rounded hunit
  refine ⟨_, hnear, ?_⟩
  obtain hlt | heq := hN.lt_or_eq
  · rw [roundWithAccuracy_eq s hfirst (shiftToTargetExponent_of_lt hlt hle)]
    by_cases hz : em.roundedMantissa = 0
    · refine .inl ⟨dif_pos hz, ?_⟩
      rw [hz, Nat.cast_zero, zero_mul]
    · refine .inr ⟨_, _, Nat.pos_of_ne_zero hz, dif_neg hz, ⟨hlt, hle, ?_⟩, rfl⟩
      refine hunit.imp_right fun hv => ?_
      have hedge := hnear.le_of_le (.two_pow (by omega)) hv
      rw [add_comm, zpow_add₀ (by norm_num), mul_le_mul_iff_left₀ (by positivity)] at hedge
      exact_mod_cast hedge
  · rw [roundWithAccuracy_eq s hfirst (heq ▸ shiftToTargetExponent_carry hle), heq]
    refine .inr ⟨2 ^ 23, t + 1, by norm_num, rfl, ⟨by norm_num, by omega, .inr le_rfl⟩, ?_⟩
    rw [zpow_add₀ (by norm_num)]
    push_cast
    ring

end MotionControl.Rounding
