import MotionControl.Proofs.Single.Arithmetic
import MotionControl.Segment.Profile

/-!
# Speeds

The speed from which a segment can slow down to another one grows with the other one
(`grows_maxAllowableSpeed`), and it is no less than the other one unless that is tiny
(`le_maxAllowableSpeed`). Both hold of floats: every operation rounds, and rounding keeps orders.

What is lost among tiny speeds, where squares underflow, is less than a thousandth.
-/

namespace MotionControl.Rounding

open Float.Model (UnpackedFloat)
open Single (unpacked)

variable {x y : Float32}

/-- The float is a speed: a number, and not negative. -/
structure IsSpeed (x : Float32) : Prop where
  /-- it is a number -/
  isNumber : IsNumber x
  /-- it is not negative -/
  nonneg : 0 ≤ value x

theorem value_zero : value 0 = 0 := value_of_zero Single.unpacked_zero

theorem IsSpeed.zero : IsSpeed 0 where
  isNumber := isNumber_iff.mpr (by rw [Single.unpacked_zero]; nofun)
  nonneg := value_zero.ge

theorem unpacked_two : unpacked 2 = .finite .positive 8388608 (-22) (by decide) := by rfl

theorem value_two : value 2 = 2 := by
  rw [value_of_finite unpacked_two, factor]
  norm_num

theorem isFinite_two : IsFinite 2 ∧ 0 < value 2 :=
  ⟨congrArg UnpackedFloat.isFinite unpacked_two, by rw [value_two]; norm_num⟩

theorem value_of_top (h : unpacked x = .infinity .positive) : value x = 2 ^ 128 := by
  rw [value_of_infinite h, factor, one_mul]

theorem IsSpeed.of_top (h : unpacked x = .infinity .positive) : IsSpeed x where
  isNumber := isNumber_iff.mpr (by rw [h]; nofun)
  nonneg := by rw [value_of_top h]; norm_num

theorem IsSpeed.cases (h : IsSpeed x) : IsFinite x ∨ unpacked x = .infinity .positive := by
  refine h.isNumber.cases.imp_right ?_
  rintro ⟨s, hx⟩
  have h0 := h.nonneg
  rw [value_of_infinite hx] at h0
  rw [hx, sign_of_nonneg (by norm_num) h0]

theorem IsFinite.value_lt (h : IsFinite x) : value x < 2 ^ 128 := by
  have hfits := fits_unpacked x
  obtain ⟨s, hx⟩ | ⟨s, m, e, hm, hx, -⟩ := h.cases
  · rw [value_of_zero hx]
    norm_num
  · rw [hx] at hfits
    have hlt := hfits.lt
    have hpos : (0 : ℝ) < m * 2 ^ e := by positivity
    rw [value_of_finite hx]
    cases s <;> rw [factor] <;> linarith

theorem IsNumber.isFinite (h : IsNumber x) (hlt : |value x| < 2 ^ 128) : IsFinite x := by
  obtain hfin | ⟨s, hinf⟩ := h.cases
  · exact hfin
  · rw [value_of_infinite hinf, abs_factor_mul, abs_of_pos (by norm_num)] at hlt
    exact absurd hlt (lt_irrefl _)

theorem IsSpeed.isFinite (h : IsSpeed x) (hlt : value x < 2 ^ 128) : IsFinite x :=
  h.isNumber.isFinite ((abs_of_nonneg h.nonneg).trans_lt hlt)

/-- The quotient of a float and a divisor of its sign, which may be infinite. -/
theorem isSpeed_div (hx : IsFinite x) (hy : IsNumber y) (hy0 : value y ≠ 0)
    (h : 0 ≤ value x / value y) :
    IsSpeed (x / y) ∧ ∀ z, value x / value y ≤ value z → value (x / y) ≤ value z := by
  obtain hfin | ⟨s, hinf⟩ := hy.cases
  · have hround := rounds_div hx hfin hy0
    exact ⟨⟨hround.isNumber, hround.nonneg h⟩, fun z => hround.ge_of_ge⟩
  · obtain ⟨hnum, hzero⟩ := div_of_infinite hx hinf
    exact ⟨⟨hnum, hzero.ge⟩, fun z hz => hzero.le.trans (h.trans hz)⟩

/-! ## Lesser and greater speeds -/

theorem IsSpeed.min (hx : IsSpeed x) (hy : IsSpeed y) : IsSpeed (Single.min x y) := by
  unfold Single.min
  split
  · exact hy
  · exact hx

theorem value_min (hx : IsSpeed x) (hy : IsSpeed y) :
    value (Single.min x y) = min (value x) (value y) := by
  have hnan : x.isNaN = false := hx.isNumber
  rw [Single.min, hnan, Bool.or_false]
  split
  · next h =>
    rw [decide_eq_true_iff, lt_iff hy.isNumber hx.isNumber] at h
    rw [min_eq_right h.le]
  · next h =>
    rw [decide_eq_true_iff, lt_iff hy.isNumber hx.isNumber, not_lt] at h
    rw [min_eq_left h]

theorem max_zero (hx : IsSpeed x) : Single.max x 0 = x := by
  have hnan : x.isNaN = false := hx.isNumber
  have hlt : ¬ x < 0 := by
    rw [lt_iff hx.isNumber IsSpeed.zero.isNumber, value_zero, not_lt]
    exact hx.nonneg
  rw [Single.max, hnan, Bool.or_false, if_neg (by rwa [decide_eq_true_iff])]

/-! ## Functions that keep the order of speeds -/

/-- The function leads from speeds to speeds, and from greater ones to no lesser ones. -/
structure Grows (f : Float32 → Float32) : Prop where
  /-- the results are speeds -/
  isSpeed : ∀ {x}, IsSpeed x → IsSpeed (f x)
  /-- the order is kept -/
  mono : ∀ {x y}, IsSpeed x → IsSpeed y → value x ≤ value y → value (f x) ≤ value (f y)

namespace Grows

variable {f g : Float32 → Float32}

theorem comp (hf : Grows f) (hg : Grows g) : Grows fun x => f (g x) where
  isSpeed hx := hf.isSpeed (hg.isSpeed hx)
  mono hx hy h := hf.mono (hg.isSpeed hx) (hg.isSpeed hy) (hg.mono hx hy h)

theorem congr (hf : Grows f) (h : ∀ {x}, IsSpeed x → g x = f x) : Grows g where
  isSpeed hx := h hx ▸ hf.isSpeed hx
  mono hx hy hle := by
    rw [h hx, h hy]
    exact hf.mono hx hy hle

end Grows

theorem Rounds.value_eq {v : ℝ} (hx : Rounds v x) (h : Representable v) : value x = cut v := by
  obtain ⟨r, hr, hx⟩ := hx.exists_nearest
  rw [hx, le_antisymm (hr.ge_of_ge h le_rfl) (hr.le_of_le h le_rfl)]

/-- Positive floats of the same value are the same. -/
theorem unpacked_eq (hx : IsFinite x) (hy : IsFinite y) (h : value x = value y)
    (h0 : 0 < value x) : unpacked x = unpacked y := by
  obtain ⟨m, e, hm, hx, hc, -⟩ := hx.cases_of_pos h0
  obtain ⟨m', e', hm', hy, hc', -⟩ := hy.cases_of_pos (h ▸ h0)
  rw [value_of_finite hx, value_of_finite hy, factor, one_mul, one_mul] at h
  have hcompare := compare_canonical hc hc'
  rw [compare_eq_iff_eq.mpr h, Ordering.then_eq_eq, compare_eq_iff_eq,
    compare_eq_iff_eq] at hcompare
  obtain ⟨rfl, rfl⟩ := hcompare
  rw [hx, hy]

/-- A function that rounds the results of a strictly monotone one keeps the order. -/
theorem Grows.of_rounds {f : Float32 → Float32} {g : ℝ → ℝ}
    (hround : ∀ {x}, IsFinite x → 0 ≤ value x → Rounds (g (value x)) (f x))
    (htop : ∀ {x}, unpacked x = .infinity .positive → unpacked (f x) = .infinity .positive)
    (hcongr : ∀ {x y}, unpacked x = unpacked y → f x = f y)
    (hmono : StrictMonoOn g (Set.Ici 0)) (hzero : Representable (g 0)) (hpos : 0 ≤ g 0) :
    Grows f where
  isSpeed {x} hx := by
    obtain hfin | hinf := hx.cases
    · have h := hround hfin hx.nonneg
      refine ⟨h.isNumber, h.nonneg (hpos.trans ?_)⟩
      exact hmono.monotoneOn Set.self_mem_Ici hx.nonneg hx.nonneg
    · exact .of_top (htop hinf)
  mono {x y} hx hy hle := by
    obtain hfy | hinf := hy.cases
    · obtain hfx | hinf := hx.cases
      · have hrx := hround hfx hx.nonneg
        have hry := hround hfy hy.nonneg
        obtain hlt | heq := hle.lt_or_eq
        · exact hrx.mono hry (hmono hx.nonneg hy.nonneg hlt)
        · -- rounding need not be a function of the number, so equal numbers are taken apart
          obtain hpos | hzero' := hx.nonneg.lt_or_eq
          · rw [hcongr (unpacked_eq hfx hfy heq hpos)]
          · rw [← heq, ← hzero'] at hry
            rw [← hzero'] at hrx
            rw [hrx.value_eq hzero, hry.value_eq hzero]
      · rw [value_of_top hinf] at hle
        exact absurd hle (not_le.mpr hfy.value_lt)
    · rw [value_of_top (htop hinf)]
      exact value_le _

theorem grows_square : Grows fun x => x * x := by
  refine .of_rounds (g := fun v => v * v) (fun h _ => rounds_mul h h) mul_self_of_infinite ?_ ?_ ?_
    ?_
  · intro x y h
    change Float32.ofModel (.pack (UnpackedFloat.mul .binary32 (unpacked x) (unpacked x))) = _
    rw [h]
    rfl
  · exact fun a ha b _ hlt => mul_self_lt_mul_self ha hlt
  · rw [mul_zero]
    exact .zero
  · rw [mul_zero]

theorem grows_sqrt : Grows Float32.sqrt := by
  refine .of_rounds rounds_sqrt sqrt_of_infinite ?_ Real.strictMonoOn_sqrt ?_ ?_
  · intro x y h
    change Float32.ofModel (.pack (UnpackedFloat.sqrt .binary32 (unpacked x))) = _
    rw [h]
    rfl
  · rw [Real.sqrt_zero]
    exact .zero
  · rw [Real.sqrt_zero]

/-- Taking away what is not positive keeps the order. -/
theorem grows_sub {c : Float32} (hc : IsNumber c) (h0 : value c ≤ 0) : Grows fun x => x - c := by
  have hneg : 0 ≤ value (-c) := by rw [value_neg]; linarith
  obtain hfin | ⟨s, hinf⟩ := hc.cases
  · refine .of_rounds (g := fun v => v + value (-c)) ?_ ?_ ?_ ?_ ?_ ?_
    · intro x hx hx0
      rw [sub_eq_add_neg]
      exact rounds_add hx hfin.neg
    · intro x hx
      rw [sub_eq_add_neg]
      exact add_of_infinite (IsSpeed.of_top hx).isNumber hfin.neg.isNumber
        (IsSpeed.of_top hx).nonneg
        hneg (.inl (not_isFinite_of_infinite hx))
    · intro x y h
      change Float32.ofModel (.pack (UnpackedFloat.sub .binary32 (unpacked x) (unpacked c))) = _
      rw [h]
      rfl
    · exact fun a _ b _ hlt => add_lt_add_left hlt _
    · rw [zero_add]
      exact representable_value
    · rw [zero_add]
      exact hneg
  · have hinf' : unpacked (-c) = .infinity (-s) := by rw [unpacked_neg, hinf]; rfl
    have htop {x} (hx : IsSpeed x) : unpacked (x - c) = .infinity .positive := by
      rw [sub_eq_add_neg]
      refine add_of_infinite hx.isNumber ?_ hx.nonneg hneg (.inr (not_isFinite_of_infinite hinf'))
      exact isNumber_iff.mpr (by rw [hinf']; nofun)
    refine ⟨fun hx => .of_top (htop hx), fun hx hy _ => ?_⟩
    rw [value_of_top (htop hx), value_of_top (htop hy)]

/-- Taking away what is not positive leads to no less. -/
theorem le_sub {c : Float32} (hx : IsSpeed x) (hc : IsNumber c) (h0 : value c ≤ 0) :
    value x ≤ value (x - c) := by
  have hneg : 0 ≤ value (-c) := by rw [value_neg]; linarith
  rw [sub_eq_add_neg]
  by_cases hfin : IsFinite x ∧ IsFinite (-c)
  · exact (rounds_add hfin.1 hfin.2).le_of_le (by linarith)
  · rw [value_of_top (add_of_infinite hx.isNumber hc.neg hx.nonneg hneg
      (not_and_or.mp hfin))]
    exact value_le x

/-! ## Squares and roots -/

/-- A square that is rounded is not far below. -/
theorem le_nearest_square {n : ℕ} {e : ℤ} {q : ℝ} (hn : n < 2 ^ 24) (he : -86 ≤ e)
    (hq : Nearest (n * 2 ^ e * (n * 2 ^ e)) q) :
    ((n : ℝ) * n - 2 ^ 23) * (2 ^ e * 2 ^ e) ≤ q := by
  obtain ⟨k, hk⟩ : ∃ k, k = (n * n + 2 ^ 23) / 2 ^ 24 := ⟨_, rfl⟩
  have hnear : |(k : ℝ) * 2 ^ 24 - n * n| ≤ 2 ^ 23 := by
    have hle : k * 2 ^ 24 ≤ n * n + 2 ^ 23 := hk ▸ Nat.div_mul_le_self _ _
    have hge : n * n ≤ k * 2 ^ 24 + 2 ^ 23 := by omega
    have hle' : (k : ℝ) * 2 ^ 24 ≤ n * n + 2 ^ 23 := by exact_mod_cast hle
    have hge' : (n : ℝ) * n ≤ k * 2 ^ 24 + 2 ^ 23 := by exact_mod_cast hge
    rw [abs_le]
    constructor <;> linarith
  have hrep : Representable ((k : ℝ) * 2 ^ 24 * (2 ^ e * 2 ^ e)) := by
    refine ⟨k, 24 + (e + e), ?_, by omega, ?_⟩
    · rw [Nat.abs_cast]
      have : k ≤ 2 ^ 24 := by
        rw [hk]
        have := Nat.mul_lt_mul'' hn hn
        omega
      exact_mod_cast this
    · rw [zpow_add₀ (by norm_num), zpow_add₀ (by norm_num), Int.cast_natCast]
      norm_num
      ring
  have hpos : (0 : ℝ) < 2 ^ e * 2 ^ e := by positivity
  have hle := (abs_le.mp (hq.le _ hrep)).1
  rw [show (k : ℝ) * 2 ^ 24 * (2 ^ e * 2 ^ e) - n * 2 ^ e * (n * 2 ^ e) =
    ((k : ℝ) * 2 ^ 24 - n * n) * (2 ^ e * 2 ^ e) by ring, abs_mul, abs_of_pos hpos] at hle
  nlinarith [mul_le_mul_of_nonneg_right hnear hpos.le]

/-- What is representable and below a mantissa of 24 bits is below by one unit. -/
theorem Representable.le_pred {n : ℕ} {e : ℤ} {r : ℝ} (h : Representable r) (hn : 2 ^ 23 < n)
    (hlt : r < n * 2 ^ e) : r ≤ (n - 1) * 2 ^ e := by
  obtain ⟨m, f, hm, -, rfl⟩ := h
  obtain hle | hgt := le_or_gt e f
  · obtain ⟨k, rfl⟩ : ∃ k : ℕ, f = e + k := ⟨(f - e).toNat, by omega⟩
    rw [zpow_add₀ (by norm_num), zpow_natCast, mul_comm ((2 : ℝ) ^ e), ← mul_assoc] at hlt ⊢
    refine mul_le_mul_of_nonneg_right ?_ (by positivity)
    have hlt' : (m : ℝ) * 2 ^ k < n := lt_of_mul_lt_mul_right hlt (by positivity)
    have hint : m * 2 ^ k < n := by exact_mod_cast hlt'
    have hint' : m * 2 ^ k ≤ n - 1 := by omega
    exact_mod_cast hint'
  · have hm' : (m : ℝ) ≤ 2 ^ 24 := by exact_mod_cast (abs_le.mp hm).2
    have hn' : (2 : ℝ) ^ 23 ≤ n - 1 := by
      have : (2 ^ 23 + 1 : ℕ) ≤ (n : ℝ) := by exact_mod_cast hn
      push_cast at this
      linarith
    calc (m : ℝ) * 2 ^ f ≤ 2 ^ 24 * 2 ^ (e - 1) :=
          mul_le_mul hm' (zpow_le_zpow_right₀ (by norm_num) (by omega)) (by positivity)
            (by norm_num)
      _ = 2 ^ 23 * 2 ^ e := by
          rw [zpow_sub₀ (by norm_num)]
          norm_num
          ring
      _ ≤ (n - 1) * 2 ^ e := mul_le_mul_of_nonneg_right hn' (by positivity)

/-- The root of a rounded square is rounded to no less than what was squared. -/
theorem le_nearest_root {n : ℕ} {e : ℤ} {q r : ℝ} (hlo : 2 ^ 23 ≤ n) (hhi : n < 2 ^ 24)
    (he : -86 ≤ e) (hq : Nearest (n * 2 ^ e * (n * 2 ^ e)) q) (hr : Nearest (√q) r) :
    n * 2 ^ e ≤ r := by
  have hrep : Representable ((n : ℝ) * 2 ^ e) :=
    Canonical.representable ⟨hhi, by omega, .inr hlo⟩
  obtain heq | hlt := hlo.eq_or_lt
  · -- a power of two has an exact square
    have hsq : Representable ((n : ℝ) * 2 ^ e * (n * 2 ^ e)) := by
      refine ⟨1, 46 + (e + e), by norm_num, by omega, ?_⟩
      rw [← heq, zpow_add₀ (by norm_num), zpow_add₀ (by norm_num)]
      norm_num
      ring
    refine hr.le_of_le hrep (Real.le_sqrt_of_sq_le ?_)
    rw [sq]
    exact hq.le_of_le hsq le_rfl
  · by_contra hgt
    have hpos : (0 : ℝ) < 2 ^ e := by positivity
    have hn : (2 : ℝ) ^ 23 + 1 ≤ n := by exact_mod_cast hlt
    have hpred := hr.representable.le_pred hlt (not_le.mp hgt)
    have hmid := hr.two_mul_le hrep (not_le.mp hgt)
    -- the root is below the middle between the number and the one before it
    have hroot : √q ≤ (n - 1 / 2) * 2 ^ e := by linarith
    have hq' := (Real.sqrt_le_left (by nlinarith)).mp hroot
    have hsquare := le_nearest_square hhi he hq
    nlinarith [mul_pos hpos hpos]

theorem le_sqrt_square (hx : IsSpeed x) (h : (2 : ℝ) ^ (-10 : ℤ) ≤ value x) :
    value x ≤ value (x * x).sqrt := by
  obtain hfin | htop := hx.cases
  · have hmul := rounds_mul hfin hfin
    obtain hfin' | htop := (grows_square.isSpeed hx).cases
    · obtain ⟨m, e, hm, hux, hc, he⟩ := hfin.cases_of_pos (lt_of_lt_of_le (by positivity) h)
      have hvalue : value x = m * 2 ^ e := by rw [value_of_finite hux, factor, one_mul]
      -- the number is not among the smallest ones
      have hexp : -86 ≤ e := by
        by_contra hlt
        have hm24 : (m : ℝ) ≤ 2 ^ 24 := by exact_mod_cast hc.lt.le
        have : (m : ℝ) * 2 ^ e < 2 ^ (-10 : ℤ) := by
          calc (m : ℝ) * 2 ^ e ≤ 2 ^ 24 * 2 ^ (-86 : ℤ) :=
                mul_le_mul hm24 (zpow_le_zpow_right₀ (by norm_num) (by omega)) (by positivity)
                  (by norm_num)
            _ < 2 ^ (-10 : ℤ) := by norm_num
        linarith
      have hbits := hc.normal.resolve_left (by omega)
      obtain ⟨q, hq, hqv⟩ := hmul.exists_nearest
      have hq0 : 0 ≤ q := hq.nonneg (mul_nonneg hx.nonneg hx.nonneg)
      have hcut : value (x * x) = q := by
        rw [hqv]
        refine cut_eq_self ?_
        rw [abs_of_nonneg hq0]
        by_contra hgt
        have hlt := hfin'.value_lt
        rw [hqv, cut, min_eq_right (not_le.mp hgt).le] at hlt
        exact absurd ((le_max_right _ _).trans_lt hlt) (lt_irrefl _)
      obtain ⟨r, hr, hrv⟩ := (rounds_sqrt hfin' (grows_square.isSpeed hx).nonneg).exists_nearest
      rw [hcut] at hr
      rw [hvalue] at hq
      rw [hrv, ← cut_eq_self (abs_value_le x), hvalue]
      exact cut_mono (le_nearest_root hbits hc.lt hexp hq hr)
    · rw [value_of_top (sqrt_of_infinite htop)]
      exact value_le x
  · rw [value_of_top (sqrt_of_infinite (mul_self_of_infinite htop))]
    exact value_le x

/-! ## Allowable speeds -/

section

variable {acceleration distance : Float32} (ha : IsFinite acceleration)
  (ha0 : 0 < value acceleration) (hd : IsFinite distance) (hd0 : 0 < value distance)
include ha ha0 hd hd0

/-- What a negative acceleration adds to a square is not negative. -/
theorem deceleration_nonpos : IsNumber (2 * -acceleration * distance) ∧
    value (2 * -acceleration * distance) ≤ 0 := by
  have htwice : Rounds _ (2 * -acceleration) := rounds_mul isFinite_two.1 ha.neg
  refine mul_nonpos htwice.isNumber (htwice.nonpos ?_) hd hd0
  rw [value_neg]
  exact mul_nonpos_of_nonneg_of_nonpos isFinite_two.2.le (neg_nonpos.mpr ha0.le)

theorem maxAllowableSpeed_eq (hx : IsSpeed x) :
    Profile.maxAllowableSpeed (-acceleration) x distance =
      (x * x - 2 * -acceleration * distance).sqrt := by
  obtain ⟨hnum, hle⟩ := deceleration_nonpos ha ha0 hd hd0
  rw [Profile.maxAllowableSpeed, max_zero ((grows_sub hnum hle).isSpeed (grows_square.isSpeed hx))]

/-- The speed from which a segment can slow down grows with the speed that it slows down to. -/
theorem grows_maxAllowableSpeed :
    Grows fun x => Profile.maxAllowableSpeed (-acceleration) x distance := by
  obtain ⟨hnum, hle⟩ := deceleration_nonpos ha ha0 hd hd0
  exact (grows_sqrt.comp ((grows_sub hnum hle).comp grows_square)).congr
    (maxAllowableSpeed_eq ha ha0 hd hd0)

/-- A segment can slow down from any speed to itself. -/
theorem le_maxAllowableSpeed (hx : IsSpeed x) (h : (2 : ℝ) ^ (-10 : ℤ) ≤ value x) :
    value x ≤ value (Profile.maxAllowableSpeed (-acceleration) x distance) := by
  obtain ⟨hnum, hle⟩ := deceleration_nonpos ha ha0 hd hd0
  have hsquare := grows_square.isSpeed hx
  rw [maxAllowableSpeed_eq ha ha0 hd hd0 hx]
  exact (le_sqrt_square hx h).trans
    (grows_sqrt.mono hsquare ((grows_sub hnum hle).isSpeed hsquare) (le_sub hsquare hnum hle))

end

/-- Adding a thousandth covers what is lost among tiny speeds. -/
theorem le_add_milli (hx : IsSpeed x) (hy : IsSpeed y)
    (h : value x < (2 : ℝ) ^ (-10 : ℤ) ∨ value x ≤ value y) : x ≤ y + 1e-3 := by
  have hmilli : unpacked 1e-3 = .finite .positive 8589935 (-33) (by decide) := by rfl
  have hvalue : value 1e-3 = 8589935 * 2 ^ (-33 : ℤ) := by
    rw [value_of_finite hmilli, factor, one_mul]
    norm_num
  have hfin : IsFinite 1e-3 := congrArg UnpackedFloat.isFinite hmilli
  have hnonneg : 0 ≤ value 1e-3 := by rw [hvalue]; positivity
  have hbig : (2 : ℝ) ^ (-10 : ℤ) ≤ value 1e-3 := by rw [hvalue]; norm_num
  obtain hy' | htop := hy.cases
  · have hsum := rounds_add hy' hfin
    rw [le_iff hx.isNumber hsum.isNumber]
    refine hsum.le_of_le ?_
    obtain hlt | hle := h
    · exact (hlt.le.trans hbig).trans (le_add_of_nonneg_left hy.nonneg)
    · exact hle.trans (le_add_of_nonneg_right hnonneg)
  · have hsum := add_of_infinite hy.isNumber hfin.isNumber hy.nonneg hnonneg
      (.inl (not_isFinite_of_infinite htop))
    rw [le_iff hx.isNumber (IsSpeed.of_top hsum).isNumber, value_of_top hsum]
    exact value_le x

end MotionControl.Rounding
