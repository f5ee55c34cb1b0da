import MotionControl.Proofs.Settings.Clamping
import MotionControl.Toolhead

/-!
# Feeds and what the actuators make of them

A toolhead lowers the feed of a move axis by axis, until every Cartesian axis keeps its limit
(`Toolhead.capFeed_spec`); a later axis only lowers the feed further, so that the earlier ones stay
within theirs (`Toolhead.foldl_capFeed_spec`). The limits of the settings are those of actuators.
How fast an actuator gets is then up to the transform (`Transform.reach`): on a Cartesian machine it
keeps its own limit, but an actuator that travels twice as far gets twice as fast as its limit, and
on crossed belts two limits add up (`Toolhead.plan_within_reach`).

Rounding is harmless but for the smallest numbers: shares of a feed below `2 ^ -126` are spaced
evenly, which shows as a term of `2 ^ -147` feeds.
-/

namespace MotionControl

open Rounding (IsFinite IsNumber IsSpeed Rounds Representable value)

namespace Transform

/-! ## Transforms without rounding -/

/-- Actuator positions of a Cartesian point, as they would be without rounding. -/
def ideal : Transform → PerAxis ℝ → PerAxis ℝ
  | cartesian, p => p
  | doubled, p => ⟨p.alpha + p.alpha, p.beta + p.beta, p.gamma + p.gamma⟩
  | corexy, p => ⟨p.alpha + p.beta, p.alpha - p.beta, p.gamma⟩

/-- How far the actuators get while every Cartesian axis gets that far. -/
def reach : Transform → PerAxis ℝ → PerAxis ℝ
  | cartesian, v => v
  | doubled, v => ⟨v.alpha + v.alpha, v.beta + v.beta, v.gamma + v.gamma⟩
  | corexy, v => ⟨v.alpha + v.beta, v.alpha + v.beta, v.gamma⟩

/-- The actuator positions that are calculated are the exact ones, rounded. -/
theorem rounds_toActuator (t : Transform) {p : PerAxis Float32} (hp : ∀ a, IsFinite (p.get a))
    (a : Axis) : Rounds ((t.ideal (p.map value)).get a) ((t.toActuator p).get a) := by
  have hself {x : Float32} (hx : IsFinite x) : Rounds (value x) x :=
    ⟨hx.isNumber, _, Rounding.representable_value.nearest,
      (Rounding.cut_eq_self (Rounding.abs_value_le x)).symm⟩
  have htwice {x : Float32} (hx : IsFinite x) : Rounds (value x + value x) (2 * x) := by
    have h := Rounding.rounds_mul Rounding.isFinite_two.1 hx
    rwa [Rounding.value_two, two_mul] at h
  cases t with
  | cartesian =>
    have h := hself (hp a)
    cases a <;> exact h
  | doubled =>
    have h := htwice (hp a)
    cases a <;> exact h
  | corexy =>
    cases a with
    | alpha => exact Rounding.rounds_add (hp .alpha) (hp .beta)
    | beta => exact Rounding.rounds_sub (hp .alpha) (hp .beta)
    | gamma => exact hself (hp .gamma)

/-- Actuators move no further than the Cartesian axes let them. -/
theorem abs_ideal_sub_mul_le (t : Transform) {p q v : PerAxis ℝ} {c : ℝ} (hc : 0 ≤ c)
    (h : ∀ a, |p.get a - q.get a| * c ≤ v.get a) (a : Axis) :
    |(t.ideal p).get a - (t.ideal q).get a| * c ≤ (t.reach v).get a := by
  have htwice (x y : ℝ) : |x + x - (y + y)| * c = 2 * (|x - y| * c) := by
    rw [← two_mul, ← two_mul, ← mul_sub, abs_mul, abs_two, mul_assoc]
  have hα := h .alpha
  have hβ := h .beta
  have hγ := h .gamma
  simp only [PerAxis.get] at hα hβ hγ
  cases t with
  | cartesian => exact h a
  | doubled => cases a <;> simp only [ideal, reach, PerAxis.get, htwice] <;> linarith
  | corexy =>
    cases a with
    | alpha =>
      have hsum := mul_le_mul_of_nonneg_right (abs_add_le (p.alpha - q.alpha) (p.beta - q.beta)) hc
      simp only [ideal, reach, PerAxis.get]
      rw [show p.alpha + p.beta - (q.alpha + q.beta) =
        p.alpha - q.alpha + (p.beta - q.beta) by ring]
      linarith
    | beta =>
      have hdiff := mul_le_mul_of_nonneg_right (abs_sub (p.alpha - q.alpha) (p.beta - q.beta)) hc
      simp only [ideal, reach, PerAxis.get]
      rw [show p.alpha - p.beta - (q.alpha - q.beta) =
        p.alpha - q.alpha - (p.beta - q.beta) by ring]
      linarith
    | gamma => exact hγ

/-- At most two axes drive an actuator. -/
theorem reach_le (t : Transform) {v w : PerAxis ℝ} {k d : ℝ} (hd : 0 ≤ d)
    (h : ∀ a, v.get a ≤ w.get a * k + d) (a : Axis) :
    (t.reach v).get a ≤ (t.reach w).get a * k + 2 * d := by
  have hα := h .alpha
  have hβ := h .beta
  have hγ := h .gamma
  simp only [PerAxis.get] at hα hβ hγ
  cases t <;> cases a <;> simp only [reach, PerAxis.get] <;> linarith

/-- Actuators are as fast as the transform makes of what bounds the Cartesian axes. -/
theorem abs_ideal_sub_mul_le_reach (t : Transform) {p q w : PerAxis ℝ} {c k d : ℝ} (hc : 0 ≤ c)
    (hd : 0 ≤ d) (h : ∀ a, |p.get a - q.get a| * c ≤ w.get a * k + d) (a : Axis) :
    |(t.ideal p).get a - (t.ideal q).get a| * c ≤ (t.reach w).get a * k + 2 * d := by
  have hbound (b : Axis) :
      |p.get b - q.get b| * c ≤ (PerAxis.ofFn fun b => w.get b * k + d).get b := by
    rw [PerAxis.get_ofFn]
    exact h b
  refine (t.abs_ideal_sub_mul_le hc hbound a).trans (t.reach_le hd (fun b => ?_) a)
  rw [PerAxis.get_ofFn]

theorem le_reach (t : Transform) {v : PerAxis ℝ} {c : ℝ} (hc : 0 ≤ c) (h : ∀ a, c ≤ v.get a)
    (a : Axis) : c ≤ (t.reach v).get a := by
  have hα := h .alpha
  have hβ := h .beta
  have hγ := h .gamma
  simp only [PerAxis.get] at hα hβ hγ
  cases t <;> cases a <;> simp only [reach, PerAxis.get] <;> linarith

end Transform

/-! ## Lengths -/

namespace Rounding

variable {x y : Float32}

theorem IsNumber.square (h : IsNumber x) : IsSpeed (x * x) := by
  obtain hfin | ⟨s, hinf⟩ := h.cases
  · have hround := rounds_mul hfin hfin
    exact ⟨hround.isNumber, hround.nonneg (mul_self_nonneg _)⟩
  · exact .of_top (mul_self_of_infinite hinf)

/-- A sum of speeds is above both of them. -/
theorem IsSpeed.add (hx : IsSpeed x) (hy : IsSpeed y) :
    IsSpeed (x + y) ∧ value x ≤ value (x + y) ∧ value y ≤ value (x + y) := by
  by_cases hfin : IsFinite x ∧ IsFinite y
  · have hround := rounds_add hfin.1 hfin.2
    have hx0 := hx.nonneg
    have hy0 := hy.nonneg
    exact ⟨⟨hround.isNumber, hround.nonneg (by linarith)⟩, hround.le_of_le (by linarith),
      hround.le_of_le (by linarith)⟩
  · have htop := add_of_infinite hx.isNumber hy.isNumber hx.nonneg hy.nonneg
      (not_and_or.mp hfin)
    rw [value_of_top htop]
    exact ⟨.of_top htop, value_le x, value_le y⟩

end Rounding

namespace PerAxis

/-- The sum of the squares of a vector. -/
def squares (v : PerAxis Float32) : Float32 :=
  v.alpha * v.alpha + v.beta * v.beta + v.gamma * v.gamma

variable {v : PerAxis Float32}

/-- A sum of squares is above each of them. -/
theorem le_squares (hv : ∀ a, IsNumber (v.get a)) :
    IsSpeed v.squares ∧ ∀ a, value (v.get a * v.get a) ≤ value v.squares := by
  obtain ⟨hαβ, hα, hβ⟩ := (hv .alpha).square.add (hv .beta).square
  obtain ⟨hsum, hαβ', hγ⟩ := hαβ.add (hv .gamma).square
  refine ⟨hsum, fun a => ?_⟩
  cases a with
  | alpha => exact hα.trans hαβ'
  | beta => exact hβ.trans hαβ'
  | gamma => exact hγ

/-- A vector of finite length has finite components, and its length is not zero by rounding. -/
theorem norm_spec (hv : ∀ a, IsNumber (v.get a)) (h : IsFinite v.norm) (h0 : 0 < value v.norm) :
    IsFinite v.squares ∧ (2 : ℝ) ^ (-149 : ℤ) ≤ value v.squares ∧
      √(value v.squares) * (1 - 2 ^ (-24 : ℤ)) ≤ value v.norm := by
  obtain ⟨hsum, -⟩ := le_squares hv
  have hfin : IsFinite v.squares := by
    obtain hfin | htop := hsum.cases
    · exact hfin
    · exact absurd h (Rounding.not_isFinite_of_infinite (Rounding.sqrt_of_infinite htop))
  have hround : Rounds (√(value v.squares)) v.norm := Rounding.rounds_sqrt hfin hsum.nonneg
  have hpos : 0 < value v.squares := by
    refine hsum.nonneg.lt_of_ne fun hzero => ?_
    rw [← hzero, Real.sqrt_zero] at hround
    exact absurd (hround.nonpos le_rfl) (not_le.mpr h0)
  -- the least square that is not zero is far above the smallest root
  have hunit := Rounding.le_value_of_pos hpos
  have hroot : (2 : ℝ) ^ (-126 : ℤ) ≤ |√(value v.squares)| := by
    rw [abs_of_nonneg (Real.sqrt_nonneg _)]
    refine Real.le_sqrt_of_sq_le (le_trans ?_ hunit)
    norm_num
  have herror := (abs_sub_le_iff.mp (hround.abs_sub_le_of_normal h hroot)).2
  rw [abs_of_nonneg (Real.sqrt_nonneg _)] at herror
  exact ⟨hfin, hunit, by linarith⟩

/-- A component of a vector is not much longer than the vector. It may be a little longer, since
the squares of small components are rounded to multiples of the least float. -/
theorem le_norm (hv : ∀ a, IsNumber (v.get a)) (h : IsFinite v.norm) (h0 : 0 < value v.norm)
    (a : Axis) : IsFinite (v.get a) ∧ |value (v.get a)| ≤ 3 / 2 * value v.norm := by
  obtain ⟨hsum, hunit, hroot⟩ := norm_spec hv h h0
  have hle := (le_squares hv).2 a
  have hsquare := (hv a).square
  have hsquare_fin : IsFinite (v.get a * v.get a) := hsquare.isFinite (hle.trans_lt hsum.value_lt)
  have hfin : IsFinite (v.get a) := by
    obtain hfin | ⟨s, hinf⟩ := (hv a).cases
    · exact hfin
    · exact absurd hsquare_fin
        (Rounding.not_isFinite_of_infinite (Rounding.mul_self_of_infinite hinf))
  refine ⟨hfin, abs_le_of_sq_le_sq ?_ (by positivity)⟩
  have herror := (abs_sub_le_iff.mp ((Rounding.rounds_mul hfin hfin).abs_sub_le hsquare_fin)).2
  rw [abs_mul_self] at herror
  have hexact : value (v.get a) * value (v.get a) ≤ 3 / 2 * value v.squares := by
    obtain herror | herror := le_max_iff.mp herror <;> norm_num at herror hunit ⊢ <;> linarith
  have hlength := pow_le_pow_left₀ (mul_nonneg (Real.sqrt_nonneg _) (by norm_num)) hroot 2
  rw [mul_pow, Real.sq_sqrt (hunit.trans' (by positivity))] at hlength
  have hnonneg := sq_nonneg (value v.norm)
  rw [sq, mul_pow]
  norm_num at hlength ⊢
  linarith

end PerAxis

theorem Settings.value_maxRates_withDefaultPins (a : Axis) :
    value (withDefaultPins.maxRates.get a) = 500 := by
  have hvalue : value (Quantity.ofFloat 500).value = 500 := by
    rw [Quantity.value_ofFloat,
      Rounding.value_of_positive (m := 16384000) (e := -15) (by decide) (by rfl)]
    norm_num
  cases a <;> exact hvalue

namespace Toolhead

/-! ## Shares of a feed -/

section

variable {feed share limit : Float32}

/-- A limit taken by a share that is not above `3 / 2` is not rounded to zero. -/
theorem div_share_pos (hlimit : IsFinite limit) (hlimit0 : 0 < value limit)
    (hshare : IsFinite share) (hshare0 : 0 < value share) (hshare_le : value share ≤ 3 / 2)
    (hfin : IsFinite (limit / share)) : 0 < value (limit / share) := by
  have hround := Rounding.rounds_div hlimit hshare hshare0.ne'
  have hpos := div_pos hlimit0 hshare0
  refine (hround.nonneg hpos.le).lt_of_ne fun hzero => ?_
  have hunit := Rounding.le_value_of_pos hlimit0
  -- the least float would be nearer than zero
  have hquot : 2 / 3 * (2 : ℝ) ^ (-149 : ℤ) ≤ value limit / value share := by
    rw [le_div_iff₀ hshare0]
    have hscaled := mul_le_mul_of_nonneg_left hshare_le
      (show (0 : ℝ) ≤ 2 / 3 * 2 ^ (-149 : ℤ) by positivity)
    norm_num at hscaled hunit ⊢
    linarith
  have hnear := (hround.nearest hfin).le _ (Representable.two_pow le_rfl)
  rw [← hzero, zero_sub, abs_neg, abs_of_pos hpos] at hnear
  have hleast : (0 : ℝ) < 2 ^ (-149 : ℤ) := by positivity
  obtain ⟨habs, -⟩ | ⟨habs, -⟩ := abs_cases ((2 : ℝ) ^ (-149 : ℤ) - value limit / value share)
  all_goals
    rw [habs] at hnear
    linarith

/-- Capping a feed leaves a feed that is positive and no higher, and the axis keeps its limit but
for rounding. -/
theorem capFeed_spec (hfeed : IsFinite feed) (hfeed0 : 0 < value feed) (hshare : IsFinite share)
    (hshare0 : 0 ≤ value share) (hshare_le : value share ≤ 3 / 2) (hlimit : IsFinite limit)
    (hlimit0 : 0 < value limit) :
    IsFinite (capFeed feed share limit) ∧ 0 < value (capFeed feed share limit) ∧
      value (capFeed feed share limit) ≤ value feed ∧
      value (capFeed feed share limit) * value share ≤
        value limit * (1 + 2 ^ (-22 : ℤ)) + 2 ^ (-149 : ℤ) := by
  have hproduct := Rounding.rounds_mul hfeed hshare
  unfold capFeed
  split
  · next h =>
    rw [Bool.and_eq_true, decide_eq_true_iff, decide_eq_true_iff,
      Rounding.lt_iff IsSpeed.zero.isNumber hshare.isNumber, Rounding.value_zero,
      Rounding.lt_iff hlimit.isNumber hproduct.isNumber] at h
    obtain ⟨hpos, hover⟩ := h
    have hexact : value limit < value feed * value share := by
      by_contra hle
      exact absurd (hproduct.ge_of_ge (not_lt.mp hle)) (not_le.mpr hover)
    have hround := Rounding.rounds_div hlimit hshare hpos.ne'
    have hquot := div_pos hlimit0 hpos
    have hle := hround.ge_of_ge ((div_lt_iff₀ hpos).mpr hexact).le
    have hfin : IsFinite (limit / share) :=
      IsSpeed.isFinite ⟨hround.isNumber, hround.nonneg hquot.le⟩ (hle.trans_lt hfeed.value_lt)
    refine ⟨hfin, div_share_pos hlimit hlimit0 hshare hpos hshare_le hfin, hle, ?_⟩
    have herror := (abs_sub_le_iff.mp (hround.abs_sub_le hfin)).1
    rw [abs_of_pos hquot] at herror
    have hback := div_mul_cancel₀ (value limit) hpos.ne'
    obtain herror | herror := le_max_iff.mp herror <;>
      have hscaled := mul_le_mul_of_nonneg_right herror hpos.le <;>
      rw [sub_mul, hback] at hscaled
    · rw [mul_assoc, hback] at hscaled
      norm_num at hscaled ⊢
      linarith
    · norm_num at hscaled ⊢
      linarith
  · next h =>
    refine ⟨hfeed, hfeed0, le_rfl, ?_⟩
    rw [Bool.and_eq_true, decide_eq_true_iff, decide_eq_true_iff,
      Rounding.lt_iff IsSpeed.zero.isNumber hshare.isNumber, Rounding.value_zero,
      Rounding.lt_iff hlimit.isNumber hproduct.isNumber] at h
    obtain hzero | hpos := hshare0.eq_or_lt
    · rw [← hzero, mul_zero]
      positivity
    have hle : value (feed * share) ≤ value limit := not_lt.mp fun hover => h ⟨hpos, hover⟩
    have hexact := mul_pos hfeed0 hpos
    have hfin : IsFinite (feed * share) := IsSpeed.isFinite
      ⟨hproduct.isNumber, hproduct.nonneg hexact.le⟩ (hle.trans_lt hlimit.value_lt)
    have herror := (abs_sub_le_iff.mp (hproduct.abs_sub_le hfin)).2
    rw [abs_of_pos hexact] at herror
    obtain herror | herror := le_max_iff.mp herror <;> norm_num at herror ⊢ <;> linarith

/-- Every axis keeps its limit when all have had their turn. -/
theorem foldl_capFeed_spec {share limit : Axis → Float32}
    (hshare : ∀ a, IsFinite (share a) ∧ 0 ≤ value (share a) ∧ value (share a) ≤ 3 / 2)
    (hlimit : ∀ a, IsFinite (limit a) ∧ 0 < value (limit a)) (axes : List Axis)
    (hfeed : IsFinite feed) (hfeed0 : 0 < value feed) :
    let capped := axes.foldl (fun feed a => capFeed feed (share a) (limit a)) feed
    IsFinite capped ∧ 0 < value capped ∧ value capped ≤ value feed ∧
      ∀ a ∈ axes, value capped * value (share a) ≤
        value (limit a) * (1 + 2 ^ (-22 : ℤ)) + 2 ^ (-149 : ℤ) := by
  induction axes generalizing feed with
  | nil => exact ⟨hfeed, hfeed0, le_rfl, fun a ha => absurd ha List.not_mem_nil⟩
  | cons a axes ih =>
    obtain ⟨hs, hs0, hs_le⟩ := hshare a
    obtain ⟨hl, hl0⟩ := hlimit a
    obtain ⟨hfin, hpos, hle, hwithin⟩ := capFeed_spec hfeed hfeed0 hs hs0 hs_le hl hl0
    obtain ⟨hfin', hpos', hle', hwithin'⟩ := ih hfin hpos
    refine ⟨hfin', hpos', hle'.trans hle, fun b hb => ?_⟩
    obtain rfl | hb := List.mem_cons.mp hb
    · exact (mul_le_mul_of_nonneg_right hle' hs0).trans hwithin
    · exact hwithin' b hb

end

/-! ## Moves -/

/-- The way to a target. -/
def offset (t : Toolhead) (target : PerAxis Float32) : PerAxis Float32 :=
  .ofFn fun a => target.get a - t.position.get a

/-- The share of the feed that an axis gets on the way to a target. -/
def share (t : Toolhead) (target : PerAxis Float32) (a : Axis) : Float32 :=
  ((t.offset target).get a / (t.offset target).norm).abs

variable {t : Toolhead} {target : PerAxis Float32} {feed : Float32}

theorem plan_eq_none_iff (hfeed : 0 < feed) :
    t.plan target feed = none ↔ ¬ 0 < (t.offset target).norm := by
  change (if (decide (0 < feed) && decide (0 < (t.offset target).norm)) = true then _ else none) =
    none ↔ _
  rw [decide_eq_true hfeed, Bool.true_and]
  split <;> simp_all

theorem plan_eq_some {move : Move} {t' : Toolhead} (h : t.plan target feed = some (move, t')) :
    0 < (t.offset target).norm ∧ move.distance = (t.offset target).norm ∧
      move.feed = Axis.all.foldl
        (fun feed a => capFeed feed (t.share target a) (t.maxRates.get a)) feed := by
  change (if (decide (0 < feed) && decide (0 < (t.offset target).norm)) = true then _ else none) =
    some _ at h
  split at h
  · next hpos =>
    rw [Bool.and_eq_true, decide_eq_true_iff, decide_eq_true_iff] at hpos
    obtain ⟨rfl, -⟩ := Prod.mk.inj (Option.some.inj h)
    refine ⟨hpos.2, rfl, ?_⟩
    simp only [share, offset, PerAxis.get_ofFn]
  · cases h

section

variable (hstart : ∀ a, IsFinite (t.position.get a)) (htarget : ∀ a, IsFinite (target.get a))
  (hlength : IsFinite (t.offset target).norm) (hlength0 : 0 < value (t.offset target).norm)
include hstart htarget hlength hlength0

theorem offset_spec (a : Axis) : IsFinite ((t.offset target).get a) ∧
    |value ((t.offset target).get a)| ≤ 3 / 2 * value (t.offset target).norm ∧
    |value (target.get a) - value (t.position.get a)| * (1 - 2 ^ (-24 : ℤ)) ≤
      |value ((t.offset target).get a)| := by
  have hnumber : ∀ a, IsNumber ((t.offset target).get a) := by
    intro a
    rw [offset, PerAxis.get_ofFn]
    exact (Rounding.rounds_sub (htarget a) (hstart a)).isNumber
  obtain ⟨hfin, hle⟩ := PerAxis.le_norm hnumber hlength hlength0 a
  refine ⟨hfin, hle, ?_⟩
  rw [offset, PerAxis.get_ofFn] at hfin ⊢
  have herror := Rounding.abs_sub_sub_le (htarget a) (hstart a) hfin
  rw [abs_sub_comm] at herror
  have htriangle := abs_sub_abs_le_abs_sub (value (target.get a) - value (t.position.get a))
    (value (target.get a - t.position.get a))
  linarith

/-- Shares are between zero and a little more than one, and they are not rounded down by much. -/
theorem share_spec (a : Axis) : IsFinite (t.share target a) ∧
    0 ≤ value (t.share target a) ∧ value (t.share target a) ≤ 3 / 2 ∧
    |value ((t.offset target).get a)| / value (t.offset target).norm * (1 - 2 ^ (-24 : ℤ)) ≤
      value (t.share target a) + 2 ^ (-150 : ℤ) := by
  obtain ⟨hfin, hle, -⟩ := offset_spec hstart htarget hlength hlength0 a
  have hround := Rounding.rounds_div hfin hlength hlength0.ne'
  have hratio : |value ((t.offset target).get a) / value (t.offset target).norm| ≤ 3 / 2 := by
    rwa [abs_div, abs_of_pos hlength0, div_le_iff₀ hlength0]
  obtain ⟨hlo, hhi⟩ := abs_le.mp hratio
  have hbound : value 1.5 = 3 / 2 := by
    rw [Rounding.value_of_positive (m := 12582912) (e := -23) (by decide) (by rfl)]
    norm_num
  have hquot_hi := hround.ge_of_ge (z := 1.5) (by rwa [hbound])
  have hquot_lo := hround.le_of_le (z := -1.5) (by rwa [Rounding.value_neg, hbound])
  rw [Rounding.value_neg, hbound] at hquot_lo
  rw [hbound] at hquot_hi
  have hquot := abs_le.mpr ⟨hquot_lo, hquot_hi⟩
  have hquot_fin := hround.isNumber.isFinite (hquot.trans_lt (by norm_num))
  have herror := hround.abs_sub_le hquot_fin
  have htriangle := abs_sub_abs_le_abs_sub
    (value ((t.offset target).get a) / value (t.offset target).norm)
    (value ((t.offset target).get a / (t.offset target).norm))
  rw [abs_sub_comm] at herror
  have habs : |value ((t.offset target).get a)| / value (t.offset target).norm =
      |value ((t.offset target).get a) / value (t.offset target).norm| := by
    rw [abs_div, abs_of_pos hlength0]
  rw [share, Rounding.value_abs, habs]
  refine ⟨hquot_fin.abs, abs_nonneg _, hquot, ?_⟩
  have hnonneg := abs_nonneg (value ((t.offset target).get a) / value (t.offset target).norm)
  obtain herror | herror := le_max_iff.mp herror <;> norm_num at herror ⊢ <;> linarith

/-- An axis whose share of the feed keeps a limit keeps it without rounding, too. -/
theorem abs_sub_mul_le (a : Axis) {limit : Float32} (hfeed0 : 0 < value feed)
    (hlimit0 : 0 < value limit) (h : value feed * value (t.share target a) ≤
      value limit * (1 + 2 ^ (-22 : ℤ)) + 2 ^ (-149 : ℤ)) :
    |value (target.get a) - value (t.position.get a)| *
        (value feed / value (t.offset target).norm) ≤
      value limit * (1 + 2 ^ (-20 : ℤ)) + (value feed + 1) * 2 ^ (-148 : ℤ) := by
  obtain ⟨-, -, hoffset⟩ := offset_spec hstart htarget hlength hlength0 a
  obtain ⟨-, -, -, hshare⟩ := share_spec hstart htarget hlength hlength0 a
  have hspeed := div_pos hfeed0 hlength0
  -- all lengths and shares are turned into rates
  have hrate := mul_le_mul_of_nonneg_right hoffset hspeed.le
  have hscaled := mul_le_mul_of_nonneg_right hshare hfeed0.le
  have hcomm : |value ((t.offset target).get a)| / value (t.offset target).norm *
      (1 - 2 ^ (-24 : ℤ)) * value feed = |value ((t.offset target).get a)| *
        (value feed / value (t.offset target).norm) * (1 - 2 ^ (-24 : ℤ)) := by ring
  rw [hcomm, add_mul, mul_comm (value (t.share target a))] at hscaled
  rw [mul_right_comm] at hrate
  norm_num at hrate hscaled h ⊢
  linarith

end

/-- Whatever the transform, the settings, the move and the feed asked for: the feed of the move is
positive and not above that one, and every Cartesian axis keeps its limit. An actuator gets as fast
as the transform makes of that, but for rounding, and no faster by a thousandth if no limit is
below `2 ^ -8`. -/
theorem plan_within_reach (transform : Transform) {s : Settings} (hs : s.validate = .ok ())
    {start target : PerAxis Float32} (hstart : ∀ a, IsFinite (start.get a))
    (htarget : ∀ a, IsFinite (target.get a)) {feed : Float32} (hfeed : IsFinite feed)
    (hfeed0 : 0 < feed) :
    let t := { ofSettings transform s with position := start }
    (t.plan target feed = none ↔ ¬ 0 < (t.offset target).norm) ∧
    ∀ move t', t.plan target feed = some (move, t') → IsFinite move.distance →
      0 < move.feed ∧ move.feed ≤ feed ∧
      ∀ a, |(transform.ideal (target.map value)).get a - (transform.ideal (start.map value)).get a| /
            value move.distance * value move.feed ≤
          (transform.reach (s.maxRates.map value)).get a * (1 + 2 ^ (-20 : ℤ)) +
            (value move.feed + 1) * 2 ^ (-147 : ℤ) ∧
        ((∀ b, (2 : ℝ) ^ (-8 : ℤ) ≤ value (s.maxRates.get b)) →
          |(transform.ideal (target.map value)).get a - (transform.ideal (start.map value)).get a| /
              value move.distance * value move.feed ≤
            (transform.reach (s.maxRates.map value)).get a * 1.001) := by
  intro t
  have hpositive := fun a => Settings.hasPositiveRates_of_validate hs a
  have hlimit (a : Axis) : IsFinite (t.maxRates.get a) ∧ 0 < value (t.maxRates.get a) := by
    change IsFinite (s.maxRates.get a) ∧ 0 < value (s.maxRates.get a)
    rw [Settings.maxRates, PerAxis.get_map]
    exact Rounding.isFinite_of_isPositive (hpositive a).2
  refine ⟨plan_eq_none_iff hfeed0, fun move t' hplan hdistance => ?_⟩
  obtain ⟨hlength0, hlength, hcapped⟩ := plan_eq_some hplan
  rw [hlength] at hdistance
  rw [Rounding.lt_iff IsSpeed.zero.isNumber hdistance.isNumber, Rounding.value_zero] at hlength0
  rw [Rounding.lt_iff IsSpeed.zero.isNumber hfeed.isNumber, Rounding.value_zero] at hfeed0
  have hshare (a : Axis) := share_spec (t := t) hstart htarget hdistance hlength0 a
  obtain ⟨hfin, hpos, hle, hwithin⟩ := foldl_capFeed_spec
    (fun a => ⟨(hshare a).1, (hshare a).2.1, (hshare a).2.2.1⟩) hlimit Axis.all hfeed hfeed0
  rw [← hcapped] at hfin hpos hle hwithin
  refine ⟨?_, ?_, fun a => ?_⟩
  · rwa [Rounding.lt_iff IsSpeed.zero.isNumber hfin.isNumber, Rounding.value_zero]
  · exact (Rounding.le_iff hfin.isNumber hfeed.isNumber).mpr hle
  have haxis (b : Axis) : |(target.map value).get b - (start.map value).get b| *
      (value move.feed / value (t.offset target).norm) ≤
        (s.maxRates.map value).get b * (1 + 2 ^ (-20 : ℤ)) +
          (value move.feed + 1) * 2 ^ (-148 : ℤ) := by
    simp only [PerAxis.get_map]
    exact abs_sub_mul_le (t := t) hstart htarget hdistance hlength0 b hpos (hlimit b).2
      (hwithin b b.mem_all)
  have hbound := transform.abs_ideal_sub_mul_le_reach (div_pos hpos hlength0).le (by positivity)
    haxis a
  rw [hlength, div_mul_eq_mul_div, mul_div_assoc]
  refine ⟨hbound.trans_eq (by norm_num; ring), fun hleast => hbound.trans ?_⟩
  have hleast_reach := transform.le_reach (v := s.maxRates.map value) (c := 2 ^ (-8 : ℤ))
    (by positivity) (fun b => by rw [PerAxis.get_map]; exact hleast b) a
  have hlt := hfin.value_lt
  norm_num at hleast_reach hlt ⊢
  linarith

/-- On crossed belts the first actuator takes part in both directions of a slanted move. -/
theorem plan_within_reach_corexy : ∃ move t',
    (ofSettings .corexy .withDefaultPins).plan ⟨300, 400, 0⟩ 1000 = some (move, t') ∧
      0 < move.feed ∧ move.feed ≤ 1000 ∧
      |(Transform.corexy.ideal (PerAxis.map value ⟨300, 400, 0⟩)).alpha -
          (Transform.corexy.ideal (PerAxis.map value (.const 0))).alpha| /
            value move.distance * value move.feed ≤ (500 + 500) * 1.001 := by
  have hstart (a : Axis) : IsFinite ((PerAxis.const (0 : Float32)).get a) := by cases a <;> rfl
  have htarget (a : Axis) : IsFinite ((⟨300, 400, 0⟩ : PerAxis Float32).get a) := by
    cases a <;> rfl
  obtain ⟨-, h⟩ := plan_within_reach .corexy (s := .withDefaultPins) (by decide +kernel) hstart
    htarget (show IsFinite 1000 by rfl) (by decide +kernel)
  obtain ⟨⟨move, t'⟩, hplan⟩ := Option.isSome_iff_exists.mp (show
    ((ofSettings .corexy .withDefaultPins).plan ⟨300, 400, 0⟩ 1000).isSome = true by decide +kernel)
  have hdistance : move.distance = 500 := by
    rw [(plan_eq_some hplan).2.1]
    exact Rounding.eq_of_toBits (by decide +kernel)
  obtain ⟨hpos, hle, haxis⟩ := h move t' hplan (by rw [hdistance]; rfl)
  have halpha := (haxis .alpha).2 fun b => by
    rw [Settings.value_maxRates_withDefaultPins]
    norm_num
  refine ⟨move, t', hplan, hpos, hle, halpha.trans_eq ?_⟩
  have hα := Settings.value_maxRates_withDefaultPins .alpha
  have hβ := Settings.value_maxRates_withDefaultPins .beta
  simp only [PerAxis.get] at hα hβ
  simp only [Transform.reach, PerAxis.get, PerAxis.map, hα, hβ]

/-- An actuator that travels twice as far as its axis gets beyond its limit: at a feed of 400 mm/s
its speed is 800 mm/s, and its limit 500 mm/s. -/
theorem plan_beyond_limit_doubled : ∃ move t',
    (ofSettings .doubled .withDefaultPins).plan ⟨1, 0, 0⟩ 400 = some (move, t') ∧
      value (Settings.withDefaultPins.maxRates.get .alpha) * 1.001 <
        |(Transform.doubled.ideal (PerAxis.map value ⟨1, 0, 0⟩)).alpha -
          (Transform.doubled.ideal (PerAxis.map value (.const 0))).alpha| /
            value move.distance * value move.feed := by
  obtain ⟨⟨move, t'⟩, hplan⟩ := Option.isSome_iff_exists.mp (show
    ((ofSettings .doubled .withDefaultPins).plan ⟨1, 0, 0⟩ 400).isSome = true by decide +kernel)
  obtain ⟨-, hlength, hcapped⟩ := plan_eq_some hplan
  have hdistance : move.distance = 1 := hlength.trans (Rounding.eq_of_toBits (by decide +kernel))
  have hfeed : move.feed = 400 := hcapped.trans (Rounding.eq_of_toBits (by decide +kernel))
  have hone : value 1 = 1 := by
    rw [Rounding.value_of_positive (m := 8388608) (e := -23) (by decide) (by rfl)]
    norm_num
  have hvalue : value 400 = 400 := by
    rw [Rounding.value_of_positive (m := 13107200) (e := -15) (by decide) (by rfl)]
    norm_num
  refine ⟨move, t', hplan, ?_⟩
  rw [Settings.value_maxRates_withDefaultPins, hdistance, hfeed, hone, hvalue]
  simp only [Transform.ideal, PerAxis.map, PerAxis.const, hone, Rounding.value_zero]
  norm_num

end Toolhead

end MotionControl
