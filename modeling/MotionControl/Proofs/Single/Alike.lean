import Mathlib.Data.Int.Order.Basic
import Mathlib.Data.Nat.Basic
import MotionControl.Proofs.Single.Counts
import MotionControl.Segment.Profile

/-!
# Floats that count as the same

Two floats are `Alike` if they are equal in the sense of comparing floats, or if neither is a
number. Then they differ in nothing but the sign of a zero (`alike_iff`), and what the planner does
to speeds does not tell them apart: comparing, the lesser one of two, the speed that a length allows
and the step rate of a factor.
-/

namespace MotionControl.Single

open Float.Model (UnpackedFloat)
open Float.Model.UnpackedFloat

variable {x x' y y' z : Float32}

/-- Equal as floats compare, or both not numbers. -/
def Alike (x y : Float32) : Prop := (x == y) = true ∨ x.isNaN = true ∧ y.isNaN = true

/-- An unpacked float without the sign of a zero. -/
def unsigned : UnpackedFloat → UnpackedFloat
  | .zero _ => .zero .positive
  | u => u

theorem compare_unsigned (u v : UnpackedFloat) :
    (unsigned u).compare (unsigned v) = u.compare v := by
  rcases u with s | _ | s | ⟨s, m, e, hm⟩ <;> rcases v with t | _ | t | ⟨t, k, f, hk⟩
  case zero.infinity | zero.finite => cases t <;> rfl
  case infinity.zero | finite.zero => cases s <;> rfl
  all_goals rfl

theorem isNaN_unsigned (u : UnpackedFloat) : (unsigned u).isNaN = u.isNaN := by cases u <;> rfl

theorem compare_self {u : UnpackedFloat} (h : u ≠ .notANumber) : u.compare u = some .eq := by
  rcases u with s | _ | s | ⟨s, m, e, hm⟩
  · cases s <;> rfl
  · exact absurd rfl h
  · rfl
  · have hsame : (compare e e).then (compare m m) = .eq := by
      rw [Ordering.then_eq_eq, compare_eq_iff_eq, compare_eq_iff_eq]
      exact ⟨rfl, rfl⟩
    cases s
    · exact congrArg (fun o => some (Ordering.swap o)) hsame
    · exact congrArg some hsame

theorem unsigned_eq_of_compare {u v : UnpackedFloat} (h : u.compare v = some .eq) :
    unsigned u = unsigned v := by
  rcases u with s | _ | s | ⟨s, m, e, hm⟩ <;> rcases v with t | _ | t | ⟨t, k, f, hk⟩
  case zero.zero => rfl
  case finite.finite =>
    have hsame (h : (compare e f).then (compare m k) = .eq) : e = f ∧ m = k := by
      rwa [Ordering.then_eq_eq, compare_eq_iff_eq, compare_eq_iff_eq] at h
    cases s <;> cases t
    · obtain ⟨rfl, rfl⟩ := hsame (Ordering.swap_eq_eq.mp (Option.some.inj h))
      rfl
    · cases h
    · cases h
    · obtain ⟨rfl, rfl⟩ := hsame (Option.some.inj h)
      rfl
  case infinity.infinity =>
    cases s <;> cases t
    · rfl
    · cases h
    · cases h
    · rfl
  case infinity.zero | infinity.finite | finite.zero => cases s <;> cases h
  case zero.infinity | zero.finite | finite.infinity => cases t <;> cases h
  all_goals cases h

theorem alike_iff : Alike x y ↔ unsigned (unpacked x) = unsigned (unpacked y) := by
  have hbeq : (x == y) = true ↔ (unpacked x).compare (unpacked y) = some .eq := by
    change ((unpacked x).compare (unpacked y) == some .eq) = true ↔ _
    rw [beq_iff_eq]
  rw [Alike, hbeq, isNaN_iff, isNaN_iff]
  constructor
  · rintro (h | ⟨hx, hy⟩)
    · exact unsigned_eq_of_compare h
    · rw [hx, hy]
  · intro h
    by_cases hx : unpacked x = .notANumber
    · rw [hx] at h ⊢
      refine .inr ⟨rfl, ?_⟩
      cases hy : unpacked y with
      | notANumber => rfl
      | _ => rw [hy] at h; cases h
    · left
      rw [← compare_unsigned, ← h, compare_unsigned]
      exact compare_self hx

/-! ## Numbers -/

theorem isNaN_of_lt (h : x < y) : x.isNaN = false := by
  rw [lt_iff] at h
  refine Bool.eq_false_iff.mpr fun hnan => ?_
  rw [(isNaN_iff x).mp hnan] at h
  cases h

theorem isNaN_min (h : x.isNaN = false ∨ y.isNaN = false) : (min x y).isNaN = false := by
  unfold min
  split
  · next hy =>
    rw [Bool.or_eq_true, decide_eq_true_iff] at hy
    obtain hlt | hnan := hy
    · exact isNaN_of_lt hlt
    · exact h.resolve_left (by rw [hnan]; exact Bool.noConfusion)
  · next hx =>
    rw [Bool.or_eq_true, not_or, Bool.not_eq_true x.isNaN] at hx
    exact hx.2

namespace Alike

theorem refl (x : Float32) : Alike x x := alike_iff.mpr rfl

theorem symm (h : Alike x y) : Alike y x := alike_iff.mpr (alike_iff.mp h).symm

theorem trans (h : Alike x y) (h' : Alike y z) : Alike x z :=
  alike_iff.mpr ((alike_iff.mp h).trans (alike_iff.mp h'))

/-- Among numbers, alike means equal. -/
theorem beq_eq_true (h : Alike x y) (hx : x.isNaN = false) : (x == y) = true :=
  h.resolve_right fun hnan => by rw [hx] at hnan; cases hnan.1

theorem isNaN_eq (h : Alike x x') : x.isNaN = x'.isNaN := by
  change (unpacked x).isNaN = (unpacked x').isNaN
  rw [← isNaN_unsigned, alike_iff.mp h, isNaN_unsigned]

/-- Floats that are alike and not zero are unpacked to the same. -/
theorem unpacked_eq (h : Alike x x') (hx : ∀ s, unpacked x ≠ .zero s) :
    unpacked x = unpacked x' := by
  have h := alike_iff.mp h
  cases hu : unpacked x with
  | zero s => exact absurd hu (hx s)
  | notANumber | infinity | finite =>
    rw [hu] at h
    cases hu' : unpacked x' <;> rw [hu'] at h <;> cases h <;> rfl

section

variable (hx : Alike x x')
include hx

/-- Squares do not know signs. -/
theorem mul_self : x * x = x' * x' := by
  have hsquare (u : UnpackedFloat) :
      mul .binary32 (unsigned u) (unsigned u) = mul .binary32 u u := by
    rcases u with s | _ | s | ⟨s, m, e, hm⟩
    case zero => cases s <;> rfl
    all_goals rfl
  change Float32.ofModel (.pack (mul .binary32 (unpacked x) (unpacked x))) =
    .ofModel (.pack (mul .binary32 (unpacked x') (unpacked x')))
  rw [← hsquare (unpacked x), alike_iff.mp hx, hsquare]

theorem maxAllowableSpeed (acceleration distance : Float32) :
    Profile.maxAllowableSpeed acceleration x distance =
      Profile.maxAllowableSpeed acceleration x' distance := by
  rw [Profile.maxAllowableSpeed, Profile.maxAllowableSpeed, hx.mul_self]

variable (hy : Alike y y')
include hy

theorem compare_eq : (unpacked x).compare (unpacked y) = (unpacked x').compare (unpacked y') := by
  rw [← compare_unsigned, alike_iff.mp hx, alike_iff.mp hy, compare_unsigned]

theorem lt_iff : x < y ↔ x' < y' := by rw [Single.lt_iff, Single.lt_iff, hx.compare_eq hy]

theorem le_iff : x ≤ y ↔ x' ≤ y' := by
  change decide (((unpacked x).compare (unpacked y)).any Ordering.isLE = true) = true ↔ _
  rw [hx.compare_eq hy]
  rfl

theorem min : Alike (Single.min x y) (Single.min x' y') := by
  simp only [Single.min, hx.isNaN_eq, hy.lt_iff hx]
  split
  · exact hy
  · exact hx

end

/-! ## Factors -/

/-- A quotient does not care for the sign of a zero above, but for its own. -/
theorem div (h : Alike x x') (y : Float32) : Alike (x / y) (x' / y) := by
  by_cases hzero : ∃ s, unpacked x = .zero s
  · obtain ⟨s, hx⟩ := hzero
    obtain ⟨s', hx'⟩ : ∃ s', unpacked x' = .zero s' := by
      have h := alike_iff.mp h
      rw [hx] at h
      cases hu : unpacked x' with
      | zero s' => exact ⟨s', rfl⟩
      | notANumber | infinity | finite => rw [hu] at h; cases h
    have hzero (u : Sign) : unsigned (unpack .binary32 (pack .binary32 (.zero u))) =
        .zero .positive := by cases u <;> rfl
    -- the quotient is a zero or no number, and the sign has no say in which of them
    rw [alike_iff]
    change unsigned (unpack .binary32 (pack .binary32
        (UnpackedFloat.div .binary32 (unpacked x) (unpacked y)))) =
      unsigned (unpack .binary32 (pack .binary32
        (UnpackedFloat.div .binary32 (unpacked x') (unpacked y))))
    rw [hx, hx']
    rcases unpacked y with t | _ | t | ⟨t, k, f, hk⟩
    case infinity | finite => exact (hzero (s / t)).trans (hzero (s' / t)).symm
    all_goals rfl
  · have hsame := h.unpacked_eq (not_exists.mp hzero)
    have hdiv : x / y = x' / y := by
      change Float32.ofModel (.pack (UnpackedFloat.div .binary32 (unpacked x) (unpacked y))) =
        .ofModel (.pack (UnpackedFloat.div .binary32 (unpacked x') (unpacked y)))
      rw [hsame]
    rw [hdiv]
    exact .refl _

theorem unitFactor (h : Alike x x') : Alike (Profile.unitFactor x) (Profile.unitFactor x') := by
  simp only [Profile.unitFactor, (refl 1).le_iff h, (refl 0).lt_iff h]
  split
  · exact .refl 1
  · split
    · exact h
    · exact .refl 0

/-- Rates of alike factors are the same. -/
theorem mul_unitFactor (h : Alike x x') (y : Float32) :
    y * Profile.unitFactor x = y * Profile.unitFactor x' := by
  have hone := (refl 1).le_iff h
  have hpos := (refl 0).lt_iff h
  simp only [Profile.unitFactor, hone, hpos]
  split
  · rfl
  · split
    · next hx' =>
      have hsame : unpacked x = unpacked x' := by
        refine h.unpacked_eq fun s hs => ?_
        have hlt := hpos.mpr hx'
        rw [Single.lt_iff, unpacked_zero, hs] at hlt
        cases hlt
      change Float32.ofModel (.pack (mul .binary32 (unpacked y) (unpacked x))) =
        .ofModel (.pack (mul .binary32 (unpacked y) (unpacked x')))
      rw [hsame]
    · rfl

end Alike

end MotionControl.Single
