import Mathlib.Data.List.Nodup
import MotionControl.Proofs.Settings.Assignment

/-!
# The first problem

Settings are valid exactly if the condition behind every error is met (`SettingsError.Met`), the one
behind `duplicatePin` being that no number is assigned to two places. What is wrong with settings is
the list of checks without those that are met, and after it the numbers that repeat an earlier one
(`Settings.problems_eq`). So the error that is given is that of the first check that fails, and
where none fails the number at the first place that repeats one before it (`Settings.FirstProblem`).
The main result is `Settings.validate_first_problem`. A final speed has to be finite, though, and a
pulse has to take some time (`Settings.validate_refuses_extremes`).
-/

namespace MotionControl

open Rounding

/-- A float is above zero, and finite. -/
theorem Single.isPositive_iff {x : Float32} :
    Single.isPositive x = true ↔ IsFinite x ∧ 0 < value x := by
  refine ⟨isFinite_of_isPositive, fun ⟨hfin, hpos⟩ => ?_⟩
  rw [Single.isPositive, Bool.and_eq_true, decide_eq_true_iff,
    Rounding.lt_iff IsSpeed.zero.isNumber hfin.isNumber, value_zero]
  exact ⟨hfin, hpos⟩

/-! ## Places of pins -/

/-- All roles, in the order in which pins are looked at. -/
def PinRole.all : List PinRole := [step, dir, enable, endstop]

/-- The pin of an axis in some role, if there is one. -/
def AxisSettings.pin? (a : AxisSettings) : PinRole → Option Pin
  | .step => some a.stepPin
  | .dir => some a.dirPin
  | .enable => some a.enablePin
  | .endstop => a.endstopPin

/-- The pins of an axis are those of its roles that are assigned. -/
theorem AxisSettings.pins_eq (a : AxisSettings) :
    a.pins = (PinRole.all.filterMap fun r => (a.pin? r).map (r, ·)).filter fun p =>
      p.2.isAssigned := by
  rw [AxisSettings.pins]
  cases hend : a.endstopPin <;> simp [PinRole.all, AxisSettings.pin?, hend]

namespace Settings

/-- All places where a pin may be, in the order in which they are looked at. -/
def places : List (Axis × PinRole) := Axis.all.flatMap fun a => PinRole.all.map (a, ·)

/-- The number that is assigned to a place, if any is. -/
def number? (s : Settings) (k : Axis × PinRole) : Option UInt8 :=
  (((s.axes.get k.1).pin? k.2).filter Pin.isAssigned).map Pin.number

theorem mem_places (k : Axis × PinRole) : k ∈ places := by
  obtain ⟨a, r⟩ := k
  cases a <;> cases r <;> decide

end Settings

/-! ## Conditions -/

/-- The condition whose failure an error reports. -/
def SettingsError.Met (s : Settings) : SettingsError → Prop
  | invalidQueueSize => 2 ≤ s.queueSize.toNat ∧ s.queueSize.toNat ≤ 64
  | invalidAcceleration => IsFinite s.acceleration.value ∧ 0 < value s.acceleration.value
  | invalidJerk => IsFinite s.maxJerk.value ∧ 0 < value s.maxJerk.value
  | invalidPlannerSpeed =>
    IsFinite s.minimumPlannerSpeed.value ∧ 0 ≤ value s.minimumPlannerSpeed.value
  | invalidFrequency => 0 < s.baseFrequency.toNat ∧ 0 < s.accelerationTicks.toNat ∧
    s.accelerationTicks.toNat ≤ s.baseFrequency.toNat
  | invalidMinimumRate =>
    1 ≤ s.minimumStepRate.toNat ∧ s.minimumStepRate.toNat < s.baseFrequency.toNat
  | pulseTooLong =>
    0 < s.stepPulseUs.toNat ∧ s.stepPulseUs.toNat * s.baseFrequency.toNat < 1000000
  | invalidAxis a =>
    (IsFinite (s.axes.get a).stepsPerMm.value ∧ 0 < value (s.axes.get a).stepsPerMm.value) ∧
      IsFinite (s.axes.get a).maxRate.value ∧ 0 < value (s.axes.get a).maxRate.value
  | missingPin a .step => (s.axes.get a).stepPin.number ≠ 255
  | missingPin a .dir => (s.axes.get a).dirPin.number ≠ 255
  | missingPin _ .enable => True
  | missingPin _ .endstop => True
  | duplicatePin n => ∀ j k, s.number? j = some n → s.number? k = some n → j = k

/-- The errors of the checks in their order: those of the machine as a whole, and then those of one
axis after the other. -/
def SettingsError.checks : List SettingsError :=
  [invalidQueueSize, invalidAcceleration, invalidJerk, invalidPlannerSpeed, invalidFrequency,
    invalidMinimumRate, pulseTooLong] ++
  Axis.all.flatMap fun a => [invalidAxis a, missingPin a .step, missingPin a .dir]

namespace Settings

/-- An error is about the first thing that is wrong. -/
inductive FirstProblem (s : Settings) : SettingsError → Prop
  /-- A check fails, and none before it. -/
  | check {front back : List SettingsError} {e : SettingsError}
      (horder : SettingsError.checks = front ++ e :: back) (hbefore : ∀ d ∈ front, d.Met s)
      (hfails : ¬ e.Met s) : FirstProblem s e
  /-- No check fails, but a place has the number of one before it, and it is the first that does. -/
  | pin {front back : List (Axis × PinRole)} {k : Axis × PinRole} {n : UInt8}
      (hchecks : ∀ d ∈ SettingsError.checks, d.Met s) (horder : places = front ++ k :: back)
      (hnumber : s.number? k = some n) (hrepeats : ∃ j ∈ front, s.number? j = some n)
      (hbefore : (front.filterMap s.number?).Nodup) : FirstProblem s (.duplicatePin n)

/-! ## What is wrong -/

variable {s : Settings}

open Classical in
/-- A problem is a check that is left if it is not met. -/
theorem problemUnless_eq_filter {ok : Bool} {e : SettingsError} (h : ok = true ↔ e.Met s) :
    problemUnless ok e = [e].filter fun d => ¬ d.Met s := by
  cases ok with
  | true => simp [problemUnless, h.mp rfl]
  | false => simp [problemUnless, mt h.mpr Bool.false_ne_true]

theorem ne_zero_iff_pos {x : UInt32} : (x != 0) = true ↔ 0 < x.toNat := by
  rw [bne_iff_ne, ne_eq, ← UInt32.toNat_inj]
  exact Nat.pos_iff_ne_zero.symm

open Classical in
theorem scalarProblems_eq : s.scalarProblems =
    [SettingsError.invalidQueueSize, .invalidAcceleration, .invalidJerk, .invalidPlannerSpeed,
      .invalidFrequency, .invalidMinimumRate, .pulseTooLong].filter fun d => ¬ d.Met s := by
  have hqueue : (2 ≤ s.queueSize && s.queueSize ≤ 64) = true ↔
      SettingsError.invalidQueueSize.Met s := by
    rw [Bool.and_eq_true, decide_eq_true_iff, decide_eq_true_iff, UInt64.le_iff_toNat_le,
      UInt64.le_iff_toNat_le]
    rfl
  have hspeed : (s.minimumPlannerSpeed.value.isFinite && 0 ≤ s.minimumPlannerSpeed.value) = true ↔
      SettingsError.invalidPlannerSpeed.Met s := by
    rw [Bool.and_eq_true, decide_eq_true_iff]
    refine and_congr_right fun hfin => ?_
    have hnumber := IsFinite.isNumber (show IsFinite s.minimumPlannerSpeed.value from hfin)
    rw [Rounding.le_iff IsSpeed.zero.isNumber hnumber, value_zero]
  have hfrequency : (s.baseFrequency != 0 && s.accelerationTicks != 0 &&
      s.accelerationTicks ≤ s.baseFrequency) = true ↔ SettingsError.invalidFrequency.Met s := by
    rw [Bool.and_eq_true, Bool.and_eq_true, ne_zero_iff_pos, ne_zero_iff_pos, decide_eq_true_iff,
      UInt32.le_iff_toNat_le, and_assoc]
    rfl
  have hminimum : (s.minimumStepRate != 0 && s.minimumStepRate < s.baseFrequency) = true ↔
      SettingsError.invalidMinimumRate.Met s := by
    rw [Bool.and_eq_true, ne_zero_iff_pos, decide_eq_true_iff, UInt32.lt_iff_toNat_lt]
    rfl
  have hpulse : (s.stepPulseUs != 0 &&
      s.stepPulseUs.toUInt64 * s.baseFrequency.toUInt64 < 1000000) = true ↔
      SettingsError.pulseTooLong.Met s := by
    rw [Bool.and_eq_true, ne_zero_iff_pos, decide_eq_true_iff, UInt64.lt_iff_toNat_lt,
      toNat_toUInt64_mul]
    rfl
  rw [scalarProblems, problemUnless_eq_filter hqueue,
    problemUnless_eq_filter (e := .invalidAcceleration) Single.isPositive_iff,
    problemUnless_eq_filter (e := .invalidJerk) Single.isPositive_iff,
    problemUnless_eq_filter hspeed, problemUnless_eq_filter hfrequency,
    problemUnless_eq_filter hminimum, problemUnless_eq_filter hpulse]
  simp only [← List.filter_append]
  rfl

open Classical in
theorem problems_axis_eq (a : Axis) : (s.axes.get a).problems a =
    [SettingsError.invalidAxis a, .missingPin a .step, .missingPin a .dir].filter
      fun d => ¬ d.Met s := by
  have hrates : (Single.isPositive (s.axes.get a).stepsPerMm.value &&
      Single.isPositive (s.axes.get a).maxRate.value) = true ↔
      (SettingsError.invalidAxis a).Met s := by
    rw [Bool.and_eq_true, Single.isPositive_iff, Single.isPositive_iff]
    rfl
  have hstep : (s.axes.get a).stepPin.isAssigned = true ↔
      (SettingsError.missingPin a .step).Met s := bne_iff_ne
  have hdir : (s.axes.get a).dirPin.isAssigned = true ↔
      (SettingsError.missingPin a .dir).Met s := bne_iff_ne
  rw [AxisSettings.problems, problemUnless_eq_filter hrates, problemUnless_eq_filter hstep,
    problemUnless_eq_filter hdir]
  simp only [← List.filter_append]
  rfl

open Classical in
/-- What is wrong with settings is the checks without those that are met, and then the numbers that
repeat an earlier one. -/
theorem problems_eq : s.problems = (SettingsError.checks.filter fun d => ¬ d.Met s) ++
    (repeats .none s.pinNumbers).map .duplicatePin := by
  rw [problems, scalarProblems_eq, SettingsError.checks, List.filter_append, List.filter_flatMap]
  simp only [problems_axis_eq]

/-! ## Numbers that repeat one before them -/

/-- The first number that occurs in what was seen before or in front of it. -/
theorem head?_repeats_eq_some_iff {seen : Marks} {numbers : List UInt8} {n : UInt8} :
    (repeats seen numbers).head? = some n ↔ ∃ front back, numbers = front ++ n :: back ∧
      front.Nodup ∧ (∀ k ∈ front, k ∉ seen) ∧ (n ∈ seen ∨ n ∈ front) := by
  induction numbers generalizing seen with
  | nil => simp [repeats]
  | cons m numbers ih =>
    rw [repeats]
    split
    · next hseen =>
      rw [List.head?_cons, Option.some.injEq]
      constructor
      · rintro rfl
        exact ⟨[], numbers, rfl, .nil, fun _ h => absurd h List.not_mem_nil, .inl hseen⟩
      · rintro ⟨front, back, heq, -, hnew, -⟩
        cases front with
        | nil => exact (List.cons.inj heq).1
        | cons k front =>
          obtain ⟨rfl, -⟩ := List.cons.inj heq
          exact absurd hseen (hnew m List.mem_cons_self)
    · next hnew =>
      rw [ih]
      constructor
      · rintro ⟨front, back, rfl, hnodup, hfront, hn⟩
        refine ⟨m :: front, back, rfl, List.nodup_cons.mpr ⟨fun hm => ?_, hnodup⟩,
          List.forall_mem_cons.mpr ⟨hnew, fun k hk hseen => ?_⟩, ?_⟩
        · exact hfront m hm (Marks.mem_mark.mpr (.inl rfl))
        · exact hfront k hk (Marks.mem_mark.mpr (.inr hseen))
        · rw [Marks.mem_mark] at hn
          rw [List.mem_cons]
          obtain (rfl | hn) | hn := hn
          · exact .inr (.inl rfl)
          · exact .inl hn
          · exact .inr (.inr hn)
      · rintro ⟨front, back, heq, hnodup, hfront, hn⟩
        cases front with
        | nil =>
          -- then the first number itself would have been seen
          obtain ⟨rfl, -⟩ := List.cons.inj heq
          exact absurd (hn.resolve_right List.not_mem_nil) hnew
        | cons k front =>
          obtain ⟨rfl, rfl⟩ := List.cons.inj heq
          obtain ⟨hm, hnodup⟩ := List.nodup_cons.mp hnodup
          refine ⟨front, back, rfl, hnodup, fun k hk hseen => ?_, ?_⟩
          · obtain rfl | hseen := Marks.mem_mark.mp hseen
            · exact hm hk
            · exact hfront k (List.mem_cons_of_mem _ hk) hseen
          · rw [Marks.mem_mark]
            rw [List.mem_cons] at hn
            obtain hn | rfl | hn := hn
            · exact .inl (.inr hn)
            · exact .inl (.inl rfl)
            · exact .inr hn

/-- The numbers of the pins are those of the places that have one. -/
theorem pinNumbers_eq : s.pinNumbers = places.filterMap s.number? := by
  rw [pinNumbers, PerAxis.toList_eq_map_get, List.flatMap_map, places, List.filterMap_flatMap]
  congr 1
  funext a
  rw [AxisSettings.pins_eq, List.filter_filterMap, List.map_filterMap, List.filterMap_map]
  congr 1
  funext r
  rw [Function.comp_apply, number?]
  cases h : (s.axes.get a).pin? r with
  | none => simp
  | some p => cases hp : p.isAssigned <;> simp [Option.filter, hp]

/-- No number is assigned to two places exactly if the numbers are distinct. -/
theorem met_duplicatePin_iff :
    (∀ n, (SettingsError.duplicatePin n).Met s) ↔ s.pinNumbers.Nodup := by
  have hplaces : places.Nodup := by decide
  rw [pinNumbers_eq]
  refine ⟨fun h => hplaces.filterMap fun j k n => h n j k, fun h n j k hj hk => ?_⟩
  rw [List.Nodup, List.pairwise_filterMap] at h
  have : Std.Symm fun j k => ∀ n, s.number? j = some n → ∀ m, s.number? k = some m → n ≠ m :=
    ⟨fun _ _ h n hn m hm => (h m hm n hn).symm⟩
  by_contra hne
  exact h.forall (mem_places j) (mem_places k) hne n hj n hk rfl

/-- What is not met is a check, or about the numbers of pins. -/
theorem mem_checks {e : SettingsError} (h : ¬ e.Met s) :
    e ∈ SettingsError.checks ∨ ∃ n, e = .duplicatePin n := by
  cases e with
  | missingPin a r =>
    cases r with
    | step => cases a <;> exact .inl (by decide)
    | dir => cases a <;> exact .inl (by decide)
    | enable => exact absurd trivial h
    | endstop => exact absurd trivial h
  | invalidAxis a => cases a <;> exact .inl (by decide)
  | duplicatePin n => exact .inr ⟨n, rfl⟩
  | _ => exact .inl (by decide)

theorem validate_eq_ok_iff_met : s.validate = .ok () ↔ ∀ e : SettingsError, e.Met s := by
  classical
  rw [validate_eq_ok_iff, problems_eq, List.append_eq_nil_iff, List.map_eq_nil_iff,
    repeats_eq_nil_iff, ← met_duplicatePin_iff, List.filter_eq_nil_iff]
  constructor
  · rintro ⟨hchecks, hpins, -⟩ e
    by_contra hfails
    obtain hmem | ⟨n, rfl⟩ := mem_checks hfails
    · exact hchecks e hmem (decide_eq_true hfails)
    · exact hfails (hpins n)
  · intro h
    exact ⟨fun e _ hfails => of_decide_eq_true hfails (h e), fun n => h _,
      fun _ _ => Marks.not_mem_none _⟩

open Classical in
/-- The first check that is not met is reported. -/
theorem head?_filter_checks {e : SettingsError} :
    (SettingsError.checks.filter fun d => ¬ d.Met s).head? = some e ↔
      ∃ front back, SettingsError.checks = front ++ e :: back ∧ (∀ d ∈ front, d.Met s) ∧
        ¬ e.Met s := by
  rw [List.head?_filter, List.find?_eq_some_iff_append, decide_eq_true_iff]
  simp only [decide_not, Bool.not_not, decide_eq_true_iff]
  exact ⟨fun ⟨hfails, front, back, horder, hbefore⟩ => ⟨front, back, horder, hbefore, hfails⟩,
    fun ⟨front, back, horder, hbefore, hfails⟩ => ⟨hfails, front, back, horder, hbefore⟩⟩

/-- The first number that repeats one before it is that of the first place that does. -/
theorem head?_repeats_pinNumbers {n : UInt8} :
    (repeats .none s.pinNumbers).head? = some n ↔ ∃ front back k, places = front ++ k :: back ∧
      s.number? k = some n ∧ (∃ j ∈ front, s.number? j = some n) ∧
      (front.filterMap s.number?).Nodup := by
  rw [head?_repeats_eq_some_iff, pinNumbers_eq]
  constructor
  · rintro ⟨numbers, rest, hsplit, hnodup, -, hn⟩
    obtain ⟨front, tail, hplaces, rfl, htail⟩ := List.filterMap_eq_append_iff.mp hsplit
    -- places without a number may lie between
    obtain ⟨between, k, back, rfl, hnone, hk, -⟩ := List.filterMap_eq_cons_iff.mp htail
    obtain ⟨j, hj, hjn⟩ := List.mem_filterMap.mp (hn.resolve_left (Marks.not_mem_none n))
    refine ⟨front ++ between, back, k, by rw [hplaces, List.append_assoc], hk,
      ⟨j, List.mem_append_left _ hj, hjn⟩, ?_⟩
    rwa [List.filterMap_append, List.filterMap_eq_nil_iff.mpr hnone, List.append_nil]
  · rintro ⟨front, back, k, horder, hk, ⟨j, hj, hjn⟩, hnodup⟩
    refine ⟨front.filterMap s.number?, back.filterMap s.number?, ?_, hnodup,
      fun _ _ => Marks.not_mem_none _, .inr (List.mem_filterMap.mpr ⟨j, hj, hjn⟩)⟩
    rw [horder, List.filterMap_append, List.filterMap_cons, hk]

/-- The error that is given is about the first thing that is wrong. -/
theorem validate_eq_error_iff_firstProblem {e : SettingsError} :
    s.validate = .error e ↔ s.FirstProblem e := by
  classical
  rw [validate_eq_error_iff, problems_eq, List.head?_append, Option.or_eq_some_iff,
    head?_filter_checks, List.head?_eq_none_iff, List.filter_eq_nil_iff, List.head?_map,
    Option.map_eq_some_iff]
  simp only [decide_eq_true_iff, not_not, head?_repeats_pinNumbers]
  constructor
  · rintro (⟨front, back, horder, hbefore, hfails⟩ |
      ⟨hchecks, n, ⟨front, back, k, horder, hk, hrepeats, hbefore⟩, rfl⟩)
    · exact .check horder hbefore hfails
    · exact .pin hchecks horder hk hrepeats hbefore
  · rintro (⟨horder, hbefore, hfails⟩ | ⟨hchecks, horder, hk, hrepeats, hbefore⟩)
    · exact .inl ⟨_, _, horder, hbefore, hfails⟩
    · exact .inr ⟨hchecks, _, ⟨_, _, _, horder, hk, hrepeats, hbefore⟩, rfl⟩

/-- Settings are valid exactly if every condition is met. Otherwise the error names the first check
that fails, in their order, or if none does, the number of the first place that has that of a place
before it. The product that the pulse check computes is not cut off. -/
theorem validate_first_problem (s : Settings) :
    (s.validate = .ok () ↔ ∀ e : SettingsError, e.Met s) ∧
    (∀ e, s.validate = .error e ↔ s.FirstProblem e) ∧
    (s.stepPulseUs.toUInt64 * s.baseFrequency.toUInt64).toNat =
      s.stepPulseUs.toNat * s.baseFrequency.toNat :=
  ⟨validate_eq_ok_iff_met, fun _ => validate_eq_error_iff_firstProblem, toNat_toUInt64_mul _ _⟩

/-- If one check alone is not met, the other conditions are. -/
theorem met_of_problems_eq {d e : SettingsError} (h : s.problems = [d])
    (hd : ∀ n, d ≠ .duplicatePin n) (hne : e ≠ d) : e.Met s := by
  classical
  rw [problems_eq] at h
  have hpins : repeats .none s.pinNumbers = [] := by
    refine List.eq_nil_iff_forall_not_mem.mpr fun n hn => hd n ?_
    have hmem := h ▸ List.mem_append_right _ (List.mem_map_of_mem hn)
    exact (List.mem_singleton.mp hmem).symm
  by_contra hfails
  obtain hcheck | ⟨n, rfl⟩ := mem_checks hfails
  · have hmem := h ▸ List.mem_append_left _ (List.mem_filter.mpr ⟨hcheck, decide_eq_true hfails⟩)
    exact hne (List.mem_singleton.mp hmem)
  · exact hfails (met_duplicatePin_iff.mpr (repeats_eq_nil_iff.mp hpins).1 n)

/-- The planner is to end at an infinite speed. -/
def withInfiniteFinalSpeed : Settings :=
  { withDefaultPins with minimumPlannerSpeed := ⟨0x7f800000⟩ }

/-- Step pulses take no time. -/
def withoutPulse : Settings := { withDefaultPins with stepPulseUs := 0 }

/-- An infinite speed is not negative, and a pulse of no length fits inside a step tick. Neither is
valid, even if everything else is. -/
theorem validate_refuses_extremes :
    (0 ≤ withInfiniteFinalSpeed.minimumPlannerSpeed.value ∧
      (∀ e : SettingsError, e ≠ .invalidPlannerSpeed → e.Met withInfiniteFinalSpeed) ∧
      withInfiniteFinalSpeed.validate = .error .invalidPlannerSpeed) ∧
    (withoutPulse.stepPulseUs.toNat * withoutPulse.baseFrequency.toNat < 1000000 ∧
      (∀ e : SettingsError, e ≠ .pulseTooLong → e.Met withoutPulse) ∧
      withoutPulse.validate = .error .pulseTooLong) := by
  have hspeed : withInfiniteFinalSpeed.problems = [.invalidPlannerSpeed] := by decide +kernel
  have hpulse : withoutPulse.problems = [.pulseTooLong] := by decide +kernel
  refine ⟨⟨by decide +kernel, fun e hne => met_of_problems_eq hspeed (by simp) hne, ?_⟩,
    by decide, fun e hne => met_of_problems_eq hpulse (by simp) hne, ?_⟩
  · rw [validate_eq_error_iff, hspeed, List.head?_cons]
  · rw [validate_eq_error_iff, hpulse, List.head?_cons]

end Settings

end MotionControl
