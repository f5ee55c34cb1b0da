import MotionControl.Settings.Basic
import MotionControl.Single.Basic

/-!
# Checking settings

`Settings.problems` lists everything that is wrong with some settings, in the order in which it is
reported; settings are valid when the list is empty, and `Settings.validate` answers with its
first entry. `Settings.clampRates` lowers the speed limits that the step timer cannot keep up
with.
-/

namespace MotionControl

/-- A reason to refuse settings. -/
inductive SettingsError where
  /-- the queue has fewer than 2 or more than 64 slots -/
  | invalidQueueSize
  /-- the acceleration is not positive and finite -/
  | invalidAcceleration
  /-- the jerk limit is not positive and finite -/
  | invalidJerk
  /-- the final speed is negative or not finite -/
  | invalidPlannerSpeed
  /-- a timer frequency is zero, or ramp ticks come more often than step ticks -/
  | invalidFrequency
  /-- the minimum step rate is zero or not below the step tick rate -/
  | invalidMinimumRate
  /-- the step pulse is zero or does not fit inside one step tick -/
  | pulseTooLong
  /-- scale or speed limit of an axis is not positive and finite -/
  | invalidAxis (axis : Axis)
  /-- a required pin of an axis is not wired -/
  | missingPin (axis : Axis) (role : PinRole)
  /-- a pin is used twice -/
  | duplicatePin (number : UInt8)
  deriving DecidableEq, Repr

namespace SettingsError

/-- The name of the cause alone. -/
def name : SettingsError → String
  | invalidQueueSize => "InvalidQueueSize"
  | invalidAcceleration => "InvalidAcceleration"
  | invalidJerk => "InvalidJerk"
  | invalidPlannerSpeed => "InvalidPlannerSpeed"
  | invalidFrequency => "InvalidFrequency"
  | invalidMinimumRate => "InvalidMinimumRate"
  | pulseTooLong => "PulseTooLong"
  | invalidAxis _ => "InvalidAxis"
  | missingPin .. => "MissingPin"
  | duplicatePin _ => "DuplicatePin"

/-- The whole cause, with the places in braces. -/
def message : SettingsError → String
  | invalidAxis axis => "InvalidAxis \x7b axis: " ++ toString axis.index ++ " \x7d"
  | missingPin axis role =>
    "MissingPin \x7b axis: " ++ toString axis.index ++ ", role: " ++ role.name ++ " \x7d"
  | duplicatePin number => "DuplicatePin \x7b pin: " ++ toString number.toNat ++ " \x7d"
  | e => e.name

end SettingsError

/-- A problem, reported when a condition fails. -/
def problemUnless (ok : Bool) (e : SettingsError) : List SettingsError :=
  if ok then [] else [e]

theorem problemUnless_eq_nil_iff {ok : Bool} {e : SettingsError} :
    problemUnless ok e = [] ↔ ok = true := by
  cases ok <;> simp [problemUnless]

/-- A mark for every number that a pin can have. -/
structure Marks where
  /-- whether a number is marked -/
  marked : Vector Bool 256

namespace Marks

/-- No number is marked. -/
def none : Marks := ⟨.replicate 256 false⟩

/-- Whether a number is marked. -/
def has (m : Marks) (n : UInt8) : Bool :=
  have : n.toNat < 256 := n.toNat_lt
  m.marked[n.toNat]

/-- Mark a number. -/
def mark (m : Marks) (n : UInt8) : Marks := ⟨m.marked.set n.toNat true n.toNat_lt⟩

instance : Membership UInt8 Marks := ⟨fun m n => m.has n = true⟩

instance {m : Marks} {n : UInt8} : Decidable (n ∈ m) := inferInstanceAs (Decidable (_ = true))

theorem mem_iff {m : Marks} {n : UInt8} : n ∈ m ↔ m.has n = true := .rfl

@[simp]
theorem not_mem_none (n : UInt8) : n ∉ none := by
  rw [mem_iff, has, none, Vector.getElem_replicate]
  exact Bool.false_ne_true

/-- What is marked after a number has been marked. -/
theorem mem_mark {m : Marks} {n k : UInt8} : k ∈ m.mark n ↔ k = n ∨ k ∈ m := by
  rw [mem_iff, mem_iff, has, has, mark, Vector.getElem_set]
  split
  · next heq => simp [UInt8.toNat_inj.mp heq]
  · next hne => simp [ne_comm.mp (mt (congrArg UInt8.toNat) hne)]

end Marks

/-- The numbers of a list that occur earlier in it, or are marked. -/
def repeats (seen : Marks) : List UInt8 → List UInt8
  | [] => []
  | n :: ns => if n ∈ seen then n :: repeats seen ns else repeats (seen.mark n) ns

/-- The product of two words fits a word of twice their size. -/
theorem toNat_toUInt64_mul (x y : UInt32) :
    (x.toUInt64 * y.toUInt64).toNat = x.toNat * y.toNat := by
  have hlt : x.toNat * y.toNat < UInt64.size := Nat.mul_lt_mul'' x.toNat_lt y.toNat_lt
  rw [UInt64.toNat_mul, UInt32.toNat_toUInt64, UInt32.toNat_toUInt64]
  exact Nat.mod_eq_of_lt hlt

/-- Finite and above zero. -/
def Single.isPositive (x : Float32) : Bool := x.isFinite && 0 < x

namespace AxisSettings

/-- What is wrong with one axis: rates before the step pin before the direction pin. -/
def problems (s : AxisSettings) (axis : Axis) : List SettingsError :=
  problemUnless (Single.isPositive s.stepsPerMm.value && Single.isPositive s.maxRate.value)
      (.invalidAxis axis)
    ++ problemUnless s.stepPin.isAssigned (.missingPin axis .step)
    ++ problemUnless s.dirPin.isAssigned (.missingPin axis .dir)

end AxisSettings

namespace Settings

/-- What is wrong with the quantities of the machine as a whole. -/
def scalarProblems (s : Settings) : List SettingsError :=
  problemUnless (2 ≤ s.queueSize && s.queueSize ≤ 64) .invalidQueueSize
    ++ problemUnless (Single.isPositive s.acceleration.value) .invalidAcceleration
    ++ problemUnless (Single.isPositive s.maxJerk.value) .invalidJerk
    ++ problemUnless (s.minimumPlannerSpeed.value.isFinite && 0 ≤ s.minimumPlannerSpeed.value)
        .invalidPlannerSpeed
    ++ problemUnless (s.baseFrequency != 0 && s.accelerationTicks != 0
        && s.accelerationTicks ≤ s.baseFrequency) .invalidFrequency
    ++ problemUnless (s.minimumStepRate != 0 && s.minimumStepRate < s.baseFrequency)
        .invalidMinimumRate
    ++ problemUnless (s.stepPulseUs != 0
        && s.stepPulseUs.toUInt64 * s.baseFrequency.toUInt64 < 1000000) .pulseTooLong

/-- Everything that is wrong, in the order of reporting: the machine, its axes one by one, and last
the pins that repeat an earlier one. -/
def problems (s : Settings) : List SettingsError :=
  s.scalarProblems
    ++ Axis.all.flatMap (fun a => (s.axes.get a).problems a)
    ++ (repeats .none s.pinNumbers).map .duplicatePin

/-- Accept the settings or name the first problem. -/
def validate (s : Settings) : Except SettingsError Unit :=
  match s.problems with
  | [] => .ok ()
  | e :: _ => .error e

/-- Whether an axis may be asked for more steps than the step timer has ticks. -/
def exceedsTimer (s : Settings) (a : AxisSettings) : Bool :=
  0 < a.stepsPerMm.value && s.baseFrequency.toFloat32 < a.maxStepRate

/-- An axis with its limit lowered to what the step timer can keep up with. -/
def clampAxis (s : Settings) (a : AxisSettings) : AxisSettings :=
  if s.exceedsTimer a then
    let rate := Single.wholeBelow (s.baseFrequency.toFloat32 / a.stepsPerMm.value)
    { a with maxRate := .ofFloat rate }
  else a

/-- Lower every speed limit that the step timer cannot keep up with. -/
def clampRates (s : Settings) : Settings := { s with axes := s.axes.map s.clampAxis }

/-- The number of axes that `clampRates` changes. -/
def clampCount (s : Settings) : Nat := s.axes.toList.countP s.exceedsTimer

theorem validate_eq_ok_iff (s : Settings) : s.validate = .ok () ↔ s.problems = [] := by
  unfold validate
  split
  · next h => simp [h]
  · next e es h => simp [h]

theorem validate_eq_error_iff (s : Settings) (e : SettingsError) :
    s.validate = .error e ↔ s.problems.head? = some e := by
  unfold validate
  split
  · next h => simp [h]
  · next d es h => simp [h]

end Settings

end MotionControl
