/-!
# Faults

A fault ends a run: the machine found itself in a state it must never reach, or a wait was given up
because nothing would end it. A fault is a cause; `Fault.message` holds the words shown for it.
-/

namespace MotionControl

/-- Why a run cannot go on. -/
inductive Fault where
  /-- two parts of the machine disagree about who owns a slot -/
  | invariantViolated
  /-- a wait was not over when the caller's patience was -/
  | waitExhausted
  /-- a sum left its machine word -/
  | addOverflow
  /-- a difference left its machine word -/
  | subtractOverflow
  /-- a slot number beyond the built capacity -/
  | noSuchSlot (count index : Nat)
  deriving DecidableEq, Repr

namespace Fault

/-- The words shown for a fault. -/
def message : Fault → String
  | invariantViolated => "motion invariant violated"
  | waitExhausted => "wait limit"
  | addOverflow => "attempt to add with overflow"
  | subtractOverflow => "attempt to subtract with overflow"
  | noSuchSlot count index =>
    "index out of bounds: the len is " ++ toString count ++ " but the index is " ++ toString index

/-- Two steps succeed if both do, whatever they may fail with. -/
theorem bind_eq_ok {ε α β : Type} {x : Except ε α} {f : α → Except ε β} {y : β} :
    (x >>= f) = .ok y ↔ ∃ a, x = .ok a ∧ f a = .ok y := by
  cases x with
  | error e => simp [bind, Except.bind]
  | ok a => simp [bind, Except.bind]

/-- A result that passes a test is a result. -/
theorem exists_eq_ok {α : Type} {x : Except Fault α} {f : α → Bool}
    (h : x.toOption.any f = true) : ∃ a, x = .ok a ∧ f a = true := by
  cases x with
  | ok a => exact ⟨a, rfl, h⟩
  | error e => cases h

end Fault

end MotionControl
