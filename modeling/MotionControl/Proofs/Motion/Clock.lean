import MotionControl.Proofs.Motion.Course

/-!
# The clock of a traversal

`Traversal.clock` is the time that a traversal has behind it, in 65536ths of a step event: whole
events and the phase between two of them are one number. Every tick adds the increment to it, with
or without an event, so that a traversal that advances is later after every tick
(`Traversal.Later`), whatever a stop takes from it.
-/

namespace MotionControl

theorem Q16.addSat_zero (q : Q16) : q.addSat .zero = q := by
  have hfits : q.bits.toNat + Q16.zero.bits.toNat < UInt32.size := q.bits.toNat_lt
  rw [addSat, add?, if_pos hfits]
  exact congrArg Q16.mk (UInt32.add_zero q.bits)

namespace Traversal

theorem isDue_iff {t : Traversal} : t.isDue = true ↔ 65536 ≤ t.phase.bits.toNat := by
  rw [isDue, decide_eq_true_iff, UInt32.le_iff_toNat_le]
  rfl

/-- A traversal of which a tick performs one event at most. -/
structure Ticking (t : Traversal) : Prop where
  /-- no event is due between ticks -/
  phase_lt : t.phase.bits.toNat < 65536
  /-- the phase grows by one at most -/
  increment_le : t.increment.bits.toNat ≤ 65536

/-- A traversal that the next tick advances. -/
structure Advances (t : Traversal) : Prop extends t.Ticking where
  /-- the phase moves -/
  increment_pos : 0 < t.increment.bits.toNat

/-- The time that a traversal has behind it, in 65536ths of a step event. -/
def clock (t : Traversal) : Nat := 65536 * t.eventsDone.toNat + t.phase.bits.toNat

namespace Ticking

variable {t : Traversal}

/-- The phase is not cut off. -/
theorem phase_advancePhase (h : t.Ticking) :
    t.advancePhase.phase.bits.toNat = t.phase.bits.toNat + t.increment.bits.toNat := by
  have hphase := h.phase_lt
  have hincrement := h.increment_le
  rw [advancePhase, Q16.addSat_toNat]
  exact Nat.min_eq_left (by omega)

/-- A tick without an event. -/
theorem wait (h : t.Ticking) (hdue : t.advancePhase.isDue = false) : t.advancePhase.Ticking := by
  rw [← Bool.not_eq_true, isDue_iff, Nat.not_le] at hdue
  exact ⟨hdue, h.increment_le⟩

/-- A due event takes the phase back by one. -/
theorem phase_wrapPhase (h : t.Ticking) (hdue : t.advancePhase.isDue = true) :
    t.advancePhase.wrapPhase.phase.bits.toNat + 65536 =
      t.phase.bits.toNat + t.increment.bits.toNat := by
  have hphase := h.phase_lt
  have hle := h.increment_le
  rw [isDue_iff, h.phase_advancePhase] at hdue
  change t.advancePhase.phase.frac.bits.toNat + 65536 = _
  rw [Q16.frac_toNat, h.phase_advancePhase]
  omega

/-- A tick with an event. -/
theorem strike (h : t.Ticking) (hdue : t.advancePhase.isDue = true) :
    t.advancePhase.wrapPhase.stepEvent.Ticking := by
  have hphase := h.phase_lt
  have hle := h.increment_le
  have hwrap := h.phase_wrapPhase hdue
  refine ⟨?_, hle⟩
  change t.advancePhase.wrapPhase.phase.bits.toNat < 65536
  omega

end Ticking

namespace Advances

variable {t : Traversal}

theorem increment_ne (h : t.Advances) : t.increment ≠ .zero := by
  intro hzero
  have hpos := h.increment_pos
  rw [hzero] at hpos
  exact absurd hpos (by decide)

/-- A tick without an event. -/
theorem wait (h : t.Advances) (hdue : t.advancePhase.isDue = false) :
    t.advancePhase.Advances ∧ t.clock < t.advancePhase.clock := by
  refine ⟨⟨h.toTicking.wait hdue, h.increment_pos⟩, ?_⟩
  have hpos := h.increment_pos
  change _ < 65536 * t.eventsDone.toNat + t.advancePhase.phase.bits.toNat
  rw [h.phase_advancePhase, clock]
  omega

/-- A tick with an event. -/
theorem strike (h : t.Advances) (hdue : t.advancePhase.isDue = true) :
    t.advancePhase.wrapPhase.stepEvent.Advances :=
  ⟨h.toTicking.strike hdue, h.increment_pos⟩

theorem clock_strike (h : t.Advances) (hdue : t.advancePhase.isDue = true)
    (hmore : t.eventsDone < t.eventCount) :
    t.clock < t.advancePhase.wrapPhase.stepEvent.clock := by
  have hpos := h.increment_pos
  have hwrap := h.phase_wrapPhase hdue
  have hdone : t.advancePhase.wrapPhase.stepEvent.eventsDone.toNat = t.eventsDone.toNat + 1 :=
    eventsDone_stepEvent_of_lt (t := t.advancePhase.wrapPhase) hmore
  rw [clock, clock, hdone]
  change _ < 65536 * _ + t.advancePhase.wrapPhase.phase.bits.toNat
  omega

/-- Before the last event the clock is below the events. -/
theorem clock_lt (h : t.Advances) (hmore : t.eventsDone < t.eventCount) :
    t.clock < 65536 * t.eventCount.toNat := by
  have hphase := h.phase_lt
  have hlt := UInt32.lt_iff_toNat_lt.mp hmore
  rw [clock]
  omega

end Advances

/-- A tick has brought a traversal on, if it advances and there are events left. -/
def Later (t t' : Traversal) : Prop :=
  t.Advances → t.eventsDone < t.eventCount → t'.Advances ∧ t.clock < t'.clock

namespace Later

variable {t t' : Traversal}

theorem advancePhase (hdue : t.advancePhase.isDue = false) : t.Later t.advancePhase :=
  fun h _ => h.wait hdue

theorem stepEvent (hdue : t.advancePhase.isDue = true) :
    t.Later t.advancePhase.wrapPhase.stepEvent :=
  fun h hmore => ⟨h.strike hdue, h.clock_strike hdue hmore⟩

/-- A stop does not turn the clock back. -/
theorem of_cut {stopped : UInt8} (h : (t.cut stopped).Later t') : t.Later t' :=
  fun ht hmore => h ⟨⟨ht.phase_lt, ht.increment_le⟩, ht.increment_pos⟩ hmore

end Later

end Traversal

end MotionControl
