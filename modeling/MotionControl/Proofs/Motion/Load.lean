import MotionControl.Planner

/-!
# What a segment brings

The speed profile of a segment is revised again and again; what the segment does is not. Its
`Load` is what remains when speeds and rates are taken away: how far it moves every actuator and
which commands ride on it. The planner fixes the load when it makes a segment
(`Planner.load_of_segmentOf`), and the lookahead does not touch it (`Lookahead.loads_of_replan`).
-/

namespace MotionControl

/-- A number of steps of an actuator, counted in the direction of a mask. -/
def Directions.signed (d : Directions) (a : Axis) (count : Nat) : Int :=
  if d.isNegative a.index then -(count : Int) else count

/-- What a segment does, however fast it is executed. -/
structure Load where
  /-- step count of every actuator -/
  steps : PerAxis UInt32
  /-- number of step events -/
  eventCount : UInt32
  /-- actuators moving towards negative -/
  directions : Directions
  /-- commands to run when the segment is over -/
  commands : CommandList
  deriving DecidableEq

/-- What a segment does. -/
def Segment.load (s : Segment) : Load := ⟨s.steps, s.eventCount, s.directions, s.commands⟩

namespace Load

/-- A load without motion and without commands. -/
def empty : Load := Segment.empty.load

/-- Whether anything moves. -/
def hasMotion (l : Load) : Bool := 0 < l.eventCount

/-- How far an actuator moves, in steps. -/
def displacement (l : Load) (a : Axis) : Int := l.directions.signed a (l.steps.get a).toNat

/-- There are as many step events as the busiest actuator makes steps. -/
def Sound (l : Load) : Prop := l.eventCount = Planner.eventCount l.steps

theorem max_eq (x y : UInt32) : max x y = if x ≤ y then y else x := rfl

theorem le_eventCount (steps : PerAxis UInt32) (a : Axis) :
    steps.get a ≤ Planner.eventCount steps := by
  rcases steps with ⟨x, y, z⟩
  simp only [Planner.eventCount, max_eq, UInt32.le_iff_toNat_le]
  cases a <;> simp only [PerAxis.get] <;> split <;> split <;> omega

theorem exists_eq_eventCount (steps : PerAxis UInt32) :
    ∃ a, steps.get a = Planner.eventCount steps := by
  rcases steps with ⟨x, y, z⟩
  simp only [Planner.eventCount, max_eq]
  split <;> split
  · exact ⟨.gamma, rfl⟩
  · exact ⟨.beta, rfl⟩
  · exact ⟨.gamma, rfl⟩
  · exact ⟨.alpha, rfl⟩

theorem sound_empty : empty.Sound := rfl

namespace Sound

variable {l : Load}

theorem steps_le (h : l.Sound) (a : Axis) : (l.steps.get a).toNat ≤ l.eventCount.toNat := by
  rw [h]
  exact UInt32.le_iff_toNat_le.mp (le_eventCount l.steps a)

theorem steps_eq_zero (h : l.Sound) (hm : l.hasMotion = false) (a : Axis) :
    l.steps.get a = 0 := by
  have hle := h.steps_le a
  have hzero : ¬ 0 < l.eventCount := of_decide_eq_false hm
  rw [UInt32.lt_iff_toNat_lt] at hzero
  apply UInt32.toNat.inj
  simp only [UInt32.toNat_zero] at hzero ⊢
  omega

theorem displacement_eq_zero (h : l.Sound) (hm : l.hasMotion = false) (a : Axis) :
    l.displacement a = 0 := by
  rw [displacement, h.steps_eq_zero hm a, Directions.signed]
  split <;> rfl

end Sound

end Load

/-! ## Lookahead -/

namespace Segment

theorem load_planEntry (s : Segment) (speed : Float32) : (s.planEntry speed).load = s.load := by
  unfold planEntry
  split <;> rfl

theorem load_reversePass (s : Segment) (nextEntry : Float32) :
    (s.reversePass nextEntry).load = s.load := by
  unfold reversePass
  dsimp only
  split
  · rfl
  split <;> exact load_planEntry s _

theorem load_forwardPass (s : Segment) (previousMaxExit : Float32) :
    (s.forwardPass previousMaxExit).load = s.load := by
  unfold forwardPass
  dsimp only
  split <;> rfl

theorem subWord_eq_ok_or (m n : Int) :
    (∃ k, Profile.subWord m n = .ok k) ∨ Profile.subWord m n = .error .subtractOverflow := by
  unfold Profile.subWord
  split
  · exact .inl ⟨_, rfl⟩
  · exact .inr rfl

/-- A trapezoid is planned unless the arithmetic of its ramps leaves the machine word, and leaves
the load alone. -/
theorem planTrapezoid_eq_ok_or (s : Segment) (entryFactor exitFactor : Float32) :
    (∃ s', s.planTrapezoid entryFactor exitFactor = .ok s' ∧ s'.load = s.load) ∨
      s.planTrapezoid entryFactor exitFactor = .error .subtractOverflow := by
  unfold planTrapezoid
  dsimp only
  split
  · exact .inl ⟨_, rfl, rfl⟩
  obtain ⟨k, hk⟩ | hk := subWord_eq_ok_or _ _ <;> rw [hk] <;> dsimp only [bind, Except.bind]
  · obtain ⟨k', hk'⟩ | hk' := subWord_eq_ok_or _ _ <;> rw [hk'] <;> dsimp only
    · left
      split <;> exact ⟨_, rfl, rfl⟩
    · exact .inr rfl
  · exact .inr rfl

end Segment

namespace Lookahead

theorem load_reverseStep (s : Segment) (nextEntry : Float32) :
    (reverseStep s nextEntry).load = s.load := by
  unfold reverseStep
  split
  · exact s.load_reversePass nextEntry
  · rfl

theorem load_forwardStep (s : Segment) (previousMaxExit : Float32) :
    (forwardStep s previousMaxExit).load = s.load := by
  unfold forwardStep
  split
  · exact s.load_forwardPass previousMaxExit
  · rfl

theorem loads_reverse (final : Float32) (ss : List Segment) :
    (reverse final ss).map Segment.load = ss.map Segment.load := by
  induction ss with
  | nil => rfl
  | cons s ss ih => rw [reverse, List.map_cons, List.map_cons, ih, load_reverseStep]

theorem loads_forward (previousMaxExit : Float32) (ss : List Segment) :
    (forward previousMaxExit ss).map Segment.load = ss.map Segment.load := by
  induction ss generalizing previousMaxExit with
  | nil => rfl
  | cons s ss ih =>
    simp only [forward, List.map_cons, ih, load_forwardStep]

theorem profile_eq_ok_or (s : Segment) (exitSpeed : Float32) :
    (∃ s', profile s exitSpeed = .ok s' ∧ s'.load = s.load) ∨
      profile s exitSpeed = .error .subtractOverflow := by
  unfold profile
  dsimp only
  obtain ⟨s', hs', hload⟩ | hs' := Segment.planTrapezoid_eq_ok_or _ _ _ <;> rw [hs']
  · exact .inl ⟨_, rfl, hload⟩
  · exact .inr rfl

theorem profiles_eq_ok_or (final : Float32) (ss : List Segment) :
    (∃ ss', profiles final ss = .ok ss' ∧ ss'.map Segment.load = ss.map Segment.load) ∨
      profiles final ss = .error .subtractOverflow := by
  induction ss with
  | nil => exact .inl ⟨[], rfl, rfl⟩
  | cons s ss ih =>
    rw [profiles]
    obtain ⟨s', hs', hload⟩ | hs' := profile_eq_ok_or s (entryOf final ss) <;> rw [hs']
    · obtain ⟨ss', hss', hloads⟩ | hss' := ih <;> rw [hss']
      · exact .inl ⟨s' :: ss', rfl, by rw [List.map_cons, List.map_cons, hload, hloads]⟩
      · exact .inr rfl
    · exact .inr rfl

/-- The lookahead changes no load. -/
theorem replan_eq_ok_or (boundary final : Float32) (ss : List Segment) :
    (∃ ss', replan boundary final ss = .ok ss' ∧ ss'.map Segment.load = ss.map Segment.load) ∨
      replan boundary final ss = .error .subtractOverflow := by
  obtain ⟨ss', hss', hloads⟩ | h := profiles_eq_ok_or final (forward boundary (reverse final ss))
  · exact .inl ⟨ss', hss', by rw [hloads, loads_forward, loads_reverse]⟩
  · exact .inr h

end Lookahead

/-! ## Moves -/

namespace Planner

theorem natAbs_delta_lt (p : Planner) (target : PerAxis Int32) (a : Axis) :
    (p.delta target a).natAbs < UInt32.size := by
  have h₁ := Int32.toInt_lt (target.get a)
  have h₂ := Int32.le_toInt (target.get a)
  have h₃ := Int32.toInt_lt (p.position.get a)
  have h₄ := Int32.le_toInt (p.position.get a)
  have hsize : UInt32.size = 4294967296 := rfl
  unfold delta
  omega

/-- The segment of a move brings every actuator to its target, and brings no commands. Planning it
fails only where the arithmetic of its ramps leaves the machine word. -/
theorem segmentOf_eq_ok_or (p : Planner) (m : Move) (fromRest : Bool) :
    (∃ s, p.segmentOf m fromRest = .ok s ∧ s.load.Sound ∧ s.commands = .empty ∧
      ∀ a, s.load.displacement a = p.delta m.target a) ∨
      p.segmentOf m fromRest = .error .subtractOverflow := by
  unfold segmentOf
  dsimp only
  obtain ⟨s, hs, hload⟩ | hs := Segment.planTrapezoid_eq_ok_or _ _ _
  · refine .inl ⟨s, hs, ?_, ?_, ?_⟩
    · rw [hload]
      rfl
    · exact congrArg Load.commands hload
    · intro a
      rw [hload]
      have hlt := p.natAbs_delta_lt m.target a
      simp only [Load.displacement, Segment.load, Directions.signed, PerAxis.get_ofFn,
        Directions.isNegative_ofAxes, UInt32.toNat_ofNat_of_lt' hlt, decide_eq_true_eq]
      split <;> omega
  · exact .inr hs

/-- An accepted move moves some actuator. -/
theorem exists_delta_ne_zero {p : Planner} {m : Move} (h : p.accepts m = true) :
    ∃ a, p.delta m.target a ≠ 0 := by
  simp only [accepts, Bool.and_eq_true, bne_iff_ne] at h
  apply Classical.byContradiction
  intro hnone
  have heq : ∀ a, m.target.get a = p.position.get a := by
    intro a
    have hzero : p.delta m.target a = 0 :=
      Classical.byContradiction fun hne => hnone ⟨a, hne⟩
    unfold delta at hzero
    exact Int32.toInt_inj.mp (by omega)
  apply h.1.1
  have hx := heq .alpha
  have hy := heq .beta
  have hz := heq .gamma
  rcases hm : m.target with ⟨x, y, z⟩
  rcases hp : p.position with ⟨x', y', z'⟩
  simp only [hm, hp, PerAxis.get] at hx hy hz
  rw [hx, hy, hz]

end Planner

end MotionControl
