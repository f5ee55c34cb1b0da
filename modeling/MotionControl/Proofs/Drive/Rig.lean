import Mathlib.Algebra.Ring.Int.Defs
import MotionControl.Proofs.Drive.Edges
import MotionControl.Proofs.Motion.Errands

/-!
# Counted steps are made

A rig is a stepper whose outputs are driven to the lines of the actuators as pulses. In every run
the actuators make exactly the steps that the stepper counts: each output makes one edge on the step
line of every actuator in its mask and no other edge is made, the direction line says at that edge
what the output says, and so the position changes by the edges seen
(`Rig.Runs.edges_match_position`). Pulses may be ended at any time, late, more than once or never.
-/

namespace MotionControl

variable {n : Nat}

/-! ## The position of a tick -/

namespace Plant

variable {p p' : Plant n Stepper}

theorem position_passCarriers {fuel : Nat} {next : Option Nat}
    (h : passCarriers fuel next p = .ok p') : p'.side.position = p.side.position := by
  induction fuel generalizing next p with
  | zero =>
    cases h
    rfl
  | succ fuel ih =>
    cases next with
    | none =>
      cases h
      rfl
    | some slot =>
      rw [passCarriers] at h
      obtain ⟨s, -, h⟩ := Fault.bind_eq_ok.mp h
      split at h
      · cases h
        rfl
      · obtain ⟨⟨next, ring⟩, -, h⟩ := Fault.bind_eq_ok.mp h
        rw [ih h, side_publishCompletion]

theorem position_advance {next : Option Nat} (h : advance next p = .ok p') :
    p'.side.position = p.side.position := by
  unfold advance at h
  split at h
  · cases h
    rfl
  · exact position_passCarriers h

theorem position_settle {t : Traversal} (h : p.settle t = .ok p') :
    p'.side.position = p.side.position := by
  unfold settle at h
  split at h
  · split at h
    · cases h
      rfl
    · obtain ⟨s, -, h⟩ := Fault.bind_eq_ok.mp h
      obtain ⟨⟨next, ring⟩, -, h⟩ := Fault.bind_eq_ok.mp h
      rw [position_advance h, side_publishCompletion]
      rfl
  · cases h
    rfl

theorem position_prepare (h : p.prepare = .ok p') : p'.side.position = p.side.position := by
  unfold prepare at h
  split at h
  · cases h
    rfl
  · split at h
    · cases h
      split <;> rfl
    · rw [beginNext_eq_advance] at h
      rw [position_advance h]

theorem position_traverse {t : Traversal} {o : StepOutput} (h : p.traverse t = .ok (o, p'))
    (a : Axis) : (p'.side.position.get a).toInt =
      (p.side.position.get a).toInt + Stepper.maskedStep o.step o.directions a := by
  have hidle : Stepper.maskedStep StepOutput.idle.step StepOutput.idle.directions a = 0 := by
    cases a <;> rfl
  unfold traverse at h
  dsimp only at h
  split at h
  · cases h
    rw [hidle, Int.add_zero]
    rfl
  · unfold advancePhase at h
    dsimp only at h
    split at h
    · rw [performEvent_eq_settle] at h
      obtain ⟨position, hmove, h⟩ := Fault.bind_eq_ok.mp h
      obtain ⟨settled, hsettle, h⟩ := Fault.bind_eq_ok.mp h
      cases h
      rw [position_settle hsettle]
      exact Stepper.toInt_movePosition hmove a
    · cases h
      rw [hidle, Int.add_zero]
      rfl

/-- A tick changes the position by the steps of its output and by nothing else. -/
theorem position_tick {o : StepOutput} (h : p.tick = .ok (o, p')) (a : Axis) :
    (p'.side.position.get a).toInt =
      (p.side.position.get a).toInt + Stepper.maskedStep o.step o.directions a := by
  rw [tick_eq_prepare] at h
  obtain ⟨ready, hready, h⟩ := Fault.bind_eq_ok.mp h
  rw [← position_prepare hready]
  split at h
  · exact position_traverse h a
  · cases h
    cases a <;> exact (Int.add_zero _).symm

end Plant

/-! ## Rigs -/

/-- A stepper with the lines that its outputs are driven to. -/
structure Rig (n : Nat) where
  /-- the stepper with what it shares with the main loop -/
  plant : Plant n Stepper
  /-- the pulse in progress -/
  pulse : Pulse
  /-- the drivers -/
  bank : DriverBank

namespace Rig

/-- A rig as it is set up, on lines at any levels. -/
def ofSettings (p : Plant n Stepper) (s : Settings) (timerHz : UInt32)
    (levels : PerAxis (PerLead Bool)) (enableWired : PerAxis Bool) : Rig n where
  plant := p
  pulse := .ofSettings s timerHz
  bank := (DriverBank.start (.reliable levels) s enableWired).2

/-- A tick of the step timer, the output of which is driven. -/
def tick (r : Rig n) : Except Fault (StepOutput × Rig n) := do
  let (o, plant) ← r.plant.tick
  let (_, pulse, bank) := r.pulse.start r.bank o
  return (o, ⟨plant, pulse, bank⟩)

/-- The reset timer has run out. -/
def stop (r : Rig n) : Rig n :=
  let (_, pulse, bank) := r.pulse.stop r.bank
  ⟨r.plant, pulse, bank⟩

/-- Enable or disable the drivers. -/
def enable (r : Rig n) (on : Bool) : Rig n := { r with bank := (r.bank.enable on).2 }

/-- Runs of a rig with the outputs of its ticks. Anything may happen to the plant between the ticks
that leaves the counted position alone. -/
inductive Runs : Rig n → List StepOutput → Rig n → Prop
  | refl (r : Rig n) : Runs r [] r
  | tick {r r' r'' : Rig n} {os : List StepOutput} {o : StepOutput} (h : Runs r os r')
      (htick : r'.tick = .ok (o, r'')) : Runs r (os ++ [o]) r''
  | stop {r r' : Rig n} {os : List StepOutput} (h : Runs r os r') : Runs r os r'.stop
  | enable {r r' : Rig n} {os : List StepOutput} (h : Runs r os r') (on : Bool) :
      Runs r os (r'.enable on)
  | meanwhile {r r' : Rig n} {os : List StepOutput} (h : Runs r os r') (p : Plant n Stepper)
      (hp : p.side.position = r'.plant.side.position) : Runs r os { r' with plant := p }

/-- The edges that some outputs ask for. -/
def asked (pins : Wiring) (os : List StepOutput) (a : Axis) : List Bool :=
  os.flatMap fun o => Pulse.asked pins o a

/-- What a run has done: the lines have made the edges that were asked for, and the position has
changed by the steps of the outputs. -/
structure Done (r : Rig n) (os : List StepOutput) (r' : Rig n) : Prop where
  /-- pulse and lines agree -/
  tracks : r'.pulse.Tracks r'.bank
  /-- the edges are made -/
  drives : r.bank.Drives (asked r.bank.wiring os) r'.bank
  /-- the position counts the steps -/
  moved : ∀ a, (r'.plant.side.position.get a).toInt = (r.plant.side.position.get a).toInt +
    (os.map fun o => Stepper.maskedStep o.step o.directions a).sum

theorem Runs.done {r r' : Rig n} {os : List StepOutput} (h : Runs r os r')
    (hr : r.pulse.Tracks r.bank) : r.Done os r' := by
  induction h with
  | refl => exact ⟨hr, .refl _, fun a => (Int.add_zero _).symm⟩
  | @tick r' r'' os o h htick ih =>
    obtain ⟨⟨o', plant⟩, hplant, htick⟩ := Fault.bind_eq_ok.mp htick
    obtain ⟨wait, pulse, bank, hstart, htracks, hdrives⟩ := Pulse.start_drives ih.tracks o'
    simp only [hstart] at htick
    cases htick
    refine ⟨htracks, (ih.drives.trans hdrives).congr fun a => ?_, fun a => ?_⟩
    · rw [asked, asked, List.flatMap_append, List.flatMap_singleton]
      have hwiring : r'.bank.wiring = r.bank.wiring := ih.drives.pins_eq
      rw [hwiring]
    · rw [Plant.position_tick hplant a, ih.moved a, List.map_append, List.sum_append]
      simp only [List.map_cons, List.map_nil, List.sum_singleton, Int.add_assoc]
  | @stop r' os h ih =>
    obtain ⟨pulse, bank, hstop, htracks, hdrives⟩ := Pulse.stop_drives ih.tracks
    rw [Rig.stop, hstop]
    exact ⟨htracks, (ih.drives.trans hdrives).congr fun a => List.append_nil _, ih.moved⟩
  | @enable r' os h on ih =>
    obtain ⟨bank, henable, hsound, hdrives, hlowered⟩ := ih.tracks.sound.enable on
    rw [Rig.enable, henable]
    exact ⟨⟨hsound, fun hup => hlowered (ih.tracks.lowered hup)⟩,
      (ih.drives.trans hdrives).congr fun a => List.append_nil _, ih.moved⟩
  | meanwhile h p hp ih => exact ⟨ih.tracks, ih.drives, fun a => hp ▸ ih.moved a⟩

/-- The edges of an actuator say how far it moves. -/
theorem count_asked (pins : Wiring) (os : List StepOutput) (a : Axis) :
    ((asked pins os a).count (pins.level ⟨a, .dir⟩ false) : Int) -
        (asked pins os a).count (pins.level ⟨a, .dir⟩ true) =
      (os.map fun o => Stepper.maskedStep o.step o.directions a).sum := by
  have hne := pins.level_false_ne_true ⟨a, .dir⟩
  induction os with
  | nil => rfl
  | cons o os ih =>
    have hone : ((Pulse.asked pins o a).count (pins.level ⟨a, .dir⟩ false) : Int) -
        (Pulse.asked pins o a).count (pins.level ⟨a, .dir⟩ true) =
        Stepper.maskedStep o.step o.directions a := by
      unfold Pulse.asked Stepper.maskedStep Directions.signed
      split
      · cases o.directions.isNegative a.index <;> simp [hne, hne.symm]
      · rfl
    rw [asked, List.flatMap_cons, List.count_append, List.count_append, List.map_cons,
      List.sum_cons, ← hone, ← ih, asked]
    omega

theorem asked_eq_map (pins : Wiring) (os : List StepOutput) (a : Axis) :
    asked pins os a = (os.filter (a.isIn ·.step)).map
      fun o => pins.level ⟨a, .dir⟩ (o.directions.isNegative a.index) := by
  induction os with
  | nil => rfl
  | cons o os ih =>
    rw [asked, List.flatMap_cons, ← asked, ih, Pulse.asked, List.filter_cons]
    split <;> rfl

/-- In every run of a rig that starts with its lines at any levels, each actuator makes one step for
every output that has it in its mask and no other, in the direction of that output; the steps in
positive direction less those in negative direction are the change of the counted position. -/
theorem Runs.edges_match_position {p : Plant n Stepper} {s : Settings} {timerHz : UInt32}
    {levels : PerAxis (PerLead Bool)} {enableWired : PerAxis Bool} {os : List StepOutput}
    {r : Rig n} (h : Runs (ofSettings p s timerHz levels enableWired) os r) (a : Axis) :
    let pins : Wiring := s.axes.map fun a => ⟨a.stepPin, a.dirPin, a.enablePin⟩
    let seen := edges pins a (Wires.reliable levels).level r.bank.wires.writes.toList
    seen = ((os.filter (a.isIn ·.step)).map fun o =>
        (s.axes.get a).dirPin.level (o.directions.isNegative a.index)) ∧
      seen.length = os.countP (a.isIn ·.step) ∧
      (seen.count ((s.axes.get a).dirPin.level false) : Int) -
          seen.count ((s.axes.get a).dirPin.level true) =
        (r.plant.side.position.get a).toInt - (p.side.position.get a).toInt := by
  intro pins seen
  obtain ⟨b, hstart, hsound, hlowered, hpins, hlevel, hnone⟩ :=
    DriverBank.start_drives levels s enableWired
  have hbank : (ofSettings p s timerHz levels enableWired).bank = b := congrArg Prod.snd hstart
  have hdone := h.done ⟨hbank ▸ hsound, fun _ => hbank ▸ hlowered⟩
  obtain ⟨hdrives, hmoved⟩ := And.intro hdone.drives (hdone.moved a)
  rw [hbank] at hdrives
  have hwiring : b.wiring = pins := hpins
  have hdir (active : Bool) : pins.level ⟨a, .dir⟩ active = (s.axes.get a).dirPin.level active := by
    simp [pins, Wiring.level, PerLead.get]
  -- the record starts with what brought the lines to rest, which holds no edge
  have hseen : seen = asked pins os a := by
    obtain ⟨vs, hwrites, -, hmade⟩ := hdrives.record
    have hfirst := hnone a
    rw [hwiring] at hmade hfirst
    show edges pins a _ _ = _
    rw [hwrites, edges_append, hfirst, ← hlevel, hmade, List.nil_append]
  have hmap : seen = (os.filter (a.isIn ·.step)).map fun o =>
      (s.axes.get a).dirPin.level (o.directions.isNegative a.index) := by
    simp only [hseen, asked_eq_map, hdir]
  refine ⟨hmap, ?_, ?_⟩
  · rw [hmap, List.length_map, List.countP_eq_length_filter]
  · have hcount := count_asked pins os a
    rw [← hseen, hdir, hdir] at hcount
    rw [hcount, hmoved]
    simp only [ofSettings]
    omega

/-- A run in which the second pulse begins before the first one has been ended. -/
theorem Runs.edges_match_position_overlapping :
    ∃ (p : Plant 2 Stepper) (os : List StepOutput) (r : Rig 2),
      Runs (ofSettings p .withDefaultPins 1000000 (.const ⟨true, true, true⟩) (.const true)) os r ∧
      os.countP (Axis.alpha.isIn ·.step) = 3 ∧
      (edges (Settings.withDefaultPins.axes.map fun a => ⟨a.stepPin, a.dirPin, a.enablePin⟩) .alpha
        (Wires.reliable (.const ⟨true, true, true⟩)).level
        r.bank.wires.writes.toList).length = 3 := by
  obtain ⟨p, hrun⟩ : ∃ p : Plant 2 Stepper,
      ((do
        let (o₁, r₁) ← (ofSettings p .withDefaultPins 1000000 (.const ⟨true, true, true⟩)
          (.const true)).tick
        let (o₂, r₂) ← r₁.tick
        let (o₃, r₃) ← r₂.stop.tick
        return ([o₁, o₂, o₃], r₃)) : Except Fault _).toOption.any (fun x =>
          x.1.countP (Axis.alpha.isIn ·.step) == 3) = true :=
    ⟨{  ring := .ofLen 2 (by decide) (by decide)
        stop := .clear
        events := #[]
        side := {
          baseFrequency := 100
          minimumRate := 100
          current := some { Traversal.ofSegment 0
            { Segment.empty with steps := ⟨4, 2, 0⟩, eventCount := 4, directions := ⟨1⟩ } with
              increment := .one }
          position := .const 0 } }, by decide +kernel⟩
  obtain ⟨⟨os, r⟩, hrun, hcount⟩ := Fault.exists_eq_ok hrun
  obtain ⟨⟨o₁, r₁⟩, h₁, hrun⟩ := Fault.bind_eq_ok.mp hrun
  obtain ⟨⟨o₂, r₂⟩, h₂, hrun⟩ := Fault.bind_eq_ok.mp hrun
  obtain ⟨⟨o₃, r₃⟩, h₃, hrun⟩ := Fault.bind_eq_ok.mp hrun
  cases hrun
  have hruns := (((Runs.refl _).tick h₁).tick h₂).stop.tick h₃
  have hcount' := beq_iff_eq.mp hcount
  exact ⟨p, _, _, hruns, hcount', (hruns.edges_match_position .alpha).2.1.trans hcount'⟩

end Rig

end MotionControl
