import Mathlib.Data.List.Nodup
import MotionControl.Proofs.Drive.Failures

/-!
# Stray step lines

A pulse counts as up when all of its step lines have been raised. If raising one of them fails, the
ones before it are up and the pulse does not count as such: these lines are stray. A `Pulser` notes
that (`Pulser.stray`), until a pulse is ended.

In every run of pulses, whatever fails, the step lines are inactive when no pulse is up, unless
there are stray ones; and if there are none, or a pulse is up, an output that is driven makes one
edge on every line of its mask and no other (`Pulser.lines_low`). With stray lines neither holds
(`Pulse.stray_after_failure`).
-/

namespace MotionControl

namespace DriverBank

variable {b b' : DriverBank} {l : Lead} {active : Axis → Bool} {as : List Axis}

/-! ## Step lines -/

/-- What raises no step line makes no edge. -/
theorem Writes.drives (h : b.Writes l active as b')
    (hnone : l = .step → ∀ a ∈ as, active a = false) : b.Drives (fun _ => []) b' := by
  refine ⟨h.pins_eq, _, h.writes_eq, h.level_eq, fun a => edges_eq_nil fun hmem => ?_⟩
  obtain ⟨c, hc, heq⟩ := List.mem_map.mp hmem
  obtain ⟨hwire, hlevel⟩ := Prod.mk.inj heq
  obtain ⟨rfl, rfl⟩ := Wire.mk.inj hwire
  rw [hnone rfl c hc] at hlevel
  exact b.wiring.level_false_ne_true ⟨c, .step⟩ hlevel

/-- Raising step lines that are inactive makes an edge on each. -/
theorem Writes.drives_raise (h : b.Writes .step (fun _ => true) as b') (hlowered : b.Lowered)
    (hnodup : as.Nodup) :
    b.Drives (fun a => if a ∈ as then [b.wires.level ⟨a, .dir⟩] else []) b' :=
  ⟨h.pins_eq, _, h.writes_eq, h.level_eq, fun a => edges_raise hnodup (hlowered a)⟩

/-- The step lines are left alone. -/
structure Rests (b : DriverBank) (answer : Option Wire) (b' : DriverBank) : Prop where
  /-- there is no edge -/
  drives : b.Drives (fun _ => []) b'
  /-- inactive step lines stay inactive -/
  lowered : b.Lowered → b'.Lowered
  /-- no write to them has failed -/
  answer_ne : ∀ w, answer = some w → w.lead ≠ .step

theorem Rests.refl (b : DriverBank) : b.Rests none b := ⟨.refl b, id, nofun⟩

theorem Writes.rests (h : b.Writes l active as b') (hl : l ≠ .step) {answer : Option Wire}
    (hanswer : ∀ w, answer = some w → w.lead = l) : b.Rests answer b' := by
  refine ⟨h.drives fun heq => absurd heq hl, fun hlowered a => ?_, fun w hw => hanswer w hw ▸ hl⟩
  rw [h.level_of_ne hl, wiring, h.pins_eq]
  exact hlowered a

theorem rests_setDirections (b : DriverBank) (d : Directions) :
    b.Rests (b.setDirections d).1 (b.setDirections d).2 := by
  by_cases hd : b.directions = some d
  · rw [setDirections_of_latched hd]
    exact .refl b
  · rw [setDirections_of_ne hd]
    obtain ⟨b', h, hok⟩ | ⟨bs, a, b', -, h, hfail⟩ := b.perform_cases .dir
      (fun a => d.isNegative a.index) Axis.all fun b => { b with directions := some d }
    · rw [hok]
      have hrests : b.Rests none b' := h.rests (by decide) nofun
      obtain ⟨⟨hpins, hrecord⟩, hlowered, -⟩ := hrests
      exact ⟨⟨hpins, hrecord⟩, hlowered, nofun⟩
    · rw [hfail]
      exact h.rests (by decide) fun w hw => by cases hw; rfl

theorem rests_enable (b : DriverBank) (on : Bool) : b.Rests (b.enable on).1 (b.enable on).2 := by
  obtain ⟨b', h, hok⟩ | ⟨bs, a, b', -, h, hfail⟩ := b.perform_cases .enable (fun _ => on)
    (Axis.all.filter b.enableWired.get) fun b => { b with enabled := on }
  · rw [enable, hok]
    have hrests : b.Rests none b' := h.rests (by decide) nofun
    obtain ⟨⟨hpins, hrecord⟩, hlowered, -⟩ := hrests
    exact ⟨⟨hpins, hrecord⟩, hlowered, nofun⟩
  · rw [enable, hfail]
    exact h.rests (by decide) fun w hw => by cases hw; rfl

/-- Lowering the step lines makes no edge, even if it fails. -/
theorem unstep_cases (b : DriverBank) :
    (∃ b', b.unstep = (none, b') ∧ b.Drives (fun _ => []) b' ∧ b'.Lowered) ∨
      ∃ a b', b.unstep = (some ⟨a, .step⟩, b') ∧ b.Drives (fun _ => []) b' := by
  obtain ⟨b', h, hok⟩ | ⟨bs, a, b', -, h, hfail⟩ := b.perform_cases .step (fun _ => false) Axis.all
    id
  · refine .inl ⟨b', hok, h.drives fun _ _ _ => rfl, fun a => ?_⟩
    rw [h.level, if_pos ⟨Axis.mem_all a, rfl⟩, wiring, wiring, h.pins_eq]
  · exact .inr ⟨a, b', hfail, h.drives fun _ _ _ => rfl⟩

/-- Raising step lines that are inactive makes an edge on each of the mask. -/
theorem step_cases (b : DriverBank) (mask : UInt8) :
    (∃ b', b.step mask = (none, b') ∧ b'.pins = b.pins ∧ (b.Lowered →
      b.Drives (fun a => if a.isIn mask then [b.wires.level ⟨a, .dir⟩] else []) b')) ∨
      ∃ a b', b.step mask = (some ⟨a, .step⟩, b') ∧ b'.pins = b.pins := by
  obtain ⟨b', h, hok⟩ | ⟨bs, a, b', -, h, hfail⟩ := b.perform_cases .step (fun _ => true)
    (Axis.all.filter (·.isIn mask)) id
  · refine .inl ⟨b', hok, h.pins_eq, fun hlowered => ?_⟩
    have hnodup := List.Nodup.filter (·.isIn mask) (by decide : Axis.all.Nodup)
    refine (h.drives_raise hlowered hnodup).congr fun a => ?_
    simp only [List.mem_filter, Axis.mem_all, true_and]
  · exact .inr ⟨a, b', hfail, h.pins_eq⟩

/-- A bank that has come to rest has its step lines inactive. -/
theorem lowered_of_start {wires : Wires} {s : Settings} {enableWired : PerAxis Bool}
    (h : start wires s enableWired = (none, b)) : b.Lowered := by
  unfold start at h
  dsimp only at h
  obtain ⟨b₁, hunstep, -, hlowered⟩ | ⟨a, b₁, hunstep, -⟩ := unstep_cases
    ⟨wires, s.axes.map fun a => ⟨a.stepPin, a.dirPin, a.enablePin⟩, enableWired, none, false⟩
  · rw [hunstep] at h
    have hrests := b₁.rests_enable false
    rw [show b₁.enable false = (none, b) from h] at hrests
    exact hrests.lowered hlowered
  · rw [hunstep] at h
    cases h

end DriverBank

namespace Pulse

/-- Every line of the mask makes one edge, and no other line makes any. -/
def Fresh (o : StepOutput) (b b' : DriverBank) : Prop :=
  ∃ made, b.Drives made b' ∧ ∀ a, (made a).length = if a.isIn o.step then 1 else 0

/-- How driving an output may end. -/
inductive Starts (p : Pulse) (b : DriverBank) (o : StepOutput) :
    Except Wire (Option UInt32) → Pulse → DriverBank → Prop
  /-- there is nothing to drive -/
  | idle (ho : o.hasSteps = false) : Starts p b o (.ok none) p b
  /-- all lines have been raised -/
  | raised {b' : DriverBank} (hpins : b'.pins = b.pins)
      (hfresh : p.asserted = true ∨ b.Lowered → Fresh o b b') :
      Starts p b o (.ok (some p.width)) { p with asserted := true } b'
  /-- some line could not be written -/
  | failed {w : Wire} {b' : DriverBank} (hpins : b'.pins = b.pins)
      (hlowered : w.lead ≠ .step → p.asserted = false → b.Lowered → b'.Lowered) :
      Starts p b o (.error w) p b'

/-- The lines are made ready for an output. -/
theorem ready_cases (p : Pulse) (b : DriverBank) :
    (∃ b', (if p.asserted = true then b.unstep else (none, b)) = (none, b') ∧
      b.Drives (fun _ => []) b' ∧ (p.asserted = true ∨ b.Lowered → b'.Lowered)) ∨
      ∃ a b', (if p.asserted = true then b.unstep else (none, b)) = (some ⟨a, .step⟩, b') ∧
        b'.pins = b.pins := by
  split
  · obtain ⟨b', hok, hdrives, hlowered⟩ | ⟨a, b', hfail, hdrives⟩ := b.unstep_cases
    · exact .inl ⟨b', hok, hdrives, fun _ => hlowered⟩
    · exact .inr ⟨a, b', hfail, hdrives.pins_eq⟩
  · next hdown => exact .inl ⟨b, rfl, .refl b, fun h => h.resolve_left hdown⟩

theorem starts (p : Pulse) (b : DriverBank) (o : StepOutput) :
    p.Starts b o (p.start b o).1 (p.start b o).2.1 (p.start b o).2.2 := by
  by_cases ho : o.hasSteps = true
  · rw [start, if_pos ho]
    dsimp only
    obtain ⟨b₁, hready, hdrives₁, hlowered₁⟩ | ⟨a, b₁, hready, hpins⟩ := p.ready_cases b
    · rw [hready, DriverBank.andThen, DriverBank.apply, if_pos ho]
      have hrests := b₁.rests_setDirections o.directions
      cases hset : b₁.setDirections o.directions with
      | mk answer b₂ =>
        rw [hset] at hrests
        have hpins₂ := hrests.drives.pins_eq.trans hdrives₁.pins_eq
        cases answer with
        | some w =>
          exact .failed hpins₂ fun _ _ hlowered => hrests.lowered (hlowered₁ (.inr hlowered))
        | none =>
          dsimp only [DriverBank.andThen]
          obtain ⟨b₃, hstep, hpins₃, hdrives₃⟩ | ⟨a, b₃, hstep, hpins₃⟩ := b₂.step_cases o.step
          · rw [hstep]
            refine .raised (hpins₃.trans hpins₂) fun h => ?_
            refine ⟨_, (hdrives₁.trans hrests.drives).trans
              (hdrives₃ (hrests.lowered (hlowered₁ h))), fun a => ?_⟩
            split <;> rfl
          · rw [hstep]
            exact .failed (hpins₃.trans hpins₂) fun hne => absurd rfl hne
    · rw [hready]
      exact .failed hpins fun hne => absurd rfl hne
  · rw [start, if_neg ho]
    exact .idle (Bool.eq_false_iff.mpr ho)

end Pulse

/-! ## Runs of pulses -/

/-- Pulses on a bank that are watched for failures. -/
structure Pulser where
  /-- the pulse in progress -/
  pulse : Pulse
  /-- the bank -/
  bank : DriverBank
  /-- a write to a step line has failed while an output was driven, and no pulse has ended since -/
  stray : Bool

namespace Pulser

/-- One thing that is done with pulses. -/
inductive Act where
  /-- drive the output of a step tick -/
  | start (o : StepOutput)
  /-- lower the step lines if a pulse is in progress -/
  | stop
  /-- enable or disable the drivers -/
  | enable (on : Bool)

/-- Do one thing, whether or not it succeeds. -/
def act (u : Pulser) : Act → Pulser
  | .start o =>
    let (answer, pulse, bank) := u.pulse.start u.bank o
    let failed := match answer with
      | .ok _ => false
      | .error w => decide (w.lead = .step)
    ⟨pulse, bank, u.stray || failed⟩
  | .stop =>
    let (_, pulse, bank) := u.pulse.stop u.bank
    let ended := u.pulse.asserted && !pulse.asserted
    ⟨pulse, bank, u.stray && !ended⟩
  | .enable on => { u with bank := (u.bank.enable on).2 }

/-- Do several things. -/
def run (u : Pulser) (acts : List Act) : Pulser := acts.foldl act u

/-- The step lines are inactive when no pulse is up, except for stray ones. -/
def Tidy (u : Pulser) : Prop := u.pulse.asserted = false → u.stray = false → u.bank.Lowered

variable {u : Pulser}

theorem Tidy.start (h : u.Tidy) (o : StepOutput) :
    (u.act (.start o)).Tidy ∧ (u.act (.start o)).bank.pins = u.bank.pins := by
  have hstarts := u.pulse.starts u.bank o
  rw [act]
  cases hr : u.pulse.start u.bank o with
  | mk answer r =>
    rw [hr] at hstarts
    obtain ⟨pulse, bank⟩ := r
    cases hstarts with
    | idle ho => exact ⟨fun hdown hstray => h hdown (Bool.or_eq_false_iff.mp hstray).1, rfl⟩
    | raised hpins hfresh => exact ⟨nofun, hpins⟩
    | failed hpins hlowered =>
      refine ⟨fun hdown hstray => ?_, hpins⟩
      obtain ⟨hstray, hstep⟩ := Bool.or_eq_false_iff.mp hstray
      exact hlowered (of_decide_eq_false hstep) hdown (h hdown hstray)

theorem Tidy.stop (h : u.Tidy) :
    (u.act .stop).Tidy ∧ (u.act .stop).bank.pins = u.bank.pins := by
  rw [act, Pulse.stop]
  cases hup : u.pulse.asserted with
  | true =>
    rw [if_pos rfl]
    obtain ⟨b', hok, hdrives, hlowered⟩ | ⟨a, b', hfail, hdrives⟩ := u.bank.unstep_cases
    · rw [hok]
      exact ⟨fun _ _ => hlowered, hdrives.pins_eq⟩
    · rw [hfail]
      refine ⟨fun hdown => ?_, hdrives.pins_eq⟩
      rw [show u.pulse.asserted = false from hdown] at hup
      cases hup
  | false =>
    rw [if_neg Bool.false_ne_true]
    exact ⟨fun hdown hstray => h hdown (by simpa using hstray), rfl⟩

theorem Tidy.enable (h : u.Tidy) (on : Bool) :
    (u.act (.enable on)).Tidy ∧ (u.act (.enable on)).bank.pins = u.bank.pins := by
  have hrests := u.bank.rests_enable on
  exact ⟨fun hdown hstray => hrests.lowered (h hdown hstray), hrests.drives.pins_eq⟩

/-- Whatever is done, and wherever it fails. -/
theorem Tidy.act (h : u.Tidy) (c : Act) : (u.act c).Tidy ∧ (u.act c).bank.pins = u.bank.pins := by
  cases c with
  | start o => exact h.start o
  | stop => exact h.stop
  | enable on => exact h.enable on

theorem Tidy.run (h : u.Tidy) (acts : List Act) :
    (u.run acts).Tidy ∧ (u.run acts).bank.pins = u.bank.pins := by
  induction acts generalizing u with
  | nil => exact ⟨h, rfl⟩
  | cons c acts ih =>
    obtain ⟨hact, hpins⟩ := h.act c
    obtain ⟨hrun, hpins'⟩ := ih hact
    exact ⟨hrun, hpins'.trans hpins⟩

/-- In every run of pulses, in which any writes may have failed, all step lines are inactive when no
pulse is up and no line is stray. And if a pulse is up or no line is stray, each output that is
driven makes exactly one edge on every line of its mask. -/
theorem lines_low {wires : Wires} {s : Settings} {enableWired : PerAxis Bool} {b : DriverBank}
    (hstart : DriverBank.start wires s enableWired = (none, b)) {p : Pulse} (acts : List Act)
    {u : Pulser} (hu : run ⟨p, b, false⟩ acts = u) :
    (u.pulse.asserted = false → u.stray = false →
      ∀ a, u.bank.wires.level ⟨a, .step⟩ = (s.axes.get a).stepPin.level false) ∧
    (u.pulse.asserted = true ∨ u.stray = false →
      ∀ o wait p' b', u.pulse.start u.bank o = (.ok wait, p', b') → Pulse.Fresh o u.bank b') := by
  have htidy : Tidy ⟨p, b, false⟩ := fun _ _ => DriverBank.lowered_of_start hstart
  obtain ⟨hrun, hpins⟩ := htidy.run acts
  rw [hu] at hrun hpins
  refine ⟨fun hdown hstray a => ?_, fun hready o wait p' b' hok => ?_⟩
  · rw [hrun hdown hstray a, DriverBank.wiring, hpins, (DriverBank.start_eq_none hstart).2,
      Wiring.level, PerAxis.get_map]
    rfl
  · have hstarts := u.pulse.starts u.bank o
    rw [hok] at hstarts
    cases hstarts with
    | idle ho =>
      refine ⟨_, .refl _, fun a => ?_⟩
      rw [show o.step = 0 by simpa [StepOutput.hasSteps] using ho]
      cases a <;> rfl
    | raised hpins hfresh =>
      refine hfresh ?_
      cases hup : u.pulse.asserted with
      | true => exact .inl rfl
      | false =>
        rw [hup] at hready
        exact .inr (hrun hup (hready.resolve_left Bool.false_ne_true))

/-- Ending a pulse fails at first; the next output is driven all the same. -/
theorem lines_low_late_end : ∃ (wires : Wires) (b : DriverBank) (acts : List Act) (u : Pulser),
    DriverBank.start wires .withDefaultPins (.const true) = (none, b) ∧
    run ⟨⟨1, false⟩, b, false⟩ acts = u ∧
    u.pulse.asserted = true ∧ u.bank.wires.level ⟨.alpha, .step⟩ = true ∧
    ∀ o wait p' b', u.pulse.start u.bank o = (.ok wait, p', b') → Pulse.Fresh o u.bank b' := by
  obtain ⟨acts, b, u, hstart, hu, hup, hlevel⟩ : ∃ (acts : List Act) (b : DriverBank) (u : Pulser),
      DriverBank.start (.low [10]) .withDefaultPins (.const true) = (none, b) ∧
      run ⟨⟨1, false⟩, b, false⟩ acts = u ∧
      u.pulse.asserted = true ∧ u.bank.wires.level ⟨.alpha, .step⟩ = true :=
    ⟨[.start ⟨1, ⟨0⟩⟩, .stop], _, _, rfl, rfl, rfl, rfl⟩
  exact ⟨_, b, acts, u, hstart, hu, hup, hlevel, (lines_low hstart acts hu).2 (.inl hup)⟩

end Pulser

/-- Of two step lines that are to be raised the second one fails. No pulse is up then, but the first
line is active, and the next output that is driven makes no edge on it. -/
theorem Pulse.stray_after_failure : ∃ (wires : Wires) (b b₁ b₂ : DriverBank) (p p₁ p₂ : Pulse)
    (wait : Option UInt32), DriverBank.start wires .withDefaultPins (.const true) = (none, b) ∧
    p.asserted = false ∧ p.start b ⟨3, ⟨0⟩⟩ = (.error ⟨.beta, .step⟩, p₁, b₁) ∧ p₁.asserted = false ∧
    b₁.wires.level ⟨.alpha, .step⟩ =
      (Settings.withDefaultPins.axes.get .alpha).stepPin.level true ∧
    p₁.start b₁ ⟨1, ⟨0⟩⟩ = (.ok wait, p₂, b₂) ∧
    b₂.wires.risingEdges ⟨.alpha, .step⟩ = b₁.wires.risingEdges ⟨.alpha, .step⟩ :=
  ⟨.low [10], _, _, _, ⟨1, false⟩, _, _, _, rfl, rfl, rfl, rfl, by decide +kernel, rfl,
    by decide +kernel⟩

end MotionControl
