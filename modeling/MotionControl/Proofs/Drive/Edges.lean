import MotionControl.Drive.Pulse

/-!
# Edges of the step lines

An actuator makes a step whenever its step line becomes active, in the direction that its direction
line says at that moment. `edges` reads these moments off a record of writes.

Of every operation of a driver bank it is shown which edges it makes (`DriverBank.Drives`): only
`DriverBank.step` makes any, one on each line of its mask, provided that all step lines are inactive
before; and the direction lines say what was latched last. `Pulse.start` sees to the proviso,
whether or not the last pulse has been ended in time (`Pulse.start_drives`).
-/

namespace MotionControl

/-- A level for every line. -/
abbrev Levels := Wire → Bool

namespace Levels

/-- The levels after one write. -/
def write (levels : Levels) (w : Wire × Bool) : Levels :=
  fun v => if w.1 = v then w.2 else levels v

/-- The levels after several writes. -/
def replay (levels : Levels) (ws : List (Wire × Bool)) : Levels := ws.foldl write levels

theorem replay_append (levels : Levels) (ws vs : List (Wire × Bool)) :
    levels.replay (ws ++ vs) = (levels.replay ws).replay vs := List.foldl_append

theorem replay_map {levels : Levels} {as : List Axis} {l k : Lead} {f : Axis → Bool} {a : Axis} :
    levels.replay (as.map fun b => (⟨b, l⟩, f b)) ⟨a, k⟩ =
      if a ∈ as ∧ l = k then f a else levels ⟨a, k⟩ := by
  induction as generalizing levels with
  | nil => simp [replay]
  | cons b as ih =>
    show (levels.write (⟨b, l⟩, f b)).replay _ _ = _
    rw [ih]
    by_cases hb : b = a ∧ l = k
    · obtain ⟨rfl, rfl⟩ := hb
      simp [write]
    · have hw : (⟨b, l⟩ : Wire) ≠ ⟨a, k⟩ := fun h => hb (by simpa using h)
      simp only [write, if_neg hw, List.mem_cons]
      grind

end Levels

/-- The wiring of all lines. -/
abbrev Wiring := PerAxis (PerLead Pin)

/-- The level of a line in a logical state. -/
def Wiring.level (pins : Wiring) (w : Wire) (active : Bool) : Bool :=
  ((pins.get w.axis).get w.lead).level active

theorem Wiring.level_false_ne_true (pins : Wiring) (w : Wire) :
    pins.level w false ≠ pins.level w true := fun h => by
  cases Pin.level_injective _ h

/-! ## Edges of a record -/

/-- The level of the direction line of an actuator at each moment its step line becomes active. -/
def edges (pins : Wiring) (a : Axis) : Levels → List (Wire × Bool) → List Bool
  | _, [] => []
  | levels, w :: ws =>
    let after := levels.write w
    let later := edges pins a after ws
    if levels ⟨a, .step⟩ = pins.level ⟨a, .step⟩ false ∧
        after ⟨a, .step⟩ = pins.level ⟨a, .step⟩ true then
      after ⟨a, .dir⟩ :: later
    else later

theorem edges_append (pins : Wiring) (a : Axis) (levels : Levels) (ws vs : List (Wire × Bool)) :
    edges pins a levels (ws ++ vs) =
      edges pins a levels ws ++ edges pins a (levels.replay ws) vs := by
  induction ws generalizing levels with
  | nil => rfl
  | cons w ws ih =>
    simp only [List.cons_append, edges, ih]
    split <;> rfl

/-- There is no edge unless the step line is written as active. -/
theorem edges_eq_nil {pins : Wiring} {a : Axis} {levels : Levels} {ws : List (Wire × Bool)}
    (h : (⟨a, .step⟩, pins.level ⟨a, .step⟩ true) ∉ ws) : edges pins a levels ws = [] := by
  induction ws generalizing levels with
  | nil => rfl
  | cons w ws ih =>
    rw [List.mem_cons, not_or] at h
    simp only [edges, ih h.2]
    refine if_neg fun ⟨hbefore, hafter⟩ => ?_
    unfold Levels.write at hafter
    split at hafter
    · next hw => exact h.1 (Prod.ext hw.symm hafter.symm)
    · exact pins.level_false_ne_true _ (hbefore.symm.trans hafter)

/-- Raising step lines makes one edge on each of them if they were inactive. -/
theorem edges_raise {pins : Wiring} {a : Axis} {levels : Levels} {as : List Axis}
    (hnodup : as.Nodup) (h : levels ⟨a, .step⟩ = pins.level ⟨a, .step⟩ false) :
    edges pins a levels (as.map fun b => (⟨b, .step⟩, pins.level ⟨b, .step⟩ true)) =
      if a ∈ as then [levels ⟨a, .dir⟩] else [] := by
  induction as generalizing levels with
  | nil => rfl
  | cons b as ih =>
    obtain ⟨hb, hnodup⟩ := List.nodup_cons.mp hnodup
    by_cases hba : b = a
    · subst hba
      -- the edge is here, and what follows writes other lines
      have hrest : (⟨b, .step⟩, pins.level ⟨b, .step⟩ true) ∉
          as.map fun c => ((⟨c, .step⟩ : Wire), pins.level ⟨c, .step⟩ true) := by
        intro hmem
        obtain ⟨c, hc, heq⟩ := List.mem_map.mp hmem
        have hcb : c = b := congrArg (fun w => w.1.axis) heq
        exact hb (hcb ▸ hc)
      simp [edges, edges_eq_nil hrest, h, Levels.write]
    · have hw : (⟨b, .step⟩ : Wire) ≠ ⟨a, .step⟩ := fun hw => hba (by simpa using hw)
      have hsame : levels.write (⟨b, .step⟩, pins.level ⟨b, .step⟩ true) ⟨a, .step⟩ =
          levels ⟨a, .step⟩ := if_neg hw
      have hdir : levels.write (⟨b, .step⟩, pins.level ⟨b, .step⟩ true) ⟨a, .dir⟩ =
          levels ⟨a, .dir⟩ := if_neg (by simp)
      have hno : ¬ levels ⟨a, .step⟩ = pins.level ⟨a, .step⟩ true :=
        fun htrue => pins.level_false_ne_true _ (h.symm.trans htrue)
      simp only [List.map_cons, edges, hsame, hno, and_false, if_false, ih hnodup (hsame.trans h),
        List.mem_cons, Ne.symm hba, false_or, hdir]

/-! ## Lines that never fail -/

/-- Lines at some levels, no write to which fails. -/
def Wires.reliable (levels : PerAxis (PerLead Bool)) : Wires where
  levels := levels
  writes := #[]
  attempts := 0
  failing := []

theorem Wires.writeAll_of_reliable {ws : Wires} (h : ws.failing = []) (vs : List (Wire × Bool)) :
    ∃ ws', ws.writeAll vs = (none, ws') ∧ ws'.failing = [] ∧
      ws'.writes.toList = ws.writes.toList ++ vs ∧ ws'.level = Levels.replay ws.level vs := by
  induction vs generalizing ws with
  | nil => exact ⟨ws, rfl, h, (List.append_nil _).symm, rfl⟩
  | cons v vs ih =>
    obtain ⟨w, high⟩ := v
    have hok : (ws.write w high).1 = true := by simp [Wires.write, h]
    have hlevel : (ws.write w high).2.level = Levels.write ws.level (w, high) := by
      funext u
      rw [Wires.level_write, hok]
      simp [Levels.write]
    have hwrites : (ws.write w high).2.writes.toList = ws.writes.toList ++ [(w, high)] := by
      simp [Wires.write, h]
    have hfailing : (ws.write w high).2.failing = [] := by simp [Wires.write, h]
    obtain ⟨ws', hall, hfailing', hwrites', hlevel'⟩ := ih hfailing
    refine ⟨ws', ?_, hfailing', ?_, ?_⟩
    · have hpair : ws.write w high = (true, (ws.write w high).2) := Prod.ext hok rfl
      rw [Wires.writeAll, hpair]
      exact hall
    · rw [hwrites', hwrites, List.append_assoc, List.singleton_append]
    · rw [hlevel', hlevel]
      rfl

/-! ## What a bank does to its lines -/

namespace DriverBank

variable {b b' b'' : DriverBank}

/-- The level that the bank drives a line to. -/
def wiring (b : DriverBank) : Wiring := b.pins

/-- No write fails, and the direction lines are as latched. -/
structure Sound (b : DriverBank) : Prop where
  /-- no write fails -/
  reliable : b.wires.failing = []
  /-- the direction lines are as latched -/
  latched : ∀ d, b.directions = some d → ∀ a,
    b.wires.level ⟨a, .dir⟩ = b.wiring.level ⟨a, .dir⟩ (d.isNegative a.index)

/-- All step lines are inactive. -/
def Lowered (b : DriverBank) : Prop :=
  ∀ a, b.wires.level ⟨a, .step⟩ = b.wiring.level ⟨a, .step⟩ false

/-- The bank has written to its lines and made these edges. -/
structure Drives (b : DriverBank) (made : Axis → List Bool) (b' : DriverBank) : Prop where
  /-- the pins are the same -/
  pins_eq : b'.pins = b.pins
  /-- what has been written, and the edges in it -/
  record : ∃ vs, b'.wires.writes.toList = b.wires.writes.toList ++ vs ∧
    b'.wires.level = Levels.replay b.wires.level vs ∧
    ∀ a, edges b.wiring a b.wires.level vs = made a

theorem Drives.refl (b : DriverBank) : b.Drives (fun _ => []) b :=
  ⟨rfl, [], (List.append_nil _).symm, rfl, fun _ => rfl⟩

theorem Drives.trans {made made' : Axis → List Bool} (h : b.Drives made b')
    (h' : b'.Drives made' b'') : b.Drives (fun a => made a ++ made' a) b'' := by
  obtain ⟨vs, hwrites, hlevel, hmade⟩ := h.record
  obtain ⟨vs', hwrites', hlevel', hmade'⟩ := h'.record
  refine ⟨h'.pins_eq.trans h.pins_eq, vs ++ vs', ?_, ?_, fun a => ?_⟩
  · rw [hwrites', hwrites, List.append_assoc]
  · rw [hlevel', hlevel, Levels.replay_append]
  · rw [edges_append, hmade, ← hlevel, ← hmade', wiring, wiring, h.pins_eq]

theorem Drives.congr {made made' : Axis → List Bool} (h : b.Drives made b')
    (hmade : ∀ a, made a = made' a) : b.Drives made' b' := by
  rwa [← funext hmade]

/-- Writes to lines of one kind, all of which succeed. -/
theorem Sound.perform (h : b.Sound) (as : List Axis) (l : Lead) (active : Axis → Bool)
    (done : DriverBank → DriverBank) :
    ∃ ws, b.perform (as.map fun a => b.drive a l (active a)) done =
        (none, done { b with wires := ws }) ∧
      ws.failing = [] ∧
      ws.writes.toList = b.wires.writes.toList ++ as.map (fun a => b.drive a l (active a)) ∧
      ws.level = Levels.replay b.wires.level (as.map fun a => b.drive a l (active a)) := by
  obtain ⟨ws, hall, hfailing, hwrites, hlevel⟩ := Wires.writeAll_of_reliable h.reliable
    (as.map fun a => b.drive a l (active a))
  exact ⟨ws, by rw [DriverBank.perform, hall], hfailing, hwrites, hlevel⟩

theorem drive_map_level (as : List Axis) (l k : Lead) (active : Axis → Bool) (a : Axis) :
    Levels.replay b.wires.level (as.map fun a => b.drive a l (active a)) ⟨a, k⟩ =
      if a ∈ as ∧ l = k then b.wiring.level ⟨a, l⟩ (active a) else b.wires.level ⟨a, k⟩ :=
  Levels.replay_map (f := fun a => b.wiring.level ⟨a, l⟩ (active a))

/-- Latching directions makes no edge. -/
theorem Sound.setDirections (h : b.Sound) (d : Directions) :
    ∃ b', b.setDirections d = (none, b') ∧ b'.Sound ∧ b.Drives (fun _ => []) b' ∧
      b'.directions = some d ∧ (b.Lowered → b'.Lowered) := by
  unfold DriverBank.setDirections
  split
  · next hd => exact ⟨b, rfl, h, .refl b, hd, id⟩
  · obtain ⟨ws, hok, hfailing, hwrites, hlevel⟩ := h.perform Axis.all .dir
      (fun a => d.isNegative a.index) fun b => { b with directions := some d }
    refine ⟨_, hok, ⟨hfailing, fun e he a => ?_⟩,
      ⟨rfl, _, hwrites, hlevel, fun a => edges_eq_nil ?_⟩, rfl, fun hl a => ?_⟩
    · cases he
      show ws.level _ = _
      rw [hlevel, drive_map_level, if_pos ⟨Axis.mem_all a, rfl⟩]
      rfl
    · simp [drive]
    · show ws.level _ = _
      rw [hlevel, drive_map_level, if_neg (by simp)]
      exact hl a

/-- Raising step lines that are inactive makes an edge on each. -/
theorem Sound.step (h : b.Sound) (hl : b.Lowered) (mask : UInt8) :
    ∃ b', b.step mask = (none, b') ∧ b'.Sound ∧
      b.Drives (fun a => if a.isIn mask then [b.wires.level ⟨a, .dir⟩] else []) b' := by
  obtain ⟨ws, hok, hfailing, hwrites, hlevel⟩ := h.perform (Axis.all.filter (·.isIn mask)) .step
    (fun _ => true) id
  refine ⟨_, hok, ⟨hfailing, fun d hd a => ?_⟩, ⟨rfl, _, hwrites, hlevel, fun a => ?_⟩⟩
  · show ws.level _ = _
    rw [hlevel, drive_map_level, if_neg (by simp)]
    exact h.latched d hd a
  · have hnodup : (Axis.all.filter (·.isIn mask)).Nodup :=
      List.Pairwise.filter _ (by decide : Axis.all.Nodup)
    refine (edges_raise hnodup (hl a)).trans ?_
    simp only [List.mem_filter, Axis.mem_all, true_and]

/-- Lowering the step lines makes no edge. -/
theorem Sound.unstep (h : b.Sound) :
    ∃ b', b.unstep = (none, b') ∧ b'.Sound ∧ b.Drives (fun _ => []) b' ∧ b'.Lowered := by
  obtain ⟨ws, hok, hfailing, hwrites, hlevel⟩ := h.perform Axis.all .step (fun _ => false) id
  refine ⟨_, hok, ⟨hfailing, fun d hd a => ?_⟩,
    ⟨rfl, _, hwrites, hlevel, fun a => edges_eq_nil ?_⟩, fun a => ?_⟩
  · show ws.level _ = _
    rw [hlevel, drive_map_level, if_neg (by simp)]
    exact h.latched d hd a
  · have hne := b.wiring.level_false_ne_true ⟨a, .step⟩
    simp only [drive, List.mem_map, Prod.mk.injEq, not_exists, not_and]
    rintro c - hc hlev
    cases hc
    exact hne hlev
  · show ws.level _ = _
    rw [hlevel, drive_map_level, if_pos ⟨Axis.mem_all a, rfl⟩]
    rfl

/-- Enabling or disabling the drivers makes no edge. -/
theorem Sound.enable (h : b.Sound) (on : Bool) :
    ∃ b', b.enable on = (none, b') ∧ b'.Sound ∧ b.Drives (fun _ => []) b' ∧
      (b.Lowered → b'.Lowered) := by
  obtain ⟨ws, hok, hfailing, hwrites, hlevel⟩ := h.perform (Axis.all.filter b.enableWired.get)
    .enable (fun _ => on) fun b => { b with enabled := on }
  refine ⟨_, hok, ⟨hfailing, fun d hd a => ?_⟩,
    ⟨rfl, _, hwrites, hlevel, fun a => edges_eq_nil ?_⟩, fun hl a => ?_⟩
  · show ws.level _ = _
    rw [hlevel, drive_map_level, if_neg (by simp)]
    exact h.latched d hd a
  · simp [drive]
  · show ws.level _ = _
    rw [hlevel, drive_map_level, if_neg (by simp)]
    exact hl a

/-- Bringing the lines to rest makes no edge. -/
theorem start_drives (levels : PerAxis (PerLead Bool)) (s : Settings)
    (enableWired : PerAxis Bool) :
    ∃ b', start (.reliable levels) s enableWired = (none, b') ∧ b'.Sound ∧ b'.Lowered ∧
      b'.pins = s.axes.map (fun a => ⟨a.stepPin, a.dirPin, a.enablePin⟩) ∧
      b'.wires.level = Levels.replay (Wires.reliable levels).level b'.wires.writes.toList ∧
      ∀ a, edges b'.wiring a (Wires.reliable levels).level b'.wires.writes.toList = [] := by
  have h₀ : Sound
      { wires := .reliable levels
        pins := s.axes.map fun a => ⟨a.stepPin, a.dirPin, a.enablePin⟩
        enableWired := enableWired
        directions := none
        enabled := false } := ⟨rfl, fun d hd => by cases hd⟩
  obtain ⟨b₁, hok₁, h₁, hdrives₁, hl₁⟩ := h₀.unstep
  obtain ⟨b₂, hok₂, h₂, hdrives₂, hl₂⟩ := h₁.enable false
  have hdrives := hdrives₁.trans hdrives₂
  obtain ⟨vs, hwrites, hlevel, hmade⟩ := hdrives.record
  have hvs : b₂.wires.writes.toList = vs := hwrites
  refine ⟨b₂, ?_, h₂, hl₂ hl₁, hdrives.pins_eq, hvs ▸ hlevel, fun a => ?_⟩
  · rw [start, hok₁]
    exact hok₂
  · rw [hvs, wiring, hdrives.pins_eq]
    exact hmade a

end DriverBank

/-! ## What a pulse does to the lines -/

namespace Pulse

variable {p : Pulse} {b : DriverBank}

/-- The edges that an output asks for. -/
def asked (pins : Wiring) (o : StepOutput) (a : Axis) : List Bool :=
  if a.isIn o.step then [pins.level ⟨a, .dir⟩ (o.directions.isNegative a.index)] else []

theorem asked_of_not_hasSteps {o : StepOutput} (h : o.hasSteps = false) (pins : Wiring) (a : Axis) :
    asked pins o a = [] := by
  have hstep : o.step = 0 := by simpa [StepOutput.hasSteps] using h
  rw [asked, hstep]
  cases a <;> rfl

/-- The step lines are inactive unless the pulse says that they are up. -/
structure Tracks (p : Pulse) (b : DriverBank) : Prop where
  /-- no write fails, and the direction lines are as latched -/
  sound : b.Sound
  /-- the step lines are inactive unless they are said to be up -/
  lowered : p.asserted = false → b.Lowered

/-- An output is driven with exactly the edges it asks for, even if the last pulse is still up. -/
theorem start_drives (h : p.Tracks b) (o : StepOutput) :
    ∃ wait p' b', p.start b o = (.ok wait, p', b') ∧ p'.Tracks b' ∧
      b.Drives (asked b.wiring o) b' := by
  unfold start
  split
  · next ho =>
    have hready : ∃ b₁, (if p.asserted = true then b.unstep else (none, b)) = (none, b₁) ∧
        b₁.Sound ∧ b.Drives (fun _ => []) b₁ ∧ b₁.Lowered := by
      split
      · exact h.sound.unstep
      · next hl => exact ⟨b, rfl, h.sound, .refl b, h.lowered (Bool.eq_false_iff.mpr hl)⟩
    obtain ⟨b₁, hok₁, h₁, hdrives₁, hl₁⟩ := hready
    obtain ⟨b₂, hok₂, h₂, hdrives₂, hd, hl₂⟩ := h₁.setDirections o.directions
    obtain ⟨b₃, hok₃, h₃, hdrives₃⟩ := h₂.step (hl₂ hl₁) o.step
    have hwiring : b₂.wiring = b.wiring := hdrives₂.pins_eq.trans hdrives₁.pins_eq
    refine ⟨some p.width, { p with asserted := true }, b₃, ?_, ⟨h₃, fun hup => by cases hup⟩,
      ((hdrives₁.trans hdrives₂).trans hdrives₃).congr fun a => ?_⟩
    · simp only [hok₁, hok₂, hok₃, DriverBank.andThen, DriverBank.apply, if_pos ho]
    · rw [h₂.latched _ hd a, hwiring]
      rfl
  · next ho =>
    have hnone := asked_of_not_hasSteps (Bool.eq_false_iff.mpr ho) b.wiring
    exact ⟨none, p, b, rfl, h, (DriverBank.Drives.refl b).congr fun a => (hnone a).symm⟩

/-- Ending a pulse makes no edge. -/
theorem stop_drives (h : p.Tracks b) :
    ∃ p' b', p.stop b = (none, p', b') ∧ p'.Tracks b' ∧ b.Drives (fun _ => []) b' := by
  unfold stop
  split
  · obtain ⟨b', hok, h', hdrives, hl⟩ := h.sound.unstep
    exact ⟨{ p with asserted := false }, b', by rw [hok], ⟨h', fun _ => hl⟩, hdrives⟩
  · exact ⟨p, b, rfl, h, .refl b⟩

end Pulse

end MotionControl
