import MotionControl.Proofs.Drive.Edges

/-!
# Writes that fail

An operation of a driver bank stops at the first write that fails, and what it has written before
stays. So some of its lines are at the new level and the others at the old one
(`DriverBank.perform_cases`).

A bank remembers the directions latched last, and writes nothing when asked for them again. It still
remembers them when another latching has failed half way, and then its memory is wrong. A `Monitor`
notes that (`Monitor.torn`): a write to a direction line has failed, and the bank still remembers
the same directions. In every run, whatever fails, an operation that latches directions and succeeds
leaves all direction lines as asked, unless the lines are torn and the directions are those that the
bank remembers (`Monitor.directions_driven`). In that case they may be wrong
(`DriverBank.latched_after_torn`).
-/

namespace MotionControl

namespace Wires

/-- Some of the writes succeed, in order, and the next one fails if there is one. -/
theorem exists_written (ws : Wires) (vs : List (Wire × Bool)) :
    ∃ done rest, done ++ rest = vs ∧ (ws.writeAll vs).1 = rest.head?.map Prod.fst ∧
      (ws.writeAll vs).2.writes.toList = ws.writes.toList ++ done ∧
      (ws.writeAll vs).2.level = Levels.replay ws.level done := by
  induction vs generalizing ws with
  | nil => exact ⟨[], [], rfl, rfl, (List.append_nil _).symm, rfl⟩
  | cons v vs ih =>
    obtain ⟨w, high⟩ := v
    rw [writeAll]
    cases hw : ws.write w high with
    | mk ok ws' =>
      have hlevel (u : Wire) : ws'.level u = if ok = true ∧ w = u then high else ws.level u := by
        have h := ws.level_write w u high
        rwa [hw] at h
      unfold write at hw
      split at hw
      · cases hw
        refine ⟨[], (w, high) :: vs, rfl, rfl, (List.append_nil _).symm, funext fun u => ?_⟩
        rw [hlevel, if_neg fun h => Bool.false_ne_true h.1]
        rfl
      · cases hw
        obtain ⟨done, rest, hvs, hanswer, hwrites, hreplay⟩ := ih _
        refine ⟨(w, high) :: done, rest, by rw [← hvs]; rfl, hanswer, ?_, ?_⟩
        · rw [hwrites, Array.toList_push, List.append_assoc, List.singleton_append]
        · rw [hreplay]
          refine congrArg (Levels.replay · done) (funext fun u => ?_)
          rw [hlevel]
          simp [Levels.write]

end Wires

namespace DriverBank

variable {b b' : DriverBank} {l : Lead} {active : Axis → Bool} {as : List Axis}

/-! ## What an operation leaves -/

/-- The bank has written to the lines of one kind of some actuators, and has changed nothing
else. -/
structure Writes (b : DriverBank) (l : Lead) (active : Axis → Bool) (as : List Axis)
    (b' : DriverBank) : Prop where
  /-- the pins are the same -/
  pins_eq : b'.pins = b.pins
  /-- the bank remembers the same directions -/
  directions_eq : b'.directions = b.directions
  /-- what has been written -/
  writes_eq : b'.wires.writes.toList =
    b.wires.writes.toList ++ as.map fun a => b.drive a l (active a)
  /-- the levels that this makes -/
  level_eq : b'.wires.level =
    Levels.replay b.wires.level (as.map fun a => b.drive a l (active a))

theorem Writes.level (h : b.Writes l active as b') (a : Axis) (k : Lead) :
    b'.wires.level ⟨a, k⟩ =
      if a ∈ as ∧ l = k then b.wiring.level ⟨a, l⟩ (active a) else b.wires.level ⟨a, k⟩ := by
  rw [h.level_eq, drive_map_level]

/-- Lines of another kind stay as they are. -/
theorem Writes.level_of_ne (h : b.Writes l active as b') {k : Lead} (hk : l ≠ k) (a : Axis) :
    b'.wires.level ⟨a, k⟩ = b.wires.level ⟨a, k⟩ := by
  rw [h.level, if_neg fun hand => hk hand.2]

/-- Either everything is written, or the operation stops at some line. -/
theorem perform_cases (b : DriverBank) (l : Lead) (active : Axis → Bool) (as : List Axis)
    (done : DriverBank → DriverBank) :
    (∃ b', b.Writes l active as b' ∧
      b.perform (as.map fun a => b.drive a l (active a)) done = (none, done b')) ∨
    ∃ bs a b', bs <+: as ∧ b.Writes l active bs b' ∧
      b.perform (as.map fun a => b.drive a l (active a)) done = (some ⟨a, l⟩, b') := by
  obtain ⟨written, rest, hsplit, hanswer, hwrites, hlevel⟩ :=
    b.wires.exists_written (as.map fun a => b.drive a l (active a))
  obtain ⟨bs, cs, rfl, rfl, rfl⟩ := List.append_eq_map_iff.mp hsplit
  rw [perform]
  cases hall : b.wires.writeAll ((bs ++ cs).map fun a => b.drive a l (active a)) with
  | mk answer ws =>
    rw [hall] at hanswer hwrites hlevel
    have hbank : b.Writes l active bs { b with wires := ws } := ⟨rfl, rfl, hwrites, hlevel⟩
    cases cs with
    | nil =>
      obtain rfl : answer = none := hanswer
      exact .inl ⟨_, (List.append_nil bs).symm ▸ hbank, rfl⟩
    | cons a cs =>
      obtain rfl : answer = some ⟨a, l⟩ := hanswer
      exact .inr ⟨bs, a, _, List.prefix_append .., hbank, rfl⟩

theorem setDirections_of_latched {d : Directions} (h : b.directions = some d) :
    b.setDirections d = (none, b) := if_pos h

theorem setDirections_of_ne {d : Directions} (h : b.directions ≠ some d) :
    b.setDirections d =
      b.perform (Axis.all.map fun a => b.drive a .dir (d.isNegative a.index))
        fun b => { b with directions := some d } := if_neg h

/-! ## Direction lines -/

/-- The direction lines are as latched. -/
def Latched (b : DriverBank) : Prop :=
  ∀ d, b.directions = some d → ∀ a,
    b.wires.level ⟨a, .dir⟩ = b.wiring.level ⟨a, .dir⟩ (d.isNegative a.index)

/-- An operation of a bank. -/
inductive Access where
  /-- latch directions -/
  | setDirections (d : Directions)
  /-- raise the step lines of a mask -/
  | step (mask : UInt8)
  /-- lower the step lines -/
  | unstep
  /-- enable or disable the drivers -/
  | enable (on : Bool)
  /-- drive the output of a step tick -/
  | apply (o : StepOutput)

namespace Access

/-- Carry out the operation. -/
def perform (b : DriverBank) : Access → Option Wire × DriverBank
  | setDirections d => b.setDirections d
  | step mask => b.step mask
  | unstep => b.unstep
  | enable on => b.enable on
  | apply o => b.apply o

/-- The directions that the operation is to latch. -/
def latches? : Access → Option Directions
  | setDirections d => some d
  | apply o => if o.hasSteps then some o.directions else none
  | _ => none

end Access

/-- The direction lines are left alone. -/
structure Spares (b : DriverBank) (answer : Option Wire) (b' : DriverBank) : Prop where
  /-- the pins are the same -/
  pins_eq : b'.pins = b.pins
  /-- the bank remembers the same directions -/
  directions_eq : b'.directions = b.directions
  /-- the levels are the same -/
  level_eq : ∀ a, b'.wires.level ⟨a, .dir⟩ = b.wires.level ⟨a, .dir⟩
  /-- no write to them has failed -/
  answer_ne : ∀ w, answer = some w → w.lead ≠ .dir

theorem Spares.refl (b : DriverBank) : b.Spares none b := ⟨rfl, rfl, fun _ => rfl, nofun⟩

theorem Spares.latched {answer : Option Wire} (h : b.Spares answer b') (hb : b.Latched) :
    b'.Latched := by
  intro d hd a
  rw [h.level_eq, wiring, h.pins_eq]
  exact hb d (h.directions_eq.symm.trans hd) a

/-- What an operation that is to latch some directions, or none, does to the direction lines. -/
inductive Handles (b : DriverBank) (asked : Option Directions) : Option Wire → DriverBank → Prop
  /-- nothing, as nothing is asked for but what is latched already -/
  | spares {answer : Option Wire} {b' : DriverBank}
      (hasked : ∀ d, asked = some d → b.directions = some d) (h : b.Spares answer b') :
      Handles b asked answer b'
  /-- it writes them all -/
  | latches {answer : Option Wire} {b' : DriverBank} (d : Directions) (hasked : asked = some d)
      (hnew : b.directions ≠ some d) (hpins : b'.pins = b.pins)
      (hdirections : b'.directions = some d) (hlatched : b'.Latched)
      (hanswer : ∀ w, answer = some w → w.lead ≠ .dir) : Handles b asked answer b'
  /-- it fails at one of them -/
  | tears {b' : DriverBank} (a : Axis) (hpins : b'.pins = b.pins)
      (hdirections : b'.directions = b.directions) : Handles b asked (some ⟨a, .dir⟩) b'

theorem Handles.pins_eq {asked : Option Directions} {answer : Option Wire}
    (h : b.Handles asked answer b') : b'.pins = b.pins := by
  cases h with
  | spares hasked h => exact h.pins_eq
  | latches d hasked hnew hpins hdirections hlatched hanswer => exact hpins
  | tears a hpins hdirections => exact hpins

/-- What follows may leave the direction lines alone. -/
theorem Handles.trans {asked : Option Directions} {answer : Option Wire} {b'' : DriverBank}
    (h : b.Handles asked none b') (h' : b'.Spares answer b'') : b.Handles asked answer b'' := by
  cases h with
  | spares hasked h =>
    exact .spares hasked ⟨h'.pins_eq.trans h.pins_eq, h'.directions_eq.trans h.directions_eq,
      fun a => (h'.level_eq a).trans (h.level_eq a), h'.answer_ne⟩
  | latches d hasked hnew hpins hdirections hlatched hanswer =>
    exact .latches d hasked hnew (h'.pins_eq.trans hpins) (h'.directions_eq.trans hdirections)
      (h'.latched hlatched) h'.answer_ne

/-- Writing to lines of another kind leaves the direction lines alone. -/
theorem spares_perform {done : DriverBank → DriverBank} (hl : l ≠ .dir)
    (hdone : ∀ b, (done b).pins = b.pins ∧ (done b).directions = b.directions ∧
      (done b).wires = b.wires) :
    b.Spares (b.perform (as.map fun a => b.drive a l (active a)) done).1
      (b.perform (as.map fun a => b.drive a l (active a)) done).2 := by
  obtain ⟨b', h, hok⟩ | ⟨bs, a, b', -, h, hfail⟩ := b.perform_cases l active as done
  · obtain ⟨hpins, hdirections, hwires⟩ := hdone b'
    rw [hok]
    refine ⟨hpins.trans h.pins_eq, hdirections.trans h.directions_eq, fun a => ?_, nofun⟩
    rw [hwires]
    exact h.level_of_ne hl a
  · rw [hfail]
    refine ⟨h.pins_eq, h.directions_eq, h.level_of_ne hl, fun w hw => ?_⟩
    cases hw
    exact hl

theorem spares_step (b : DriverBank) (mask : UInt8) :
    b.Spares (b.step mask).1 (b.step mask).2 :=
  spares_perform (by decide) fun _ => ⟨rfl, rfl, rfl⟩

theorem spares_unstep (b : DriverBank) : b.Spares b.unstep.1 b.unstep.2 :=
  spares_perform (by decide) fun _ => ⟨rfl, rfl, rfl⟩

theorem spares_enable (b : DriverBank) (on : Bool) : b.Spares (b.enable on).1 (b.enable on).2 :=
  spares_perform (by decide) fun _ => ⟨rfl, rfl, rfl⟩

theorem handles_setDirections (b : DriverBank) (d : Directions) :
    b.Handles (some d) (b.setDirections d).1 (b.setDirections d).2 := by
  by_cases hd : b.directions = some d
  · rw [setDirections_of_latched hd]
    exact .spares (fun _ he => he ▸ hd) (.refl b)
  · rw [setDirections_of_ne hd]
    obtain ⟨b', h, hok⟩ | ⟨bs, a, b', -, h, hfail⟩ := b.perform_cases .dir
      (fun a => d.isNegative a.index) Axis.all fun b => { b with directions := some d }
    · rw [hok]
      refine .latches d rfl hd h.pins_eq rfl (fun e he a => ?_) nofun
      cases he
      refine (h.level a .dir).trans ?_
      rw [if_pos ⟨Axis.mem_all a, rfl⟩, wiring, wiring, h.pins_eq]
    · rw [hfail]
      exact .tears a h.pins_eq h.directions_eq

theorem handles_apply (b : DriverBank) (o : StepOutput) :
    b.Handles (Access.apply o).latches? (b.apply o).1 (b.apply o).2 := by
  by_cases ho : o.hasSteps = true
  · rw [apply, Access.latches?, if_pos ho, if_pos ho]
    have h := b.handles_setDirections o.directions
    cases hset : b.setDirections o.directions with
    | mk answer b₁ =>
      rw [hset] at h
      cases answer with
      | none => exact h.trans (b₁.spares_step o.step)
      | some w => exact h
  · rw [apply, Access.latches?, if_neg ho, if_neg ho]
    exact .spares (fun _ hd => by cases hd) (.refl b)

theorem Access.handles (op : Access) (b : DriverBank) :
    b.Handles op.latches? (op.perform b).1 (op.perform b).2 := by
  cases op with
  | setDirections d => exact b.handles_setDirections d
  | step mask => exact .spares nofun (b.spares_step mask)
  | unstep => exact .spares nofun b.spares_unstep
  | enable on => exact .spares nofun (b.spares_enable on)
  | apply o => exact b.handles_apply o

/-- A bank that has come to rest remembers no directions. -/
theorem start_eq_none {wires : Wires} {s : Settings} {enableWired : PerAxis Bool}
    (h : start wires s enableWired = (none, b)) :
    b.directions = none ∧ b.pins = s.axes.map fun a => ⟨a.stepPin, a.dirPin, a.enablePin⟩ := by
  obtain ⟨b₀, hb₀⟩ : ∃ b₀ : DriverBank, b₀ = ⟨wires, s.axes.map fun a =>
    ⟨a.stepPin, a.dirPin, a.enablePin⟩, enableWired, none, false⟩ := ⟨_, rfl⟩
  have hlower := b₀.spares_unstep
  rw [start, ← hb₀] at h
  cases hunstep : b₀.unstep with
  | mk answer b₁ =>
    rw [hunstep] at h hlower
    cases answer with
    | none =>
      have hdisable := b₁.spares_enable false
      rw [show b₁.enable false = (none, b) from h] at hdisable
      rw [hdisable.directions_eq, hdisable.pins_eq, hlower.directions_eq, hlower.pins_eq, hb₀]
      exact ⟨rfl, rfl⟩
    | some w => cases h

end DriverBank

/-! ## Torn direction lines -/

/-- A driver bank that is watched for failures. -/
structure Monitor where
  /-- the bank -/
  bank : DriverBank
  /-- a write to a direction line has failed, and the bank remembers the same directions since -/
  torn : Bool

namespace Monitor

open DriverBank (Access)

variable {m : Monitor}

/-- Carry out an operation, whether or not it succeeds. -/
def access (m : Monitor) (op : Access) : Monitor where
  bank := (op.perform m.bank).2
  torn := (op.perform m.bank).1.any (·.lead = .dir) ||
    m.torn && decide ((op.perform m.bank).2.directions = m.bank.directions)

/-- Carry out several operations. -/
def run (m : Monitor) (ops : List Access) : Monitor := ops.foldl access m

/-- The direction lines are as latched, unless they are torn. -/
def Right (m : Monitor) : Prop := m.torn = false → m.bank.Latched

/-- Whatever an operation does, and wherever it fails. -/
theorem Right.access (h : m.Right) (op : Access) : (m.access op).Right := by
  intro htorn
  rw [Monitor.access, Bool.or_eq_false_iff, Bool.and_eq_false_iff] at htorn
  obtain ⟨hanswer, htorn⟩ := htorn
  have hop := op.handles m.bank
  cases hr : op.perform m.bank with
  | mk answer b =>
    rw [Monitor.access, hr]
    rw [hr] at hop hanswer htorn
    cases hop with
    | spares hasked hspares =>
      refine hspares.latched (h (htorn.resolve_right fun hne => ?_))
      exact of_decide_eq_false hne hspares.directions_eq
    | latches d hasked hnew hpins hdirections hlatched hne => exact hlatched
    | tears a hpins hdirections => cases hanswer

theorem Right.run (h : m.Right) (ops : List Access) : (m.run ops).Right := by
  induction ops generalizing m with
  | nil => exact h
  | cons op ops ih => exact ih (h.access op)

theorem pins_run (m : Monitor) (ops : List Access) : (m.run ops).bank.pins = m.bank.pins := by
  induction ops generalizing m with
  | nil => rfl
  | cons op ops ih => exact (ih (m.access op)).trans (op.handles m.bank).pins_eq

/-- In every run of a bank, in which any writes may have failed, an operation that latches
directions and succeeds leaves every direction line at the level that its pin has for them. The only
exception is that the bank has remembered these directions since before a write to a direction line
failed. -/
theorem directions_driven {wires : Wires} {s : Settings} {enableWired : PerAxis Bool}
    {b : DriverBank} (hstart : DriverBank.start wires s enableWired = (none, b))
    (ops : List Access) {op : Access} {d : Directions} (hop : op.latches? = some d)
    {b' : DriverBank} (hok : op.perform (run ⟨b, false⟩ ops).bank = (none, b')) :
    (∀ a, b'.wires.level ⟨a, .dir⟩ = (s.axes.get a).dirPin.level (d.isNegative a.index)) ∨
      (run ⟨b, false⟩ ops).torn = true ∧ (run ⟨b, false⟩ ops).bank.directions = some d := by
  obtain ⟨hnone, hpins⟩ := DriverBank.start_eq_none hstart
  have hright : Right ⟨b, false⟩ := fun _ e he => by rw [hnone] at he; cases he
  have hm := hright.run ops
  have hhandles := op.handles (run ⟨b, false⟩ ops).bank
  have hwiring := hhandles.pins_eq.trans ((pins_run ⟨b, false⟩ ops).trans hpins)
  rw [hok, hop] at hhandles
  rw [hok] at hwiring
  have hlevel (hlatched : b'.Latched) (hd : b'.directions = some d) (a : Axis) :
      b'.wires.level ⟨a, .dir⟩ = (s.axes.get a).dirPin.level (d.isNegative a.index) := by
    rw [hlatched d hd a, DriverBank.wiring, hwiring, Wiring.level, PerAxis.get_map]
    rfl
  cases hhandles with
  | spares hasked hspares =>
    have hd := hasked d rfl
    cases htorn : (run ⟨b, false⟩ ops).torn with
    | true => exact .inr ⟨rfl, hd⟩
    | false => exact .inl (hlevel (hspares.latched (hm htorn)) (hspares.directions_eq.trans hd))
  | latches e hasked hnew hpins hdirections hlatched hne =>
    cases hasked
    exact .inl (hlevel hlatched hdirections)

/-- Latching fails half way, and succeeds when it is tried again. -/
theorem directions_driven_second_try : ∃ (wires : Wires) (b b' : DriverBank) (ops : List Access),
    DriverBank.start wires .withDefaultPins (.const true) = (none, b) ∧
    (run ⟨b, false⟩ ops).torn = true ∧ (run ⟨b, false⟩ ops).bank.directions = some ⟨0⟩ ∧
    (Access.setDirections ⟨7⟩).perform (run ⟨b, false⟩ ops).bank = (none, b') ∧
    ∀ a, b'.wires.level ⟨a, .dir⟩ = (Settings.withDefaultPins.axes.get a).dirPin.level true := by
  obtain ⟨ops, b, b', hstart, htorn, hlatched, hok⟩ : ∃ (ops : List Access) (b b' : DriverBank),
      DriverBank.start (.low [10]) .withDefaultPins (.const true) = (none, b) ∧
      (run ⟨b, false⟩ ops).torn = true ∧ (run ⟨b, false⟩ ops).bank.directions = some ⟨0⟩ ∧
      (Access.setDirections ⟨7⟩).perform (run ⟨b, false⟩ ops).bank = (none, b') :=
    ⟨[.setDirections ⟨0⟩, .setDirections ⟨7⟩], _, _, rfl, rfl, rfl, rfl⟩
  refine ⟨_, b, b', ops, hstart, htorn, hlatched, hok, fun a => ?_⟩
  obtain hdriven | ⟨-, hd⟩ := directions_driven hstart ops rfl hok
  · rw [hdriven a]
    cases a <;> rfl
  · rw [hlatched] at hd
    cases hd

end Monitor

/-- Directions are latched, other ones fail half way, and the first ones are asked for again. That
succeeds without a write, and leaves a direction line the wrong way. -/
theorem DriverBank.latched_after_torn : ∃ (wires : Wires) (b b₁ b₂ b₃ : DriverBank),
    start wires .withDefaultPins (.const true) = (none, b) ∧
    b.setDirections ⟨0⟩ = (none, b₁) ∧ b₁.setDirections ⟨7⟩ = (some ⟨.beta, .dir⟩, b₂) ∧
    b₂.setDirections ⟨0⟩ = (none, b₃) ∧
    b₃.wires.level ⟨.alpha, .dir⟩ ≠
      (Settings.withDefaultPins.axes.get .alpha).dirPin.level (Directions.isNegative ⟨0⟩ 0) :=
  ⟨.low [10], _, _, _, _, rfl, rfl, rfl, rfl, by decide⟩

end MotionControl
