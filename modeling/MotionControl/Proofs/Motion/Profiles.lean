import MotionControl.Proofs.Motion.Junctions

/-!
# Profiles over whole runs

From a fresh pipeline on, every run of calm calls keeps what waits in a line, whatever the interrupt
does in between (`Pipeline.Lined.run`). Two things follow. No segment begins with a jump up in speed
from the one published before it, and with no jump at all if the final speed is zero. And a segment
that waits can slow down and speed up from its entry speed to its exit speed within its length
(`Gear.Feasible`).

The latter is not true of all segments if the final speed is not zero. Whether a segment is long
enough for its requested speed is decided with the final speed in mind, and not with the speed at
which it will be entered.
-/

namespace MotionControl

open Rounding Lookahead

variable {n : Nat}

/-- Whether a call brings finite numbers. -/
def Call.isFinite : Call → Bool
  | .append m _ _ _ => m.isFinite
  | _ => true

namespace Audit

/-- There has been no jump up in speed so far, and with a final speed of zero none at all. -/
def smooth (final : Float32) : Audit n := fun _ _ p => decide (Smooth final 0 p.reported)

/-- An audit that does not ask for more. -/
def AllowsSmooth (final : Float32) (audit : Audit n) : Prop :=
  ∀ goal accepted p, Smooth final 0 p.reported → audit goal accepted p = true

theorem allowsSmooth_smooth (final : Float32) : (smooth final : Audit n).AllowsSmooth final :=
  fun _ _ _ h => decide_eq_true h

theorem allowsSmooth_none (final : Float32) : (none : Audit n).AllowsSmooth final :=
  fun _ _ _ _ => rfl

end Audit

namespace Pipeline

/-- What waits is in a line, for a planner with some tuning. -/
structure Lined (tuning : Tuning) (l : Pipeline n) : Prop where
  /-- the tuning stays -/
  tuning_eq : l.planner.tuning = tuning
  /-- what waits is in a line -/
  dispatcher : l.dispatcher.Lined tuning.minimumSpeed

namespace Lined

variable {tuning : Tuning} {l : Pipeline n} {audit : Audit n}

theorem fresh {len : Nat} {ring : Ring n} (hring : Ring.new n len = .ok ring) {stepper : Stepper}
    (hidle : stepper.isBusy = false) (planner : Planner) :
    (ofRing ring stepper planner).Lined planner.tuning :=
  ⟨rfl, rfl, _, .fresh hring hidle, .empty⟩

/-- There has been no jump up so far. -/
theorem smooth (h : l.Lined tuning) : Smooth tuning.minimumSpeed 0 l.plant.reported := by
  obtain ⟨-, -, r, hm, hr⟩ := h
  rw [show l.plant.reported = r.started from hm.started_eq]
  exact hr.smooth

theorem onDispatcher (h : l.Lined tuning)
    {act : Dispatcher n Scribe → Except Fault (Dispatcher n Scribe)}
    (hact : Fault.Blameless (Dispatcher.Lined tuning.minimumSpeed) (act l.dispatcher)) :
    Fault.Blameless (Lined tuning) (l.onDispatcher act) :=
  hact.bind fun _ hd => ⟨h.tuning_eq, hd⟩

theorem script (hf : IsSpeed tuning.minimumSpeed) (haudit : audit.AllowsSmooth tuning.minimumSpeed)
    (l : Pipeline n) {idle : List (List Beat)} (hidle : idle.all (List.all · Beat.isCalm) = true) :
    ∀ act ∈ l.script audit idle,
      Dispatcher.Withstands (Dispatcher.Lined tuning.minimumSpeed) act := by
  intro act hact
  obtain ⟨bs, hbs, rfl⟩ := List.mem_map.mp hact
  exact Dispatcher.Lined.withstands hf (haudit _ _) (List.all_eq_true.mp hidle bs hbs)

theorem append (h : l.Lined tuning) (hvalid : tuning.isValid = true)
    (haudit : audit.AllowsSmooth tuning.minimumSpeed) {m : Move} (hfinite : m.isFinite = true)
    {idle : List (List Beat)} {locked revised : List Beat}
    (hcalm : (Call.append m idle locked revised).isCalm = true) :
    Fault.Blameless (Lined tuning) (l.append audit m idle locked revised) := by
  obtain ⟨rfl, hd⟩ := h
  rw [Call.isCalm, Bool.and_eq_true, Bool.and_eq_true] at hcalm
  obtain ⟨⟨hidle, hlocked⟩, hrevised⟩ := hcalm
  have hscript := script (Tuning.isSpeed_minimumSpeed hvalid) haudit l hidle
  refine (hd.appendWith hvalid hfinite hscript (Plant.awaits (haudit _ _) hlocked)
    (Plant.awaits (haudit _ _) hrevised)).bind ?_
  rintro ⟨moved, planner, idle', d⟩ ⟨htuning, hd'⟩
  exact ⟨htuning, hd'⟩

theorem recalculate (h : l.Lined tuning) (hvalid : tuning.isValid = true)
    (haudit : audit.AllowsSmooth tuning.minimumSpeed) {locked revised : List Beat}
    (hcalm : (Call.recalculate locked revised).isCalm = true) :
    Fault.Blameless (Lined tuning) (l.call audit (.recalculate locked revised)) := by
  obtain ⟨rfl, hactive, r, hm, hr⟩ := h
  rw [Call.isCalm, Bool.and_eq_true] at hcalm
  have hd : Fault.Blameless (Dispatcher.Lined l.planner.tuning.minimumSpeed)
      (l.planner.recalculateWith (l.audited audit locked) (l.audited audit revised) l.dispatcher) :=
    Dispatcher.Lined.recalculateWith (Tuning.isSpeed_minimumSpeed hvalid) hactive hm hr.held_eq
      hr.smooth hr.line.ready hr.head (Plant.awaits (haudit _ _) hcalm.1)
      (Plant.awaits (haudit _ _) hcalm.2)
  exact hd.bind fun d hd => ⟨rfl, hd⟩

theorem hold (h : l.Lined tuning) (haudit : audit.AllowsSmooth tuning.minimumSpeed)
    {during : List Beat} (hcalm : during.all Beat.isCalm = true) :
    Fault.Blameless (Lined tuning) (l.call audit (.hold during)) := by
  obtain ⟨htuning, hactive, r, hm, hr⟩ := h
  obtain ⟨r₁, hm₁, hlocked, hslots, hsegments₁, hstarted₁, hhead₁, -⟩ := hm.lockWindow hr.held_eq
  have hslots : l.plant.ring.lockWindow.1.slots = r₁.held := hslots.symm
  have hawaits : Plant.Awaits tuning.minimumSpeed (l.audited audit during) :=
    Plant.awaits (haudit _ _) hcalm
  unfold Pipeline.call Pipeline.onPlant
  dsimp only
  rw [hslots]
  refine Fault.Blameless.bind (r := fun p => ∃ r', p.Matches r' ∧ r'.Lined tuning.minimumSpeed)
    ((hawaits _ r₁ hm₁ hlocked (hstarted₁ ▸ hr.smooth)).bind fun p hp => ?_)
    fun p hp => ⟨htuning, hactive, hp⟩
  obtain ⟨r₂, hm₂, hheld₂, hsegments₂, hstarted₂, hhead₂⟩ := hp.unlock
  exact ⟨r₂, hm₂, Roster.lined_of_line hr.smooth (by rw [hsegments₂, hsegments₁]; exact hr.line)
    hr.head hheld₂ (hstarted₂.trans hstarted₁) (hhead₂.trans hhead₁)⟩

/-- The dispatcher may wait for anything. -/
theorem wait (h : l.Lined tuning) (hf : IsSpeed tuning.minimumSpeed)
    (haudit : audit.AllowsSmooth tuning.minimumSpeed) (done : Ring n → Bool)
    {idle : List (List Beat)} (hcalm : idle.all (List.all · Beat.isCalm) = true) :
    Fault.Blameless (Lined tuning)
      (l.onDispatcher fun d => do return (← d.waitUntil done (l.script audit idle)).2) := by
  refine h.onDispatcher ?_
  exact ((Dispatcher.Lined.kept hf).waitUntil h.dispatcher done
    (script hf haudit l hcalm)).bind fun x hx => hx.1

/-- Every calm call keeps what waits in a line. -/
theorem call (h : l.Lined tuning) (hvalid : tuning.isValid = true)
    (haudit : audit.AllowsSmooth tuning.minimumSpeed) {c : Call} (hcalm : c.isCalm = true)
    (hfinite : c.isFinite = true) : Fault.Blameless (Lined tuning) (l.call audit c) := by
  have hf := Tuning.isSpeed_minimumSpeed hvalid
  have hkept := Dispatcher.Lined.kept (n := n) hf
  cases c with
  | append m idle locked revised => exact h.append hvalid haudit hfinite hcalm
  | command c idle =>
    refine (hkept.appendCommand h.dispatcher c (script hf haudit l hcalm)).bind ?_
    rintro ⟨answer, idle', d⟩ ⟨rfl, hd⟩
    exact ⟨h.tuning_eq, hd⟩
  | recalculate locked revised => exact h.recalculate hvalid haudit hcalm
  | hold during => exact h.hold haudit hcalm
  | waitForSpace idle => exact h.wait hf haudit _ hcalm
  | waitForEmpty idle => exact h.wait hf haudit _ hcalm
  | onIdle =>
    obtain ⟨d, hd, h'⟩ := hkept.onIdle h.dispatcher
    exact h.onDispatcher (by rw [hd]; exact h')
  | onMainLoop =>
    obtain ⟨d, hd, h'⟩ := hkept.onMainLoop h.dispatcher
    exact h.onDispatcher (by rw [hd]; exact h')
  | ensureRunning => exact ⟨h.tuning_eq, hkept.ensureRunning h.dispatcher⟩
  | beats bs =>
    exact (Dispatcher.Lined.withstands hf (haudit _ _) hcalm l.dispatcher h.dispatcher).bind
      fun p hp => ⟨h.tuning_eq, hp⟩
  | flush idle => cases hcalm
  | halt => cases hcalm
  | clearHalt => cases hcalm
  | setPosition position => cases hcalm
  | resync => cases hcalm

/-- And so does every run of them, which passes every audit that does not ask for more. -/
theorem run (h : l.Lined tuning) (hvalid : tuning.isValid = true)
    (haudit : audit.AllowsSmooth tuning.minimumSpeed) {calls : List Call}
    (hcalls : ∀ c ∈ calls, c.isCalm = true ∧ c.isFinite = true) :
    Fault.Blameless (Lined tuning) (l.run audit calls) := by
  have hpass : ∀ {l : Pipeline n}, l.Lined tuning →
      audit l.planner.position l.accepted l.plant = true := fun h => haudit _ _ _ h.smooth
  induction calls generalizing l with
  | nil =>
    rw [Pipeline.run, if_pos (hpass h)]
    exact h
  | cons c cs ih =>
    obtain ⟨⟨hcalm, hfinite⟩, hcs⟩ := List.forall_mem_cons.mp hcalls
    rw [Pipeline.run, if_pos (hpass h)]
    exact (h.call hvalid haudit hcalm hfinite).bind fun l' h' => ih h' hcs

end Lined

/-! ## Junctions -/

variable {len : Nat} {ring : Ring n} {stepper : Stepper} {planner : Planner} {calls : List Call}

/-- At no point of a calm run has a segment begun faster than the segment published before it ends,
or, with a final speed of zero, at any other speed. The first segment begins at rest. -/
theorem run_smooth (hring : Ring.new n len = .ok ring) (hidle : stepper.isBusy = false)
    (hvalid : planner.tuning.isValid = true)
    (hcalls : ∀ c ∈ calls, c.isCalm = true ∧ c.isFinite = true) :
    Fault.Blameless (fun l => Smooth planner.tuning.minimumSpeed 0 l.plant.reported)
      ((ofRing ring stepper planner).run (.smooth planner.tuning.minimumSpeed) calls) :=
  ((Lined.fresh hring hidle planner).run hvalid (Audit.allowsSmooth_smooth _) hcalls).mono
    fun _ h => h.smooth

/-- A pipeline with some settings, which the planner has taken over. -/
def tunedBy (s : Settings) : Pipeline 4 :=
  ofRing .four (.ofSettings s) (.ofTuning (.ofSettings s))

/-- Three moves in a line, of which the last one is queued while the first one is executed. -/
theorem run_smooth_three_moves : ∃ (s : Settings) (calls : List Call) (l : Pipeline 4),
    (∀ c ∈ calls, c.isCalm = true ∧ c.isFinite = true) ∧
    (tunedBy s).run (.smooth (tunedBy s).planner.tuning.minimumSpeed) calls = .ok l ∧
    l.plant.reported.length = 3 ∧
    (l.plant.reported.drop 1).all (fun segment => decide (0 < segment.entrySpeed)) = true ∧
    Fault.Blameless
      (fun l => Smooth (tunedBy s).planner.tuning.minimumSpeed 0 l.plant.reported)
      ((tunedBy s).run (.smooth (tunedBy s).planner.tuning.minimumSpeed) calls) := by
  obtain ⟨s, calls, hvalid, hcalls, hrun⟩ : ∃ (s : Settings) (calls : List Call),
      (Tuning.ofSettings s).isValid = true ∧ (∀ c ∈ calls, c.isCalm = true ∧ c.isFinite = true) ∧
      ((tunedBy s).run (.smooth (tunedBy s).planner.tuning.minimumSpeed) calls).toOption.any
        (fun l => l.plant.reported.length == 3 &&
          (l.plant.reported.drop 1).all fun segment => decide (0 < segment.entrySpeed)) = true :=
    ⟨{ Settings.withDefaultPins with baseFrequency := 1000, minimumStepRate := 500 },
      [.append ⟨⟨3, -1, 0⟩, 20, 1, .const 0⟩ [] [] [],
        .append ⟨⟨6, -2, 0⟩, 20, 1, .const 0⟩ [] [] [], .ensureRunning, .beats [.step, .step, .step],
        .append ⟨⟨9, -1, 0⟩, 20, 1, .const 0⟩ [] [.step] [.step],
        .beats (List.replicate 12 .step)], by decide +kernel⟩
  obtain ⟨l, hl, htest⟩ := Fault.exists_eq_ok hrun
  rw [Bool.and_eq_true, beq_iff_eq] at htest
  exact ⟨s, calls, l, hcalls, hl, htest.1, htest.2, run_smooth Ring.new_four rfl hvalid hcalls⟩

end Pipeline

/-! ## Windows -/

/-- The segments that a planner gets to revise: all that are pending and have not begun. -/
def Ring.window (r : Ring n) : List Segment := r.lockWindow.2.segments r.lockWindow.1.slots

theorem Plant.Matches.window_eq {p : Plant n Scribe} {r : Roster} (h : p.Matches r)
    (hheld : r.held = []) : p.ring.window = r.segments := by
  obtain ⟨r', h', hlocked, hslots, hsegments, -⟩ := h.lockWindow hheld
  rw [← hsegments, ← h'.segments_held hlocked, hslots]
  rfl

namespace Pipeline

variable {len : Nat} {ring : Ring n} {stepper : Stepper} {planner : Planner} {calls : List Call}
  {settings : Settings}

theorem Lined.feasible {tuning : Tuning} {l : Pipeline n} (h : l.Lined tuning) :
    ∀ s ∈ l.plant.ring.window, s.hasMotion = true →
      s.toGear.Feasible tuning.minimumSpeed s.entrySpeed s.exitSpeed := by
  obtain ⟨-, -, r, hm, hr⟩ := h
  intro s hs hmotion
  rw [show l.plant.ring.window = r.segments from hm.window_eq hr.held_eq] at hs
  exact hr.line.feasible s hs s.toGear (if_pos hmotion)

/-- With valid settings, the segments that wait at the end of a calm run can be executed as they are
planned. -/
theorem run_feasible (hring : Ring.new n len = .ok ring) (hidle : stepper.isBusy = false)
    (hvalid : settings.validate = .ok ()) (htuning : planner.tuning = .ofSettings settings)
    (hcalls : ∀ c ∈ calls, c.isCalm = true ∧ c.isFinite = true) :
    Fault.Blameless
      (fun l => ∀ s ∈ l.plant.ring.window, s.hasMotion = true →
        s.toGear.Feasible settings.minimumPlannerSpeed.value s.entrySpeed s.exitSpeed)
      ((ofRing ring stepper planner).run .none calls) := by
  have htuned := Tuning.isValid_ofSettings hvalid
  rw [← htuning] at htuned
  refine ((Lined.fresh hring hidle planner).run htuned (Audit.allowsSmooth_none _) hcalls).mono ?_
  intro l h
  rw [htuning] at h
  exact h.feasible

/-- Two moves that have not begun. -/
theorem run_feasible_two_moves : ∃ (s : Settings) (calls : List Call) (l : Pipeline 4),
    s.validate = .ok () ∧ (∀ c ∈ calls, c.isCalm = true ∧ c.isFinite = true) ∧
    (tunedBy s).run .none calls = .ok l ∧ l.plant.ring.window.map Segment.hasMotion = [true, true] ∧
    Fault.Blameless
      (fun l => ∀ segment ∈ l.plant.ring.window, segment.hasMotion = true →
        segment.toGear.Feasible s.minimumPlannerSpeed.value segment.entrySpeed segment.exitSpeed)
      ((tunedBy s).run .none calls) := by
  obtain ⟨s, calls, hproblems, hcalls, hrun⟩ : ∃ (s : Settings) (calls : List Call),
      s.problems = [] ∧ (∀ c ∈ calls, c.isCalm = true ∧ c.isFinite = true) ∧
      ((tunedBy s).run .none calls).toOption.any
        (fun l => l.plant.ring.window.map Segment.hasMotion == [true, true]) = true :=
    ⟨.withDefaultPins, [.append ⟨⟨3, -1, 0⟩, 20, 1, .const 0⟩ [] [] [],
      .append ⟨⟨6, -2, 0⟩, 20, 1, .const 0⟩ [] [] []], by decide +kernel⟩
  obtain ⟨l, hl, htest⟩ := Fault.exists_eq_ok hrun
  have hvalid : s.validate = .ok () := (Settings.validate_eq_ok_iff s).mpr hproblems
  exact ⟨s, calls, l, hvalid, hcalls, hl, beq_iff_eq.mp htest,
    run_feasible Ring.new_four rfl hvalid rfl hcalls⟩

/-- With a final speed that is not zero, a segment may be held to be long enough for its requested
speed although that is out of reach from the speed at which it begins. Such a segment is planned to
end faster than it can, even if it is not the newest one. -/
theorem outruns_its_length : ∃ (s : Settings) (calls : List Call) (l : Pipeline 4)
    (first newest : Segment), s.validate = .ok () ∧
    (∀ c ∈ calls, c.isCalm = true ∧ c.isFinite = true) ∧
    (tunedBy s).run .none calls = .ok l ∧ l.plant.reported = [] ∧
    l.plant.ring.window = [first, newest] ∧ first.hasMotion = true ∧
    ¬ first.exitSpeed ≤
      Profile.maxAllowableSpeed (-first.acceleration) first.entrySpeed first.length + 1e-3 := by
  obtain ⟨s, calls, hproblems, hcalls, hrun⟩ : ∃ (s : Settings) (calls : List Call),
      s.problems = [] ∧ (∀ c ∈ calls, c.isCalm = true ∧ c.isFinite = true) ∧
      ((tunedBy s).run .none calls).toOption.any
        (fun l => decide (l.plant.reported = [] ∧ l.plant.ring.window.length = 2 ∧
          ∃ first ∈ l.plant.ring.window.head?, first.hasMotion = true ∧ ¬ first.exitSpeed ≤
            Profile.maxAllowableSpeed (-first.acceleration) first.entrySpeed first.length + 1e-3))
        = true :=
    ⟨{ Settings.withDefaultPins with
        acceleration := .ofFloat 1000, maxJerk := .ofFloat 1000
        minimumPlannerSpeed := .ofFloat 50 },
      [.append ⟨⟨100, 0, 0⟩, 60, 1, .const 60⟩ [] [] [],
        .append ⟨⟨1100, 0, 0⟩, 60, 10, .const 60⟩ [] [] []], by decide +kernel⟩
  obtain ⟨l, hl, htest⟩ := Fault.exists_eq_ok hrun
  obtain ⟨hreported, htwo, first, hfirst, hmotion, hfast⟩ := of_decide_eq_true htest
  obtain ⟨oldest, newest, hwindow⟩ := List.length_eq_two.mp htwo
  have heq : oldest = first := by
    rwa [hwindow, Option.mem_def, List.head?_cons, Option.some_inj] at hfirst
  have hvalid : s.validate = .ok () := (Settings.validate_eq_ok_iff s).mpr hproblems
  exact ⟨s, calls, l, oldest, newest, hvalid, hcalls, hl, hreported, hwindow, heq ▸ hmotion,
    heq ▸ hfast⟩

end Pipeline

end MotionControl
