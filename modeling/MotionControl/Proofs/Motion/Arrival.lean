import MotionControl.Proofs.Motion.Progress
import MotionControl.Proofs.Motion.Stopping
import MotionControl.Proofs.Motion.Straight

/-!
# Arrival

That a segment draws its line, that a stop is honoured and that nothing is lost from a segment which
no stop concerns is said event by event, for as long as there are events. That there are events is a
matter of time: as long as every tick advances the phase (`Stepper.Paced`), 65536 ticks are enough
for any event, so that whatever is executed comes to its end after so many ticks for each event that
is left (`Traversal.LastsAtMost`). Together they say how it ends (`Plant.Arrives`): what has begun
is drawn to its end, what a stop cuts is cancelled, and what no stop cuts is completed, with all of
its steps, unless its way leads out of the word of a position.

With valid settings whose lower bound on the step rate is high enough, this is so at every point of
every run of a pipeline (`Pipeline.arrives_of_errands`).
-/

namespace MotionControl

variable {n : Nat}

/-- What is left of a traversal takes no more than some number of ticks: 65536 for each event, less
the time that it has behind it. -/
def Traversal.LastsAtMost (t : Traversal) (ticks : Nat) : Prop :=
  65536 * t.eventCount.toNat ≤ t.clock + ticks

namespace Plant

variable {p : Plant n Stepper} {held : List Nat} {t : Traversal}

/-- A run does not go on with a traversal for longer than that lasts. -/
theorem Ahead.not_lastsAtMost {p₁ : Plant n Stepper} {t₁ : Traversal} {l : Load} {k : Nat}
    {bs : List Beat} {os : List StepOutput} (h : p.Ahead t l k os p₁ t₁) (ht : t.Tracks l)
    (hp : p.side.Paced) (hwatch : p.watch bs = .ok (os, p₁)) :
    ¬ t.LastsAtMost (bs.count .step) := by
  rw [Traversal.LastsAtMost, ← length_watch hwatch, Nat.not_le]
  exact h.length_lt ht hp

/-- What has begun is drawn to its end. -/
theorem Begins.finishes {slot : Nat} {s : Segment} (h : p.Begins slot s)
    (hcount : s.eventCount = Planner.eventCount s.steps) (hp : p.side.Geared) {bs : List Beat}
    (hcalm : ∀ b ∈ bs, b.isCalm = true)
    (hreach : ∀ a, InWord ((p.side.position.get a).toInt + s.load.displacement a))
    (hlasts : 65536 * s.eventCount.toNat ≤ bs.count .step) :
    (p.execute slot s).Over
      (fun _ os o p' => (p.execute slot s).Finishes s p.side.position os o p') bs := by
  obtain ⟨t, -, htracks, hrun⟩ := h.draws hcount hcalm
  refine hrun.ends (fun ⟨a, ha⟩ => ha (hreach a)) ?_
  rintro os p' hwatch ⟨t', k, hahead, -⟩
  refine hahead.not_lastsAtMost htracks (paced_execute hp slot h.hasMotion) hwatch ?_
  rw [Traversal.LastsAtMost, show t.eventCount = s.eventCount from htracks.carries.eventCount_eq]
  exact Nat.le_add_left_of_le hlasts

namespace Reachable

/-- A segment from which a stop takes steps is cancelled. -/
theorem cancels_in_time (h : Reachable (fun s => s.load.Sound) held p) (hp : p.side.Paced)
    (hc : p.side.current = some t) {a : Axis} (ha : p.stop.has a = true)
    (hleft : t.remaining.get a ≠ 0) (hreach : ¬ p.OutOfReach t) {bs : List Beat}
    (hlasts : t.LastsAtMost ((Beat.step :: bs).count .step)) :
    p.Over (fun bs os o p' => p.Cancelled p' ∧ p.EndsWith t (p.NeverStops · bs) bs os o)
      (.step :: bs) := by
  obtain ⟨l, htracks, hrun⟩ := h.until_cancelled hc ha hleft bs
  refine hrun.ends hreach ?_
  rintro os p' hwatch ⟨t', k, hahead, -⟩
  exact hahead.not_lastsAtMost htracks hp hwatch hlasts

/-- A segment from which no stop takes steps is completed. -/
theorem completes_in_time (h : Reachable (fun s => s.load.Sound) held p) (hp : p.side.Paced)
    (hc : p.side.current = some t) (hint : t.interrupted = false) (hreach : ¬ p.OutOfReach t) :
    ∃ s, p.ring.executing t.slot = .ok s ∧ ∀ bs, p.NeverCuts bs →
      t.LastsAtMost (bs.count .step) →
      p.Over (fun bs os o p' => p.Completed s p' ∧ p.EndsWith t (fun _ => True) bs os o) bs := by
  obtain ⟨s, hexec, htracks, hrun⟩ := h.until_completed hc hint
  refine ⟨s, hexec, fun bs hnever hlasts => ?_⟩
  have hover := (hrun bs).ends hreach fun os p' hwatch ⟨t', k, hahead, _⟩ =>
    hahead.not_lastsAtMost htracks hp hwatch hlasts
  obtain ⟨bs₁, bs₂, os, o, p₁, p', rfl, hwatch, htick, hfinal⟩ := hover
  rw [← List.singleton_append, ← List.append_assoc] at hnever
  exact ⟨bs₁, bs₂, os, o, p₁, p', rfl, hwatch, htick, hfinal hnever.of_append⟩

end Reachable

/-- Whatever is executed comes to its end in time, one way or another, unless it leads out of the
word of a position. -/
structure Arrives (p : Plant n Stepper) : Prop where
  /-- a segment that a tick announces, with as many events as its busiest actuator makes steps, is
  drawn to its end -/
  finishes : ∀ {o p' es s}, p.tick = .ok (o, p') → p'.events.toList = p.events.toList ++ es →
    .began s ∈ es → s.eventCount = Planner.eventCount s.steps →
    ∃ (p₀ : Plant n Stepper) (slot : Nat),
      (p.tick = (p₀.execute slot s).tick ∨ p' = p₀.execute slot s) ∧
      ((∀ a, InWord ((p₀.side.position.get a).toInt + s.load.displacement a)) →
        ∀ bs : List Beat, (∀ b ∈ bs, b.isCalm = true) →
          65536 * s.eventCount.toNat ≤ bs.count .step → (p₀.execute slot s).Over
            (fun _ os o p' => (p₀.execute slot s).Finishes s p₀.side.position os o p') bs)
  /-- if the next tick sees a stop that takes steps from a segment, the segment is cancelled -/
  cancels : ∀ t a bs, p.side.current = some t → ¬ p.OutOfReach t → p.stop.has a = true →
    t.remaining.get a ≠ 0 → t.LastsAtMost ((Beat.step :: bs).count .step) →
    p.Over (fun bs os o p' => p.Cancelled p' ∧ p.EndsWith t (p.NeverStops · bs) bs os o)
      (.step :: bs)
  /-- a segment of which no steps are taken is completed -/
  completes : ∀ t, p.side.current = some t → ¬ p.OutOfReach t → t.interrupted = false →
    ∃ s, p.ring.executing t.slot = .ok s ∧ ∀ bs, p.NeverCuts bs →
      t.LastsAtMost (bs.count .step) →
      p.Over (fun bs os o p' => p.Completed s p' ∧ p.EndsWith t (fun _ => True) bs os o) bs

theorem Reachable.arrives (h : Reachable (fun s => s.load.Sound) held p) (hp : p.side.Paced) :
    p.Arrives where
  finishes {o p' es s} htick hevents hs hcount := by
    obtain ⟨q, hq⟩ := h.orderly
    obtain ⟨p₀, slot, hbegins, htimers, hgoes⟩ := hq.coupled.begins_of_tick htick hevents hs
    have hgeared : p₀.side.Geared := by
      rw [htimers]
      exact hp.geared
    exact ⟨p₀, slot, hgoes,
      fun hreach bs hcalm hlasts => hbegins.finishes hcount hgeared hcalm hreach hlasts⟩
  cancels _ _ _ hc hreach ha hleft hlasts := h.cancels_in_time hp hc ha hleft hreach hlasts
  completes _ hc hreach hint := h.completes_in_time hp hc hint hreach

end Plant

/-- With valid settings whose lower bound on the step rate is at least a 65536th of the step tick
rate, whatever is executed comes to its end in time, whatever is done to the pipeline. -/
theorem Pipeline.arrives_of_errands {len : Nat} {ring : Ring n} (hring : Ring.new n len = .ok ring)
    {s : Settings} (hvalid : s.validate = .ok ())
    (hlow : s.baseFrequency.toNat ≤ 65536 * s.minimumStepRate.toNat) (planner : Planner)
    {es : List Errand} (hes : ∀ e ∈ es, e.Writes fun s => s.load.Sound) :
    Fault.Blameless (fun l => l.plant.strip.Arrives)
      ((ofRing ring (.ofSettings s) planner).errands (.of fun p => p.strip.Arrives) es) := by
  have hserves : (ofRing ring (.ofSettings s) planner).Serves fun s => s.load.Sound :=
    serves_ofRing hring rfl planner
  have hstart : (Stepper.ofSettings s).Paced := .of_none (Stepper.geared_ofSettings hvalid hlow) rfl
  have hwrites : ∀ e ∈ es, (e.Writes fun s => s.load.Sound) ∧ (e.Lowers → True) :=
    fun e he => ⟨hes e he, fun _ => trivial⟩
  exact errands_of_after Segment.closed_sound
    (fun m hm => hm.reachable.arrives (hm.paced hstart)) hwrites hserves.follows

end MotionControl
