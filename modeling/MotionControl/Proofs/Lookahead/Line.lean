import MotionControl.Proofs.Lookahead.Passes
import MotionControl.Proofs.Ring.Parts

/-!
# Segments in a line

`Line` is what the planner keeps true of the segments that wait, given the speed at which the one
before them ends. A segment follows another one without a jump up in speed, and with no jump at all
if the final speed is zero. In that case every segment is entered within its limit, and the last one
ends at rest.

Commands may be attached to the segments of a line (`Line.congr`), the first ones may begin
(`Line.begin`), and carriers may be put behind (`Line.push`). New segments may be put behind if the
line is replanned then (`Line.ready_append`, `Ready.replan`). The speed before the line is out of
reach for the planner. But since limits do not become less with more segments, a segment that could
be entered at that speed still can.

A segment in a line is also `Gear.Feasible`: both of its speeds can be reached from each other.
-/

namespace MotionControl

open Rounding

namespace Gear

variable {final entry exit next : Float32} {g : Gear}

/-- Either speed of a segment can be reached from the other one, up to a thousandth. This is said of
segments that are not held to be long enough for their requested speed, and of all if the final
speed is zero. If it is not zero, a segment may be planned to end with it anyway. -/
def Feasible (final : Float32) (g : Gear) (entry exit : Float32) : Prop :=
  (final == 0) = true ∨ g.reachesNominal = false →
    entry ≤ g.reach exit + 1e-3 ∧
      (exit ≤ g.reach entry + 1e-3 ∨ (final == 0) = false ∧ (exit == final) = true)

namespace Sound

theorem le_reach_add_milli (h : g.Sound final) (hentry : IsSpeed entry) (hexit : IsSpeed exit)
    (hle : value entry ≤ value exit) : entry ≤ g.reach exit + 1e-3 := by
  refine le_add_milli hentry (h.grows_reach.isSpeed hexit) ?_
  by_cases htiny : value entry < (2 : ℝ) ^ (-10 : ℤ)
  · exact .inl htiny
  · exact .inr (hle.trans (h.le_reach hexit ((not_lt.mp htiny).trans hle)))

/-- With a final speed of zero, the requested speed can be reached from any speed if that is
said. -/
theorem nominalSpeed_le_reach (h : g.Sound final) (hf : IsSpeed final) (hzero : value final = 0)
    (hreaches : g.reachesNominal = true) {speed : Float32} (hspeed : IsSpeed speed) :
    value g.nominalSpeed ≤ value (g.reach speed) :=
  (h.reaches hreaches).trans (h.grows_reach.mono hf hspeed (hzero.le.trans hspeed.nonneg))

theorem value_handover (h : g.Sound final) (hentry : IsSpeed entry)
    (hreaches : g.reachesNominal = false) :
    value (g.handover entry) = min (value (g.reach entry)) (value g.nominalSpeed) := by
  rw [handover, hreaches]
  exact value_min (h.grows_reach.isSpeed hentry) h.nominalSpeed

/-- A segment that is entered within its limit can slow down. -/
theorem slows (h : g.Sound final) (hf : IsSpeed final)
    (hcase : value final = 0 ∨ g.reachesNominal = false) (hentry : IsSpeed entry)
    (hexit : IsSpeed exit) (hnext : IsSpeed next)
    (hlimit : value entry ≤ value (g.limitBefore next))
    (hvalue : value exit = value next ∨ value exit = value (g.handover entry)) :
    entry ≤ g.reach exit + 1e-3 := by
  have hnominal := (hlimit.trans (h.limitBefore_le hnext)).trans h.maxEntrySpeed_le
  cases hreaches : g.reachesNominal with
  | true =>
    have hzero := hcase.resolve_right (by rw [hreaches]; exact Bool.noConfusion)
    refine le_add_milli hentry (h.grows_reach.isSpeed hexit) (.inr ?_)
    exact hnominal.trans (h.nominalSpeed_le_reach hf hzero hreaches hexit)
  | false =>
    obtain heq | heq := hvalue
    · by_cases hcon : g.isConstrainedBy next = true
      · rw [limitBefore, if_pos hcon,
          value_min h.maxEntrySpeed (h.grows_reach.isSpeed hnext)] at hlimit
        refine le_add_milli hentry (h.grows_reach.isSpeed hexit) (.inr ?_)
        exact (hlimit.trans (min_le_right _ _)).trans (h.grows_reach.mono hnext hexit heq.ge)
      · -- the next segment is entered faster than this one
        refine h.le_reach_add_milli hentry hexit ?_
        rw [h.isConstrainedBy_iff hnext, not_and, not_lt] at hcon
        exact ((hlimit.trans (h.limitBefore_le hnext)).trans (hcon hreaches)).trans heq.ge
    · rw [h.value_handover hentry hreaches] at heq
      by_cases htiny : value entry < (2 : ℝ) ^ (-10 : ℤ)
      · exact le_add_milli hentry (h.grows_reach.isSpeed hexit) (.inl htiny)
      · refine h.le_reach_add_milli hentry hexit ?_
        rw [heq]
        exact le_min (h.le_reach hentry (not_lt.mp htiny)) hnominal

/-- A segment that ends no faster than it can hand over can speed up to that. -/
theorem speeds (h : g.Sound final) (hf : IsSpeed final)
    (hcase : value final = 0 ∨ g.reachesNominal = false) (hentry : IsSpeed entry)
    (hexit : IsSpeed exit) (hle : value exit ≤ value (g.handover entry)) :
    exit ≤ g.reach entry + 1e-3 := by
  refine le_add_milli hexit (h.grows_reach.isSpeed hentry) (.inr (hle.trans ?_))
  cases hreaches : g.reachesNominal with
  | true =>
    have hzero := hcase.resolve_right (by rw [hreaches]; exact Bool.noConfusion)
    rw [handover, if_pos hreaches]
    exact h.nominalSpeed_le_reach hf hzero hreaches hentry
  | false =>
    rw [h.value_handover hentry hreaches]
    exact min_le_left _ _

theorem feasible (h : g.Sound final) (hf : IsSpeed final) (hentry : IsSpeed entry)
    (hexit : IsSpeed exit) (hnext : IsSpeed next)
    (hlimit : value entry ≤ value (g.limitBefore next))
    (hvalue : value exit = value next ∨ value exit = value (g.handover entry))
    (hends : value exit ≤ value (g.handover entry) ∨ exit = final) :
    g.Feasible final entry exit := by
  have hzero_iff : (final == 0) = true ↔ value final = 0 := by
    rw [beq_iff hf.isNumber IsSpeed.zero.isNumber, value_zero]
  intro hcase
  rw [hzero_iff] at hcase
  refine ⟨h.slows hf hcase hentry hexit hnext hlimit hvalue, ?_⟩
  obtain hle | rfl := hends
  · exact .inl (h.speeds hf hcase hentry hexit hle)
  · by_cases hzero : value exit = 0
    · refine .inl (le_add_milli hexit (h.grows_reach.isSpeed hentry) (.inr ?_))
      exact hzero.le.trans (h.grows_reach.isSpeed hentry).nonneg
    · rw [← hzero_iff, Bool.not_eq_true] at hzero
      exact .inr ⟨hzero, (beq_iff hexit.isNumber hexit.isNumber).mpr rfl⟩

end Sound

end Gear

namespace Lookahead

variable {final speed : Float32} {s : Segment} {ss : List Segment}

/-! ## Junctions -/

/-- How a speed goes with the one before the junction. -/
structure Follows (final before after : Float32) : Prop where
  /-- there is no jump up -/
  le : value after ≤ value before
  /-- and no jump down either if the final speed is zero -/
  eq : value final = 0 → value after = value before

/-- At no junction there is a jump up in speed, and if the final speed is zero, there is none at
all. -/
def Smooth (final : Float32) : Float32 → List Segment → Prop
  | _, [] => True
  | speed, s :: ss =>
    s.entrySpeed ≤ speed ∧ ((final == 0) = true → (s.entrySpeed == speed) = true) ∧
      Smooth final s.exitSpeed ss

instance decidableSmooth (final : Float32) :
    ∀ (speed : Float32) (ss : List Segment), Decidable (Smooth final speed ss)
  | _, [] => inferInstanceAs (Decidable True)
  | _, s :: ss =>
    have := decidableSmooth final s.exitSpeed ss
    inferInstanceAs (Decidable (_ ∧ _ ∧ _))

theorem smooth_append {ss' : List Segment} : Smooth final speed (ss ++ ss') ↔
    Smooth final speed ss ∧ Smooth final (Segment.endOf speed ss) ss' := by
  induction ss generalizing speed with
  | nil => exact (and_iff_right trivial).symm
  | cons s ss ih =>
    rw [List.cons_append, Smooth, Smooth, ih, and_assoc, and_assoc]
    rfl

/-! ## Lines -/

/-- Segments wait behind a speed. -/
inductive Line (final : Float32) : Float32 → List Segment → Prop
  | done {speed : Float32} (hspeed : IsSpeed speed) (hends : value final = 0 → value speed = 0) :
      Line final speed []
  | next {speed : Float32} {s : Segment} {ss : List Segment} (hspeed : IsSpeed speed)
      (hentry : IsSpeed s.entrySpeed) (hfollows : Follows final speed s.entrySpeed)
      (hgear : ∀ g, s.gear = some g →
        g.Sound final ∧ g.Feasible final s.entrySpeed s.exitSpeed)
      (hlimit : value final = 0 →
        value s.entrySpeed ≤ value (limit final ((s :: ss).map Segment.gear)))
      (hrest : Line final s.exitSpeed ss) : Line final speed (s :: ss)

/-- Segments can be replanned into a line behind a speed. -/
structure Ready (final speed : Float32) (ss : List Segment) : Prop where
  /-- the speed is one -/
  isSpeed : IsSpeed speed
  /-- the gears are those that the planner makes -/
  geared : Geared final (ss.map Segment.gear)
  /-- entry speeds are speeds -/
  entries : ∀ s ∈ ss, IsSpeed s.entrySpeed
  /-- with a final speed of zero, the first one can be entered at the speed before -/
  limit : value final = 0 → value speed ≤ value (limit final (ss.map Segment.gear))

namespace Line

theorem isSpeed (h : Line final speed ss) : IsSpeed speed := by
  cases h with
  | done hspeed hends => exact hspeed
  | next hspeed hentry hfollows hgear hlimit hrest => exact hspeed

theorem geared (h : Line final speed ss) : Geared final (ss.map Segment.gear) := by
  induction h with
  | done hspeed hends => exact fun g hg => absurd hg List.not_mem_nil
  | next hspeed hentry hfollows hgear hlimit hrest ih =>
    intro g hg
    obtain hg | hg := List.mem_cons.mp hg
    · exact (hgear g hg.symm).1
    · exact ih g hg

theorem entries (h : Line final speed ss) : ∀ s ∈ ss, IsSpeed s.entrySpeed := by
  induction h with
  | done hspeed hends => exact fun s hs => absurd hs List.not_mem_nil
  | next hspeed hentry hfollows hgear hlimit hrest ih => exact List.forall_mem_cons.mpr ⟨hentry, ih⟩

theorem feasible (h : Line final speed ss) :
    ∀ s ∈ ss, ∀ g, s.gear = some g → g.Feasible final s.entrySpeed s.exitSpeed := by
  induction h with
  | done hspeed hends => exact fun s hs => absurd hs List.not_mem_nil
  | next hspeed hentry hfollows hgear hlimit hrest ih =>
    exact List.forall_mem_cons.mpr ⟨fun g hg => (hgear g hg).2, ih⟩

/-- Commands do not matter. -/
theorem congr {ss' : List Segment} (h : Line final speed ss)
    (hmap : (ss'.map fun s => (s.gear, s.entrySpeed, s.exitSpeed)) =
      ss.map fun s => (s.gear, s.entrySpeed, s.exitSpeed)) : Line final speed ss' := by
  induction h generalizing ss' with
  | done hspeed hends =>
    rw [List.map_nil, List.map_eq_nil_iff] at hmap
    rw [hmap]
    exact .done hspeed hends
  | @next speed s ss hspeed hentry hfollows hgear hlimit hrest ih =>
    have hgears := congrArg (List.map Prod.fst) hmap
    rw [List.map_map, List.map_map] at hgears
    obtain ⟨s', ss', rfl, hs, hss⟩ := List.map_eq_cons_iff.mp hmap
    obtain ⟨hgear', hspeeds⟩ := Prod.mk.inj hs
    obtain ⟨hentry', hexit'⟩ := Prod.mk.inj hspeeds
    have hlimit' : limit final ((s' :: ss').map Segment.gear) =
        limit final ((s :: ss).map Segment.gear) := congrArg (Lookahead.limit final) hgears
    refine .next hspeed ?_ ?_ ?_ ?_ ?_
    · rwa [hentry']
    · rwa [hentry']
    · rwa [hgear', hentry', hexit']
    · rwa [hlimit', hentry']
    · rw [hexit']
      exact ih hss

/-- The first segments of a line may begin. -/
theorem begin {gone : List Segment} (h : Line final speed (gone ++ ss)) (hf : IsSpeed final) :
    Smooth final speed gone ∧ Line final (Segment.endOf speed gone) ss := by
  induction gone generalizing speed with
  | nil => exact ⟨trivial, h⟩
  | cons s gone ih =>
    cases h with
    | next hspeed hentry hfollows hgear hlimit hrest =>
      obtain ⟨hsmooth, hline⟩ := ih hrest
      refine ⟨⟨(le_iff hentry.isNumber hspeed.isNumber).mpr hfollows.le, fun hzero => ?_, hsmooth⟩,
        hline⟩
      rw [beq_iff hf.isNumber IsSpeed.zero.isNumber, value_zero] at hzero
      exact (beq_iff hentry.isNumber hspeed.isNumber).mpr (hfollows.eq hzero)

/-- A carrier that rests at both ends may be put behind. -/
theorem push (h : Line final speed ss) (hf : IsSpeed final) (hmotion : s.hasMotion = false)
    (hentry : s.entrySpeed = 0) (hexit : s.exitSpeed = 0) : Line final speed (ss ++ [s]) := by
  have hgear : s.gear = none := if_neg (Bool.eq_false_iff.mp hmotion)
  induction h with
  | @done speed hspeed hends =>
    have hrest : Line final s.exitSpeed [] := by
      rw [hexit]
      exact .done .zero fun _ => value_zero
    refine .next hspeed (hentry ▸ .zero) ⟨?_, fun hzero => ?_⟩ ?_ (fun hzero => ?_) hrest
    · rw [hentry, value_zero]
      exact hspeed.nonneg
    · rw [hentry, value_zero, hends hzero]
    · rw [hgear]
      nofun
    · rw [hentry, value_zero, List.map_cons, hgear]
      exact hf.nonneg
  | @next speed s' ss hspeed hentry' hfollows hgear' hlimit hrest ih =>
    refine .next hspeed hentry' hfollows hgear' (fun hzero => ?_) ih
    -- the carrier passes the final speed on
    have hsame : limit final ((s' :: (ss ++ [s])).map Segment.gear) =
        limit final ((s' :: ss).map Segment.gear) := by
      rw [← List.cons_append, List.map_append, limit, limit, List.foldr_append, List.map_singleton,
        hgear]
      rfl
    exact (hlimit hzero).trans (congrArg value hsame).ge

/-! ## Replanning -/

/-- With a final speed of zero, a line can be entered at the speed before it. -/
theorem le_limit (h : Line final speed ss) (hzero : value final = 0) :
    value speed ≤ value (limit final (ss.map Segment.gear)) := by
  cases h with
  | done hspeed hends => exact ((hends hzero).trans hzero.symm).le
  | next hspeed hentry hfollows hgear hlimit hrest =>
    exact (hfollows.eq hzero).ge.trans (hlimit hzero)

theorem ready (h : Line final speed ss) : Ready final speed ss :=
  ⟨h.isSpeed, h.geared, h.entries, h.le_limit⟩

/-- Behind a line there may be another segment. -/
theorem ready_append (h : Line final speed ss) (hf : IsSpeed final)
    (hgear : ∀ g, s.gear = some g → g.Sound final) (hentry : IsSpeed s.entrySpeed) :
    Ready final speed (ss ++ [s]) := by
  have hgeared : Geared final ((ss ++ [s]).map Segment.gear) := by
    intro g hg
    rw [List.map_append, List.mem_append, List.map_singleton, List.mem_singleton] at hg
    obtain hg | hg := hg
    · exact h.geared g hg
    · exact hgear g hg.symm
  refine ⟨h.isSpeed, hgeared, fun s' hs' => ?_, fun hzero => (h.le_limit hzero).trans ?_⟩
  · obtain hs' | hs' := List.mem_append.mp hs'
    · exact h.entries s' hs'
    · rw [List.mem_singleton.mp hs']
      exact hentry
  · rw [List.map_append] at hgeared ⊢
    exact limit_le_append hgeared hf hzero

end Line

theorem Paced.isSpeed_entryOf {next : Float32} (h : Paced final speed ss) (hnext : IsSpeed next) :
    IsSpeed (entryOf next ss) := by
  cases ss with
  | nil => exact hnext
  | cons s ss => exact h.1

/-- Segments are paced from the entry speed of the first one just as well. -/
theorem Paced.of_entryOf {next : Float32} (h : Paced final speed ss) :
    Paced final (entryOf next ss) ss := by
  cases ss with
  | nil => trivial
  | cons s ss =>
    obtain ⟨hspeed, hvalue, hrest⟩ := h
    refine ⟨hspeed, ?_, hrest⟩
    change value s.entrySpeed = min (value s.entrySpeed) _
    rw [min_eq_left]
    rw [hvalue]
    exact min_le_right _ _

/-- The speed at which a segment ends is the limit of those behind it, or what the segment can hand
over. -/
theorem Paced.entryOf_cases (h : Paced final speed ss) :
    (value (entryOf final ss) = value (limit final (ss.map Segment.gear)) ∨
      value (entryOf final ss) = value speed) ∧
    value (entryOf final ss) ≤ value (limit final (ss.map Segment.gear)) ∧
    (value (entryOf final ss) ≤ value speed ∨ entryOf final ss = final) := by
  cases ss with
  | nil => exact ⟨.inl rfl, le_rfl, .inr rfl⟩
  | cons s ss =>
    obtain ⟨-, hvalue, -⟩ := h
    change (value s.entrySpeed = _ ∨ value s.entrySpeed = _) ∧ value s.entrySpeed ≤ _ ∧
      (value s.entrySpeed ≤ _ ∨ _)
    rw [hvalue]
    exact ⟨(min_choice _ _).symm, min_le_right _ _, .inl (min_le_left _ _)⟩

theorem Line.of_paced (hf : IsSpeed final) (hspeed : IsSpeed speed)
    (hgeared : Geared final (ss.map Segment.gear)) (hpaced : Paced final speed ss)
    (hlinked : Linked final ss)
    (hlimit : value final = 0 → value speed ≤ value (limit final (ss.map Segment.gear))) :
    Line final speed ss := by
  induction ss generalizing speed with
  | nil =>
    refine .done hspeed fun hzero => le_antisymm ?_ hspeed.nonneg
    exact (hlimit hzero).trans hzero.le
  | cons s ss ih =>
    obtain ⟨hentry, hvalue, hrest⟩ := hpaced
    obtain ⟨hexit, hlinked⟩ := hlinked
    have hgeared' : Geared final (ss.map Segment.gear) :=
      fun g hg => hgeared g (List.mem_cons_of_mem _ hg)
    have hexit_speed : IsSpeed s.exitSpeed := by
      rw [hexit]
      exact hrest.isSpeed_entryOf hf
    obtain ⟨hcases, hle, hends⟩ := hrest.entryOf_cases
    refine .next hspeed hentry ⟨?_, fun hzero => ?_⟩ (fun g hg => ?_) (fun _ => ?_)
      (ih hexit_speed hgeared' (hexit ▸ hrest.of_entryOf) hlinked fun _ => hexit ▸ hle)
    · rw [hvalue]
      exact min_le_left _ _
    · rw [hvalue]
      exact min_eq_left (hlimit hzero)
    · have hsound := hgeared g (List.mem_cons.mpr (.inl hg.symm))
      have hhandover : handover s = g.handover s.entrySpeed := by
        rw [handover_eq, hg]
        rfl
      rw [hhandover, ← hexit] at hcases hends
      refine ⟨hsound, hsound.feasible hf hentry hexit_speed (isSpeed_limit hgeared' hf) ?_ hcases
        hends⟩
      rw [hvalue, List.map_cons, hg]
      exact min_le_right _ _
    · rw [hvalue]
      exact min_le_right _ _

/-- Replanning makes a line. -/
theorem Ready.replan (h : Ready final speed ss) (hf : IsSpeed final) {ss' : List Segment}
    (hok : replan speed final ss = .ok ss') : Line final speed ss' := by
  obtain ⟨hgears, hpaced, hlinked⟩ := replan_spec h.geared h.entries hf h.isSpeed hok
  exact .of_paced hf h.isSpeed (hgears ▸ h.geared) hpaced hlinked (hgears ▸ h.limit)

end Lookahead

end MotionControl
