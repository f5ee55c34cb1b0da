import MotionControl.Proofs.Motion.Profiles
import MotionControl.Proofs.Ring.Twins

/-!
# Work that leaves alone what waits

The interrupt takes segments from the ring, one after the other, or it drops all of them. What it
does besides depends on the segment under execution alone, and on whether there are others. So a
beat either makes less of what waits (`Ring.Dwindles`), or it neither changes the ring nor notices
which of two twins it is at work on.

`Plant.aside` is a beat that ends the run if less waits afterwards. It cannot tell twins apart
(`Ring.Twins.aside`).
-/

namespace MotionControl

variable {n : Nat}

/-! ## The ring -/

namespace Ring

/-- Some of what has waited has begun, or has been dropped, unless there was nothing. -/
structure Dwindles (r r' : Ring n) : Prop where
  /-- nothing is held -/
  holds : r'.Holds [] r'.toFifo
  /-- less waits than before -/
  fewer : r'.toFifo.waiting = [] ∨ r'.toFifo.waiting.length < r.toFifo.waiting.length

theorem Dwindles.of_holds {r r' : Ring n} {q q' : Fifo} (h : r.Holds [] q) (h' : r'.Holds [] q')
    (hfewer : q'.waiting = [] ∨ q'.waiting.length < q.waiting.length) : r.Dwindles r' := by
  obtain rfl : r.toFifo = q := h.toFifo_eq
  obtain rfl : r'.toFifo = q' := h'.toFifo_eq
  exact ⟨h', hfewer⟩

theorem Dwindles.trans {r r' r'' : Ring n} (h : r.Dwindles r') (h' : r'.Dwindles r'') :
    r.Dwindles r'' := by
  refine ⟨h'.holds, ?_⟩
  obtain hnone | hlt' := h'.fewer
  · exact .inl hnone
  · obtain hnone | hlt := h.fewer
    · rw [hnone] at hlt'
      exact absurd hlt' (Nat.not_lt_zero _)
    · exact .inr (hlt'.trans hlt)

namespace Holds

variable {r r' : Ring n} {q : Fifo}

/-- A window consists of the segments that wait. -/
theorem window_eq (h : r.Holds [] q) : r.window = q.waiting.map Slot.segment :=
  h.segments_lockWindow

theorem dwindles_abort (h : r.Holds [] q) : r.Dwindles r.abort :=
  .of_holds h h.abort (.inl rfl)

theorem dwindles_begin? (h : r.Holds [] q) {i : Nat} (hr : r.begin? = some (i, r')) :
    r.Dwindles r' := by
  by_cases hready : ∃ s rest, q.pending = ⟨s, .ready⟩ :: rest
  · obtain ⟨s, rest, hp⟩ := hready
    obtain ⟨r₁, hr₁, -, h₁⟩ := h.begin?_of_ready hp
    rw [hr] at hr₁
    cases hr₁
    have hbegun : q.begun = false := by
      rw [Fifo.begun, hp]
      rfl
    refine .of_holds h h₁ (.inr ?_)
    rw [(Fifo.parts_of_begun rfl).2, (Fifo.parts_of_not_begun hbegun).2, hp]
    exact Nat.lt_succ_self _
  · rw [h.begin?_of_not_ready fun s rest hp => hready ⟨s, rest, hp⟩] at hr
    cases hr

/-- Where something waits and nothing has begun, the next segment begins. -/
theorem exists_begin? (h : r.Holds [] q) (hbegun : q.begun = false) (hne : q.pending ≠ []) :
    ∃ i r', r.begin? = some (i, r') := by
  obtain ⟨e, rest, hp⟩ := List.exists_cons_of_ne_nil hne
  have hready : e.state = .ready :=
    h.ready_of_waiting e (by rw [(Fifo.parts_of_not_begun hbegun).2, hp]; exact List.mem_cons_self)
  have hfirst : q.pending = ⟨e.segment, .ready⟩ :: rest := by rw [hp, ← hready]
  obtain ⟨r', hr', -⟩ := h.begin?_of_ready hfirst
  exact ⟨_, r', hr'⟩

theorem begin?_eq_none_iff (h : r.Holds [] q) :
    r.begin? = none ↔ q.begun = true ∨ q.pending = [] := by
  constructor
  · intro hnone
    by_contra hnot
    rw [not_or, Bool.not_eq_true] at hnot
    obtain ⟨i, r', hr'⟩ := h.exists_begin? hnot.1 hnot.2
    rw [hnone] at hr'
    cases hr'
  · intro hor
    refine h.begin?_of_not_ready fun s rest hp => ?_
    obtain hbegun | hnil := hor
    · rw [Fifo.begun, hp] at hbegun
      cases hbegun
    · rw [hp] at hnil
      cases hnil

/-- What has begun is at the front. -/
theorem pending_of_executing (h : r.Holds [] q) (hstate : r.state r.front = .executing) :
    ∃ s rest, q.pending = ⟨s, .executing⟩ :: rest := by
  cases hp : q.pending with
  | nil =>
    rw [h.front_eq_head_iff.mpr hp, state, h.slot_head] at hstate
    cases hstate
  | cons e rest =>
    rw [state, h.slot_front hp] at hstate
    exact ⟨e.segment, rest, by rw [← hstate]⟩

/-- Handing a segment back lets the next one begin. -/
theorem dwindles_release (h : r.Holds [] q) {i : Nat} {s : Segment} (hexec : r.executing i = .ok s)
    {next : Option Nat} (hr : r.release i = .ok (next, r')) : r.Dwindles r' := by
  obtain ⟨⟨more, r₁⟩, hfinish, hr⟩ := Fault.bind_eq_ok.mp hr
  have hi : i = r.front := by
    unfold Ring.finish at hfinish
    split at hfinish
    · assumption
    · cases hfinish
  have hstate : r.state r.front = .executing := by
    unfold Ring.executing at hexec
    split at hexec
    · cases hexec
    · split at hexec
      · next hstate => rwa [hi] at hstate
      · cases hexec
  obtain ⟨s', rest, hp⟩ := h.pending_of_executing hstate
  obtain ⟨r₂, hr₂, h₁⟩ := h.finish fun _ => by rw [hp]; exact List.cons_ne_nil _ _
  rw [hi, hr₂] at hfinish
  cases hfinish
  have hbegun := h.valid.begun_finish
  have hwaiting := (Fifo.parts_of_not_begun hbegun).2
  by_cases hnone : q.finish.2.pending = []
  · have hlast : q.finish.1 = false := by
      rw [Fifo.finish, show q.afterFinish = [] from hnone]
      rfl
    dsimp only at hr
    rw [hlast] at hr
    cases hr
    exact .of_holds h h₁ (.inl (hwaiting.trans hnone))
  · have hmore : q.finish.1 = true := by
      cases hafter : q.afterFinish with
      | nil => exact absurd hafter hnone
      | cons e rest =>
        rw [Fifo.finish, hafter]
        rfl
    obtain ⟨j, r₂, hbegin⟩ := h₁.exists_begin? hbegun hnone
    dsimp only at hr
    rw [hmore, if_pos rfl, hbegin] at hr
    cases hr
    -- what is left of the pending segments has waited before
    have hle : q.finish.2.waiting.length ≤ q.waiting.length := by
      rw [hwaiting, (Fifo.parts_of_begun hp).2]
      change q.afterFinish.length ≤ _
      unfold Fifo.afterFinish
      split
      · exact Nat.zero_le _
      · rw [hp]
        exact Nat.le_refl _
    have hbegins := h₁.dwindles_begin? hbegin
    refine ⟨hbegins.holds, hbegins.fewer.imp_right fun hlt => ?_⟩
    rw [h₁.toFifo_eq] at hlt
    rw [h.toFifo_eq]
    exact hlt.trans_le hle

end Holds

/-- Twins do not begin anything unless both do. -/
theorem Twins.start?_eq_none {R : Segment → Segment → Prop} {r r' : Ring n} (h : r.Twins R r')
    (hr : r.start? = none) : r'.start? = none := by
  unfold start? at hr ⊢
  rw [h.running_eq]
  split
  · next hrun =>
    rw [if_pos hrun, h.left.begin?_eq_none_iff] at hr
    rwa [h.right.begin?_eq_none_iff, h.queue.begun_eq, ← List.length_eq_zero_iff,
      h.queue.length_pending, List.length_eq_zero_iff]
  · rfl

end Ring

/-! ## The stepper -/

namespace Plant

variable {p p' : Plant n Stepper} {q : Fifo}

theorem passCarriers_dwindles (h : p.ring.Holds [] q) {fuel : Nat} {next : Option Nat}
    (hok : passCarriers fuel next p = .ok p') : p'.ring = p.ring ∨ p.ring.Dwindles p'.ring := by
  induction fuel generalizing next p q with
  | zero =>
    cases hok
    exact .inl rfl
  | succ fuel ih =>
    cases next with
    | none =>
      cases hok
      exact .inl rfl
    | some slot =>
      obtain ⟨s, hexec, hok⟩ := Fault.bind_eq_ok.mp hok
      dsimp only at hok
      split at hok
      · cases hok
        exact .inl rfl
      · obtain ⟨⟨next', r⟩, hr, hok⟩ := Fault.bind_eq_ok.mp hok
        rw [ring_publishCompletion] at hr
        have hrelease := h.dwindles_release hexec hr
        right
        obtain hsame | hmore :=
          ih (p := { p.publishCompletion s with ring := r }) hrelease.holds hok
        · rw [hsame]
          exact hrelease
        · exact hrelease.trans hmore

theorem advance_dwindles (h : p.ring.Holds [] q) {next : Option Nat}
    (hok : advance next p = .ok p') : p'.ring = p.ring ∨ p.ring.Dwindles p'.ring := by
  unfold advance at hok
  split at hok
  · cases hok
    exact .inr h.dwindles_abort
  · exact passCarriers_dwindles h hok

theorem complete_dwindles (h : p.ring.Holds [] q) {t : Traversal} (hok : p.complete t = .ok p') :
    p.ring.Dwindles p'.ring := by
  obtain ⟨s, hexec, hok⟩ := Fault.bind_eq_ok.mp hok
  obtain ⟨⟨next, r⟩, hr, hok⟩ := Fault.bind_eq_ok.mp hok
  rw [ring_publishCompletion] at hr
  have hrelease := h.dwindles_release hexec hr
  obtain hsame | hmore := advance_dwindles
    (p := { (p.setCurrent none).publishCompletion s with ring := r }) hrelease.holds hok
  · rw [hsame]
    exact hrelease
  · exact hrelease.trans hmore

/-- A step event, with what follows from it. -/
theorem performEvent_twins (h : p.ring.Holds [] q) {t : Traversal} {o : StepOutput}
    (hok : p.performEvent t = .ok (o, p')) : p.ring.Dwindles p'.ring ∨ p'.ring = p.ring ∧
      ∀ r : Ring n, ({ p with ring := r } : Plant n Stepper).performEvent t =
        .ok (o, { p' with ring := r }) := by
  rw [performEvent_eq_settle] at hok
  obtain ⟨position, hposition, hok⟩ := Fault.bind_eq_ok.mp hok
  obtain ⟨settled, hsettled, hok⟩ := Fault.bind_eq_ok.mp hok
  cases hok
  unfold settle at hsettled
  by_cases hdone : t.stepEvent.isComplete = true
  · rw [if_pos hdone] at hsettled
    split at hsettled
    · cases hsettled
      exact .inl h.dwindles_abort
    · exact .inl (complete_dwindles (p := p.struck position t.stepEvent) h hsettled)
  · rw [if_neg hdone] at hsettled
    cases hsettled
    refine .inr ⟨rfl, fun r => ?_⟩
    rw [performEvent_eq_settle]
    dsimp only
    rw [hposition]
    dsimp only [bind, Except.bind]
    rw [settle, if_neg hdone]
    rfl

theorem traverse_twins (h : p.ring.Holds [] q) {t : Traversal} {o : StepOutput}
    (hok : p.traverse t = .ok (o, p')) : p.ring.Dwindles p'.ring ∨ p'.ring = p.ring ∧
      ∀ r : Ring n, ({ p with ring := r } : Plant n Stepper).traverse t =
        .ok (o, { p' with ring := r }) := by
  unfold traverse advancePhase at hok ⊢
  dsimp only at hok ⊢
  split at hok
  · cases hok
    exact .inl h.dwindles_abort
  · next hgo =>
    split at hok
    · next hdue =>
      refine (performEvent_twins h hok).imp_right fun ⟨hring, hr⟩ => ⟨hring, fun r => ?_⟩
      rw [if_neg hgo, if_pos hdue]
      exact hr r
    · next hwait =>
      cases hok
      refine .inr ⟨rfl, fun r => ?_⟩
      rw [if_neg hgo, if_neg hwait]
      rfl

variable {R : Segment → Segment → Prop} {r : Ring n}

theorem prepare_twins (h : p.ring.Twins R r) (hok : p.prepare = .ok p') :
    p.ring.Dwindles p'.ring ∨ p'.ring = p.ring ∧
      ({ p with ring := r } : Plant n Stepper).prepare = .ok { p' with ring := r } := by
  unfold prepare at hok ⊢
  dsimp only
  cases hc : p.side.current with
  | some t =>
    rw [hc] at hok
    cases hok
    exact .inr ⟨rfl, rfl⟩
  | none =>
    rw [hc] at hok
    dsimp only at hok ⊢
    split
    · next hstop =>
      rw [if_pos hstop, Except.ok.injEq] at hok
      subst hok
      rw [h.hasPending_eq]
      split
      · exact .inl h.left.dwindles_abort
      · exact .inr ⟨rfl, rfl⟩
    · next hstop =>
      rw [if_neg hstop] at hok
      unfold beginNext at hok ⊢
      dsimp only
      cases hstart : p.ring.start? with
      | some x =>
        obtain ⟨slot, r₁⟩ := x
        rw [hstart] at hok
        have hbegin : p.ring.Dwindles r₁ := by
          unfold Ring.start? at hstart
          split at hstart
          · exact h.left.dwindles_begin? hstart
          · cases hstart
        obtain hsame | hmore := advance_dwindles (p := { p with ring := r₁ }) hbegin.holds hok
        · exact .inl (hsame ▸ hbegin)
        · exact .inl (hbegin.trans hmore)
      | none =>
        rw [hstart] at hok
        rw [h.start?_eq_none hstart]
        cases hok
        exact .inr ⟨rfl, rfl⟩

/-- A tick either makes less of what waits, or it is the same tick for twins, and so is its first
part. -/
theorem tick_twins (h : p.ring.Twins R r) {o : StepOutput} (hok : p.tick = .ok (o, p')) :
    p.ring.Dwindles p'.ring ∨ p'.ring = p.ring ∧
      ({ p with ring := r } : Plant n Stepper).tick = .ok (o, { p' with ring := r }) ∧
      ∀ ready, p.prepare = .ok ready →
        ({ p with ring := r } : Plant n Stepper).prepare = .ok { ready with ring := r } := by
  rw [tick_eq_prepare] at hok
  obtain ⟨ready, hready, hok⟩ := Fault.bind_eq_ok.mp hok
  obtain hless | ⟨hring, hr⟩ := prepare_twins h hready
  · -- the rest of the tick does not bring anything back
    left
    cases hc : ready.side.current with
    | none =>
      rw [hc] at hok
      cases hok
      exact hless
    | some t =>
      rw [hc] at hok
      obtain hmore | ⟨hsame, -⟩ := traverse_twins hless.holds hok
      · exact hless.trans hmore
      · exact hsame ▸ hless
  · have hprepare : ∀ ready, p.prepare = .ok ready →
        ({ p with ring := r } : Plant n Stepper).prepare = .ok { ready with ring := r } := by
      intro ready' hready'
      rw [hready] at hready'
      cases hready'
      exact hr
    cases hc : ready.side.current with
    | none =>
      rw [hc] at hok
      cases hok
      refine .inr ⟨hring, ?_, hprepare⟩
      rw [tick_eq_prepare]
      refine Fault.bind_eq_ok.mpr ⟨_, hr, ?_⟩
      dsimp only
      rw [hc]
      rfl
    | some t =>
      rw [hc] at hok
      obtain hless | ⟨hsame, hr'⟩ := traverse_twins (hring ▸ h.left) hok
      · exact .inl (hring ▸ hless)
      · refine .inr ⟨hsame.trans hring, ?_, hprepare⟩
        rw [tick_eq_prepare]
        refine Fault.bind_eq_ok.mpr ⟨_, hr, ?_⟩
        dsimp only
        rw [hc]
        exact hr' r

theorem rampTick_setRing (p : Plant n Stepper) (r : Ring n) :
    ({ p with ring := r } : Plant n Stepper).rampTick = { p.rampTick with ring := r } := by
  unfold rampTick
  dsimp only
  split
  · split <;> rfl
  · rfl

end Plant

/-! ## Beats -/

namespace Plant

variable {R : Segment → Segment → Prop} {p p' : Plant n Scribe} {r : Ring n}

theorem recordTick_twins (h : p.ring.Twins R r) (hok : p.recordTick = .ok p') :
    p.ring.Dwindles p'.ring ∨ p'.ring = p.ring ∧
      ({ p with ring := r } : Plant n Scribe).recordTick = .ok { p' with ring := r } := by
  obtain ⟨ready, hready, hok⟩ := Fault.bind_eq_ok.mp hok
  obtain ⟨⟨o, q⟩, htick, hok⟩ := Fault.bind_eq_ok.mp hok
  cases hok
  refine (tick_twins (p := p.strip) h htick).imp_right fun ⟨hring, htick', hprepare⟩ => ⟨hring, ?_⟩
  refine Fault.bind_eq_ok.mpr ⟨_, hprepare ready hready, ?_⟩
  exact Fault.bind_eq_ok.mpr ⟨_, htick', rfl⟩

/-- A beat either makes less of what waits, or it is the same beat for twins. -/
theorem beat_twins (h : p.ring.Twins R r) {b : Beat} (hok : p.beat b = .ok p') :
    p.ring.Dwindles p'.ring ∨ p'.ring = p.ring ∧
      ({ p with ring := r } : Plant n Scribe).beat b = .ok { p' with ring := r } := by
  cases b with
  | step => exact recordTick_twins h hok
  | ramp =>
    cases hok
    refine .inr ⟨ring_rampTick _, congrArg Except.ok ?_⟩
    have hramp := rampTick_setRing p.strip r
    change (({ p.strip with ring := r } : Plant n Stepper).rampTick).dress
      { p.side with stepper := (({ p.strip with ring := r } : Plant n Stepper).rampTick).side } = _
    rw [hramp]
    rfl
  | trigger i =>
    cases hok
    exact .inr ⟨rfl, rfl⟩
  | rearm =>
    cases hok
    exact .inr ⟨rfl, rfl⟩

/-- A beat during which nothing that waits begins or is dropped. If something does, this is a
fault. -/
def aside (p : Plant n Scribe) (b : Beat) : Except Fault (Plant n Scribe) := do
  let q ← p.beat b
  if q.ring.window.length = p.ring.window.length then .ok q else .error .invariantViolated

/-- A number of such beats. -/
def asides (bs : List Beat) (p : Plant n Scribe) : Except Fault (Plant n Scribe) :=
  bs.foldlM aside p

end Plant

namespace Ring.Twins

variable {R : Segment → Segment → Prop} {p p' : Plant n Scribe} {r : Ring n}

/-- Such a beat does not tell twins apart. -/
theorem aside (hR : ∀ s, R s s) (h : p.ring.Twins R r) {b : Beat} (hok : p.aside b = .ok p') :
    ∃ r', ({ p with ring := r } : Plant n Scribe).aside b = .ok { p' with ring := r' } ∧
      p'.ring.Twins R r' := by
  obtain ⟨q, hbeat, hok⟩ := Fault.bind_eq_ok.mp hok
  split at hok
  · next hlen =>
    cases hok
    have haside {r r' : Ring n}
        (hr : ({ p with ring := r } : Plant n Scribe).beat b = .ok { p' with ring := r' })
        (hlen : r'.window.length = r.window.length) :
        ({ p with ring := r } : Plant n Scribe).aside b = .ok { p' with ring := r' } :=
      Fault.bind_eq_ok.mpr ⟨_, hr, if_pos hlen⟩
    obtain hless | ⟨hring, hr⟩ := Plant.beat_twins h hbeat
    · -- then nothing has waited, and there is one ring only
      have hnone : p.ring.toFifo.waiting = [] := by
        rw [hless.holds.window_eq, h.left.window_eq, List.length_map, List.length_map] at hlen
        obtain hnone | hlt := hless.fewer
        · rwa [hnone, List.length_nil, eq_comm, List.length_eq_zero_iff] at hlen
        · exact absurd hlen hlt.ne
      rw [h.eq hnone]
      exact ⟨p'.ring, haside hbeat hlen, .refl hR hless.holds⟩
    · exact ⟨r, haside hr rfl, hring ▸ h⟩
  · cases hok

theorem asides (hR : ∀ s, R s s) (h : p.ring.Twins R r) {bs : List Beat}
    (hok : Plant.asides bs p = .ok p') :
    ∃ r', Plant.asides bs ({ p with ring := r } : Plant n Scribe) = .ok { p' with ring := r' } ∧
      p'.ring.Twins R r' := by
  induction bs generalizing p r with
  | nil =>
    cases hok
    exact ⟨r, rfl, h⟩
  | cons b bs ih =>
    rw [Plant.asides, List.foldlM_cons] at hok
    obtain ⟨q, hq, hok⟩ := Fault.bind_eq_ok.mp hok
    obtain ⟨r₁, hr₁, h₁⟩ := h.aside hR hq
    obtain ⟨r₂, hr₂, h₂⟩ := ih h₁ hok
    refine ⟨r₂, ?_, h₂⟩
    rw [Plant.asides, List.foldlM_cons]
    exact Fault.bind_eq_ok.mpr ⟨_, hr₁, hr₂⟩

end Ring.Twins

end MotionControl
