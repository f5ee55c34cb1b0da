import MotionControl.Proofs.Motion.Flushing

/-!
# How long a wait takes

A wait has no counter. In one round of it the ring is asked to run, one finished segment is cleared,
and the interrupt does its work in an idle call. Suppose that the work is to take a step, which is
to begin a segment if none is under execution, and to end it. Then every round makes headway
(`Dispatcher.exists_round`): it clears a segment if one is finished, and it finishes one if one is
pending. It does both unless nothing is finished in the first round.

So the ring is empty after as many rounds as it holds segments, and one more if none of them is
finished; and there is room after at most two rounds (`Dispatcher.waits_end`). Waiting for room
drops nothing: whatever was queued has been executed, or it is still queued.
-/

namespace MotionControl

variable {n : Nat}

namespace Dispatcher

/-- A wait ends when every round of it makes headway: it makes at most as many idle calls as it
takes rounds, whatever would be done in further ones. -/
theorem waitUntil_ends {σ : Type} {done : Ring n → Bool}
    {act : Plant n σ → Except Fault (Plant n σ)} {inv : Nat → Dispatcher n σ → Prop}
    (hround : ∀ k d, inv k d → done d.ring = false → ∃ j d₁ p, k = j + 1 ∧
      d.ensureRunning.onIdle = .ok d₁ ∧ act d₁.plant = .ok p ∧ inv j { d₁ with plant := p })
    {k : Nat} {d : Dispatcher n σ} (h : inv k d) :
    ∃ j i d', j ≤ k ∧ inv i d' ∧ done d'.ring = true ∧
      ∀ more, waitUntil done (List.replicate j act ++ more) d = .ok (more, d') := by
  induction k generalizing d with
  | zero =>
    cases hdone : done d.ring with
    | true =>
      refine ⟨0, 0, d, Nat.le_refl 0, h, hdone, fun more => ?_⟩
      cases more <;> simp [waitUntil, hdone]
    | false =>
      obtain ⟨j, -, -, hj, -⟩ := hround 0 d h hdone
      cases hj
  | succ k ih =>
    cases hdone : done d.ring with
    | true =>
      refine ⟨0, k + 1, d, Nat.zero_le _, h, hdone, fun more => ?_⟩
      cases more <;> simp [waitUntil, hdone]
    | false =>
      obtain ⟨j, d₁, p, hj, hd₁, hp, h₁⟩ := hround (k + 1) d h hdone
      obtain rfl : k = j := Nat.succ.inj hj
      obtain ⟨j, i, d', hle, h', hdone', hrest⟩ := ih h₁
      refine ⟨j + 1, i, d', Nat.succ_le_succ hle, h', hdone', fun more => ?_⟩
      rw [List.replicate_succ, List.cons_append, waitUntil, hdone, if_neg Bool.false_ne_true, hd₁]
      dsimp only [bind, Except.bind]
      rw [hp]
      exact hrest more

end Dispatcher

theorem Ring.Holds.capacity_pos {r : Ring n} {held : List Nat} {q : Fifo} (h : r.Holds held q) :
    0 < q.capacity := by
  have hlen := h.len_eq
  have htwo := r.two_le_len
  omega

namespace Fifo

/-- When the first pending segment is over, so are some of the pending ones. -/
theorem length_overAtFinish (q : Fifo) :
    q.overAtFinish.length + q.afterFinish.length = q.pending.length ∧
      (0 < q.pending.length → 0 < q.overAtFinish.length) := by
  refine ⟨?_, fun hpos => ?_⟩
  · rw [← List.length_append, ← q.overAtFinish_append_afterFinish]
  · unfold overAtFinish
    split
    · exact hpos
    · rw [List.length_take]
      omega

/-- How many rounds it takes to clear a queue. Only the first one may clear nothing. -/
def roundsToEmpty (q : Fifo) : Nat :=
  q.finished.length + q.pending.length +
    if q.finished.length = 0 ∧ 0 < q.pending.length then 1 else 0

/-- How many rounds it takes to make room in a queue. -/
def roundsToSpace (q : Fifo) : Nat :=
  if q.finished.length + q.pending.length < q.capacity then 0
  else if q.finished.length = 0 then 2 else 1

end Fifo

/-! ## One step -/

namespace Plant

variable {p : Plant n Clerk} {q : Fifo}

/-- The segments executed so far, and those that are queued. -/
def handled (p : Plant n Clerk) : List Segment := p.side.ended.toList.map Prod.snd ++ p.ring.queued

theorem handled_eq (h : p.ring.Attended (fun _ => True) [] q p.side.current) :
    p.handled = p.side.ended.toList.map Prod.snd ++ q.queued := by
  rw [handled, h.holds.queued_eq]

/-- To begin a segment changes nothing but that it has begun. -/
theorem attended_startNoted (h : p.ring.Attended (fun _ => True) [] q p.side.current) :
    ∃ ps, ps.map Slot.segment = q.queued ∧ p.startNoted.side.ended = p.side.ended ∧
      p.startNoted.ring.Attended (fun _ => True) [] { q with pending := ps }
        p.startNoted.side.current := by
  obtain ⟨hstill, -⟩ | ⟨s, rest, r, hp, hc, hbegun, hfront, hr⟩ := startNoted_cases h
  · rw [hstill]
    exact ⟨q.pending, rfl, rfl, h⟩
  · rw [hbegun]
    exact ⟨⟨s, .executing⟩ :: rest, by rw [Fifo.queued, hp]; rfl, rfl, hr⟩

/-- If something is pending and nothing is held, the first pending segment is then under
execution. -/
theorem startNoted_busy (h : p.ring.Attended (fun _ => True) [] q p.side.current)
    (hrunning : q.running = true) (hne : q.pending ≠ []) :
    ∃ slot, p.startNoted.side.current = some slot := by
  obtain ⟨hstill, hnot⟩ | ⟨s, rest, r, hp, hc, hbegun, hfront, hr⟩ := startNoted_cases h
  · rw [hstill]
    cases hc : p.side.current with
    | some slot => exact ⟨slot, rfl⟩
    | none =>
      obtain ⟨e, rest, hp⟩ := List.exists_cons_of_ne_nil hne
      have hbegun : q.begun = false := by rw [h.begun_eq, hc]; rfl
      have hready : e.state = .ready := h.holds.ready_of_waiting e (by
        rw [(Fifo.parts_of_not_begun hbegun).2, hp]
        exact List.mem_cons_self)
      exact absurd (by rw [hp, ← hready]) (hnot hc hrunning e.segment rest)
  · exact ⟨p.ring.front, by rw [hbegun]; rfl⟩

/-- What a step leaves of a queue. -/
structure Stepped (p p' : Plant n Clerk) (q q' : Fifo) : Prop where
  /-- the clerk attends to the ring -/
  attended : p'.ring.Attended (fun _ => True) [] q' p'.side.current
  /-- the queue has the same capacity -/
  capacity_eq : q'.capacity = q.capacity
  /-- the same segment is prepared -/
  head_eq : q'.head = q.head
  /-- the ring is flushing or not, as before -/
  flush_eq : q'.flush = q.flush
  /-- the first pending segment is over, perhaps with others -/
  finished_eq : q'.finished.length = q.finished.length + q.overAtFinish.length
  /-- the others are still pending -/
  queued_eq : q'.queued = q.afterFinish.map Slot.segment
  /-- the first pending segment has been executed -/
  ended_eq : p'.side.ended.toList.map Prod.snd =
    p.side.ended.toList.map Prod.snd ++ q.queued.take 1

/-- Where nothing is held, a step executes the first pending segment of a running ring. -/
theorem exists_stepped (h : p.ring.Attended (fun _ => True) [] q p.side.current)
    (hrunning : q.pending ≠ [] → q.running = true) :
    ∃ p' q', Act.step.note p = .ok p' ∧ p.Stepped p' q q' := by
  obtain ⟨ps, hps, hended, h₁⟩ := attended_startNoted h
  change ∃ p' q', p.startNoted.finishNoted = .ok p' ∧ _
  cases hc : p.startNoted.side.current with
  | none =>
    have hnil : q.pending = [] := by
      refine Classical.byContradiction fun hne => ?_
      obtain ⟨slot, hslot⟩ := startNoted_busy h (hrunning hne) hne
      rw [hc] at hslot
      cases hslot
    have hqueued : q.queued = [] := by rw [Fifo.queued, hnil]; rfl
    rw [hqueued, List.map_eq_nil_iff] at hps
    refine ⟨_, _, finishNoted_of_none hc, h₁, rfl, rfl, rfl, ?_, ?_, ?_⟩
    · simp [Fifo.overAtFinish, hnil]
    · simp [Fifo.queued, Fifo.afterFinish, hnil, hps]
    · rw [hended, hqueued, List.take_nil, List.append_nil]
  | some slot =>
    rw [hc] at h₁
    obtain ⟨s, rest, r, hp, hr, hfinish⟩ := finishNoted_of_some hc h₁
    change ps = _ at hp
    subst hp
    obtain ⟨ps', hps', hended', h₂⟩ := attended_startNoted (p := p.startNoted.ending r s) hr
    have hlen : q.pending.length = rest.length + 1 := by
      have := congrArg List.length hps
      simpa [Fifo.queued] using this.symm
    refine ⟨_, _, hfinish, h₂, rfl, rfl, rfl, ?_, ?_, ?_⟩
    · simp only [Fifo.finish, Fifo.overAtFinish, List.length_append]
      split <;> simp [hlen]
    · rw [Fifo.queued, hps']
      simp only [Fifo.queued, Fifo.finish, Fifo.afterFinish] at hps ⊢
      split
      · rfl
      · rw [List.map_tail, hps, List.map_tail]
    · rw [hended', ← hps]
      simp [ending, hended]

theorem acts_singleton (act : Act) (p : Plant n Clerk) : acts [act] p = act.note p := by
  rw [acts]
  cases act.note p <;> rfl

end Plant

/-! ## One round -/

namespace Dispatcher

variable {d : Dispatcher n Clerk} {q : Fifo}

/-- What a round of a wait leaves of a queue. -/
structure Round (d d' : Dispatcher n Clerk) (q q' : Fifo) : Prop where
  /-- the clerk attends to the ring -/
  attended : d'.ring.Attended (fun _ => True) [] q' d'.plant.side.current
  /-- nobody halts -/
  halted_eq : d'.halted = d.halted
  /-- the queue has the same capacity -/
  capacity_eq : q'.capacity = q.capacity
  /-- the same segment is prepared -/
  head_eq : q'.head = q.head
  /-- the ring is flushing or not, as before -/
  flush_eq : q'.flush = q.flush
  /-- one finished segment has been cleared, and the first pending one is over -/
  finished_eq : q'.finished.length = q.finished.length - 1 + q.overAtFinish.length
  /-- the others are still pending, unless they are skipped -/
  pending_eq : q'.pending.length = q.afterFinish.length
  /-- unless some are skipped, all are executed -/
  handled_eq : q.flush = false → d'.plant.handled = d.plant.handled

theorem attended_ensureRunning (h : d.ring.Attended (fun _ => True) [] q d.plant.side.current)
    (hactive : d.halted = false) : ∃ running, (q.pending ≠ [] → running = true) ∧
      d.ensureRunning.ring.Attended (fun _ => True) [] (q.setRunning running)
        d.ensureRunning.plant.side.current ∧
      d.ensureRunning.plant.side = d.plant.side ∧ d.ensureRunning.halted = false := by
  unfold ensureRunning
  split
  · next hno =>
    refine ⟨q.running, fun hne => ?_, h, rfl, hactive⟩
    simp only [hactive, h.holds.running_eq, h.holds.hasPending_iff.mpr hne, Bool.false_or,
      Bool.not_true, Bool.or_false] at hno
    exact hno
  · next hidle =>
    have hpending : d.ring.hasPending = true := by
      simp only [Bool.or_eq_true, not_or, Bool.not_eq_true', Bool.not_eq_false] at hidle
      exact hidle.2
    exact ⟨true, fun _ => rfl, h.work_holds (.run hpending) (h.holds.setRunning true), rfl, hactive⟩

theorem attended_onIdle (h : d.ring.Attended (fun _ => True) [] q d.plant.side.current) :
    ∃ d' speed, d.onIdle = .ok d' ∧ d'.ring.Attended (fun _ => True) []
        { q with finished := q.finished.tail, lastExitSpeed := speed } d'.plant.side.current ∧
      d'.plant.side = d.plant.side ∧ d'.halted = d.halted := by
  unfold onIdle
  split
  · next hfinished =>
    obtain ⟨hempty, -, -, r, -, hr, hholds⟩ := h.holds.reclaim_of_finished hfinished
    rw [hempty, if_neg Bool.false_ne_true, hr]
    exact ⟨_, _, rfl, h.work_holds (.reclaim hr) hholds, rfl, rfl⟩
  · next hnone =>
    have hnil : q.finished = [] := by
      rw [h.holds.hasFinished_iff, Decidable.not_not] at hnone
      exact hnone
    refine ⟨d, q.lastExitSpeed, rfl, ?_, rfl, rfl⟩
    rw [hnil, List.tail_nil, ← hnil]
    exact h

/-- Every round makes headway. -/
theorem exists_round (h : d.ring.Attended (fun _ => True) [] q d.plant.side.current)
    (hactive : d.halted = false) : ∃ d₁ p q', d.ensureRunning.onIdle = .ok d₁ ∧
      Plant.acts [.step] d₁.plant = .ok p ∧ d.Round { d₁ with plant := p } q q' := by
  obtain ⟨running, hrunning, h₁, hside₁, hhalted₁⟩ := attended_ensureRunning h hactive
  obtain ⟨d₁, speed, hd₁, h₂, hside₂, hhalted₂⟩ := attended_onIdle h₁
  obtain ⟨p, q', hp, hs⟩ := Plant.exists_stepped h₂ hrunning
  refine ⟨d₁, p, q', hd₁, by rw [Plant.acts_singleton, hp], hs.attended,
    by rw [hactive, ← hhalted₁, ← hhalted₂], hs.capacity_eq, hs.head_eq, hs.flush_eq,
    ?_, ?_, fun hflush => ?_⟩
  · rw [hs.finished_eq, List.length_tail]
    rfl
  · have hlen := congrArg List.length hs.queued_eq
    rwa [Fifo.queued, List.length_map, List.length_map] at hlen
  · rw [Plant.handled_eq hs.attended, Plant.handled_eq h, hs.ended_eq, hs.queued_eq, hside₂,
      hside₁, List.append_assoc]
    simp only [Fifo.queued, Fifo.setRunning, Fifo.afterFinish, hflush, Bool.false_eq_true, if_false]
    rw [← List.drop_one, List.map_drop, List.take_append_drop]

namespace Round

variable {d' : Dispatcher n Clerk} {q' : Fifo}

theorem roundsToEmpty_lt (h : d.Round d' q q') (hne : q.finished.length + q.pending.length ≠ 0) :
    q'.roundsToEmpty < q.roundsToEmpty := by
  have hf := h.finished_eq
  have hp := h.pending_eq
  obtain ⟨hover, hpos⟩ := q.length_overAtFinish
  unfold Fifo.roundsToEmpty
  split <;> split <;> omega

theorem roundsToSpace_lt (h : d.Round d' q q') (hcapacity : 0 < q.capacity)
    (hfull : q.finished.length + q.pending.length = q.capacity) :
    q'.roundsToSpace < q.roundsToSpace := by
  have hf := h.finished_eq
  have hp := h.pending_eq
  have hc := h.capacity_eq
  obtain ⟨hover, hpos⟩ := q.length_overAtFinish
  have hrounds : q.roundsToSpace = if q.finished.length = 0 then 2 else 1 := if_neg (by omega)
  rw [hrounds, Fifo.roundsToSpace]
  by_cases hnone : q.finished.length = 0
  · -- nothing is cleared, but something is finished
    rw [if_pos hnone, if_neg (by omega), if_neg (by omega)]
    exact Nat.one_lt_two
  · rw [if_neg hnone, if_pos (by omega)]
    exact Nat.one_pos

end Round

/-! ## All rounds -/

/-- A wait ends after a number of idle calls, in each of which the interrupt takes a step, and
leaves the dispatcher in some condition. What would be done in further idle calls does not
matter. -/
def EndsWithin (limit : Nat) (wait : Idle n Clerk → Dispatcher n Clerk →
      Except Fault (Idle n Clerk × Dispatcher n Clerk))
    (post : Dispatcher n Clerk → Prop) (d : Dispatcher n Clerk) : Prop :=
  ∃ j d', j ≤ limit ∧ post d' ∧
    ∀ more, wait (script (List.replicate j [.step]) ++ more) d = .ok (more, d')

/-- A wait ends when every round makes the rest of it shorter. -/
theorem waitUntil_endsWithin {done : Ring n → Bool} (rounds : Fifo → Nat)
    (keeps : Dispatcher n Clerk → Fifo → Prop)
    (hround : ∀ {d d' : Dispatcher n Clerk} {q q' : Fifo}, keeps d q →
      d.ring.Attended (fun _ => True) [] q d.plant.side.current → done d.ring = false →
      d.Round d' q q' → keeps d' q' ∧ rounds q' < rounds q)
    (h : d.ring.Attended (fun _ => True) [] q d.plant.side.current) (hactive : d.halted = false)
    (hkeeps : keeps d q) :
    d.EndsWithin (rounds q) (waitUntil done) fun d' => done d'.ring = true ∧ d'.halted = false ∧
      ∃ q', d'.ring.Attended (fun _ => True) [] q' d'.plant.side.current ∧ keeps d' q' := by
  have hheadway : ∀ k d, (d.halted = false ∧ ∃ q, rounds q ≤ k ∧ keeps d q ∧
        d.ring.Attended (fun _ => True) [] q d.plant.side.current) → done d.ring = false →
      ∃ j d₁ p, k = j + 1 ∧ d.ensureRunning.onIdle = .ok d₁ ∧
        Plant.acts [.step] d₁.plant = .ok p ∧ d₁.halted = false ∧ ∃ q, rounds q ≤ j ∧
          keeps { d₁ with plant := p } q ∧ p.ring.Attended (fun _ => True) [] q p.side.current := by
    rintro k d ⟨hactive, q, hle, hkeeps, hr⟩ hdone
    obtain ⟨d₁, p, q', hd₁, hp, hstep⟩ := exists_round hr hactive
    obtain ⟨hkeeps', hlt⟩ := hround hkeeps hr hdone hstep
    exact ⟨k - 1, d₁, p, by omega, hd₁, hp, hstep.halted_eq.trans hactive, q', by omega, hkeeps',
      hstep.attended⟩
  obtain ⟨j, i, d', hle, ⟨hactive', q', -, hkeeps', hr'⟩, hdone, hwait⟩ :=
    waitUntil_ends hheadway ⟨hactive, q, Nat.le_refl _, hkeeps, h⟩
  refine ⟨j, d', hle, ⟨hdone, hactive', q', hr', hkeeps'⟩, fun more => ?_⟩
  rw [script, List.map_replicate]
  exact hwait more

theorem EndsWithin.mono {limit limit' : Nat} {wait : Idle n Clerk → Dispatcher n Clerk →
      Except Fault (Idle n Clerk × Dispatcher n Clerk)} {post post' : Dispatcher n Clerk → Prop}
    (h : d.EndsWithin limit wait post) (hle : limit ≤ limit') (hpost : ∀ d', post d' → post' d') :
    d.EndsWithin limit' wait post' := by
  obtain ⟨j, d', hj, h', hwait⟩ := h
  exact ⟨j, d', Nat.le_trans hj hle, hpost d' h', hwait⟩

theorem waitForEmpty_endsWithin (h : d.ring.Attended (fun _ => True) [] q d.plant.side.current)
    (hactive : d.halted = false) :
    d.EndsWithin (d.ring.distance d.ring.tail d.ring.head + 1) waitForEmpty
      fun d' => d'.ring.isEmpty = true := by
  refine (waitUntil_endsWithin Fifo.roundsToEmpty (fun _ _ => True)
    (fun _ hr hdone hround => ⟨trivial, hround.roundsToEmpty_lt fun hzero => ?_⟩) h hactive
    trivial).mono ?_ fun d' h' => h'.1
  · rw [hr.holds.isEmpty_iff.mpr (by simpa using hzero)] at hdone
    cases hdone
  · rw [h.holds.distance_tail_head]
    unfold Fifo.roundsToEmpty
    split <;> omega

theorem flush_endsWithin (h : d.ring.Attended (fun _ => True) [] q d.plant.side.current)
    (hactive : d.halted = false) :
    d.EndsWithin (d.ring.distance d.ring.tail d.ring.head + 1) flush
      fun d' => d'.ring.isEmpty = true := by
  have hflushing : (d.setRing (d.ring.setFlush true)).ring.Attended (fun _ => True) []
      (q.setFlush true) (d.setRing (d.ring.setFlush true)).plant.side.current :=
    h.work_holds (.setFlush true) (h.holds.setFlush true)
  obtain ⟨j, d', hle, hempty, hwait⟩ := waitForEmpty_endsWithin hflushing hactive
  refine ⟨j, d'.setRing (d'.ring.setFlush false), hle, hempty, fun more => ?_⟩
  rw [flush, hwait more]
  rfl

/-- Waiting for room drops nothing. -/
theorem waitForSpace_endsWithin (h : d.ring.Attended (fun _ => True) [] q d.plant.side.current)
    (hflush : q.flush = false) (hactive : d.halted = false) :
    d.EndsWithin 2 waitForSpace fun d' => d'.ring.isFull = false ∧ d'.halted = false ∧
      d'.plant.handled = d.plant.handled ∧ d'.ring.headSegment = d.ring.headSegment ∧
      ∃ q', d'.ring.Attended (fun _ => True) [] q' d'.plant.side.current := by
  refine (waitUntil_endsWithin Fifo.roundsToSpace
    (fun d' q' => q'.flush = false ∧ d'.plant.handled = d.plant.handled ∧ q'.head = q.head)
    (fun hkeeps hr hdone hround => ?_) h hactive ⟨hflush, rfl, rfl⟩).mono ?_ ?_
  · obtain ⟨hflush, hhandled, hhead⟩ := hkeeps
    refine ⟨⟨hround.flush_eq.trans hflush, (hround.handled_eq hflush).trans hhandled,
      hround.head_eq.trans hhead⟩, hround.roundsToSpace_lt hr.holds.capacity_pos ?_⟩
    exact hr.holds.isFull_iff.mp (by simpa using hdone)
  · unfold Fifo.roundsToSpace
    split
    · omega
    · split <;> omega
  · rintro d' ⟨hdone, hactive', q', hr', -, hhandled, hhead⟩
    exact ⟨by simpa using hdone, hactive', hhandled,
      by rw [hr'.holds.headSegment_eq, h.holds.headSegment_eq, hhead], q', hr'⟩

theorem queueHead_endsWithin (h : d.ring.Attended (fun _ => True) [] q d.plant.side.current)
    (hflush : q.flush = false) (hactive : d.halted = false) :
    d.EndsWithin 2 queueHead
      fun d' => d'.plant.handled = d.plant.handled ++ [d.ring.headSegment] := by
  obtain ⟨j, d₁, hle, ⟨hroom, hactive₁, hhandled, hhead, q₁, h₁⟩, hwait⟩ :=
    waitForSpace_endsWithin h hflush hactive
  obtain ⟨r, hr, hholds⟩ := h₁.holds.publish_of_not_full hroom
  refine ⟨j, d₁.setRing r, hle, ?_, fun more => ?_⟩
  · have hqueued : r.queued = d₁.ring.queued ++ [d.ring.headSegment] := by
      rw [hholds.queued_eq, h₁.holds.queued_eq, ← hhead, h₁.holds.headSegment_eq, Fifo.queued,
        Fifo.push, List.map_append]
      rfl
    rw [← hhandled]
    change _ ++ r.queued = _ ++ d₁.ring.queued ++ _
    rw [hqueued, ← List.append_assoc]
    rfl
  · rw [queueHead, hwait more]
    dsimp only [bind, Except.bind]
    rw [hactive₁, if_neg Bool.false_ne_true, publish, hr]
    rfl

/-- The waits of a dispatcher that is not halted come to an end, if the interrupt takes a step in
each idle call. How the dispatcher has been used before does not matter. Waiting for room drops
nothing: all that was queued has been executed, or it is still queued, in the same order. -/
theorem waits_end {len : Nat} {ring : Ring n} (hring : Ring.new n len = .ok ring)
    {cs : List Duty} {d : Dispatcher n Clerk} (hd : (ofRing ring .atRest).duties cs = .ok d)
    (hactive : d.halted = false) :
    d.EndsWithin (d.ring.distance d.ring.tail d.ring.head + 1) waitForEmpty
        (fun d' => d'.ring.isEmpty = true) ∧
      d.EndsWithin (d.ring.distance d.ring.tail d.ring.head + 1) flush
        (fun d' => d'.ring.isEmpty = true) ∧
      d.EndsWithin 2 waitForSpace
        (fun d' => d'.ring.isFull = false ∧ d'.plant.handled = d.plant.handled) ∧
      d.EndsWithin 2 queueHead
        (fun d' => d'.plant.handled = d.plant.handled ++ [d.ring.headSegment]) := by
  obtain ⟨q, h, hflush⟩ := tended_of_duties hring hd
  exact ⟨waitForEmpty_endsWithin h hactive, flush_endsWithin h hactive,
    (waitForSpace_endsWithin h hflush hactive).mono (Nat.le_refl 2) fun d' h' => ⟨h'.1, h'.2.2.1⟩,
    queueHead_endsWithin h hflush hactive⟩

/-- The waits of a full ring of which nothing has begun. -/
theorem waits_end_of_full : ∃ d,
    (ofRing (Ring.ofLen 4 (by decide) (by decide)) .atRest : Dispatcher 4 Clerk).duties
        [.queueHead [], .queueHead [], .queueHead []] = .ok d ∧
      d.halted = false ∧ d.ring.isFull = true ∧
      d.EndsWithin 4 waitForEmpty (fun d' => d'.ring.isEmpty = true) ∧
      d.EndsWithin 4 flush (fun d' => d'.ring.isEmpty = true) ∧
      d.EndsWithin 2 waitForSpace
        (fun d' => d'.ring.isFull = false ∧ d'.plant.handled = d.plant.handled) ∧
      d.EndsWithin 2 queueHead
        (fun d' => d'.plant.handled = d.plant.handled ++ [d.ring.headSegment]) := by
  refine ⟨?d, ?hd, ?hrest⟩
  case hd => rfl
  exact ⟨rfl, rfl, waits_end (show Ring.new 4 4 = .ok _ from rfl)
    (show duties [.queueHead [], .queueHead [], .queueHead []] _ = .ok _ from rfl) rfl⟩

end Dispatcher

end MotionControl
