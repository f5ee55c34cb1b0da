import MotionControl.Proofs.Motion.Story

/-!
# How requests enter the flow

A flow is on its course when it leads to the goal, the end of the last accepted move, and when its
story is the one that was accepted. The interrupt keeps it there (`Flow.OnCourse.steps`). The main
loop adds to both ends at once: a load that is queued moves the goal by its way and adds its
entries behind all others, whether it comes from the head or not, and a command that is attached
to the last load adds one entry.
-/

namespace MotionControl

/-- The flow leads to the goal, and the story is the one that was accepted. -/
structure Flow.OnCourse (f : Flow) (story : Story) (goal : PerAxis Int32)
    (accepted : List Entry) : Prop where
  /-- loads and traversals are as they should be -/
  sound : f.Sound
  /-- the ways of all loads end at positions -/
  bounded : f.Bounded
  /-- the last one ends at the goal -/
  destination_eq : ∀ a, f.destination a = (goal.get a).toInt
  /-- nothing accepted is lost, repeated or moved -/
  told : f.Told story accepted

theorem Flow.OnCourse.steps {f g : Flow} {hs : List Happening} {story : Story}
    {goal : PerAxis Int32} {accepted : List Entry} (h : f.OnCourse story goal accepted)
    (hsteps : Flow.Steps f hs g) : g.OnCourse (hs.foldl Story.tell story) goal accepted :=
  ⟨hsteps.sound h.sound, hsteps.bounded h.sound h.bounded,
    fun a => (hsteps.destination_eq h.sound a).trans (h.destination_eq a),
    hsteps.told h.sound h.told⟩

/-- One more command is one more entry. -/
theorem Load.entries_of_attach {l l' : Load} {c : Command} (hs : l'.steps = l.steps)
    (he : l'.eventCount = l.eventCount) (hd : l'.directions = l.directions)
    (hc : l'.commands.toList = l.commands.toList ++ [c]) : l'.entries = l.entries ++ [.ran c] := by
  have hway : l'.way = l.way := by
    apply PerAxis.ext_get
    intro a
    simp only [Load.way, PerAxis.get_ofFn, Load.displacement, hs, hd]
  unfold Load.entries Load.hasMotion
  rw [he, hc, hway, List.map_append, List.append_assoc]
  rfl

@[simp] theorem Load.entries_empty : Load.empty.entries = [] := by decide

/-- A carrier without commands has no entries. -/
theorem Load.entries_of_idle {l : Load} (hm : l.hasMotion = false)
    (hc : l.commands.toList = []) : l.entries = [] := by
  rw [Load.entries, hm, hc]
  rfl

namespace Flow.OnCourse

variable {f : Flow} {story : Story} {goal goal' : PerAxis Int32} {accepted extra : List Entry}

/-- A load is queued, and the head is empty afterwards. -/
theorem enqueue (h : f.OnCourse story goal accepted) {l : Load} (hl : l.Sound)
    (hentries : l.entries = f.head.entries ++ extra)
    (hgoal : ∀ a, (goal'.get a).toInt = (goal.get a).toInt + l.displacement a) :
    Flow.OnCourse { f with waiting := f.waiting ++ [l], head := .empty } story goal'
      (accepted ++ extra) := by
  obtain ⟨hsound, hbounded, hdestination, htold⟩ := h
  have hdestination' : ∀ a, Flow.destination { f with
      waiting := f.waiting ++ [l], head := .empty } a = (goal'.get a).toInt := by
    intro a
    have hd := hdestination a
    unfold destination at hd ⊢
    rw [hgoal a, ← hd]
    dsimp only
    rw [ahead_append, ahead_cons, ahead_nil]
    change _ + f.underway a + _ = _
    omega
  refine ⟨⟨?_, hsound.carries, hsound.unfinished⟩, ?_, hdestination', ?_, htold.underway_eq⟩
  · intro l' hl'
    rcases List.mem_append.mp hl' with hl' | hl'
    · exact hsound.waiting l' hl'
    · rw [List.mem_singleton.mp hl']
      exact hl
  · -- the new load ends at the new goal, all others end where they did
    intro a k
    rcases Nat.lt_or_ge f.waiting.length k with hk | hk
    · have hall : (f.waiting ++ [l]).take k = f.waiting ++ [l] := by
        apply List.take_of_length_le
        rw [List.length_append, List.length_singleton]
        omega
      have hin := inWord_toInt (goal'.get a)
      rw [← hdestination' a] at hin
      dsimp only
      rw [hall]
      exact hin
    · dsimp only
      rw [List.take_append_of_le_length hk]
      exact hbounded a k
  · have heq := htold.entries_eq
    unfold outstanding at heq ⊢
    rw [← heq]
    simp [hentries, List.append_assoc]

/-- The prepared load gets more commands. -/
theorem setHead (h : f.OnCourse story goal accepted) {l : Load}
    (hentries : l.entries = f.head.entries ++ extra) :
    Flow.OnCourse { f with head := l } story goal (accepted ++ extra) := by
  obtain ⟨hsound, hbounded, hdestination, htold⟩ := h
  refine ⟨⟨hsound.waiting, hsound.carries, hsound.unfinished⟩, hbounded, hdestination, ?_,
    htold.underway_eq⟩
  have heq := htold.entries_eq
  unfold outstanding at heq ⊢
  rw [← heq]
  simp [hentries, List.append_assoc]

/-- The newest waiting load gets more commands, while none wait at the head. -/
theorem attach (h : f.OnCourse story goal accepted) {before : List Load} {l l' : Load}
    (hw : f.waiting = before ++ [l]) (hs : l'.steps = l.steps)
    (he : l'.eventCount = l.eventCount) (hd : l'.directions = l.directions)
    (hentries : l'.entries = l.entries ++ extra) (hhead : f.head.entries = []) :
    Flow.OnCourse { f with waiting := before ++ [l'] } story goal (accepted ++ extra) := by
  obtain ⟨hsound, hbounded, hdestination, htold⟩ := h
  have hway : ∀ a, l'.displacement a = l.displacement a := by
    intro a
    rw [Load.displacement, Load.displacement, hs, hd]
  have hahead : ∀ a k, ahead ((before ++ [l']).take k) a = ahead ((before ++ [l]).take k) a := by
    intro a k
    rw [List.take_append, List.take_append, ahead_append, ahead_append]
    -- only the last load differs, and it goes as far as before
    cases k - before.length with
    | zero => rfl
    | succ j => rw [List.take_succ_cons, List.take_succ_cons, ahead_cons, ahead_cons, hway,
        List.take_nil]
  refine ⟨⟨?_, hsound.carries, hsound.unfinished⟩, ?_, ?_, ?_, htold.underway_eq⟩
  · intro l₀ hl₀
    have hwaiting := hsound.waiting
    rw [hw] at hwaiting
    rcases List.mem_append.mp hl₀ with hl₀ | hl₀
    · exact hwaiting l₀ (List.mem_append_left _ hl₀)
    · have hl := hwaiting l (List.mem_append_right _ List.mem_cons_self)
      rw [List.mem_singleton.mp hl₀, Load.Sound, hs, he]
      exact hl
  · intro a k
    have hin := hbounded a k
    rw [hw, ← hahead] at hin
    exact hin
  · intro a
    have hd := hdestination a
    unfold destination at hd ⊢
    rw [hw, ahead_append, ahead_cons] at hd
    dsimp only
    rw [ahead_append, ahead_cons, hway]
    exact hd
  · have heq := htold.entries_eq
    unfold outstanding at heq ⊢
    rw [← heq, hw]
    simp [hentries, hhead, List.append_assoc]

end Flow.OnCourse

end MotionControl
