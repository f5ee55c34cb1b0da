import MotionControl.Fault
import MotionControl.Proofs.Settings.Clamping
import MotionControl.Proofs.Settings.RoundTrip
import MotionControl.Proofs.Settings.Tables

/-!
# One table for each actuator

The axes of a settings file are assigned to the actuators one by one: a table goes to the actuator
it says, or to that of its name, unless there is another table there (`SettingsFile.Assigned`). An
actuator without a table is left without a step pin, which clamping does not mend and validation
does not pass. So settings are taken from a text exactly if its tables are those of the actuators,
one for each (`SettingsFile.Assigns`), and the settings are valid; and as axes are taken in the
order of their distinct names, the order in which they were written does not matter for the result,
nor for the error. All of this holds for any reader of documents without a key twice
(`Settings.ofTextWith_tables`), and so for the one in use (`Settings.ofText_tables`).
-/

namespace MotionControl

open Toml

theorem Label.text_of_ofText? {text : String} {l : Label} (h : Label.ofText? text = some l) :
    l.text = text := by
  obtain ⟨hfits, heq⟩ := Option.dite_none_right_eq_some.mp h
  rw [← Option.some.inj heq]

/-! ## One table -/

namespace AxisTable

variable {name : String} {t : AxisTable} {x : AxisSettings}

/-- Settings of an axis are what its table says, and the default where it says nothing. -/
structure Sets (name : String) (t : AxisTable) (x : AxisSettings) : Prop where
  /-- the name of the table -/
  name : x.name.text = name
  /-- steps per mm -/
  stepsPerMm : x.stepsPerMm = t.stepsPerMm.getD AxisSettings.default.stepsPerMm
  /-- maximum speed -/
  maxRate : x.maxRate = t.maxRate.getD AxisSettings.default.maxRate
  /-- the step pin, as it is written -/
  stepPin : t.stepPin.elim (x.stepPin = .unassigned) (PinText.read? · = some x.stepPin)
  /-- the direction pin -/
  dirPin : t.dirPin.elim (x.dirPin = .unassigned) (PinText.read? · = some x.dirPin)
  /-- the enable pin -/
  enablePin : t.enablePin.elim (x.enablePin = .unassigned) (PinText.read? · = some x.enablePin)
  /-- the endstop pin -/
  endstopPin : t.endstopPin.elim (x.endstopPin = none)
    fun text => ∃ p, PinText.read? text = some p ∧ x.endstopPin = some p

theorem pin_eq_ok_iff {text : Option String} {fallback p : Pin} :
    pin text fallback = .ok p ↔ text.elim (p = fallback) (PinText.read? · = some p) := by
  unfold pin
  split
  · rw [Except.ok.injEq, Option.elim_none, eq_comm]
  · rw [Option.elim_some]
    split
    · next q hq => rw [hq, Except.ok.injEq, Option.some.injEq]
    · next hnone => simp [hnone]

theorem map_some_eq_ok_iff {x : Except LoadError Pin} {p : Option Pin} :
    some <$> x = .ok p ↔ ∃ q, x = .ok q ∧ p = some q := by
  rw [map_eq_pure_bind, Fault.bind_eq_ok]
  exact exists_congr fun q => and_congr_right fun _ =>
    ⟨fun h => (Except.ok.inj h).symm, fun h => h ▸ rfl⟩

/-- The settings of an axis are what its table says, and there are none only if there is nothing
that they could be. -/
theorem settings_eq_ok_iff : t.settings name = .ok x ↔ t.Sets name x := by
  unfold settings
  split
  · next hnone =>
    refine ⟨fun h => (nomatch h), fun h => ?_⟩
    rw [← h.name, Label.ofText?_text] at hnone
    cases hnone
  · next label hlabel =>
    have hname : ∀ l : Label, l.text = name → label = l := by
      rintro l rfl
      exact Option.some.inj (hlabel.symm.trans l.ofText?_text)
    -- the endstop is the one pin that an axis may do without
    cases hend : t.endstopPin with
    | none =>
      simp only [Fault.bind_eq_ok, pin_eq_ok_iff]
      constructor
      · rintro ⟨stepPin, hstep, dirPin, hdir, enablePin, henable, _, ⟨⟩, ⟨⟩⟩
        exact ⟨Label.text_of_ofText? hlabel, rfl, rfl, hstep, hdir, henable, by rw [hend]; rfl⟩
      · intro h
        have hnone := h.endstopPin
        rw [hend] at hnone
        refine ⟨_, h.stepPin, _, h.dirPin, _, h.enablePin, none, rfl, ?_⟩
        rw [hname _ h.name, ← h.stepsPerMm, ← h.maxRate, ← hnone]
        rfl
    | some text =>
      simp only [Fault.bind_eq_ok, pin_eq_ok_iff, map_some_eq_ok_iff]
      constructor
      · rintro ⟨stepPin, hstep, dirPin, hdir, enablePin, henable, _, ⟨p, hp, rfl⟩, ⟨⟩⟩
        exact ⟨Label.text_of_ofText? hlabel, rfl, rfl, hstep, hdir, henable,
          by rw [hend]; exact ⟨p, hp, rfl⟩⟩
      · intro h
        have hsome := h.endstopPin
        rw [hend] at hsome
        obtain ⟨p, hp, hx⟩ := hsome
        refine ⟨_, h.stepPin, _, h.dirPin, _, h.enablePin, some p, ⟨p, hp, rfl⟩, ?_⟩
        rw [hname _ h.name, ← h.stepsPerMm, ← h.maxRate, ← hx]
        rfl

end AxisTable

namespace SettingsFile

variable {tables tables' : List (String × AxisTable)} {m m' : PerAxis (Option AxisSettings)}
  {f g : SettingsFile} {axes : PerAxis AxisSettings}

/-! ## All tables -/

/-- The actuator that a table belongs to. -/
def actuator (e : String × AxisTable) : Option Axis := e.2.axis? e.1

/-- Tables have been assigned, no two to the same actuator and none to one that was taken. -/
structure Assigned (tables : List (String × AxisTable)) (m m' : PerAxis (Option AxisSettings)) :
    Prop where
  /-- no actuator is taken twice -/
  distinct : (tables.map actuator).Nodup
  /-- each table belongs to a free actuator, which gets the settings of the table -/
  taken : ∀ e ∈ tables, ∃ a x, actuator e = some a ∧ e.2.Sets e.1 x ∧ m.get a = none ∧
    m'.get a = some x
  /-- the other actuators stay as they are -/
  others : ∀ a, some a ∉ tables.map actuator → m'.get a = m.get a

theorem assign_cons_eq_ok_iff {e : String × AxisTable} :
    assign (e :: tables) m = .ok m' ↔ ∃ a x, actuator e = some a ∧ e.2.Sets e.1 x ∧
      m.get a = none ∧ assign tables (m.set a (some x)) = .ok m' := by
  obtain ⟨name, t⟩ := e
  rw [assign]
  simp only [actuator]
  cases t.axis? name with
  | none => simp
  | some a =>
    cases hfree : m.get a with
    | some x => simp [hfree]
    | none => simp [hfree, Fault.bind_eq_ok, AxisTable.settings_eq_ok_iff]

/-- The first table takes its actuator, and the others find the rest free. -/
theorem Assigned.cons {e : String × AxisTable} {a : Axis} {x : AxisSettings}
    (ha : actuator e = some a) (hx : e.2.Sets e.1 x) (hfree : m.get a = none)
    (h : Assigned tables (m.set a (some x)) m') : Assigned (e :: tables) m m' := by
  have hnew : some a ∉ tables.map actuator := by
    intro hmem
    obtain ⟨e', he', ha'⟩ := List.mem_map.mp hmem
    obtain ⟨b, y, hb, -, hfree', -⟩ := h.taken e' he'
    rw [ha', Option.some.injEq] at hb
    rw [← hb, PerAxis.get_set, if_pos rfl] at hfree'
    cases hfree'
  refine ⟨?_, List.forall_mem_cons.mpr ⟨⟨a, x, ha, hx, hfree, ?_⟩, fun e' he' => ?_⟩,
    fun b hb => ?_⟩
  · rw [List.map_cons, List.nodup_cons, ha]
    exact ⟨hnew, h.distinct⟩
  · rw [h.others a hnew, PerAxis.get_set, if_pos rfl]
  · obtain ⟨b, y, hb, hy, hfree', hget⟩ := h.taken e' he'
    rw [PerAxis.get_set] at hfree'
    split at hfree'
    · cases hfree'
    · exact ⟨b, y, hb, hy, hfree', hget⟩
  · rw [List.map_cons, List.mem_cons, not_or, ha] at hb
    rw [h.others b hb.2, PerAxis.get_set, if_neg fun heq => hb.1 (congrArg some heq.symm)]

theorem Assigned.exists_of_cons {e : String × AxisTable} (h : Assigned (e :: tables) m m') :
    ∃ a x, actuator e = some a ∧ e.2.Sets e.1 x ∧ m.get a = none ∧
      Assigned tables (m.set a (some x)) m' := by
  obtain ⟨hdistinct, htaken, hothers⟩ := h
  rw [List.map_cons, List.nodup_cons] at hdistinct
  obtain ⟨⟨a, x, ha, hx, hfree, hget⟩, htaken⟩ := List.forall_mem_cons.mp htaken
  refine ⟨a, x, ha, hx, hfree, hdistinct.2, fun e' he' => ?_, fun b hb => ?_⟩
  · obtain ⟨b, y, hb, hy, hfree', hget'⟩ := htaken e' he'
    refine ⟨b, y, hb, hy, ?_, hget'⟩
    rw [PerAxis.get_set, if_neg, hfree']
    rintro rfl
    exact hdistinct.1 (List.mem_map.mpr ⟨e', he', hb.trans ha.symm⟩)
  · rw [PerAxis.get_set]
    split
    · next heq => rw [← heq, hget]
    · next hne =>
      refine hothers b fun hmem => ?_
      obtain heq | hmem := List.mem_cons.mp hmem
      · exact hne (Option.some.inj (heq.trans ha)).symm
      · exact hb hmem

/-- Tables can be assigned exactly if they belong to actuators of their own. -/
theorem assign_eq_ok_iff : assign tables m = .ok m' ↔ Assigned tables m m' := by
  -- what has been assigned so far is the start of what is still to be assigned
  induction tables generalizing m with
  | nil =>
    rw [assign, Except.ok.injEq]
    constructor
    · rintro rfl
      exact ⟨.nil, fun _ h => absurd h List.not_mem_nil, fun _ _ => rfl⟩
    · intro h
      exact PerAxis.ext_get fun a => (h.others a List.not_mem_nil).symm
  | cons e tables ih =>
    simp only [assign_cons_eq_ok_iff, ih]
    exact ⟨fun ⟨_, _, ha, hx, hfree, h⟩ => h.cons ha hx hfree, Assigned.exists_of_cons⟩

theorem Assigned.perm (h : Assigned tables m m') (hperm : tables.Perm tables') :
    Assigned tables' m m' :=
  ⟨((hperm.map actuator).nodup_iff).mp h.distinct, fun e he => h.taken e (hperm.symm.subset he),
    fun a ha => h.others a fun hmem => ha ((hperm.map actuator).subset hmem)⟩

/-- The tables of a file are those of the actuators, one for each, and set up their axes. -/
structure Assigns (f : SettingsFile) (axes : PerAxis AxisSettings) : Prop where
  /-- each actuator has one table, and each table an actuator -/
  bijective : (f.axes.map actuator).Perm (Axis.all.map some)
  /-- the actuator gets what the table says -/
  sets : ∀ e ∈ f.axes, ∀ a, actuator e = some a → e.2.Sets e.1 (axes.get a)

/-- One table for each actuator is an assignment to all actuators that leaves none of them out. -/
theorem assigns_iff :
    f.Assigns axes ↔ Assigned f.axes (.const none) (axes.map some) := by
  constructor
  · intro h
    refine ⟨h.bijective.nodup_iff.mpr (by decide), fun e he => ?_, fun a ha => ?_⟩
    · obtain ⟨a, -, ha⟩ :=
        List.mem_map.mp (h.bijective.subset (List.mem_map_of_mem (f := actuator) he))
      exact ⟨a, axes.get a, ha.symm, h.sets e he a ha.symm, PerAxis.get_const _ _,
        PerAxis.get_map _ _ _⟩
    · exact absurd (h.bijective.symm.subset (List.mem_map_of_mem (Axis.mem_all a))) ha
  · intro h
    refine ⟨(List.perm_ext_iff_of_nodup h.distinct (by decide)).mpr fun o => ⟨fun ho => ?_,
      fun ho => ?_⟩, fun e he a ha => ?_⟩
    · obtain ⟨e, he, rfl⟩ := List.mem_map.mp ho
      obtain ⟨a, x, ha, -⟩ := h.taken e he
      rw [ha]
      exact List.mem_map_of_mem (Axis.mem_all a)
    · obtain ⟨a, -, rfl⟩ := List.mem_map.mp ho
      by_contra hmem
      have hnone := h.others a hmem
      rw [PerAxis.get_map, PerAxis.get_const] at hnone
      cases hnone
    · obtain ⟨b, x, hb, hx, -, hget⟩ := h.taken e he
      rw [ha, Option.some.injEq] at hb
      rw [PerAxis.get_map, ← hb, Option.some.injEq] at hget
      rwa [hget]

end SettingsFile

/-! ## Valid settings -/

/-- No number occurs in what has no repetitions twice, nor does one that was seen before. -/
theorem repeats_eq_nil_iff {seen : Marks} {numbers : List UInt8} :
    repeats seen numbers = [] ↔ numbers.Nodup ∧ ∀ n ∈ numbers, n ∉ seen := by
  induction numbers generalizing seen with
  | nil => simp [repeats]
  | cons n numbers ih =>
    rw [repeats, List.nodup_cons, List.forall_mem_cons]
    split
    · next hseen => simp [hseen]
    · next hnew =>
      rw [ih]
      simp only [Marks.mem_mark, not_or]
      constructor
      · rintro ⟨hnodup, hothers⟩
        exact ⟨⟨fun hmem => (hothers n hmem).1 rfl, hnodup⟩, hnew, fun k hk => (hothers k hk).2⟩
      · rintro ⟨⟨hn, hnodup⟩, -, hothers⟩
        exact ⟨hnodup, fun k hk => ⟨fun heq => hn (heq ▸ hk), hothers k hk⟩⟩

namespace Settings

variable {s : Settings}

theorem nodup_pinNumbers_of_validate (hs : s.validate = .ok ()) : s.pinNumbers.Nodup := by
  rw [validate_eq_ok_iff, problems, List.append_eq_nil_iff, List.map_eq_nil_iff] at hs
  exact (repeats_eq_nil_iff.mp hs.2).1

theorem isAssigned_stepPin_of_validate (hs : s.validate = .ok ()) (a : Axis) :
    (s.axes.get a).stepPin.isAssigned = true := by
  have haxis := problems_axis_of_validate hs a
  rw [AxisSettings.problems, List.append_eq_nil_iff, List.append_eq_nil_iff,
    problemUnless_eq_nil_iff] at haxis
  exact problemUnless_eq_nil_iff.mp haxis.1.2

end Settings

/-! ## Whole files -/

namespace SettingsFile

variable {tables tables' : List (String × AxisTable)} {f g : SettingsFile} {s : Settings}

/-- Settings are what the tables say with the speed limits clamped, and there are none unless each
actuator has its table and they are valid. -/
theorem settings_eq_ok_iff :
    f.settings = .ok s ↔ ∃ axes, f.Assigns axes ∧
      s = { f.motion with axes := axes }.clampRates ∧ s.validate = .ok () := by
  rw [settings]
  simp only [Fault.bind_eq_ok, assign_eq_ok_iff]
  constructor
  · rintro ⟨m, hm, hvalid⟩
    obtain ⟨rfl, hvalid⟩ := Settings.validate_of_validated hvalid
    have hassigned : ∀ a, m.get a = some ((m.get a).getD .default) := by
      intro a
      have hpin := Settings.isAssigned_stepPin_of_validate hvalid a
      rw [Settings.get_clampRates, Settings.clampAxis_eq, PerAxis.get_map] at hpin
      cases hget : m.get a with
      | some x => rfl
      | none =>
        rw [hget] at hpin
        cases hpin
    refine ⟨_, assigns_iff.mpr ?_, rfl, hvalid⟩
    convert hm.perm (List.mergeSort_perm _ _) using 1
    refine PerAxis.ext_get fun a => ?_
    rw [PerAxis.get_map, PerAxis.get_map, ← hassigned]
  · rintro ⟨axes, haxes, rfl, hvalid⟩
    refine ⟨axes.map some, (assigns_iff.mp haxes).perm (List.mergeSort_perm _ _).symm, ?_⟩
    have hsame : (axes.map some).map (Option.getD · AxisSettings.default) = axes := rfl
    rw [hsame]
    exact Settings.validated_of_ok hvalid

/-- Axes with distinct names are sorted one way only. -/
theorem mergeSort_eq_of_perm (h : tables.Perm tables') (hnames : (tables.map Prod.fst).Nodup) :
    tables.mergeSort nameLE = tables'.mergeSort nameLE := by
  have htrans : ∀ e₁ e₂ e₃ : String × AxisTable,
      nameLE e₁ e₂ = true → nameLE e₂ e₃ = true → nameLE e₁ e₃ = true := by
    simp only [nameLE, decide_eq_true_iff]
    exact fun _ _ _ => String.le_trans
  have htotal : ∀ e₁ e₂ : String × AxisTable, (nameLE e₁ e₂ || nameLE e₂ e₁) = true := by
    simp only [nameLE, Bool.or_eq_true, decide_eq_true_iff]
    exact fun _ _ => String.le_total _ _
  have hperm := (List.mergeSort_perm tables nameLE).trans
    (h.trans (List.mergeSort_perm tables' nameLE).symm)
  refine hperm.eq_of_pairwise (fun e e' he he' hle hge => ?_)
    (List.pairwise_mergeSort htrans htotal _) (List.pairwise_mergeSort htrans htotal _)
  refine List.inj_on_of_nodup_map hnames ((List.mergeSort_perm _ _).subset he)
    (h.symm.subset ((List.mergeSort_perm _ _).subset he')) ?_
  exact String.le_antisymm (of_decide_eq_true hle) (of_decide_eq_true hge)

/-- The order of the axes does not matter, neither for settings nor for an error. -/
theorem settings_eq_of_perm (hmotion : f.motion = g.motion) (haxes : f.axes.Perm g.axes)
    (hnames : (f.axes.map Prod.fst).Nodup) : f.settings = g.settings := by
  rw [settings, settings, mergeSort_eq_of_perm haxes hnames, hmotion]

end SettingsFile

namespace Settings

variable {reader : String → Option Entries} {text text' : String} {s : Settings}

theorem ofTextWith_eq_ok_iff :
    ofTextWith reader text = .ok s ↔
      ∃ f, SettingsFile.readWith? reader text = some f ∧ f.settings = .ok s := by
  rw [ofTextWith]
  cases SettingsFile.readWith? reader text with
  | none => simp
  | some f => simp

/-- The order of the tables does not matter, whatever comes of them. -/
theorem ofTextWith_eq_of_reordered (hreader : DistinctKeys reader) {d d' : Entries}
    (h : SettingsFile.Reordered d d') (hd : reader text = some d) (hd' : reader text' = some d') :
    ofTextWith reader text' = ofTextWith reader text := by
  rw [ofTextWith, ofTextWith]
  cases hf : SettingsFile.readWith? reader text with
  | some f =>
    obtain ⟨axes, hperm, hf'⟩ := h.readWith?_eq_some hreader hd hd' hf
    rw [hf']
    have hsame := SettingsFile.settings_eq_of_perm (f := f) (g := { f with axes := axes }) rfl hperm
      (SettingsFile.nodup_names hreader hf)
    exact hsame.symm
  | none =>
    cases hg : SettingsFile.readWith? reader text' with
    | none => rfl
    | some g =>
      obtain ⟨axes, -, hf'⟩ := h.symm.readWith?_eq_some hreader hd' hd hg
      rw [hf] at hf'
      cases hf'

/-- Settings are taken from a text exactly if every actuator has one table there and every table one
actuator, whether by its name or by what it says, and the settings are valid: they are then what the
tables say, and the default where they say nothing, but for limits that the step timer lowers. There
are three tables in `axis`, with names of their own, and no pin is used twice. In whatever order a
document has its tables, the settings are the same, or the error is. How the text is taken apart
does not matter, as long as no table of a document has a key twice. -/
theorem ofTextWith_tables (hreader : DistinctKeys reader) (text : String) :
    (∀ s, ofTextWith reader text = .ok s ↔
      ∃ f axes, SettingsFile.readWith? reader text = some f ∧ f.Assigns axes ∧
        s = { f.motion with axes := axes }.clampRates ∧ s.validate = .ok () ∧
        ∀ a, s.axes.get a = { axes.get a with maxRate := (s.axes.get a).maxRate }) ∧
    (∀ s, ofTextWith reader text = .ok s → s.pinNumbers.Nodup ∧
      ∃ f d kind tables, SettingsFile.readWith? reader text = some f ∧ reader text = some d ∧
        d.lookup "axis" = some (.table kind tables) ∧ tables.length = 3 ∧
        (tables.map Prod.fst).Nodup ∧ List.Forall₂ SettingsFile.IsAxis tables f.axes) ∧
    (∀ text' d d', reader text = some d → reader text' = some d' →
      SettingsFile.Reordered d d' → ofTextWith reader text' = ofTextWith reader text) := by
  refine ⟨fun s => ?_, fun s hs => ?_, fun text' d d' hd hd' h =>
    ofTextWith_eq_of_reordered hreader h hd hd'⟩
  · rw [ofTextWith_eq_ok_iff]
    constructor
    · rintro ⟨f, hf, hs⟩
      obtain ⟨axes, haxes, rfl, hvalid⟩ := SettingsFile.settings_eq_ok_iff.mp hs
      exact ⟨f, axes, hf, haxes, rfl, hvalid,
        fun a => by rw [get_clampRates]; exact clampAxis_eq _ _⟩
    · rintro ⟨f, axes, hf, haxes, hs, hvalid, -⟩
      exact ⟨f, hf, SettingsFile.settings_eq_ok_iff.mpr ⟨axes, haxes, hs, hvalid⟩⟩
  · obtain ⟨f, hf, hs⟩ := ofTextWith_eq_ok_iff.mp hs
    obtain ⟨axes, haxes, -, hvalid⟩ := SettingsFile.settings_eq_ok_iff.mp hs
    obtain ⟨d, hd, hdescribes⟩ := (SettingsFile.readWith?_eq_some_iff hreader).mp hf
    have hlength : f.axes.length = 3 := by
      rw [← List.length_map (f := SettingsFile.actuator)]
      exact haxes.bijective.length_eq
    obtain ⟨kind, tables, hlookup, htables⟩ := hdescribes.axes_tables fun hnil => by
      rw [hnil] at hlength
      cases hlength
    refine ⟨nodup_pinNumbers_of_validate hvalid, f, d, kind, tables, hf, hd, hlookup,
      htables.length_eq.trans hlength, ?_, htables⟩
    rw [← SettingsFile.IsAxis.map_fst htables]
    exact SettingsFile.nodup_names hreader hf

/-- The same for the reader in use. -/
theorem ofText_tables (text : String) :
    (∀ s, ofText text = .ok s ↔
      ∃ f axes, SettingsFile.read? text = some f ∧ f.Assigns axes ∧
        s = { f.motion with axes := axes }.clampRates ∧ s.validate = .ok () ∧
        ∀ a, s.axes.get a = { axes.get a with maxRate := (s.axes.get a).maxRate }) ∧
    (∀ s, ofText text = .ok s → s.pinNumbers.Nodup ∧
      ∃ f d kind tables, SettingsFile.read? text = some f ∧ document? text = some d ∧
        d.lookup "axis" = some (.table kind tables) ∧ tables.length = 3 ∧
        (tables.map Prod.fst).Nodup ∧ List.Forall₂ SettingsFile.IsAxis tables f.axes) ∧
    (∀ text' d d', document? text = some d → document? text' = some d' →
      SettingsFile.Reordered d d' → ofText text' = ofText text) :=
  ofTextWith_tables distinctKeys_document? text

/-- A settings file in which the axis `x` is the last actuator and the first one has a name of its
own. The limit of `beta` is more than the step timer can keep up with. -/
def crossedText : String :=
  "[motion]\nqueue_size = 16\n"
    ++ "[axis.x]\nactuator = 2\nstep_pin = \"gpio5\"\ndir_pin = \"gpio6\"\n"
    ++ "[axis.beta]\nmax_rate = 2000\nstep_pin = \"gpio3\"\ndir_pin = \"!gpio4\"\n"
    ++ "[axis.left]\nactuator = 0\nstep_pin = \"gpio1\"\ndir_pin = \"gpio2\"\n"

/-- The same tables in another order. -/
def uncrossedText : String :=
  "[axis.left]\nactuator = 0\nstep_pin = \"gpio1\"\ndir_pin = \"gpio2\"\n"
    ++ "[axis.beta]\nmax_rate = 2000\nstep_pin = \"gpio3\"\ndir_pin = \"!gpio4\"\n"
    ++ "[motion]\nqueue_size = 16\n"
    ++ "[axis.x]\nactuator = 2\nstep_pin = \"gpio5\"\ndir_pin = \"gpio6\"\n"

/-- The axis `x` in the document. -/
@[match_pattern] def crossedX : String × Value :=
  ("x", .table .header [("actuator", .integer (some 2)), ("step_pin", .string "gpio5"),
    ("dir_pin", .string "gpio6")])

/-- The axis `beta` in the document. -/
@[match_pattern] def crossedBeta : String × Value :=
  ("beta", .table .header [("max_rate", .integer (some 2000)), ("step_pin", .string "gpio3"),
    ("dir_pin", .string "!gpio4")])

/-- The axis `left` in the document. -/
@[match_pattern] def crossedLeft : String × Value :=
  ("left", .table .header [("actuator", .integer (some 0)), ("step_pin", .string "gpio1"),
    ("dir_pin", .string "gpio2")])

/-- The table `motion` in the document. -/
@[match_pattern] def crossedMotion : String × Value :=
  ("motion", .table .header [("queue_size", .integer (some 16))])

/-- Whether a document is that of the first text. Documents cannot be compared, but their shape can
be told. -/
def isCrossed : Option Entries → Bool
  | some [crossedMotion, ("axis", .table .implied [crossedX, crossedBeta, crossedLeft])] => true
  | _ => false

/-- Whether a document is that of the second text. -/
def isUncrossed : Option Entries → Bool
  | some [("axis", .table .implied [crossedLeft, crossedBeta, crossedX]), crossedMotion] => true
  | _ => false

theorem document?_crossedText :
    document? crossedText =
      some [crossedMotion, ("axis", .table .implied [crossedX, crossedBeta, crossedLeft])] := by
  have hshape : isCrossed (document? crossedText) = true := by decide +kernel
  generalize document? crossedText = d at hshape
  unfold isCrossed at hshape
  split at hshape
  · rfl
  · cases hshape

theorem document?_uncrossedText :
    document? uncrossedText =
      some [("axis", .table .implied [crossedLeft, crossedBeta, crossedX]), crossedMotion] := by
  have hshape : isUncrossed (document? uncrossedText) = true := by decide +kernel
  generalize document? uncrossedText = d at hshape
  unfold isUncrossed at hshape
  split at hshape
  · rfl
  · cases hshape

/-- What the document says. -/
def crossedFile : SettingsFile where
  motion := { Settings.default with queueSize := 16 }
  axes :=
    [("x", { AxisTable.empty with
        actuator := some 2, stepPin := some "gpio5", dirPin := some "gpio6" }),
     ("beta", { AxisTable.empty with
        maxRate := some (.ofFloat 2000), stepPin := some "gpio3", dirPin := some "!gpio4" }),
     ("left", { AxisTable.empty with
        actuator := some 0, stepPin := some "gpio1", dirPin := some "gpio2" })]

/-- The axes that come of it, before their limits are clamped. -/
def crossedAxes : PerAxis AxisSettings where
  alpha := { AxisSettings.default with
    name := ⟨"left", by decide⟩, stepPin := .plain 1, dirPin := .plain 2 }
  beta := { AxisSettings.default with
    name := ⟨"beta", by decide⟩, maxRate := .ofFloat 2000, stepPin := .plain 3,
    dirPin := .activeLow 4 }
  gamma := { AxisSettings.default with
    name := ⟨"x", by decide⟩, stepPin := .plain 5, dirPin := .plain 6 }

/-- Each text gives the same settings. -/
theorem ofText_tables_crossed :
    ∃ s, ofText crossedText = .ok s ∧ ofText uncrossedText = .ok s ∧
      s.axes.map (fun a => a.name.text) = ⟨"left", "beta", "x"⟩ ∧
      s.axes.beta.maxRate = .ofFloat 1250 ∧ s.pinNumbers.Nodup := by
  obtain ⟨hok, hpins, horder⟩ := ofText_tables crossedText
  have hread : SettingsFile.read? crossedText = some crossedFile := by
    rw [SettingsFile.read?, SettingsFile.readWith?, document?_crossedText]
    decide +kernel
  have hsets : ∀ e ∈ crossedFile.axes, ∀ a, SettingsFile.actuator e = some a →
      e.2.Sets e.1 (crossedAxes.get a) := by
    refine List.forall_mem_cons.mpr ⟨?_, List.forall_mem_cons.mpr ⟨?_, List.forall_mem_cons.mpr
      ⟨?_, fun _ h => absurd h List.not_mem_nil⟩⟩⟩
    all_goals
      rintro _ ⟨⟩
      exact AxisTable.settings_eq_ok_iff.mp (by decide +kernel)
  have hs := (hok _).mpr ⟨crossedFile, crossedAxes, hread, ⟨by decide, hsets⟩, rfl,
    by decide +kernel, fun a => by cases a <;> decide +kernel⟩
  refine ⟨_, hs, ?_, by decide +kernel, by decide +kernel, (hpins _ hs).1⟩
  rw [horder _ _ _ document?_crossedText document?_uncrossedText, hs]
  refine ⟨List.Perm.swap _ _ _, fun key hkey => ?_, .implied, .implied, _, _, rfl, rfl,
    (List.reverse_perm [crossedX, crossedBeta, crossedLeft]).symm⟩
  simp [List.lookup_cons, crossedMotion, beq_false_of_ne hkey]

end Settings

end MotionControl
