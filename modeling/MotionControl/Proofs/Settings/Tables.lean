import Mathlib.Data.List.Perm.Basic
import MotionControl.Proofs.Toml.Keys
import MotionControl.Settings.Document

/-!
# The tables of a settings file

A settings file is read entry by entry, by whatever reader takes the text apart. As no key of a
document occurs twice (`Toml.DistinctKeys`), what is read depends on the two tables `motion` and
`axis` alone, wherever they stand (`SettingsFile.Describes`): the axes are the tables in `axis`, in
their order and under their names, which are distinct. So a document that has the same tables in
another order reads as the same settings with the axes in another order
(`SettingsFile.Reordered.describes`).
-/

namespace MotionControl

open Toml

/-- The results of a function that can fail, one for each item of a list. -/
theorem mapM_eq_some_iff {α β : Type} {f : α → Option β} {R : α → β → Prop}
    (hR : ∀ x y, f x = some y ↔ R x y) {xs : List α} {ys : List β} :
    xs.mapM f = some ys ↔ List.Forall₂ R xs ys := by
  induction xs generalizing ys with
  | nil =>
    rw [List.mapM_nil, List.forall₂_nil_left_iff]
    exact ⟨fun h => (Option.some.inj h).symm, fun h => h ▸ rfl⟩
  | cons x xs ih =>
    rw [List.mapM_cons, List.forall₂_cons_left_iff]
    constructor
    · intro h
      obtain ⟨y, hy, h⟩ := Option.bind_eq_some_iff.mp h
      obtain ⟨zs, hzs, h⟩ := Option.bind_eq_some_iff.mp h
      exact ⟨y, zs, (hR x y).mp hy, ih.mp hzs, (Option.some.inj h).symm⟩
    · rintro ⟨y, zs, hy, hzs, rfl⟩
      exact Option.bind_eq_some_iff.mpr
        ⟨y, (hR x y).mpr hy, Option.bind_eq_some_iff.mpr ⟨zs, ih.mpr hzs, rfl⟩⟩

namespace SettingsFile

variable {reader : String → Option Entries} {d d' : Entries} {start f : SettingsFile}
  {text : String}

/-! ## What is read -/

/-- A table in `axis` is the table of an axis, under its name. -/
def IsAxis (e : String × Value) (t : String × AxisTable) : Prop :=
  e.1 = t.1 ∧ RecordField.putAll AxisTable.fields e.2 .empty = some t.2

theorem axisTables?_eq_some_iff {v : Value} {axes : List (String × AxisTable)} :
    axisTables? v = some axes ↔
      ∃ kind tables, v = .table kind tables ∧ List.Forall₂ IsAxis tables axes := by
  cases v with
  | table kind tables =>
    refine (mapM_eq_some_iff (R := IsAxis) ?_).trans
      ⟨fun h => ⟨kind, tables, rfl, h⟩, fun ⟨_, _, heq, h⟩ => by cases heq; exact h⟩
    rintro ⟨name, v⟩ ⟨name', t⟩
    simp only [Option.bind_eq_bind, Option.bind_eq_some_iff, Option.pure_def, Option.some.injEq,
      Prod.mk.injEq, IsAxis]
    exact ⟨fun ⟨table, htable, hname, ht⟩ => ⟨hname, ht ▸ htable⟩,
      fun ⟨hname, htable⟩ => ⟨t, htable, hname, rfl⟩⟩
  | _ =>
    refine ⟨fun h => ?_, fun ⟨_, _, heq, _⟩ => ?_⟩
    · cases h
    · cases heq

/-- A document has no tables but the two of a settings file, and they turn what there is at the
start into the file. A table that is missing leaves its part as it is. -/
structure Describes (d : Entries) (start f : SettingsFile) : Prop where
  /-- nothing else is in the document -/
  keys : ∀ e ∈ d, e.1 = "motion" ∨ e.1 = "axis"
  /-- the settings of the machine as a whole -/
  motion : (d.lookup "motion").elim (f.motion = start.motion)
    (RecordField.putAll motionFields · start.motion = some f.motion)
  /-- the axes -/
  axes : (d.lookup "axis").elim (f.axes = start.axes) (axisTables? · = some f.axes)

theorem putEntry_motion (v : Value) :
    RecordField.putEntry fields start ("motion", v) =
      (RecordField.putAll motionFields v start.motion).map ({ start with motion := · }) := rfl

theorem putEntry_axis (v : Value) :
    RecordField.putEntry fields start ("axis", v) =
      (axisTables? v).map ({ start with axes := · }) := rfl

theorem putEntry_of_ne {e : String × Value} (hmotion : e.1 ≠ "motion") (haxis : e.1 ≠ "axis") :
    RecordField.putEntry fields start e = none := by
  have hfind : fields.find? (·.key == e.1) = none := by
    simp [fields, RecordField.of, hmotion.symm, haxis.symm]
  rw [RecordField.putEntry, hfind]
  rfl

theorem foldlM_eq_some_iff (hkeys : (d.map Prod.fst).Nodup) :
    d.foldlM (RecordField.putEntry fields) start = some f ↔ Describes d start f := by
  induction d generalizing start with
  | nil =>
    rw [List.foldlM_nil]
    constructor
    · intro h
      cases h
      exact ⟨fun _ h => absurd h List.not_mem_nil, rfl, rfl⟩
    · rintro ⟨-, hmotion, haxes⟩
      cases f
      cases hmotion
      cases haxes
      rfl
  | cons e d ih =>
    obtain ⟨key, v⟩ := e
    rw [List.map_cons, List.nodup_cons] at hkeys
    obtain ⟨hnew, hkeys⟩ := hkeys
    rw [List.foldlM_cons, Option.bind_eq_bind, Option.bind_eq_some_iff]
    simp only [ih hkeys]
    by_cases hmotion : key = "motion"
    · subst hmotion
      have hnone := Entries.lookup_eq_none_iff.mpr hnew
      simp only [putEntry_motion, Option.map_eq_some_iff]
      constructor
      · rintro ⟨_, ⟨m, hm, rfl⟩, hknown, hmotion, haxes⟩
        rw [hnone] at hmotion
        refine ⟨List.forall_mem_cons.mpr ⟨.inl rfl, hknown⟩, ?_, haxes⟩
        rw [List.lookup_cons_self]
        exact hm.trans (congrArg some hmotion.symm)
      · rintro ⟨hknown, hmotion, haxes⟩
        rw [List.lookup_cons_self] at hmotion
        refine ⟨_, ⟨_, hmotion, rfl⟩, (List.forall_mem_cons.mp hknown).2, ?_, haxes⟩
        rw [hnone]
        rfl
    · by_cases haxis : key = "axis"
      · subst haxis
        have hnone := Entries.lookup_eq_none_iff.mpr hnew
        simp only [putEntry_axis, Option.map_eq_some_iff]
        constructor
        · rintro ⟨_, ⟨m, hm, rfl⟩, hknown, hmotion, haxes⟩
          rw [hnone] at haxes
          refine ⟨List.forall_mem_cons.mpr ⟨.inr rfl, hknown⟩, hmotion, ?_⟩
          rw [List.lookup_cons_self]
          exact hm.trans (congrArg some haxes.symm)
        · rintro ⟨hknown, hmotion, haxes⟩
          rw [List.lookup_cons_self] at haxes
          refine ⟨_, ⟨_, haxes, rfl⟩, (List.forall_mem_cons.mp hknown).2, hmotion, ?_⟩
          rw [hnone]
          rfl
      · constructor
        · rintro ⟨s, hs, -⟩
          rw [putEntry_of_ne hmotion haxis] at hs
          cases hs
        · rintro ⟨hknown, -, -⟩
          exact absurd (List.forall_mem_cons.mp hknown).1 (not_or.mpr ⟨hmotion, haxis⟩)

/-- What is read from a text is what its document says. -/
theorem readWith?_eq_some_iff (hreader : DistinctKeys reader) :
    readWith? reader text = some f ↔ ∃ d, reader text = some d ∧ Describes d ⟨.default, []⟩ f := by
  rw [readWith?, Option.bind_eq_bind, Option.bind_eq_some_iff]
  constructor
  · rintro ⟨d, hd, h⟩
    exact ⟨d, hd, (foldlM_eq_some_iff (hreader hd).keys).mp h⟩
  · rintro ⟨d, hd, h⟩
    exact ⟨d, hd, (foldlM_eq_some_iff (hreader hd).keys).mpr h⟩

/-! ## The axes -/

theorem IsAxis.map_fst {tables : Entries} {axes : List (String × AxisTable)}
    (h : List.Forall₂ IsAxis tables axes) : axes.map Prod.fst = tables.map Prod.fst := by
  induction h with
  | nil => rfl
  | cons hhead _ ih => rw [List.map_cons, List.map_cons, ih, hhead.1]

/-- The axes of a file are the tables in `axis`, if there are any. -/
theorem Describes.axes_tables (h : Describes d start f) (hne : f.axes ≠ start.axes) :
    ∃ kind tables, d.lookup "axis" = some (.table kind tables) ∧
      List.Forall₂ IsAxis tables f.axes := by
  have haxes := h.axes
  cases hlookup : d.lookup "axis" with
  | none =>
    rw [hlookup] at haxes
    exact absurd haxes hne
  | some v =>
    rw [hlookup] at haxes
    obtain ⟨kind, tables, rfl, htables⟩ := axisTables?_eq_some_iff.mp haxes
    exact ⟨kind, tables, rfl, htables⟩

/-- The names of the axes are distinct. -/
theorem nodup_names (hreader : DistinctKeys reader) (h : readWith? reader text = some f) :
    (f.axes.map Prod.fst).Nodup := by
  obtain ⟨d, hd, hdescribes⟩ := (readWith?_eq_some_iff hreader).mp h
  by_cases hnil : f.axes = []
  · rw [hnil]
    exact .nil
  · obtain ⟨kind, tables, hlookup, htables⟩ := hdescribes.axes_tables hnil
    rw [IsAxis.map_fst htables]
    exact (Entries.distinct_table_iff.mp ((hreader hd).lookup hlookup)).keys

/-! ## Another order -/

/-- Two documents have the same tables in the same or another order, and the tables in `axis` are
the same in the same or another order. -/
structure Reordered (d d' : Entries) : Prop where
  /-- the same tables by name -/
  keys : (d.map Prod.fst).Perm (d'.map Prod.fst)
  /-- which hold the same, apart from `axis` -/
  values : ∀ key, key ≠ "axis" → d.lookup key = d'.lookup key
  /-- which holds the same tables -/
  axes : ∃ kind kind' tables tables', d.lookup "axis" = some (.table kind tables) ∧
    d'.lookup "axis" = some (.table kind' tables') ∧ tables.Perm tables'

namespace Reordered

theorem symm (h : Reordered d d') : Reordered d' d := by
  obtain ⟨kind, kind', tables, tables', hd, hd', hperm⟩ := h.axes
  exact ⟨h.keys.symm, fun key hkey => (h.values key hkey).symm,
    kind', kind, tables', tables, hd', hd, hperm.symm⟩

/-- The same settings with the axes in another order. -/
theorem describes (h : Reordered d d') (hf : Describes d start f) :
    ∃ axes, f.axes.Perm axes ∧ Describes d' start { f with axes := axes } := by
  obtain ⟨kind, kind', tables, tables', hd, hd', hperm⟩ := h.axes
  have haxes := hf.axes
  rw [hd] at haxes
  obtain ⟨_, _, heq, htables⟩ := axisTables?_eq_some_iff.mp haxes
  cases heq
  obtain ⟨axes, haxes, hto⟩ := List.perm_comp_forall₂ hperm.symm htables
  refine ⟨axes, hto.symm, fun e he => ?_, ?_, ?_⟩
  · obtain ⟨e', he', hkey⟩ := List.mem_map.mp (h.keys.symm.subset (List.mem_map_of_mem he))
    rw [← hkey]
    exact hf.keys e' he'
  · rw [← h.values "motion" (by decide)]
    exact hf.motion
  · rw [hd']
    exact axisTables?_eq_some_iff.mpr ⟨kind', tables', rfl, haxes⟩

theorem readWith?_eq_some {text' : String} (h : Reordered d d') (hreader : DistinctKeys reader)
    (hd : reader text = some d) (hd' : reader text' = some d')
    (hf : readWith? reader text = some f) :
    ∃ axes, f.axes.Perm axes ∧ readWith? reader text' = some { f with axes := axes } := by
  obtain ⟨d₀, hd₀, hdescribes⟩ := (readWith?_eq_some_iff hreader).mp hf
  rw [hd, Option.some.injEq] at hd₀
  obtain ⟨axes, hperm, hdescribes'⟩ := h.describes (hd₀ ▸ hdescribes)
  exact ⟨axes, hperm, (readWith?_eq_some_iff hreader).mpr ⟨d', hd', hdescribes'⟩⟩

end Reordered

end SettingsFile

end MotionControl
