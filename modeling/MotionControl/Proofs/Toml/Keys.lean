import MotionControl.Toml.Document

/-!
# No key twice

Whatever would define something twice is refused while a document is read, so that no table of a
document has a key twice, however deep the table lies. This is all that is used of a reader
(`DistinctKeys`), and the reader in use is one of this kind (`distinctKeys_document?`). A document
changes in two ways: a key that is new to a table is put at its end, and a table that has changed
inside takes the place of what it was. Both keep the keys of a table distinct, and a path only
decides where the change is made (`Entries.keepsDistinct_changeAt`).
-/

namespace MotionControl.Toml

/-- No table of a value has a key twice. -/
inductive Value.Distinct : Value → Prop where
  /-- a text has no tables -/
  | string (text : String) : Distinct (.string text)
  /-- a whole number has no tables -/
  | integer (n : Option Int) : Distinct (.integer n)
  /-- any other number has no tables -/
  | real (x : Real) : Distinct (.real x)
  /-- a truth value has no tables -/
  | boolean (b : Bool) : Distinct (.boolean b)
  /-- a date has no tables -/
  | dateTime (text : String) : Distinct (.dateTime text)
  /-- an array has the tables of its items -/
  | array {items : List Value} (values : ∀ v ∈ items, Distinct v) : Distinct (.array items)
  /-- a table comes with the tables of its values -/
  | table {kind : TableKind} {entries : List (String × Value)}
      (keys : (entries.map Prod.fst).Nodup) (values : ∀ e ∈ entries, Distinct e.2) :
      Distinct (.table kind entries)

namespace Entries

/-- The keys of a table are distinct, and so are those of the tables inside it. -/
structure Distinct (es : Entries) : Prop where
  /-- no key occurs twice -/
  keys : (es.map Prod.fst).Nodup
  /-- nor does one in a table inside -/
  values : ∀ e ∈ es, e.2.Distinct

variable {es : Entries} {key : String} {v : Value} {kind : TableKind}

theorem distinct_table_iff : (Value.table kind es).Distinct ↔ Distinct es := by
  constructor
  · rintro (_ | _ | _ | _ | _ | _ | ⟨hkeys, hvalues⟩)
    exact ⟨hkeys, hvalues⟩
  · rintro ⟨hkeys, hvalues⟩
    exact .table hkeys hvalues

theorem Distinct.nil : Distinct [] := ⟨.nil, fun _ h => absurd h List.not_mem_nil⟩

theorem lookup_eq_none_iff : es.lookup key = none ↔ key ∉ es.map Prod.fst := by
  rw [List.lookup_eq_none_iff, List.mem_map]
  constructor
  · rintro h ⟨e, he, rfl⟩
    exact absurd (h e he) (by simp)
  · intro h e he
    rw [bne_iff_ne]
    exact fun heq => h ⟨e, he, heq.symm⟩

theorem mem_of_lookup (h : es.lookup key = some v) : (key, v) ∈ es := by
  obtain ⟨front, back, rfl, -⟩ := List.lookup_eq_some_iff.mp h
  simp

theorem Distinct.lookup (hes : Distinct es) (h : es.lookup key = some v) : v.Distinct :=
  hes.values _ (mem_of_lookup h)

/-- A new key at the end. -/
theorem Distinct.append (hes : Distinct es) (h : es.lookup key = none) (hv : v.Distinct) :
    Distinct (es ++ [(key, v)]) := by
  constructor
  · rw [List.map_append, List.nodup_append]
    refine ⟨hes.keys, by simp, fun k hk k' hk' heq => lookup_eq_none_iff.mp h ?_⟩
    rw [List.map_singleton, List.mem_singleton] at hk'
    rwa [heq, hk'] at hk
  · intro e he
    obtain he | he := List.mem_append.mp he
    · exact hes.values e he
    · rw [List.mem_singleton.mp he]
      exact hv

theorem map_fst_replace (es : Entries) (key : String) (v : Value) :
    (replace es key v).map Prod.fst = es.map Prod.fst := by
  rw [replace, List.map_map]
  refine List.map_congr_left fun e _ => ?_
  rw [Function.comp_apply]
  split
  · next h => exact h.symm
  · rfl

/-- Another value for a key. -/
theorem Distinct.replace (hes : Distinct es) (hv : v.Distinct) : Distinct (replace es key v) := by
  constructor
  · rw [map_fst_replace]
    exact hes.keys
  · intro e he
    obtain ⟨e, hmem, rfl⟩ := List.mem_map.mp he
    split
    · exact hv
    · exact hes.values e hmem

/-- A change keeps the keys of tables distinct. -/
def KeepsDistinct (change : Change) : Prop :=
  ∀ ⦃kind es r⦄, Distinct es → change kind es = some r → Distinct r.2

theorem keepsDistinct_changeAt {isDotted : Bool} {change : Change}
    (hchange : KeepsDistinct change) : ∀ path, KeepsDistinct (changeAt isDotted change path) := by
  intro path
  induction path with
  | nil => exact hchange
  | cons key path ih =>
    intro kind es r hes h
    rw [changeAt] at h
    split at h
    · next hnone =>
      obtain ⟨⟨k, inner⟩, hinner, h⟩ := Option.bind_eq_some_iff.mp h
      cases h
      exact hes.append hnone (distinct_table_iff.mpr (ih .nil hinner))
    · next k inner hsome =>
      split at h
      · cases h
      · obtain ⟨⟨k', inner'⟩, hinner, h⟩ := Option.bind_eq_some_iff.mp h
        cases h
        have hdistinct := distinct_table_iff.mp (hes.lookup hsome)
        exact hes.replace (distinct_table_iff.mpr (ih hdistinct hinner))
    · cases h

theorem keepsDistinct_openTable (key : String) : KeepsDistinct (openTable key) := by
  intro kind es r hes h
  rw [openTable] at h
  split at h
  · next hnone =>
    cases h
    exact hes.append hnone (distinct_table_iff.mpr .nil)
  · next inner hsome =>
    cases h
    exact hes.replace (distinct_table_iff.mpr (distinct_table_iff.mp (hes.lookup hsome)))
  · cases h

theorem keepsDistinct_addKey {isDotted : Bool} (hv : v.Distinct) :
    KeepsDistinct (addKey isDotted key v) := by
  intro kind es r hes h
  rw [addKey] at h
  split at h
  · next hnew =>
    cases h
    rw [Bool.and_eq_true, Option.isNone_iff_eq_none] at hnew
    exact hes.append hnew.2 hv
  · cases h

theorem keepsDistinct_addPath {path : List String} (hv : v.Distinct) :
    KeepsDistinct (addPath path key v) :=
  keepsDistinct_changeAt (keepsDistinct_addKey hv) path

end Entries

/-! ## Values -/

theorem based?_distinct {base : Nat} {cs : List Char} {v : Value} (h : based? base cs = some v) :
    v.Distinct := by
  rw [based?] at h
  split at h <;> cases h
  exact .integer _

theorem whole?_distinct {negative : Bool} {cs : List Char} {v : Value}
    (h : whole? negative cs = some v) : v.Distinct := by
  rw [whole?] at h
  split at h <;> cases h
  exact .integer _

theorem real?_distinct {negative : Bool} {cs : List Char} {v : Value}
    (h : real? negative cs = some v) : v.Distinct := by
  simp only [real?] at h
  split at h
  · obtain ⟨n, -, h⟩ := Option.bind_eq_some_iff.mp h
    cases h
    exact .real _
  · cases h

/-- A single word has no tables. -/
theorem word?_distinct {cs : List Char} {v : Value} (h : word? cs = some v) : v.Distinct := by
  unfold word? at h
  split at h
  · cases h
    exact .boolean true
  · cases h
    exact .boolean false
  · exact based?_distinct h
  · exact based?_distinct h
  · exact based?_distinct h
  · split at h
    · cases h
      exact .real _
    · cases h
      exact .real _
    · dsimp only at h
      split at h
      · split at h
        · cases h
          exact .dateTime _
        · cases h
      · split at h
        · exact real?_distinct h
        · exact whole?_distinct h

/-- One more item of an array. -/
theorem distinct_of_mem_append {items : List Value} {v : Value}
    (hitems : ∀ w ∈ items, w.Distinct) (hv : v.Distinct) : ∀ w ∈ items ++ [v], w.Distinct := by
  intro w hw
  obtain hw | hw := List.mem_append.mp hw
  · exact hitems w hw
  · rw [List.mem_singleton.mp hw]
    exact hv

/-- With so many steps, nothing is read that has a key twice. -/
structure ReadsDistinct (fuel : Nat) : Prop where
  /-- a value -/
  value : ∀ {depth cs v rest}, value? fuel depth cs = some (v, rest) → v.Distinct
  /-- items behind others -/
  items : ∀ {depth items cs more rest}, (∀ v ∈ items, v.Distinct) →
    items? fuel depth items cs = some (more, rest) → ∀ v ∈ more, v.Distinct
  /-- members behind others -/
  members : ∀ {depth entries cs more rest}, Entries.Distinct entries →
    members? fuel depth entries cs = some (more, rest) → Entries.Distinct more

namespace ReadsDistinct

variable {fuel depth : Nat} {cs rest : List Char}

theorem value_succ (ih : ReadsDistinct fuel) {v : Value}
    (h : value? (fuel + 1) depth cs = some (v, rest)) : v.Distinct := by
  unfold value? at h
  split at h
  · cases h
  · split at h
    · cases h
    · next heq _ _ =>
      cases heq
      obtain ⟨⟨items, left⟩, hread, h⟩ := Option.bind_eq_some_iff.mp h
      cases h
      exact .array (ih.items (fun _ hv => absurd hv List.not_mem_nil) hread)
  · split at h
    · cases h
    · next heq _ _ =>
      cases heq
      obtain ⟨⟨entries, left⟩, hread, h⟩ := Option.bind_eq_some_iff.mp h
      cases h
      exact Entries.distinct_table_iff.mpr (ih.members .nil hread)
  · split at h
    · cases h
      exact .string _
    · obtain ⟨word, hread, h⟩ := Option.bind_eq_some_iff.mp h
      cases h
      exact word?_distinct hread

theorem items_succ (ih : ReadsDistinct fuel) {items more : List Value}
    (hitems : ∀ v ∈ items, v.Distinct)
    (h : items? (fuel + 1) depth items cs = some (more, rest)) : ∀ v ∈ more, v.Distinct := by
  unfold items? at h
  split at h
  · cases h
  · cases h
    exact hitems
  · next heq _ =>
    cases heq
    obtain ⟨⟨v, left⟩, hread, h⟩ := Option.bind_eq_some_iff.mp h
    have hmore := distinct_of_mem_append hitems (ih.value hread)
    dsimp only at h
    split at h
    · exact ih.items hmore h
    · cases h
      exact hmore
    · cases h

theorem members_succ (ih : ReadsDistinct fuel) {entries more : Entries}
    (hentries : Entries.Distinct entries)
    (h : members? (fuel + 1) depth entries cs = some (more, rest)) : Entries.Distinct more := by
  unfold members? at h
  split at h
  · cases h
  · cases h
    exact hentries
  · next heq _ =>
    cases heq
    obtain ⟨⟨⟨path, key⟩, left⟩, -, h⟩ := Option.bind_eq_some_iff.mp h
    obtain ⟨⟨v, left⟩, hread, h⟩ := Option.bind_eq_some_iff.mp h
    obtain ⟨⟨kind, next⟩, hadd, h⟩ := Option.bind_eq_some_iff.mp h
    have hnext := Entries.keepsDistinct_addPath (ih.value hread) hentries hadd
    dsimp only at h
    split at h
    · exact ih.members hnext h
    · cases h
      exact hnext
    · cases h

end ReadsDistinct

theorem readsDistinct (fuel : Nat) : ReadsDistinct fuel := by
  induction fuel with
  | zero =>
    refine ⟨fun h => ?_, fun _ h => ?_, fun _ h => ?_⟩
    · rw [value?] at h
      cases h
    · rw [items?] at h
      cases h
    · rw [members?] at h
      cases h
  | succ fuel ih => exact ⟨ih.value_succ, ih.items_succ, ih.members_succ⟩

/-! ## Documents -/

theorem lines?_distinct {fuel : Nat} {current : List String} {entries d : Entries} {cs : List Char}
    (he : Entries.Distinct entries) (h : lines? fuel current entries cs = some d) :
    Entries.Distinct d := by
  induction fuel generalizing current entries cs with
  | zero => cases h
  | succ fuel ih =>
    unfold lines? at h
    split at h
    · cases h
      exact he
    · obtain ⟨⟨⟨path, key⟩, rest⟩, -, h⟩ := Option.bind_eq_some_iff.mp h
      obtain ⟨⟨kind, more⟩, hopen, h⟩ := Option.bind_eq_some_iff.mp h
      obtain ⟨rest, -, h⟩ := Option.bind_eq_some_iff.mp h
      refine ih (Entries.keepsDistinct_changeAt ?_ path he hopen) h
      exact Entries.keepsDistinct_openTable key
    · obtain ⟨⟨⟨path, key⟩, rest⟩, -, h⟩ := Option.bind_eq_some_iff.mp h
      obtain ⟨⟨v, rest⟩, hread, h⟩ := Option.bind_eq_some_iff.mp h
      obtain ⟨⟨kind, more⟩, hadd, h⟩ := Option.bind_eq_some_iff.mp h
      obtain ⟨rest, -, h⟩ := Option.bind_eq_some_iff.mp h
      have hv := (readsDistinct _).value hread
      refine ih (Entries.keepsDistinct_changeAt ?_ current he hadd) h
      exact Entries.keepsDistinct_addPath hv

/-- A reader of documents in which no table has a key twice. -/
def DistinctKeys (reader : String → Option Entries) : Prop :=
  ∀ ⦃text d⦄, reader text = some d → Entries.Distinct d

theorem distinctKeys_document? : DistinctKeys document? := fun _ _ h => lines?_distinct .nil h

end MotionControl.Toml
