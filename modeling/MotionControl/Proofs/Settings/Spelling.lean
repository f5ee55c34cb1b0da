import Mathlib.Data.List.TakeWhile
import Mathlib.Data.Nat.Digits.Defs
import MotionControl.Proofs.Settings.Assignment

/-!
# How pins may be written

`PinText.Spelling` is the grammar of pins: modifiers in any number and order, the word `gpio`, a
plus sign or none, and the digits of a number that is a line. A pin is read from a text exactly if
the text is a spelling of it with blank characters around (`PinText.read?_eq_some_iff`); in both
directions the two loops, over the modifiers and over the blank characters, are taken apart by what
they pass over. Any other text is an invalid pin, and which modifiers there are matters, but neither
how often nor in which order (`PinText.pin_spelled`).
-/

namespace MotionControl

/-! ## Trimming -/

namespace Text

variable {front core rest : List Char}

/-- A text is what trimming leaves of it, with blank characters on both sides. -/
theorem exists_eq_append_trim (cs : List Char) :
    ∃ front back, (∀ c ∈ front, isBlank c = true) ∧ (∀ c ∈ back, isBlank c = true) ∧
      cs = front ++ trim cs ++ back := by
  refine ⟨cs.takeWhile isBlank, ((cs.dropWhile isBlank).reverse.takeWhile isBlank).reverse,
    fun c hc => List.mem_takeWhile_imp hc,
    fun c hc => List.mem_takeWhile_imp (List.mem_reverse.mp hc), ?_⟩
  rw [trim, List.append_assoc, ← List.reverse_append, List.takeWhile_append_dropWhile,
    List.reverse_reverse, List.takeWhile_append_dropWhile]

/-- Trimming stops where something is not blank. -/
theorem trim_append (hfront : ∀ c ∈ front, isBlank c = true) (hne : core ≠ [])
    (hcore : ∀ c ∈ core, isBlank c = false) :
    trim (front ++ core ++ rest) = core ++ (rest.reverse.dropWhile isBlank).reverse := by
  have hstart : (core ++ rest).dropWhile isBlank = core ++ rest := by
    obtain ⟨c, cs, rfl⟩ := List.exists_cons_of_ne_nil hne
    exact List.dropWhile_cons_of_neg (by simp [hcore c List.mem_cons_self])
  have hend : core.reverse.dropWhile isBlank = core.reverse := by
    refine List.dropWhile_eq_self_iff.mpr fun hpos hblank => ?_
    have hfalse := hcore _ (List.mem_reverse.mp (List.getElem_mem hpos))
    rw [hblank] at hfalse
    cases hfalse
  rw [trim, List.append_assoc, List.dropWhile_append_of_pos hfront, hstart, List.reverse_append,
    List.dropWhile_append, hend]
  split
  · next hblank =>
    rw [List.isEmpty_iff.mp hblank, List.reverse_reverse, List.reverse_nil, List.append_nil]
  · rw [List.reverse_append, List.reverse_reverse]

/-- Blank characters around something that has none are all that trimming takes off. -/
theorem trim_eq {back : List Char} (hfront : ∀ c ∈ front, isBlank c = true)
    (hback : ∀ c ∈ back, isBlank c = true) (hne : core ≠ [])
    (hcore : ∀ c ∈ core, isBlank c = false) : trim (front ++ core ++ back) = core := by
  have hnone : back.reverse.dropWhile isBlank = [] :=
    List.dropWhile_eq_nil_iff.mpr fun c hc => hback c (List.mem_reverse.mp hc)
  rw [trim_append hfront hne hcore, hnone, List.reverse_nil, List.append_nil]

end Text

namespace PinText

open Text (isBlank)

/-! ## Spellings -/

/-- A character in front of a pin that says something about the line. -/
def IsModifier (c : Char) : Prop := c = '!' ∨ c = '^'

/-- A decimal digit. -/
def IsDigit (c : Char) : Prop := '0' ≤ c ∧ c ≤ '9'

/-- The number that decimal digits stand for, the last one for the ones. -/
def decimal (digits : List Char) : Nat :=
  Nat.ofDigits 10 (digits.reverse.map fun c => c.toNat - '0'.toNat)

/-- A way to write a pin. -/
structure Spelling where
  /-- what is in front -/
  modifiers : List Char
  /-- the number has a plus sign -/
  plus : Bool
  /-- the digits of the number -/
  digits : List Char
  /-- nothing but modifiers is in front -/
  isModifier : ∀ c ∈ modifiers, IsModifier c
  /-- there is a number -/
  digits_ne_nil : digits ≠ []
  /-- it is a decimal one -/
  isDigit : ∀ c ∈ digits, IsDigit c
  /-- it is that of a line -/
  decimal_le : decimal digits ≤ 254

namespace Spelling

/-- The characters of a spelling. -/
def chars (s : Spelling) : List Char :=
  s.modifiers ++ (['g', 'p', 'i', 'o'] ++ ((if s.plus then ['+'] else []) ++ s.digits))

/-- A text is a spelling with blank characters around. -/
def IsIn (s : Spelling) (text : String) : Prop :=
  ∃ front back, (∀ c ∈ front, isBlank c = true) ∧ (∀ c ∈ back, isBlank c = true) ∧
    text.toList = front ++ s.chars ++ back

/-- A spelling is one of a pin: of its number, with `!` if it is active-low, and with `^` if it has
a pull-up. -/
structure Spells (s : Spelling) (p : Pin) : Prop where
  /-- the number -/
  number : p.number.toNat = decimal s.digits
  /-- the line is active-low -/
  inverted : p.inverted = true ↔ '!' ∈ s.modifiers
  /-- the line has a pull-up -/
  pullUp : p.pullUp = true ↔ '^' ∈ s.modifiers

end Spelling

theorem isBlank_of_isModifier {c : Char} (h : IsModifier c) : isBlank c = false := by
  obtain rfl | rfl := h <;> rfl

theorem isDigit_iff {c : Char} : c.isDigit = true ↔ IsDigit c := by
  simp only [Char.isDigit, Bool.and_eq_true, decide_eq_true_eq, ge_iff_le]
  rfl

theorem isBlank_of_isDigit {c : Char} (h : IsDigit c) : isBlank c = false := by
  have hlow : 48 ≤ c.toNat := UInt32.le_iff_toNat_le.mp h.1
  have hhigh : c.toNat ≤ 57 := UInt32.le_iff_toNat_le.mp h.2
  simp only [isBlank, Bool.or_eq_false_iff, Bool.and_eq_false_iff, decide_eq_false_iff_not,
    beq_eq_false_iff_ne]
  omega

theorem Spelling.isBlank_chars (s : Spelling) : ∀ c ∈ s.chars, isBlank c = false := by
  intro c hc
  simp only [chars, List.mem_append] at hc
  obtain hc | hc | hc | hc := hc
  · exact isBlank_of_isModifier (s.isModifier c hc)
  · simp only [List.mem_cons, List.not_mem_nil, or_false] at hc
    obtain rfl | rfl | rfl | rfl := hc <;> rfl
  · split at hc
    · rw [List.mem_singleton.mp hc]
      rfl
    · cases hc
  · exact isBlank_of_isDigit (s.isDigit c hc)

/-! ## Modifiers -/

variable {p q : Pin} {ms ms' cs rest : List Char}

/-- A pin with some modifiers in front. -/
def modify (p : Pin) (ms : List Char) : Pin :=
  { p with
    inverted := p.inverted || ms.contains '!'
    pullUp := p.pullUp || ms.contains '^' }

theorem modify_congr (h : ∀ c, c ∈ ms ↔ c ∈ ms') : modify p ms = modify p ms' := by
  rw [modify, modify, List.contains_eq_mem, List.contains_eq_mem, List.contains_eq_mem,
    List.contains_eq_mem, decide_eq_decide.mpr (h '!'), decide_eq_decide.mpr (h '^')]

/-- Modifiers are passed over and leave their marks. -/
theorem readModifiers_append (h : ∀ c ∈ ms, IsModifier c) :
    readModifiers p (ms ++ cs) = readModifiers (modify p ms) cs := by
  induction ms generalizing p with
  | nil => simp [modify]
  | cons c ms ih =>
    obtain ⟨hc, hms⟩ := List.forall_mem_cons.mp h
    obtain rfl | rfl := hc
    · rw [List.cons_append, readModifiers, ih hms]
      simp [modify]
    · rw [List.cons_append, readModifiers, ih hms]
      simp [modify]

/-- What is passed over are modifiers. -/
theorem exists_of_readModifiers (h : readModifiers p cs = (q, rest)) :
    ∃ ms, (∀ c ∈ ms, IsModifier c) ∧ cs = ms ++ rest ∧ q = modify p ms := by
  fun_induction readModifiers p cs with
  | case1 p cs ih =>
    obtain ⟨ms, hms, rfl, rfl⟩ := ih h
    exact ⟨'!' :: ms, List.forall_mem_cons.mpr ⟨.inl rfl, hms⟩, rfl, by simp [modify]⟩
  | case2 p cs ih =>
    obtain ⟨ms, hms, rfl, rfl⟩ := ih h
    exact ⟨'^' :: ms, List.forall_mem_cons.mpr ⟨.inr rfl, hms⟩, rfl, by simp [modify]⟩
  | case3 p cs =>
    cases h
    exact ⟨[], fun _ h => absurd h List.not_mem_nil, rfl, by simp [modify]⟩

/-! ## Numbers -/

theorem ofDigitChars_eq_decimal (digits : List Char) :
    Nat.ofDigitChars 10 digits 0 = decimal digits := by
  rw [decimal, Nat.ofDigits_eq_foldr, List.foldr_map, List.foldr_reverse, Nat.ofDigitChars]
  exact congrArg (List.foldl · 0 digits) (funext fun k => funext fun c => Nat.add_comm _ _)

/-- Digits are a number if there are any. -/
theorem ofDigits_eq_some_iff {digits : List Char} {k : Nat} :
    (if !digits.isEmpty && digits.all Char.isDigit then some (Nat.ofDigitChars 10 digits 0)
      else none) = some k ↔
    digits ≠ [] ∧ (∀ c ∈ digits, IsDigit c) ∧ k = decimal digits := by
  rw [Option.ite_none_right_eq_some, Bool.and_eq_true, Bool.not_eq_true',
    List.isEmpty_eq_false_iff, List.all_eq_true, ofDigitChars_eq_decimal, Option.some.injEq,
    and_assoc, eq_comm (a := k)]
  simp only [isDigit_iff]

/-- A number is a plus sign or none, and digits. -/
theorem readNumber?_eq_some_iff {k : Nat} :
    readNumber? cs = some k ↔ ∃ (plus : Bool) (digits : List Char),
      cs = (if plus then ['+'] else []) ++ digits ∧ digits ≠ [] ∧ (∀ c ∈ digits, IsDigit c) ∧
        k = decimal digits := by
  unfold readNumber?
  rw [ofDigits_eq_some_iff]
  split
  · next ds =>
    refine ⟨fun h => ⟨true, ds, rfl, h⟩, ?_⟩
    rintro ⟨plus, digits, heq, hne, hall, hk⟩
    cases plus with
    | true =>
      obtain rfl := (List.cons.inj heq).2
      exact ⟨hne, hall, hk⟩
    | false =>
      -- a plus sign is not a digit
      have hmem : '+' ∈ digits := (show '+' :: ds = digits from heq) ▸ List.mem_cons_self
      have hplus : IsDigit '+' := hall '+' hmem
      exact absurd hplus (by unfold IsDigit; decide)
  · next hno =>
    refine ⟨fun h => ⟨false, cs, rfl, h⟩, ?_⟩
    rintro ⟨plus, digits, heq, h⟩
    cases plus with
    | true => exact absurd heq (hno digits)
    | false => exact heq ▸ h

/-! ## Pins -/

/-- The pin of a spelling. -/
def Spelling.pin (s : Spelling) : Pin :=
  { modify .unassigned s.modifiers with number := UInt8.ofNat (decimal s.digits) }

/-- A spelling is one of a single pin. -/
theorem Spelling.spells_iff (s : Spelling) : s.Spells p ↔ p = s.pin := by
  have hnumber : s.pin.number.toNat = decimal s.digits :=
    UInt8.toNat_ofNat_of_lt' (Nat.lt_of_le_of_lt s.decimal_le (by decide))
  have hinverted : s.pin.inverted = true ↔ '!' ∈ s.modifiers := by
    simp [pin, modify, Pin.unassigned, Pin.plain]
  have hpullUp : s.pin.pullUp = true ↔ '^' ∈ s.modifiers := by
    simp [pin, modify, Pin.unassigned, Pin.plain]
  constructor
  · intro h
    obtain ⟨number, inverted, pullUp⟩ := p
    refine Pin.mk.injEq .. ▸ ⟨?_, ?_, ?_⟩
    · exact UInt8.toNat_inj.mp (h.number.trans hnumber.symm)
    · exact Bool.eq_iff_iff.mpr (h.inverted.trans hinverted.symm)
    · exact Bool.eq_iff_iff.mpr (h.pullUp.trans hpullUp.symm)
  · rintro rfl
    exact ⟨hnumber, hinverted, hpullUp⟩

/-- A pin is read from a text exactly if the text is a spelling of it with blank characters
around. -/
theorem read?_eq_some_iff {text : String} :
    read? text = some p ↔ ∃ s : Spelling, s.IsIn text ∧ s.Spells p := by
  simp only [Spelling.spells_iff]
  constructor
  · intro h
    obtain ⟨⟨q, rest⟩, hmodifiers⟩ : ∃ x, readModifiers .unassigned (Text.trim text.toList) = x :=
      ⟨_, rfl⟩
    obtain ⟨ms, hms, htrim, rfl⟩ := exists_of_readModifiers hmodifiers
    rw [read?, hmodifiers] at h
    obtain ⟨cs, hword, h⟩ := Option.bind_eq_some_iff.mp h
    obtain ⟨k, hnumber, h⟩ := Option.bind_eq_some_iff.mp h
    obtain ⟨plus, digits, rfl, hne, hall, rfl⟩ := readNumber?_eq_some_iff.mp hnumber
    obtain ⟨hlt, hp⟩ := Option.ite_none_right_eq_some.mp h
    obtain ⟨front, back, hfront, hback, htext⟩ := Text.exists_eq_append_trim text.toList
    refine ⟨⟨ms, plus, digits, hms, hne, hall, Nat.le_of_lt_succ hlt⟩,
      ⟨front, back, hfront, hback, ?_⟩, (Option.some.inj hp).symm⟩
    rw [htext, htrim, ← List.isPrefixOf?_eq_some_iff_append_eq.mp hword]
    rfl
  · rintro ⟨s, ⟨front, back, hfront, hback, htext⟩, rfl⟩
    have hne : s.chars ≠ [] := by simp [Spelling.chars]
    have hword : ∀ cs, ['g', 'p', 'i', 'o'].isPrefixOf? (['g', 'p', 'i', 'o'] ++ cs) = some cs :=
      fun cs => List.isPrefixOf?_eq_some_iff_append_eq.mpr rfl
    have hnumber := readNumber?_eq_some_iff.mpr
      ⟨s.plus, s.digits, rfl, s.digits_ne_nil, s.isDigit, rfl⟩
    rw [read?, htext, Text.trim_eq hfront hback hne s.isBlank_chars, Spelling.chars,
      readModifiers_append s.isModifier]
    -- no modifier is left in front of the word
    change (['g', 'p', 'i', 'o'].isPrefixOf? (['g', 'p', 'i', 'o'] ++ _) >>= fun cs => _) = _
    rw [hword]
    change (readNumber? _ >>= fun k => _) = _
    rw [hnumber]
    exact if_pos (Nat.lt_succ_of_le s.decimal_le)

/-- Modifiers are the same to a pin if they are the same but for their number and order, whatever
comes behind them. -/
theorem read?_congr {front : List Char} (hfront : ∀ c ∈ front, isBlank c = true)
    (hms : ∀ c ∈ ms, IsModifier c) (hsame : ∀ c, c ∈ ms ↔ c ∈ ms') :
    read? (String.ofList (front ++ ms ++ rest)) = read? (String.ofList (front ++ ms' ++ rest)) := by
  by_cases hnil : ms = []
  · subst hnil
    obtain rfl : ms' = [] := List.eq_nil_iff_forall_not_mem.mpr fun c hc =>
      List.not_mem_nil ((hsame c).mpr hc)
    rfl
  · have hne' : ms' ≠ [] := by
      obtain ⟨c, hc⟩ := List.exists_mem_of_ne_nil ms hnil
      exact List.ne_nil_of_mem ((hsame c).mp hc)
    have hms' : ∀ c ∈ ms', IsModifier c := fun c hc => hms c ((hsame c).mpr hc)
    rw [read?, read?, String.toList_ofList, String.toList_ofList,
      Text.trim_append hfront hnil fun c hc => isBlank_of_isModifier (hms c hc),
      Text.trim_append hfront hne' fun c hc => isBlank_of_isModifier (hms' c hc),
      readModifiers_append hms, readModifiers_append hms', modify_congr hsame]

/-- A pin is read from a text exactly if the text, but for blank characters around, is a spelling of
it: modifiers, the word, a plus sign or none, and the digits of at most 254. The pin has this
number, is active-low if there is a `!`, and has a pull-up if there is a `^`. Every other text is an
invalid pin. Modifiers may be repeated and permuted, whatever comes of the text. -/
theorem pin_spelled (text : String) (fallback : Pin) :
    (∀ p, AxisTable.pin (some text) fallback = .ok p ↔
      ∃ s : Spelling, s.IsIn text ∧ s.Spells p) ∧
    (AxisTable.pin (some text) fallback = .error .invalidPin ↔ ¬ ∃ s : Spelling, s.IsIn text) ∧
    (∀ front ms ms' rest, text.toList = front ++ ms ++ rest → (∀ c ∈ front, isBlank c = true) →
      (∀ c ∈ ms, IsModifier c) → (∀ c, c ∈ ms ↔ c ∈ ms') →
      AxisTable.pin (some (String.ofList (front ++ ms' ++ rest))) fallback =
        AxisTable.pin (some text) fallback) := by
  refine ⟨fun p => AxisTable.pin_eq_ok_iff.trans read?_eq_some_iff, ?_, ?_⟩
  · rw [AxisTable.pin]
    cases hread : read? text with
    | some p =>
      obtain ⟨s, hs, -⟩ := read?_eq_some_iff.mp hread
      simp only [reduceCtorEq, false_iff, not_not]
      exact ⟨s, hs⟩
    | none =>
      simp only [true_iff]
      rintro ⟨s, hs⟩
      rw [read?_eq_some_iff.mpr ⟨s, hs, s.spells_iff.mpr rfl⟩] at hread
      cases hread
  · intro front ms ms' rest htext hfront hms hsame
    rw [AxisTable.pin, AxisTable.pin, ← read?_congr hfront hms hsame, ← htext,
      String.ofList_toList]

/-- A pin with everything that a spelling may have, and the same with its modifiers in another
order. -/
theorem pin_spelled_permuted :
    AxisTable.pin (some "\t^!^gpio+007 ") .unassigned = .ok ⟨7, true, true⟩ ∧
    AxisTable.pin (some "\t!^gpio+007 ") .unassigned = .ok ⟨7, true, true⟩ ∧
    AxisTable.pin (some "gpio255") .unassigned = .error .invalidPin := by
  obtain ⟨hok, -, hsame⟩ := pin_spelled "\t^!^gpio+007 " .unassigned
  have hread := (hok ⟨7, true, true⟩).mpr ⟨⟨['^', '!', '^'], true, ['0', '0', '7'],
    by simp [IsModifier], by simp, by simp [IsDigit], by simp [decimal, Nat.ofDigits_cons]⟩,
    ⟨['\t'], [' '], by simp [isBlank], by simp [isBlank], by decide⟩, rfl, by decide, by decide⟩
  refine ⟨hread, ?_, by decide⟩
  exact (hsame ['\t'] ['^', '!', '^'] ['!', '^'] "gpio+007 ".toList (by decide)
    (by simp [isBlank]) (by simp [IsModifier]) (by simp [or_comm])).trans hread

end PinText

end MotionControl
