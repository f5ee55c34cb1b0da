import MotionControl.Proofs.Binary.Codec
import MotionControl.Settings.Load

/-!
# Settings survive being written

What was written of some settings reads back as the same settings, bit for bit, whether or not more
bytes follow; nothing that was cut short is read. As settings are validated when they are read, and
when they are taken from a settings file, whatever has been accepted once is accepted again.
-/

namespace MotionControl

open Binary

/-! ## The parts of settings -/

theorem Quantity.reads (q : Quantity) : Reads Quantity.reader q.encode q :=
  (reads_fixed q.bits).map Quantity.mk

theorem Quantity.steady : Steady Quantity.reader := steady_fixed.map _

theorem Pin.reads (p : Pin) : Reads Pin.reader p.encode p :=
  (reads_byte p.number).bind ((reads_bool p.inverted).bind ((reads_bool p.pullUp).map _))

theorem Pin.steady : Steady Pin.reader :=
  steady_byte.bind fun _ => steady_bool.bind fun _ => steady_bool.map _

theorem Label.ofText?_text (l : Label) : Label.ofText? l.text = some l := dif_pos l.fits

theorem Label.reads (l : Label) : Reads Label.reader (encodeText l.text) l := by
  have htext : Reads readText (encodeText l.text) l.text :=
    reads_text (Nat.lt_of_le_of_lt l.fits (by decide))
  rw [← List.append_nil (encodeText l.text)]
  refine htext.bind ?_
  rw [l.ofText?_text]
  exact .pure l

theorem Label.steady : Steady Label.reader := by
  refine steady_text.bind fun text => ?_
  split
  · exact .pure _
  · exact .failure

theorem AxisSettings.reads (a : AxisSettings) : Reads AxisSettings.reader a.encode a := by
  simp only [encode, List.append_assoc]
  exact a.name.reads.bind (a.stepsPerMm.reads.bind (a.maxRate.reads.bind (a.stepPin.reads.bind
    (a.dirPin.reads.bind (a.enablePin.reads.bind ((reads_option Pin.reads a.endstopPin).map _))))))

theorem AxisSettings.steady : Steady AxisSettings.reader :=
  Label.steady.bind fun _ => Quantity.steady.bind fun _ => Quantity.steady.bind fun _ =>
    Pin.steady.bind fun _ => Pin.steady.bind fun _ => Pin.steady.bind fun _ =>
      (steady_option Pin.steady).map _

namespace Settings

variable {s : Settings}

theorem reads (s : Settings) : Reads reader s.encodeBody s := by
  simp only [encodeBody, List.append_assoc]
  exact (reads_long _).bind (s.acceleration.reads.bind (s.maxJerk.reads.bind
    (s.minimumPlannerSpeed.reads.bind ((reads_word _).bind ((reads_word _).bind ((reads_word _).bind
      ((reads_word _).bind (s.axes.alpha.reads.bind (s.axes.beta.reads.bind
        (s.axes.gamma.reads.map _))))))))))

theorem steady : Steady reader :=
  steady_long.bind fun _ => Quantity.steady.bind fun _ => Quantity.steady.bind fun _ =>
    Quantity.steady.bind fun _ => steady_word.bind fun _ => steady_word.bind fun _ =>
      steady_word.bind fun _ => steady_word.bind fun _ => AxisSettings.steady.bind fun _ =>
        AxisSettings.steady.bind fun _ => AxisSettings.steady.map _

/-! ## What is accepted is valid -/

theorem validated_of_ok (h : s.validate = .ok ()) : s.validated = .ok s := by
  rw [validated, h]

theorem validated_of_error {e : SettingsError} (h : s.validate = .error e) :
    s.validated = .error (.invalid e) := by
  rw [validated, h]

/-- Validation hands out the settings it was given, and only valid ones. -/
theorem validate_of_validated {s' : Settings} (h : s.validated = .ok s') :
    s' = s ∧ s'.validate = .ok () := by
  cases hv : s.validate with
  | ok u =>
    rw [validated_of_ok hv, Except.ok.injEq] at h
    exact ⟨h.symm, h ▸ hv⟩
  | error e =>
    rw [validated_of_error hv] at h
    cases h

theorem validate_of_ofTextWith {reader : String → Option Toml.Entries} {text : String}
    (h : ofTextWith reader text = .ok s) : s.validate = .ok () := by
  unfold ofTextWith SettingsFile.settings at h
  split at h
  · next f hf =>
    cases ha : SettingsFile.assign (f.axes.mergeSort SettingsFile.nameLE) (.const none) with
    | error e =>
      rw [ha] at h
      cases h
    | ok assigned =>
      rw [ha] at h
      exact (validate_of_validated h).2
  · cases h

theorem validate_of_ofBytes {bytes : List UInt8} (h : ofBytes bytes = .ok s) :
    s.validate = .ok () := by
  unfold ofBytes at h
  split at h
  · cases h
  · split at h
    · split at h
      · exact (validate_of_validated h).2
      · cases h
    · cases h

/-! ## Whole settings -/

theorem ofBytes_toBytes_append (s : Settings) (more : List UInt8) :
    ofBytes (s.toBytes ++ more) = s.validated := by
  rw [toBytes, List.cons_append, ofBytes, if_pos rfl, s.reads more]

theorem ofBytes_toBytes (h : s.validate = .ok ()) : ofBytes s.toBytes = .ok s := by
  rw [← List.append_nil s.toBytes, ofBytes_toBytes_append, validated_of_ok h]

theorem ofBytes_of_prefix {front : List UInt8} (hf : front <+: s.toBytes)
    (hne : front ≠ s.toBytes) : ofBytes front = .error .decode := by
  cases front with
  | nil => rfl
  | cons v body =>
    rw [toBytes, List.cons_prefix_cons] at hf
    obtain ⟨rfl, hb⟩ := hf
    have hbody : body ≠ s.encodeBody := fun h => hne (by rw [h, toBytes])
    rw [ofBytes, if_pos rfl, s.reads.eq_none_of_prefix steady hb hbody]

/-- Bytes of settings read as these settings if and only if they are valid, whatever follows them;
no part of them reads as anything. Settings from a settings file, and settings from any bytes at
all, are written and read again unchanged. -/
theorem binary_round_trip (s : Settings) :
    (∀ more, s.validate = .ok () → ofBytes (s.toBytes ++ more) = .ok s) ∧
    (∀ more e, s.validate = .error e → ofBytes (s.toBytes ++ more) = .error (.invalid e)) ∧
    (∀ front, front <+: s.toBytes → front ≠ s.toBytes → ofBytes front = .error .decode) ∧
    (∀ text, ofText text = .ok s → load none (some s.toBytes) = .ok s) ∧
    (∀ bytes, ofBytes bytes = .ok s → ofBytes s.toBytes = .ok s) := by
  refine ⟨fun more h => ?_, fun more e h => ?_, fun front hf hne => ofBytes_of_prefix hf hne,
    fun text h => ofBytes_toBytes (validate_of_ofTextWith h),
    fun bytes h => ofBytes_toBytes (validate_of_ofBytes h)⟩
  · rw [ofBytes_toBytes_append, validated_of_ok h]
  · rw [ofBytes_toBytes_append, validated_of_error h]

theorem binary_round_trip_withDefaultPins :
    withDefaultPins.validate = .ok () ∧
    ofBytes (withDefaultPins.toBytes ++ [7]) = .ok withDefaultPins ∧
    ofBytes (withDefaultPins.toBytes.take 1) = .error .decode ∧
    (let padded := [version, 0xa0, 0x80, 0x00] ++ withDefaultPins.toBytes.drop 2
     ofBytes padded = .ok withDefaultPins ∧ padded ≠ withDefaultPins.toBytes) := by
  have h := binary_round_trip withDefaultPins
  have hv : withDefaultPins.validate = .ok () := by decide +kernel
  exact ⟨hv, h.1 [7] hv, h.2.2.1 _ (List.take_prefix ..) (by decide +kernel), by decide +kernel,
    by decide +kernel⟩

end Settings

end MotionControl
