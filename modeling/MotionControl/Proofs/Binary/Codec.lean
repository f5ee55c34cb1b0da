import MotionControl.Binary.Reader
import Mathlib.Data.Nat.Bitwise

/-!
# Reading back what was written

A reader takes a value off the front of some bytes. Of every reader two things are shown: it reads
what was written of a value and stops exactly where that ends (`Reads`), and what it has read does
not change when more bytes follow (`Steady`). Both carry over to readers that are put together from
others. From both it follows that whatever was cut short is not read at all
(`Reads.eq_none_of_prefix`).
-/

namespace MotionControl.Binary

variable {α β : Type}

/-- The bytes read as the value, whatever follows them, and nothing else is taken. -/
def Reads (read : Reader α) (bytes : List UInt8) (x : α) : Prop :=
  ∀ rest, read (bytes ++ rest) = some (x, rest)

/-- What has been read stays the same when more bytes follow. -/
def Steady (read : Reader α) : Prop :=
  ∀ ⦃bytes x rest⦄, read bytes = some (x, rest) →
    ∀ more, read (bytes ++ more) = some (x, rest ++ more)

theorem bind_eq_some {read : Reader α} {f : α → Reader β} {bytes rest : List UInt8} {y : β} :
    (read >>= f) bytes = some (y, rest) ↔
      ∃ x left, read bytes = some (x, left) ∧ f x left = some (y, rest) := by
  show (read bytes).bind (fun p => f p.1 p.2) = some (y, rest) ↔ _
  simp only [Option.bind_eq_some_iff, Prod.exists]

namespace Reads

theorem pure (x : α) : Reads (pure x) [] x := fun _ => rfl

theorem bind {read : Reader α} {f : α → Reader β} {bytes more : List UInt8} {x : α} {y : β}
    (hx : Reads read bytes x) (hy : Reads (f x) more y) : Reads (read >>= f) (bytes ++ more) y := by
  intro rest
  rw [List.append_assoc]
  exact bind_eq_some.mpr ⟨x, more ++ rest, hx _, hy rest⟩

theorem map {read : Reader α} {bytes : List UInt8} {x : α} (hx : Reads read bytes x) (g : α → β) :
    Reads (read >>= fun a => Pure.pure (g a)) bytes (g x) := by
  rw [← List.append_nil bytes]
  exact hx.bind (Reads.pure _)

theorem eq_none_of_prefix {read : Reader α} {bytes front : List UInt8} {x : α}
    (hx : Reads read bytes x) (hr : Steady read) (hf : front <+: bytes) (hne : front ≠ bytes) :
    read front = none := by
  obtain ⟨back, rfl⟩ := hf
  refine Option.eq_none_iff_forall_ne_some.mpr fun p hp => hne ?_
  -- what was cut off would be left over after reading the whole
  have hall : read (front ++ back) = some (x, []) := by simpa using hx []
  rw [hr hp back, Option.some.injEq, Prod.mk.injEq, List.append_eq_nil_iff] at hall
  rw [hall.2.2, List.append_nil]

end Reads

namespace Steady

theorem pure (x : α) : Steady (pure x) := by
  intro bytes y rest h more
  cases h
  rfl

theorem failure : Steady (failure : Reader α) := by
  intro bytes y rest h
  cases h

theorem bind {read : Reader α} {f : α → Reader β} (hr : Steady read) (hf : ∀ x, Steady (f x)) :
    Steady (read >>= f) := by
  intro bytes y rest h more
  obtain ⟨x, left, hx, hy⟩ := bind_eq_some.mp h
  exact bind_eq_some.mpr ⟨x, left ++ more, hr hx more, hf x hy more⟩

theorem map {read : Reader α} (hr : Steady read) (g : α → β) :
    Steady (read >>= fun a => Pure.pure (g a)) := hr.bind fun _ => Steady.pure _

end Steady

/-! ## Bytes and words -/

theorem reads_byte (b : UInt8) : Reads readByte [b] b := fun _ => rfl

theorem steady_byte : Steady readByte := by
  intro bytes b rest h more
  cases bytes with
  | nil => cases h
  | cons c cs =>
    cases h
    rfl

theorem reads_bytes (bytes : List UInt8) : Reads (readBytes bytes.length) bytes bytes := by
  intro rest
  rw [readBytes, if_pos (by simp), List.splitAt_eq, List.take_left, List.drop_left]

theorem steady_bytes (count : Nat) : Steady (readBytes count) := by
  intro bytes front rest h more
  unfold readBytes at h ⊢
  split at h
  · next hc =>
    rw [Option.some.injEq, List.splitAt_eq, Prod.mk.injEq] at h
    obtain ⟨rfl, rfl⟩ := h
    rw [if_pos (by simp; omega), List.splitAt_eq, List.take_append_of_le_length hc,
      List.drop_append_of_le_length hc]
  · cases h

theorem steady_varint (top bytes : Nat) : Steady (decodeVarint top bytes) := by
  induction bytes with
  | zero => exact fun _ _ _ h => by cases h
  | succ bytes ih =>
    rintro (_ | ⟨b, bs⟩) n rest h more
    · cases h
    · rw [decodeVarint] at h
      rw [List.cons_append, decodeVarint]
      split at h
      · next hb =>
        rw [if_pos hb]
        split at h
        · cases h
        · next ht =>
          cases h
          rw [if_neg ht]
      · next hb =>
        rw [if_neg hb]
        obtain ⟨⟨m, left⟩, hm, hn⟩ := Option.bind_eq_some_iff.mp h
        cases hn
        rw [ih hm more]
        rfl

theorem reads_word (n : UInt32) : Reads readWord (encodeWord n) n := by
  intro rest
  have h : decodeVarint 15 (4 + 1) (encodeVarint n.toNat ++ rest) = some (n.toNat, rest) :=
    decodeVarint_encodeVarint (by have := n.toNat_lt; simpa using this) (by decide) rest
  exact bind_eq_some.mpr ⟨n.toNat, rest, h, by rw [UInt32.ofNat_toNat]; rfl⟩

theorem steady_word : Steady readWord := (steady_varint 15 5).map _

theorem reads_long (n : UInt64) : Reads readLong (encodeLong n) n := by
  intro rest
  have h : decodeVarint 1 (9 + 1) (encodeVarint n.toNat ++ rest) = some (n.toNat, rest) :=
    decodeVarint_encodeVarint (by have := n.toNat_lt; simpa using this) (by decide) rest
  exact bind_eq_some.mpr ⟨n.toNat, rest, h, by rw [UInt64.ofNat_toNat]; rfl⟩

theorem steady_long : Steady readLong := (steady_varint 1 10).map _

/-- The four bytes of a word put together again are the word. -/
theorem or_bytes (b : UInt32) :
    b.toUInt8.toUInt32 ||| (b >>> 8).toUInt8.toUInt32 <<< 8
      ||| (b >>> 16).toUInt8.toUInt32 <<< 16 ||| (b >>> 24).toUInt8.toUInt32 <<< 24 = b := by
  rw [← UInt32.toNat_inj]
  simp only [UInt32.toNat_or, UInt32.toNat_shiftLeft, UInt8.toNat_toUInt32, UInt32.toNat_toUInt8,
    UInt32.toNat_shiftRight]
  refine Nat.eq_of_testBit_eq fun i => ?_
  have hb (hi : 32 ≤ i) : b.toNat.testBit i = false :=
    Nat.testBit_lt_two_pow (b.toNat_lt.trans_le (Nat.pow_le_pow_right (by decide) hi))
  simp only [Nat.testBit_lor, Nat.testBit_mod_two_pow, Nat.testBit_shiftLeft,
    Nat.testBit_shiftRight]
  grind

theorem reads_fixed (b : UInt32) : Reads readFixed (encodeFixed b) b := by
  intro rest
  show some (_, rest) = _
  rw [or_bytes]

theorem steady_fixed : Steady readFixed :=
  steady_byte.bind fun _ => steady_byte.bind fun _ => steady_byte.bind fun _ => steady_byte.map _

/-! ## Truth values, values that may be missing, and texts -/

theorem reads_bool (b : Bool) : Reads readBool (encodeBool b) b := by
  cases b <;> exact fun _ => rfl

theorem steady_bool : Steady readBool := by
  refine steady_byte.bind fun b => ?_
  split
  · exact .pure _
  · exact .pure _
  · exact .failure

theorem reads_option {encode : α → List UInt8} {read : Reader α}
    (h : ∀ x, Reads read (encode x) x) (o : Option α) :
    Reads (readOption read) (encodeOption encode o) o := by
  cases o with
  | none =>
    have hnone : Reads (pure none : Reader (Option α)) [] none := Reads.pure _
    exact (reads_bool false).bind hnone
  | some x => exact (reads_bool true).bind ((h x).map some)

theorem steady_option {read : Reader α} (h : Steady read) : Steady (readOption read) := by
  refine steady_bool.bind fun b => ?_
  split
  · exact h.map some
  · exact .pure _

theorem toList_eq_data (b : ByteArray) : b.toList = b.data.toList := by
  have hloop (i : Nat) (r : List UInt8) :
      ByteArray.toList.loop b i r = r.reverse ++ b.data.toList.drop i := by
    fun_induction ByteArray.toList.loop b i r with
    | case1 i r hi ih =>
      have hlt : i < b.data.toList.length := by simpa using hi
      rw [ih, List.drop_eq_getElem_cons hlt]
      simp [ByteArray.get!, hi]
    | case2 i r hi =>
      have hle : b.data.toList.length ≤ i := by simpa using hi
      rw [List.drop_eq_nil_of_le hle, List.append_nil]
  simpa [ByteArray.toList] using hloop 0 []

theorem reads_text {s : String} (h : s.utf8ByteSize < UInt64.size) :
    Reads readText (encodeText s) s := by
  have hlen : s.toUTF8.toList.length = s.utf8ByteSize := by
    rw [toList_eq_data, String.toUTF8_eq_toByteArray, Array.length_toList]
    rfl
  have hn : (UInt64.ofNat s.utf8ByteSize).toNat = s.utf8ByteSize := UInt64.toNat_ofNat_of_lt' h
  have hsize := reads_long (UInt64.ofNat s.utf8ByteSize)
  have hbytes := reads_bytes s.toUTF8.toList
  rw [encodeLong, hn] at hsize
  rw [hlen] at hbytes
  have htext : String.fromUTF8? ⟨s.toUTF8.toList.toArray⟩ = some s := by
    rw [toList_eq_data, Array.toArray_toList, String.fromUTF8?, String.toUTF8_eq_toByteArray,
      dif_pos s.isValidUTF8]
    rfl
  refine hsize.bind ?_
  rw [hn]
  intro rest
  refine bind_eq_some.mpr ⟨_, rest, hbytes rest, ?_⟩
  simp only [htext]
  rfl

theorem steady_text : Steady readText := by
  refine steady_long.bind fun n => (steady_bytes _).bind fun bytes => ?_
  split
  · exact .pure _
  · exact .failure

end MotionControl.Binary
