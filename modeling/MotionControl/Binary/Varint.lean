/-!
# Variable-length integers

Unsigned integers in groups of seven bits, low group first; the high bit of a byte says that more
follow. Main statement: reading takes what was written off the front and nothing else.
-/

namespace MotionControl.Binary

/-- Write a number in as few bytes as possible. -/
def encodeVarint (n : Nat) : List UInt8 :=
  if h : n < 128 then [UInt8.ofNat n]
  else UInt8.ofNat (n % 128 + 128) :: encodeVarint (n / 128)
termination_by n
decreasing_by omega

/-- Read a number of at most `bytes` bytes, the last of which, if all are used, is at most `top`.
More bytes than needed are accepted. -/
def decodeVarint (top : Nat) : (bytes : Nat) → List UInt8 → Option (Nat × List UInt8)
  | 0, _ => none
  | _ + 1, [] => none
  | bytes + 1, b :: bs =>
    if b.toNat < 128 then
      if bytes = 0 && top < b.toNat then none else some (b.toNat, bs)
    else do
      let (n, rest) ← decodeVarint top bytes bs
      return (b.toNat - 128 + 128 * n, rest)

theorem decodeVarint_encodeVarint {top bytes n : Nat} (h : n < (top + 1) <<< (7 * bytes))
    (ht : top < 128) (rest : List UInt8) :
    decodeVarint top (bytes + 1) (encodeVarint n ++ rest) = some (n, rest) := by
  induction bytes generalizing n with
  | zero =>
    have hn : n < 128 := by omega
    have hb : (UInt8.ofNat n).toNat = n := by
      rw [UInt8.toNat_ofNat']
      omega
    rw [encodeVarint, dif_pos hn, List.singleton_append, decodeVarint, hb, if_pos hn]
    rw [if_neg (by simp; omega)]
  | succ bytes ih =>
    rw [encodeVarint]
    split
    · next hn =>
      have hb : (UInt8.ofNat n).toNat = n := by
        rw [UInt8.toNat_ofNat']
        omega
      rw [List.singleton_append, decodeVarint, hb, if_pos hn, if_neg (by simp)]
    · next hn =>
      have hb : (UInt8.ofNat (n % 128 + 128)).toNat = n % 128 + 128 := by
        rw [UInt8.toNat_ofNat']
        omega
      have hq : n / 128 < (top + 1) <<< (7 * bytes) := by
        rw [Nat.mul_succ, Nat.shiftLeft_add, Nat.shiftLeft_eq _ 7] at h
        omega
      rw [List.cons_append, decodeVarint, hb, if_neg (by omega), ih hq]
      simp only [Option.bind_eq_bind, Option.bind_some, Option.pure_def, Option.some.injEq,
        Prod.mk.injEq, and_true]
      omega

end MotionControl.Binary
