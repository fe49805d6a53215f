import MyLsmDb.ByteOrder

/-! Fixed-width little-endian numbers, as `to_le_bytes` writes and `from_le_bytes` reads
them. A number too large for the width loses its high bytes, as in an `as` cast. -/
namespace MyLsmDb.LittleEndian
open ByteOrder (Bytes)

def leBytes : Nat → Nat → Bytes
  | 0, _ => []
  | w + 1, n => UInt8.ofNat n :: leBytes w (n / 256)

def fromLe : Bytes → Nat
  | [] => 0
  | b :: rest => b.toNat + 256 * fromLe rest

@[simp] theorem leBytesLength (w n : Nat) : (leBytes w n).length = w := by
  induction w generalizing n with
  | zero => rfl
  | succ w ih => simp [leBytes, ih]

theorem fromLeBytes (w n : Nat) : fromLe (leBytes w n) = n % 256 ^ w := by
  induction w generalizing n with
  | zero => simp [leBytes, fromLe, Nat.mod_one]
  | succ w ih =>
    have byte : (UInt8.ofNat n).toNat = n % 256 := UInt8.toNat_ofNat'
    rw [leBytes, fromLe, ih, byte, pow_succ, mul_comm (256 ^ w), Nat.mod_mul]

theorem fromLeFits {w n : Nat} (h : n < 256 ^ w) : fromLe (leBytes w n) = n := by
  rw [fromLeBytes, Nat.mod_eq_of_lt h]

theorem fromLeLt (b : Bytes) : fromLe b < 256 ^ b.length := by
  induction b with
  | nil => simp [fromLe]
  | cons x b ih =>
    have := x.toNat_lt
    simp only [fromLe, List.length_cons, pow_succ]
    omega

theorem fromLeInj {a b : Bytes} (length : a.length = b.length) (same : fromLe a = fromLe b) :
    a = b := by
  induction a generalizing b with
  | nil => exact (List.length_eq_zero_iff.mp length.symm).symm
  | cons x a ih =>
    cases b with
    | nil => cases length
    | cons y b =>
      have := x.toNat_lt
      have := y.toNat_lt
      simp only [fromLe] at same
      have first : x = y := UInt8.toNat_inj.mp (by omega)
      rw [first, ih (by simpa using length) (by omega)]

theorem leBytesEq {w n m : Nat} : leBytes w n = leBytes w m ↔ n % 256 ^ w = m % 256 ^ w := by
  rw [← fromLeBytes, ← fromLeBytes]
  constructor
  · exact congrArg fromLe
  · exact fromLeInj (by simp)

end MyLsmDb.LittleEndian
