import MyLsmDb.ByteOrder

/-! Fixed-width big-endian numbers, as `to_be_bytes` writes and `from_be_bytes` reads them:
their byte order is the order of the numbers. -/
namespace MyLsmDb.BigEndian
open ByteOrder (Bytes Delimited delimitedOfLength)

def beBytes : Nat → Nat → Bytes
  | 0, _ => []
  | w + 1, n => UInt8.ofNat (n / 256 ^ w) :: beBytes w (n % 256 ^ w)

def fromBe (b : Bytes) : Nat := b.foldl (fun n x => 256 * n + x.toNat) 0

@[simp] theorem beBytesLength (w n : Nat) : (beBytes w n).length = w := by
  induction w generalizing n with
  | zero => rfl
  | succ w ih => simp [beBytes, ih]

theorem beBytesDelimited (w n m : Nat) : Delimited (beBytes w n) (beBytes w m) :=
  delimitedOfLength (by simp)

section Reading

theorem foldBe (b : Bytes) (n : Nat) :
    b.foldl (fun n x => 256 * n + x.toNat) n = 256 ^ b.length * n + fromBe b := by
  induction b generalizing n with
  | nil => simp [fromBe]
  | cons x b ih =>
    rw [fromBe, List.foldl_cons, List.foldl_cons, ih, ih (256 * 0 + x.toNat), List.length_cons,
      pow_succ]
    ring

theorem topByte {w n : Nat} (h : n < 256 ^ (w + 1)) : (UInt8.ofNat (n / 256 ^ w)).toNat = n / 256 ^ w := by
  have small : n / 256 ^ w < 256 := by
    rw [Nat.div_lt_iff_lt_mul (by positivity), ← pow_succ']
    exact h
  rw [UInt8.toNat_ofNat', Nat.mod_eq_of_lt small]

theorem fromBeFits {w n : Nat} (h : n < 256 ^ w) : fromBe (beBytes w n) = n := by
  induction w generalizing n with
  | zero =>
    have zero : n = 0 := by simpa using h
    rw [zero]
    rfl
  | succ w ih =>
    have rest : n % 256 ^ w < 256 ^ w := Nat.mod_lt _ (by positivity)
    rw [beBytes, fromBe, List.foldl_cons, foldBe, ih rest, beBytesLength, topByte h, mul_zero,
      zero_add]
    exact Nat.div_add_mod n (256 ^ w)

end Reading

section Order

theorem divModLt (d n m : Nat) :
    n < m ↔ n / d < m / d ∨ n / d = m / d ∧ n % d < m % d := by
  have hn := Nat.div_add_mod n d
  have hm := Nat.div_add_mod m d
  constructor
  · intro less
    rcases lt_or_eq_of_le (Nat.div_le_div_right less.le : n / d ≤ m / d) with low | same
    · exact .inl low
    · right
      rw [same] at hn
      exact ⟨same, by omega⟩
  · rintro (low | ⟨same, less⟩)
    · by_contra high
      exact absurd (Nat.div_le_div_right (not_lt.mp high)) (not_le.mpr low)
    · rw [same] at hn
      omega

theorem beBytesLt {w n m : Nat} (hn : n < 256 ^ w) (hm : m < 256 ^ w) :
    beBytes w n < beBytes w m ↔ n < m := by
  induction w generalizing n m with
  | zero =>
    have zeroN : n = 0 := by simpa using hn
    have zeroM : m = 0 := by simpa using hm
    simp [zeroN, zeroM, beBytes]
  | succ w ih =>
    have positive : 0 < 256 ^ w := by positivity
    have lt : UInt8.ofNat (n / 256 ^ w) < UInt8.ofNat (m / 256 ^ w) ↔
        n / 256 ^ w < m / 256 ^ w := by
      rw [UInt8.lt_iff_toNat_lt, topByte hn, topByte hm]
    have eq : UInt8.ofNat (n / 256 ^ w) = UInt8.ofNat (m / 256 ^ w) ↔
        n / 256 ^ w = m / 256 ^ w := by
      rw [← UInt8.toNat_inj, topByte hn, topByte hm]
    rw [beBytes, beBytes, List.cons_lt_cons_iff, lt, eq,
      ih (Nat.mod_lt _ positive) (Nat.mod_lt _ positive), ← divModLt]

end Order
end MyLsmDb.BigEndian
