import Mathlib.Data.Nat.Init
import MyLsmDb.Binary64

/-! Integers as floats of 64 bits, and back. -/
namespace Binary64

/-- A number of 53 binary digits at most, but for the zeros behind them. -/
def Exact (n : Nat) : Prop := ∃ m k, m < 2 ^ 53 ∧ n = m * 2 ^ k

theorem magnitudeShort (bits : UInt64) : ∃ m e, m < 2 ^ 53 ∧ magnitude bits = m * 2 ^ e := by
  obtain ⟨low, high⟩ := fractionShort bits
  unfold magnitude
  split
  · exact ⟨fraction bits, 1, low, by rw [Nat.pow_one, Nat.mul_comm]⟩
  · exact ⟨_, _, high, rfl⟩

theorem exactOfMagnitude {bits : UInt64} {n : Nat} (h : magnitude bits = n * 2 ^ 1075) :
    Exact n := by
  obtain ⟨m, e, short, same⟩ := magnitudeShort bits
  rw [same] at h
  rcases Nat.le_total e 1075 with below | above
  · obtain ⟨d, total⟩ := Nat.exists_eq_add_of_le below
    rw [total, Nat.pow_add, Nat.mul_comm (2 ^ e), ← Nat.mul_assoc] at h
    have cut := Nat.eq_of_mul_eq_mul_right (Nat.two_pow_pos e) h
    have large : n * 1 ≤ n * 2 ^ d := Nat.mul_le_mul_left n Nat.one_le_two_pow
    exact ⟨n, 0, by omega, by rw [Nat.pow_zero, Nat.mul_one]⟩
  · obtain ⟨d, rfl⟩ := Nat.exists_eq_add_of_le above
    rw [Nat.pow_add, Nat.mul_comm (2 ^ 1075), ← Nat.mul_assoc] at h
    exact ⟨m, d, short, (Nat.eq_of_mul_eq_mul_right (Nat.two_pow_pos 1075) h).symm⟩

theorem signedParts {minus : Bool} {e f : Nat} (he : e < 2047) (hf : f < 2 ^ 52) :
    exponent (signed minus (e * 2 ^ 52 + f)) = e ∧ fraction (signed minus (e * 2 ^ 52 + f)) = f ∧
      negative (signed minus (e * 2 ^ 52 + f)) = minus := by
  have bits : (signed minus (e * 2 ^ 52 + f)).toNat =
      (if minus then 2 ^ 63 else 0) + (e * 2 ^ 52 + f) := by
    unfold signed
    rw [UInt64.toNat_ofNat']
    apply Nat.mod_eq_of_lt
    split <;> omega
  unfold exponent fraction negative
  rw [bits]
  cases minus <;> simp <;> omega

theorem log2Scaled {n : Nat} (some : n ≠ 0) (j : Nat) : Nat.log2 (n * 2 ^ j) = Nat.log2 n + j := by
  have scaled : n * 2 ^ j ≠ 0 := Nat.mul_ne_zero some (Nat.two_pow_pos j).ne'
  obtain ⟨low, high⟩ := (Nat.log2_eq_iff some).mp rfl
  rw [Nat.log2_eq_iff scaled]
  constructor
  · rw [Nat.pow_add]
    exact Nat.mul_le_mul_right _ low
  · rw [Nat.add_right_comm, Nat.pow_add]
    exact Nat.mul_lt_mul_of_pos_right high (Nat.two_pow_pos j)

theorem exactDivides {n : Nat} (h : Exact n) (some : n ≠ 0) :
    2 ^ (Nat.log2 n + 1023) ∣ n * 2 ^ 1075 := by
  obtain ⟨m, k, short, same⟩ := h
  obtain ⟨low, -⟩ := (Nat.log2_eq_iff some).mp rfl
  have digits : Nat.log2 n < 53 + k := by
    have below : n < 2 ^ (53 + k) := by
      rw [same, Nat.pow_add]
      exact Nat.mul_lt_mul_of_pos_right short (Nat.two_pow_pos k)
    exact (Nat.pow_lt_pow_iff_right (by decide)).mp (Nat.lt_of_le_of_lt low below)
  have wide : n * 2 ^ 1075 = m * 2 ^ (k + 1075) := by
    rw [Nat.pow_add, ← Nat.mul_assoc, ← same]
  rw [wide]
  exact (Nat.pow_dvd_pow 2 (by omega)).mul_left m

theorem roundExact {num den q : Nat} (pos : 0 < den) (h : num = q * den) :
    roundEven num den = q := by
  unfold roundEven
  rw [h, Nat.mul_mod_left, Nat.mul_div_cancel _ pos]
  dsimp only
  rw [if_pos (.inl pos)]

theorem nearestParts {n : Nat} (h : Exact n) (some : n ≠ 0) (small : n < 2 ^ 64) : ∃ e f,
    e < 2047 ∧ e ≠ 0 ∧ f < 2 ^ 52 ∧ nearest n 1 = e * 2 ^ 52 + f ∧
      (f + 2 ^ 52) * 2 ^ e = n * 2 ^ 1075 := by
  obtain ⟨q, cut⟩ := exactDivides h some
  obtain ⟨low, high⟩ := (Nat.log2_eq_iff some).mp rfl
  have bound : Nat.log2 n < 64 := (Nat.log2_lt some).mpr small
  have whole : n * 2 ^ 1075 = q * 2 ^ (Nat.log2 n + 1023) := by rw [cut, Nat.mul_comm]
  have least : 2 ^ 52 ≤ q := by
    have wide : 2 ^ 52 * 2 ^ (Nat.log2 n + 1023) ≤ q * 2 ^ (Nat.log2 n + 1023) := by
      rw [← whole, ← Nat.pow_add, show 52 + (Nat.log2 n + 1023) = Nat.log2 n + 1075 by omega,
        Nat.pow_add]
      exact Nat.mul_le_mul_right _ low
    exact Nat.le_of_mul_le_mul_right wide (Nat.two_pow_pos _)
  have most : q < 2 ^ 53 := by
    have wide : q * 2 ^ (Nat.log2 n + 1023) < 2 ^ 53 * 2 ^ (Nat.log2 n + 1023) := by
      rw [← whole, ← Nat.pow_add, show 53 + (Nat.log2 n + 1023) = Nat.log2 n + 1 + 1075 by omega,
        Nat.pow_add]
      exact Nat.mul_lt_mul_of_pos_right high (Nat.two_pow_pos _)
    exact Nat.lt_of_mul_lt_mul_right wide
  refine ⟨Nat.log2 n + 1023, q - 2 ^ 52, by omega, by omega, by omega, ?_, ?_⟩
  · have scale : max 1 (Nat.log2 (n * 2 ^ 1075 / 1) - 52) = Nat.log2 n + 1023 := by
      rw [Nat.div_one, log2Scaled some]
      omega
    unfold nearest
    dsimp only
    rw [scale, Nat.one_mul, roundExact (Nat.two_pow_pos _) whole]
    omega
  · rw [show q - 2 ^ 52 + 2 ^ 52 = q by omega, ← whole]

theorem signedExact {minus : Bool} {n : Nat} (h : Exact n) (small : n < 2 ^ 64) :
    finite (signed minus (nearest n 1)) = true ∧
      magnitude (signed minus (nearest n 1)) = n * 2 ^ 1075 ∧
      negative (signed minus (nearest n 1)) = minus := by
  by_cases zero : n = 0
  · subst zero
    cases minus <;> decide +kernel
  · obtain ⟨e, f, he, some, hf, bits, total⟩ := nearestParts h zero small
    obtain ⟨exp, frac, sign⟩ := @signedParts minus e f he hf
    rw [bits]
    refine ⟨?_, ?_, sign⟩
    · unfold finite
      rw [exp]
      exact decide_eq_true (by omega)
    · unfold magnitude
      rw [exp, frac, if_neg some, total]

theorem absParts (bits : UInt64) : finite (abs bits) = finite bits ∧
    magnitude (abs bits) = magnitude bits ∧ negative (abs bits) = false := by
  have cut : (abs bits).toNat = bits.toNat % 2 ^ 63 := by
    unfold abs
    rw [UInt64.toNat_and]
    exact Nat.and_two_pow_sub_one_eq_mod bits.toNat 63
  have exp : exponent (abs bits) = exponent bits := by
    unfold exponent
    rw [cut]
    omega
  have frac : fraction (abs bits) = fraction bits := by
    unfold fraction
    rw [cut]
    omega
  refine ⟨?_, ?_, ?_⟩
  · unfold finite
    rw [exp]
  · unfold magnitude
    rw [exp, frac]
  · unfold negative
    rw [cut]
    exact decide_eq_false (by omega)

theorem finiteReal {bits : UInt64} (h : finite bits = true) : nan bits = false := by
  unfold nan
  rw [h]
  rfl

theorem largestParts : nan (ofInt (2 ^ 63 - 1)) = false ∧
    value (ofInt (2 ^ 63 - 1)) = (2 ^ 63 * 2 ^ 1075 : Nat) := by decide +kernel

theorem absBelow {bits : UInt64} (h : finite bits = true) :
    lt (abs bits) (ofInt (2 ^ 63 - 1)) = decide (magnitude bits < 2 ^ 63 * 2 ^ 1075) := by
  obtain ⟨isFinite, size, sign⟩ := absParts bits
  obtain ⟨real, largest⟩ := largestParts
  unfold lt
  rw [finiteReal (isFinite.trans h), real, largest]
  unfold value
  rw [sign, size, if_neg Bool.false_ne_true]
  simp only [Bool.not_false, Bool.and_self, Bool.true_and, Int.ofNat_lt]

theorem toInt64Whole {bits : UInt64} (h : finite bits = true)
    (small : magnitude bits < 2 ^ 63 * 2 ^ 1075) :
    (toInt64 bits).toInt = if negative bits then -(trunc bits : Int) else trunc bits := by
  have bound : trunc bits < 2 ^ 63 := Nat.div_lt_of_lt_mul (by rwa [Nat.mul_comm])
  unfold toInt64
  rw [finiteReal h, h]
  simp only [Bool.false_eq_true, if_false, Bool.not_true]
  split
  · rw [if_neg (by omega), if_neg (by omega), Int64.toInt_ofInt_of_le (by omega) (by omega)]
  · rw [if_neg (by omega), if_neg (by omega), Int64.toInt_ofInt_of_le (by omega) (by omega)]

end Binary64
