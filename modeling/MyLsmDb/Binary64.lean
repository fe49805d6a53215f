import Mathlib.Data.Nat.Log
import Mathlib.Data.UInt

/-! Floats of 64 bits by their bit patterns. A finite float is a multiple of 2^-1075, so its
distance from zero is a natural number of such units. -/
namespace Binary64

def exponent (bits : UInt64) : Nat := bits.toNat / 2 ^ 52 % 2048

def fraction (bits : UInt64) : Nat := bits.toNat % 2 ^ 52

def negative (bits : UInt64) : Bool := 2 ^ 63 ≤ bits.toNat

def finite (bits : UInt64) : Bool := exponent bits ≠ 2047

def nan (bits : UInt64) : Bool := !finite bits && fraction bits ≠ 0

/-- The distance from zero in units of 2^-1075. -/
def magnitude (bits : UInt64) : Nat :=
  if exponent bits = 0 then 2 * fraction bits else (fraction bits + 2 ^ 52) * 2 ^ exponent bits

def whole (bits : UInt64) : Bool := finite bits && magnitude bits % 2 ^ 1075 = 0

/-- `x >= 0.0`; the negative zero is not below zero. -/
def nonnegative (bits : UInt64) : Bool :=
  !nan bits && (!negative bits || (finite bits && magnitude bits = 0))

def trunc (bits : UInt64) : Nat := magnitude bits / 2 ^ 1075

/-- `x as usize`, which saturates. -/
def toUsize (bits : UInt64) : Nat :=
  if nan bits || negative bits then 0
  else if !finite bits then 2 ^ 64 - 1
  else min (trunc bits) (2 ^ 64 - 1)

/-- `num / den` as an integer; a tie goes to the even neighbour. -/
def roundEven (num den : Nat) : Nat :=
  let q := num / den
  let r := num % den
  if 2 * r < den ∨ (2 * r = den ∧ q % 2 = 0) then q else q + 1

/- The bits of the float nearest to `num / den`. The units of a float with the biased exponent
`e` are 2^(e - 1075), and there are fewer than 2^53 of them; a carry goes over into the
exponent. What is too large is the infinity. -/
def nearest (num den : Nat) : Nat :=
  let e := max 1 (Nat.log2 (num * 2 ^ 1075 / den) - 52)
  min ((e - 1) * 2 ^ 52 + roundEven (num * 2 ^ 1075) (den * 2 ^ e)) (2047 * 2 ^ 52)

theorem wholeZero : whole 0 = true := by decide +kernel

theorem nonnegativeZero : nonnegative 0 = true := by decide +kernel

theorem toUsizeZero : toUsize 0 = 0 := by decide +kernel

theorem fractionSmall (bits : UInt64) : fraction bits < 2 ^ 52 := Nat.mod_lt _ (by decide)

/- An odd number of 64 bits does not fit into the fraction of a float. -/
theorem oddTooLong {m e u : Nat} (short : m < 2 ^ 53) : m * 2 ^ e ≠ (2 ^ 64 - 1) * 2 ^ u := by
  intro same
  rcases Nat.le_total e u with below | above
  · obtain ⟨d, rfl⟩ := Nat.exists_eq_add_of_le below
    rw [Nat.pow_add, Nat.mul_comm (2 ^ e), ← Nat.mul_assoc] at same
    have cut := Nat.eq_of_mul_eq_mul_right (Nat.two_pow_pos e) same
    have one : 1 ≤ 2 ^ d := Nat.one_le_two_pow
    have large : (2 ^ 64 - 1) * 1 ≤ (2 ^ 64 - 1) * 2 ^ d := Nat.mul_le_mul_left _ one
    omega
  · obtain ⟨d, rfl⟩ := Nat.exists_eq_add_of_le above
    rw [Nat.pow_add, Nat.mul_comm (2 ^ u), ← Nat.mul_assoc] at same
    have cut := Nat.eq_of_mul_eq_mul_right (Nat.two_pow_pos u) same
    cases d with
    | zero => omega
    | succ d =>
      rw [Nat.pow_succ, ← Nat.mul_assoc] at cut
      omega

theorem fractionShort (bits : UInt64) :
    fraction bits < 2 ^ 53 ∧ fraction bits + 2 ^ 52 < 2 ^ 53 := by
  have small := fractionSmall bits
  omega

theorem magnitudeOther {bits : UInt64} {u : Nat} : magnitude bits ≠ (2 ^ 64 - 1) * 2 ^ u := by
  intro total
  obtain ⟨low, high⟩ := fractionShort bits
  unfold magnitude at total
  split at total
  · have half : fraction bits * 2 ^ 1 = (2 ^ 64 - 1) * 2 ^ u := by
      rw [Nat.pow_one, Nat.mul_comm]
      exact total
    exact oddTooLong low half
  · exact oddTooLong high total

theorem truncOther {bits : UInt64} (h : whole bits = true) : trunc bits ≠ 2 ^ 64 - 1 := by
  intro same
  have rest : magnitude bits % 2 ^ 1075 = 0 := of_decide_eq_true (Bool.and_eq_true_iff.mp h).2
  have total : magnitude bits = trunc bits * 2 ^ 1075 :=
    (Nat.div_mul_cancel (Nat.dvd_of_mod_eq_zero rest)).symm
  rw [same] at total
  exact magnitudeOther total

theorem toUsizeTrunc {bits : UInt64} (h : whole bits = true) (up : nonnegative bits = true) :
    toUsize bits = min (trunc bits) (2 ^ 64 - 1) := by
  have isFinite : finite bits = true := (Bool.and_eq_true_iff.mp h).1
  unfold nonnegative nan at up
  unfold toUsize nan
  rw [isFinite] at up ⊢
  cases sign : negative bits with
  | false => rfl
  | true =>
    rw [sign] at up
    have zero : magnitude bits = 0 := of_decide_eq_true up
    unfold trunc
    rw [zero, Nat.zero_div]
    rfl

/-- The value in units of 2^-1075. -/
def value (bits : UInt64) : Int := if negative bits then -magnitude bits else magnitude bits

/- `a + b`. A NaN that comes in goes out as a quiet one; the one for infinities that cancel is
that of x86. -/
def add (a b : UInt64) : UInt64 :=
  if nan a then a ||| 0x0008000000000000
  else if nan b then b ||| 0x0008000000000000
  else if !finite a then
    if !finite b && negative a ≠ negative b then 0xFFF8000000000000 else a
  else if !finite b then b
  else
    let sum := value a + value b
    if sum = 0 then if negative a && negative b then 0x8000000000000000 else 0
    else UInt64.ofNat ((if sum < 0 then 2 ^ 63 else 0) + nearest sum.natAbs (2 ^ 1075))

def signed (minus : Bool) (bits : Nat) : UInt64 := UInt64.ofNat ((if minus then 2 ^ 63 else 0) + bits)

def ofInt (i : Int) : UInt64 := signed (i < 0) (nearest i.natAbs 1)

def abs (bits : UInt64) : UInt64 := bits &&& 0x7FFFFFFFFFFFFFFF

/-- `a / b`; the NaN that comes of two zeros or two infinities is that of x86. -/
def div (a b : UInt64) : UInt64 :=
  let minus := negative a != negative b
  if nan a then a ||| 0x0008000000000000
  else if nan b then b ||| 0x0008000000000000
  else if !finite a then if !finite b then 0xFFF8000000000000 else signed minus (2047 * 2 ^ 52)
  else if !finite b then signed minus 0
  else if magnitude b = 0 then
    if magnitude a = 0 then 0xFFF8000000000000 else signed minus (2047 * 2 ^ 52)
  else signed minus (nearest (magnitude a) (magnitude b))

def lt (a b : UInt64) : Bool := !nan a && !nan b && value a < value b

def fmin (a b : UInt64) : UInt64 := if nan a then b else if lt b a then b else a

def fmax (a b : UInt64) : UInt64 := if nan a then b else if lt a b then b else a

/-- `x as i64`, which cuts towards zero and saturates. -/
def toInt64 (bits : UInt64) : Int64 :=
  if nan bits then 0
  else if !finite bits then if negative bits then Int64.minValue else Int64.maxValue
  else
    let cut : Int := if negative bits then -trunc bits else trunc bits
    if cut < -2 ^ 63 then Int64.minValue
    else if 2 ^ 63 ≤ cut then Int64.maxValue
    else Int64.ofInt cut

def digit (b : UInt8) : Bool := 48 ≤ b && b ≤ 57

def digitsValue (digits : List UInt8) : Nat := digits.foldl (fun n b => 10 * n + (b.toNat - 48)) 0

/- `str::parse::<f64>` of an optional minus sign, digits, and a point with digits behind it;
the forms with an exponent and the names of the infinities are not among them. -/
def fromStr (text : List UInt8) : Option UInt64 :=
  let negated := text.head? = some 45
  let body := if negated then text.tail else text
  let int := body.takeWhile digit
  let rest := body.dropWhile digit
  let sign := if negated then 2 ^ 63 else 0
  match rest with
  | [] => if int = [] then none else some (UInt64.ofNat (sign + nearest (digitsValue int) 1))
  | point :: frac =>
    if point = 46 ∧ frac.all digit ∧ (int ≠ [] ∨ frac ≠ []) then
      some (UInt64.ofNat (sign + nearest (digitsValue (int ++ frac)) (10 ^ frac.length)))
    else none

example : fromStr [45, 49, 46, 53] = some 0xBFF8000000000000 := by decide +kernel

end Binary64
