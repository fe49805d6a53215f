import MyLsmDb.BigEndian
import MyLsmDb.Value

/-! The total order of values, and their encoding in index keys: the bytes of two encodings
compare as the values do, whatever follows them. -/
namespace MyLsmDb
open BigEndian
open ByteOrder (Bytes Delimited Diverges)
open Effect

namespace Value

/-- A float as a number of the same order; NaN is the greatest. -/
def orderedBits (bits : UInt64) : UInt64 :=
  if isNan bits then 0xFFFFFFFFFFFFFFFF
  else if bits >>> 63 = 1 then ~~~bits
  else bits ^^^ 0x8000000000000000

def floatKey (bits : UInt64) : Nat × UInt64 := if isNan bits then (2, 0) else (0, orderedBits bits)

def typeRank : Value → Nat
  | null => 0
  | bool _ => 1
  | int _ => 2
  | float _ => 3
  | string _ => 4
  | bytes _ => 5

def valueCmp : Value → Value → Ordering
  | null, null => .eq
  | bool x, bool y => cmp x y
  | int x, int y => cmp x.toInt y.toInt
  | float x, float y =>
    (cmp (floatKey x).1 (floatKey y).1).then (cmp (floatKey x).2.toNat (floatKey y).2.toNat)
  | string x, string y => cmp x.bytes y.bytes
  | bytes x, bytes y => cmp x y
  | a, b => cmp (typeRank a) (typeRank b)

/-- No zero byte but in front of a 1, and two zeros behind. -/
def escapeNullFree (data : Bytes) : Bytes :=
  data.flatMap (fun b => if b = 0 then [0, 1] else [b]) ++ [0, 0]

def encodeOrdered : Value → Bytes
  | null => [tagNull]
  | bool b => [tagBool, if b then 1 else 0]
  | int i => tagInt :: beBytes 8 (i.toUInt64 ^^^ 0x8000000000000000).toNat
  | float bits => tagFloat :: beBytes 8 (orderedBits bits).toNat
  | string s => tagString :: escapeNullFree s.bytes
  | bytes b => tagBytes :: escapeNullFree b

def escapedLen : Bytes → Fallible Nat
  | [] => invalidFormat "missing terminator"
  | [b] => if b = 0 then invalidFormat "truncated terminator" else escapedLen []
  | b :: c :: rest =>
    if b = 0 then
      if c = 0 then pure 2
      else if c = 1 then do return (← escapedLen rest) + 2
      else invalidFormat "invalid escape"
    else do return (← escapedLen (c :: rest)) + 1

def orderedValueLen : Bytes → Fallible Nat
  | [] => invalidFormat "empty ordered value"
  | tag :: rest =>
    if tag = tagNull then pure 1
    else if tag = tagBool then
      if rest = [] then invalidFormat "bool ordered too short" else pure 2
    else if tag = tagInt ∨ tag = tagFloat then
      if rest.length < 8 then invalidFormat "numeric ordered too short" else pure 9
    else if tag = tagString ∨ tag = tagBytes then do return (← escapedLen rest) + 1
    else invalidFormat s!"unknown ordered tag {tag.toNat}"

def unescapeNullFree : Bytes → Fallible Bytes
  | [] => invalidFormat "missing terminator"
  | [b] => if b = 0 then invalidFormat "truncated terminator" else unescapeNullFree []
  | b :: c :: rest =>
    if b = 0 then
      if c = 0 then if rest = [] then pure [] else invalidFormat "trailing bytes after terminator"
      else if c = 1 then do return 0 :: (← unescapeNullFree rest)
      else invalidFormat "invalid escape"
    else do return b :: (← unescapeNullFree (c :: rest))

def decodeOrdered : Bytes → Fallible Value
  | [] => invalidFormat "empty ordered value"
  | tag :: payload =>
    if tag = tagNull then pure null
    else if tag = tagBool then
      match payload with
      | [] => invalidFormat "bool ordered too short"
      | b :: _ => pure (bool (b ≠ 0))
    else if tag = tagInt then
      if payload.length < 8 then invalidFormat "int ordered too short"
      else
        let bits := UInt64.ofNat (fromBe (payload.take 8))
        pure (int (bits ^^^ 0x8000000000000000).toInt64)
    else if tag = tagFloat then
      if payload.length < 8 then invalidFormat "float ordered too short"
      else
        let bits := UInt64.ofNat (fromBe (payload.take 8))
        if bits = 0xFFFFFFFFFFFFFFFF then pure (float 0x7FF8000000000000)
        else if bits >>> 63 = 1 then pure (float (bits ^^^ 0x8000000000000000))
        else pure (float (~~~bits))
    else if tag = tagString then do
      let raw ← unescapeNullFree payload
      if valid : isUtf8 raw then pure (string ⟨raw, valid⟩)
      else invalidFormat "ordered string not utf8"
    else if tag = tagBytes then do return bytes (← unescapeNullFree payload)
    else invalidFormat s!"unknown ordered tag {tag.toNat}"

section Comparing

theorem cmpCongr {α β : Type} [LT α] [DecidableLT α] [LT β] [DecidableLT β] {a b : α} {x y : β}
    (lt : a < b ↔ x < y) (gt : b < a ↔ y < x) : cmp a b = cmp x y := by
  unfold cmp cmpUsing
  simp only [lt, gt]

variable {α : Type} [LT α] [DecidableLT α]

theorem cmpLess {a b : α} (less : a < b) : cmp a b = .lt := by
  unfold cmp cmpUsing
  rw [if_pos less]

theorem cmpMore {a b : α} (more : b < a) (not : ¬ a < b) : cmp a b = .gt := by
  unfold cmp cmpUsing
  rw [if_neg not, if_pos more]

theorem cmpCons {a b : UInt8} {x y : Bytes} :
    cmp (a :: x) (b :: y) = if a = b then cmp x y else cmp a b := by
  by_cases same : a = b
  · subst same
    rw [if_pos rfl]
    apply cmpCongr
    · simp
    · simp
  · rw [if_neg same]
    apply cmpCongr
    · simp [List.cons_lt_cons_iff, same]
    · simp [List.cons_lt_cons_iff, Ne.symm same]

end Comparing

section Escaping

theorem escapeCons (b : UInt8) (data : Bytes) :
    escapeNullFree (b :: data) = (if b = 0 then [0, 1] else [b]) ++ escapeNullFree data := by
  rw [escapeNullFree, List.flatMap_cons, List.append_assoc, escapeNullFree]

theorem byteAboveZero {b : UInt8} (some_ : b ≠ 0) : 0 < b := by
  rw [UInt8.lt_iff_toNat_lt]
  have positive : b.toNat ≠ 0 := fun zero => some_ (UInt8.toNat_inj.mp zero)
  exact Nat.pos_of_ne_zero positive

theorem escapeCmp (x y : Bytes) : cmp (escapeNullFree x) (escapeNullFree y) = cmp x y := by
  induction x generalizing y with
  | nil =>
    cases y with
    | nil => rfl
    | cons b y =>
      rw [escapeCons, cmpLess (List.nil_lt_cons b y)]
      apply cmpLess
      by_cases zero : b = 0
      · simp [zero, escapeNullFree, List.cons_lt_cons_iff]
      · simp [zero, escapeNullFree, List.cons_lt_cons_iff, byteAboveZero zero]
  | cons a x ih =>
    cases y with
    | nil =>
      have more : escapeNullFree [] < escapeNullFree (a :: x) := by
        rw [escapeCons]
        by_cases zero : a = 0
        · simp [zero, escapeNullFree, List.cons_lt_cons_iff]
        · simp [zero, escapeNullFree, List.cons_lt_cons_iff, byteAboveZero zero]
      rw [cmpMore more (lt_asymm more), cmpMore (List.nil_lt_cons a x) (List.not_lt_nil _)]
    | cons b y =>
      rw [escapeCons, escapeCons, cmpCons]
      by_cases same : a = b
      · subst same
        rw [if_pos rfl, ← ih]
        exact cmpCongr (ByteOrder.appendLtAppend _ _ _) (ByteOrder.appendLtAppend _ _ _)
      · rw [if_neg same]
        by_cases zeroA : a = 0
        · subst zeroA
          rw [if_pos rfl, if_neg (Ne.symm same)]
          change cmp (0 :: 1 :: escapeNullFree x) (b :: escapeNullFree y) = _
          rw [cmpCons, if_neg same]
        · by_cases zeroB : b = 0
          · subst zeroB
            rw [if_neg zeroA, if_pos rfl]
            change cmp (a :: escapeNullFree x) (0 :: 1 :: escapeNullFree y) = _
            rw [cmpCons, if_neg same]
          · rw [if_neg zeroA, if_neg zeroB, List.singleton_append, List.singleton_append, cmpCons,
              if_neg same]

theorem escapeDelimited (x y : Bytes) : Delimited (escapeNullFree x) (escapeNullFree y) := by
  have zeroOne : ∀ a b : Bytes, Delimited (0 :: 0 :: a) (0 :: 1 :: b) := fun a b =>
    .cons (fun _ => .cons (fun absurd_ => nomatch absurd_))
  induction x generalizing y with
  | nil =>
    cases y with
    | nil => exact .inl rfl
    | cons b y =>
      rw [escapeCons]
      by_cases zero : b = 0
      · rw [if_pos zero]
        exact zeroOne _ _
      · rw [if_neg zero]
        exact .cons (fun same => absurd same.symm zero)
  | cons a x ih =>
    cases y with
    | nil =>
      rw [escapeCons]
      by_cases zero : a = 0
      · rw [if_pos zero]
        exact (zeroOne _ _).symm
      · rw [if_neg zero]
        exact .cons (fun same => absurd same zero)
    | cons b y =>
      rw [escapeCons, escapeCons]
      by_cases same : a = b
      · subst same
        exact .append (.inl rfl) (fun _ => ih y)
      · by_cases zeroA : a = 0
        · rw [if_pos zeroA, if_neg (fun zeroB => same (zeroA.trans zeroB.symm))]
          exact .cons (fun equal => absurd (zeroA.trans equal) same)
        · rw [if_neg zeroA]
          by_cases zeroB : b = 0
          · rw [if_pos zeroB]
            exact .cons (fun equal => absurd equal zeroA)
          · rw [if_neg zeroB]
            exact .cons (fun equal => absurd equal same)

theorem escapedLenBack (data rest : Bytes) :
    escapedLen (escapeNullFree data ++ rest) = .ok (escapeNullFree data).length := by
  induction data with
  | nil => rfl
  | cons b data ih =>
    rw [escapeCons, List.append_assoc]
    by_cases zero : b = 0
    · rw [if_pos zero]
      change (do return (← escapedLen (escapeNullFree data ++ rest)) + 2 : Fallible Nat) = _
      rw [ih, List.length_append, Nat.add_comm]
      rfl
    · rw [if_neg zero]
      obtain ⟨c, l, eq⟩ : ∃ c l, escapeNullFree data ++ rest = c :: l := by
        cases data with
        | nil => exact ⟨_, _, rfl⟩
        | cons d data =>
          rw [escapeCons]
          split <;> exact ⟨_, _, rfl⟩
      rw [List.singleton_append, eq, escapedLen, if_neg zero, ← eq, ih,
        List.length_append, Nat.add_comm]
      rfl

theorem unescapeBack (data : Bytes) : unescapeNullFree (escapeNullFree data) = .ok data := by
  induction data with
  | nil => rfl
  | cons b data ih =>
    rw [escapeCons]
    by_cases zero : b = 0
    · rw [if_pos zero]
      change (do return 0 :: (← unescapeNullFree (escapeNullFree data)) : Fallible Bytes) = _
      rw [ih, zero]
      rfl
    · rw [if_neg zero]
      obtain ⟨c, l, eq⟩ : ∃ c l, escapeNullFree data = c :: l := by
        cases data with
        | nil => exact ⟨_, _, rfl⟩
        | cons d data =>
          rw [escapeCons]
          split <;> exact ⟨_, _, rfl⟩
      rw [List.singleton_append, eq, unescapeNullFree, if_neg zero, ← eq, ih]
      rfl

end Escaping

section Numbers

/-- The sign bit of a two's complement number turned over: an offset. -/
theorem signFlipped {n : Nat} (small : n < 2 ^ 64) :
    n ^^^ 2 ^ 63 = if n < 2 ^ 63 then n + 2 ^ 63 else n - 2 ^ 63 := by
  have high : (n ^^^ 2 ^ 63) / 2 ^ 63 = n / 2 ^ 63 ^^^ 1 := by
    rw [Nat.xor_div_two_pow]
    rfl
  have low : (n ^^^ 2 ^ 63) % 2 ^ 63 = n % 2 ^ 63 := by
    rw [Nat.xor_mod_two_pow]
    simp
  have whole := Nat.div_add_mod (n ^^^ 2 ^ 63) (2 ^ 63)
  rw [high, low] at whole
  rw [← whole]
  by_cases positive : n < 2 ^ 63
  · rw [Nat.div_eq_of_lt positive, if_pos positive]
    simp
    omega
  · have one : n / 2 ^ 63 = 1 := by omega
    rw [one, if_neg positive]
    simp
    omega

theorem intOffset (i : Int64) :
    ((i.toUInt64 ^^^ 0x8000000000000000).toNat : Int) = i.toInt + 2 ^ 63 := by
  have flip := signFlipped i.toUInt64.toNat_lt
  have signed : i.toInt = if 2 * i.toUInt64.toNat < 2 ^ 64 then (i.toUInt64.toNat : Int)
      else i.toUInt64.toNat - 2 ^ 64 := BitVec.toInt_eq_toNat_cond i.toBitVec
  rw [UInt64.toNat_xor]
  change ((i.toUInt64.toNat ^^^ 2 ^ 63 : Nat) : Int) = _
  rw [flip, signed]
  by_cases positive : i.toUInt64.toNat < 2 ^ 63
  · rw [if_pos positive, if_pos (by omega)]
    push_cast
    rfl
  · rw [if_neg positive, if_neg (by omega)]
    omega

theorem beWordCmp (x y : UInt64) :
    cmp (beBytes 8 x.toNat) (beBytes 8 y.toNat) = cmp x.toNat y.toNat := by
  have hx : x.toNat < 256 ^ 8 := by simpa using x.toNat_lt
  have hy : y.toNat < 256 ^ 8 := by simpa using y.toNat_lt
  exact cmpCongr (beBytesLt hx hy) (beBytesLt hy hx)

theorem orderedBelow {bits : UInt64} (number : isNan bits = false) :
    (orderedBits bits).toNat < (0xFFFFFFFFFFFFFFFF : UInt64).toNat := by
  have other : orderedBits bits ≠ 0xFFFFFFFFFFFFFFFF := by
    unfold orderedBits
    rw [number, if_neg (by simp)]
    split
    · rename_i negative
      intro all
      have zero : bits = 0 := by
        have twice := congrArg (~~~ ·) all
        rw [UInt64.not_not] at twice
        exact twice
      subst zero
      exact absurd negative (by decide)
    · intro all
      have top : bits = 0x7FFFFFFFFFFFFFFF := by
        have twice := congrArg (· ^^^ (0x8000000000000000 : UInt64)) all
        rw [UInt64.xor_assoc, UInt64.xor_self, UInt64.xor_zero] at twice
        exact twice
      subst top
      exact absurd number (by decide)
  have le : (orderedBits bits).toNat < 2 ^ 64 := (orderedBits bits).toNat_lt
  have apart : (orderedBits bits).toNat ≠ (0xFFFFFFFFFFFFFFFF : UInt64).toNat := fun same =>
    other (UInt64.toNat_inj.mp same)
  have last : (0xFFFFFFFFFFFFFFFF : UInt64).toNat = 2 ^ 64 - 1 := rfl
  omega

theorem floatCmp (x y : UInt64) : valueCmp (float x) (float y) =
    cmp (orderedBits x).toNat (orderedBits y).toNat := by
  have nan : ∀ {bits}, isNan bits = true → orderedBits bits = 0xFFFFFFFFFFFFFFFF := by
    intro bits is
    rw [orderedBits, is]
    rfl
  change (cmp (floatKey x).1 (floatKey y).1).then
    (cmp (floatKey x).2.toNat (floatKey y).2.toNat) = _
  unfold floatKey
  cases hx : isNan x with
  | true =>
    cases hy : isNan y with
    | true =>
      rw [nan hx, nan hy]
      rfl
    | false =>
      rw [nan hx, cmpMore (orderedBelow hy) (lt_asymm (orderedBelow hy))]
      rfl
  | false =>
    cases hy : isNan y with
    | true =>
      rw [nan hy, cmpLess (orderedBelow hx)]
      rfl
    | false => rfl

end Numbers

section Order

theorem encodeOrderedCmp (a b : Value) : cmp (encodeOrdered a) (encodeOrdered b) = valueCmp a b := by
  have tags : ∀ {s t : UInt8} {x y : Bytes}, s ≠ t → cmp (s :: x) (t :: y) = cmp s t := by
    intro s t x y differ
    rw [cmpCons, if_neg differ]
  cases a with
  | null => cases b <;> rfl
  | bool x => cases b <;> first | exact tags (by decide) | (cases x <;> rename_i y <;> cases y <;> rfl)
  | int x =>
    cases b with
    | int y =>
      have hx := intOffset x
      have hy := intOffset y
      rw [encodeOrdered, encodeOrdered, cmpCons, if_pos rfl, beWordCmp, valueCmp]
      exact cmpCongr (by omega) (by omega)
    | _ => exact tags (by decide)
  | float x =>
    cases b with
    | float y => rw [encodeOrdered, encodeOrdered, cmpCons, if_pos rfl, beWordCmp, floatCmp]
    | _ => exact tags (by decide)
  | string x =>
    cases b with
    | string y => rw [encodeOrdered, encodeOrdered, cmpCons, if_pos rfl, escapeCmp, valueCmp]
    | _ => exact tags (by decide)
  | bytes x =>
    cases b with
    | bytes y => rw [encodeOrdered, encodeOrdered, cmpCons, if_pos rfl, escapeCmp, valueCmp]
    | _ => exact tags (by decide)

theorem encodeOrderedDelimited (a b : Value) : Delimited (encodeOrdered a) (encodeOrdered b) := by
  have tags : ∀ {s t : UInt8} {x y : Bytes}, s ≠ t → Delimited (s :: x) (t :: y) :=
    fun differ => .cons (fun same => absurd same differ)
  cases a with
  | null => cases b <;> first | exact .inl rfl | exact tags (by decide)
  | bool x =>
    cases b <;> first | exact tags (by decide) | exact .cons (fun _ => ByteOrder.delimitedOfLength rfl)
  | int x => cases b <;> first | exact tags (by decide) | exact .cons (fun _ => beBytesDelimited _ _ _)
  | float x =>
    cases b <;> first | exact tags (by decide) | exact .cons (fun _ => beBytesDelimited _ _ _)
  | string x =>
    cases b <;> first | exact tags (by decide) | exact .cons (fun _ => escapeDelimited _ _)
  | bytes x =>
    cases b <;> first | exact tags (by decide) | exact .cons (fun _ => escapeDelimited _ _)

theorem cmpBytes (a b : Bytes) : (cmp a b = .lt ↔ a < b) ∧ (cmp a b = .eq ↔ a = b) ∧
    (cmp a b = .gt ↔ b < a) := by
  rcases lt_trichotomy a b with less | same | more
  · have not : a ≠ b := fun same => absurd (same ▸ less) (lt_irrefl _)
    simp [cmpLess less, less, not, lt_asymm less]
  · subst same
    have equal : cmp a a = .eq := by
      unfold cmp cmpUsing
      rw [if_neg (lt_irrefl a), if_neg (lt_irrefl a)]
    simp [equal]
  · have not : a ≠ b := fun same => absurd (same ▸ more) (lt_irrefl _)
    simp [cmpMore more (lt_asymm more), more, not, lt_asymm more]

theorem valueCmpLt {a b : Value} : valueCmp a b = .lt ↔ encodeOrdered a < encodeOrdered b := by
  rw [← encodeOrderedCmp]
  exact (cmpBytes _ _).1

theorem valueCmpEq {a b : Value} : valueCmp a b = .eq ↔ encodeOrdered a = encodeOrdered b := by
  rw [← encodeOrderedCmp]
  exact (cmpBytes _ _).2.1

theorem valueCmpGt {a b : Value} : valueCmp a b = .gt ↔ encodeOrdered b < encodeOrdered a := by
  rw [← encodeOrderedCmp]
  exact (cmpBytes _ _).2.2

end Order

end Value
end MyLsmDb
