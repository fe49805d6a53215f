import MyLsmDb.OrderedValue

/-! What an index may rely on of the encoding of its values: it compares as they do with
anything behind it, alone or in tuples, tells its own length and can be read back. -/
namespace MyLsmDb.Value
open BigEndian
open ByteOrder (Bytes Delimited)

/-- Tuples compare by the first components that differ; of two, the longer is the greater. -/
def tupleCmp : List Value → List Value → Ordering
  | [], [] => .eq
  | [], _ :: _ => .lt
  | _ :: _, [] => .gt
  | a :: x, b :: y => (valueCmp a b).then (tupleCmp x y)

section Comparing

theorem cmpAppend {a b : Bytes} (h : Delimited a b) (x y : Bytes) :
    cmp (a ++ x) (b ++ y) = (cmp a b).then (cmp x y) := by
  obtain rfl | apart := h
  · rw [(cmpBytes a a).2.1.mpr rfl]
    exact cmpCongr (ByteOrder.appendLtAppend a x y) (ByteOrder.appendLtAppend a y x)
  · have same : cmp (a ++ x) (b ++ y) = cmp a b := cmpCongr (apart.lt_iff x y) (apart.symm.lt_iff y x)
    have differ : cmp a b ≠ .eq := fun e => apart.ne ((cmpBytes a b).2.1.mp e)
    rw [same]
    cases h : cmp a b with
    | eq => exact absurd h differ
    | _ => rfl

theorem encodeSuffixCmp (a b : Value) (x y : Bytes) :
    cmp (encodeOrdered a ++ x) (encodeOrdered b ++ y) = (valueCmp a b).then (cmp x y) := by
  rw [cmpAppend (encodeOrderedDelimited a b), encodeOrderedCmp]

theorem encodeSome (v : Value) : 0 < (encodeOrdered v).length := by
  cases v <;> simp [encodeOrdered]

theorem encodeTupleCmp (x y : List Value) :
    cmp (x.flatMap encodeOrdered) (y.flatMap encodeOrdered) = tupleCmp x y := by
  have positive : ∀ (v : Value) (l : List Value), [] < (v :: l).flatMap encodeOrdered := by
    intro v l
    rw [List.flatMap_cons]
    obtain ⟨b, rest, same⟩ := List.exists_cons_of_length_pos (encodeSome v)
    rw [same]
    exact List.nil_lt_cons _ _
  induction x generalizing y with
  | nil =>
    cases y with
    | nil => rfl
    | cons b y => exact cmpLess (positive b y)
  | cons a x ih =>
    cases y with
    | nil => exact cmpMore (positive a x) (List.not_lt_nil _)
    | cons b y => rw [List.flatMap_cons, List.flatMap_cons, encodeSuffixCmp, ih, tupleCmp]

end Comparing

section Reading

theorem numericLen {tag : UInt8} (number : tag = tagInt ∨ tag = tagFloat) (word : Nat)
    (rest : Bytes) : orderedValueLen (tag :: beBytes 8 word ++ rest) = .ok 9 := by
  have long : ¬ (beBytes 8 word ++ rest).length < 8 := by simp
  rw [List.cons_append, orderedValueLen]
  obtain rfl | rfl := number
  · rw [if_neg (by decide), if_neg (by decide), if_pos (by decide), if_neg long]
    rfl
  · rw [if_neg (by decide), if_neg (by decide), if_pos (by decide), if_neg long]
    rfl

theorem textLen {tag : UInt8} (text : tag = tagString ∨ tag = tagBytes) (data rest : Bytes) :
    orderedValueLen (tag :: escapeNullFree data ++ rest) =
      .ok (tag :: escapeNullFree data).length := by
  rw [List.cons_append, orderedValueLen]
  obtain rfl | rfl := text
  · rw [if_neg (by decide), if_neg (by decide), if_neg (by decide), if_pos (by decide),
      escapedLenBack]
    rfl
  · rw [if_neg (by decide), if_neg (by decide), if_neg (by decide), if_pos (by decide),
      escapedLenBack]
    rfl

theorem orderedLenBack (v : Value) (rest : Bytes) :
    orderedValueLen (encodeOrdered v ++ rest) = .ok (encodeOrdered v).length := by
  cases v with
  | null => rfl
  | bool b => rfl
  | int i =>
    rw [encodeOrdered, numericLen (.inl rfl), List.length_cons, beBytesLength]
  | float bits =>
    rw [encodeOrdered, numericLen (.inr rfl), List.length_cons, beBytesLength]
  | string s => exact textLen (.inl rfl) _ _
  | bytes b => exact textLen (.inr rfl) _ _

theorem wordBack (word : UInt64) : UInt64.ofNat (fromBe ((beBytes 8 word.toNat).take 8)) = word := by
  rw [List.take_of_length_le (by simp), fromBeFits (by simpa using word.toNat_lt),
    UInt64.ofNat_toNat]

theorem flipTwice (word : UInt64) :
    word ^^^ 0x8000000000000000 ^^^ 0x8000000000000000 = word := by
  rw [UInt64.xor_assoc, UInt64.xor_self, UInt64.xor_zero]

theorem topBit (word : UInt64) : word >>> 63 = 1 ↔ 2 ^ 63 ≤ word.toNat := by
  have small := word.toNat_lt
  have shifted : (word >>> 63).toNat = word.toNat / 2 ^ 63 := by
    rw [UInt64.toNat_shiftRight, Nat.shiftRight_eq_div_pow]
    rfl
  rw [← UInt64.toNat_inj, shifted]
  change word.toNat / 2 ^ 63 = 1 ↔ _
  omega

theorem orderedBitsNegative {bits : UInt64} (number : isNan bits = false) :
    orderedBits bits >>> 63 = 1 ↔ ¬ bits >>> 63 = 1 := by
  have small := bits.toNat_lt
  unfold orderedBits
  rw [number, if_neg (by simp)]
  by_cases negative : bits >>> 63 = 1
  · rw [if_pos negative, topBit, UInt64.toNat_not]
    rw [topBit] at negative ⊢
    change 2 ^ 63 ≤ 2 ^ 64 - 1 - bits.toNat ↔ _
    omega
  · have flip := signFlipped small
    rw [if_neg negative, topBit, UInt64.toNat_xor]
    rw [topBit] at negative ⊢
    change 2 ^ 63 ≤ bits.toNat ^^^ 2 ^ 63 ↔ _
    rw [flip, if_pos (by omega)]
    omega

def anyNan : UInt64 := 0x7FF8000000000000

/-- What a float is read back as: itself, but one NaN for all. -/
def canonical : Value → Value
  | float bits => if isNan bits then float anyNan else float bits
  | v => v

theorem canonicalFloat (bits : UInt64) :
    canonical (float bits) = if isNan bits then float anyNan else float bits := rfl

theorem decodeOrderedBack (v : Value) : decodeOrdered (encodeOrdered v) = .ok (canonical v) := by
  cases v with
  | null => rfl
  | bool b => cases b <;> rfl
  | int i =>
    have long : ¬ (beBytes 8 (i.toUInt64 ^^^ 0x8000000000000000).toNat).length < 8 := by simp
    rw [encodeOrdered, decodeOrdered.eq_def]
    dsimp only
    rw [if_neg (by decide), if_neg (by decide), if_pos rfl,
      if_neg long]
    rw [wordBack, flipTwice]
    rfl
  | float bits =>
    have long : ¬ (beBytes 8 (orderedBits bits).toNat).length < 8 := by simp
    rw [encodeOrdered, decodeOrdered.eq_def]
    dsimp only
    rw [if_neg (by decide), if_neg (by decide), if_neg (by decide),
      if_pos rfl, if_neg long]
    rw [wordBack]
    cases nan : isNan bits with
    | true =>
      have all : orderedBits bits = 0xFFFFFFFFFFFFFFFF := by
        rw [orderedBits, nan]
        rfl
      rw [if_pos all, canonicalFloat, nan]
      rfl
    | false =>
      have below := orderedBelow nan
      have notAll : orderedBits bits ≠ 0xFFFFFFFFFFFFFFFF := fun same =>
        absurd below (same ▸ lt_irrefl _)
      rw [if_neg notAll, canonicalFloat, nan]
      by_cases negative : bits >>> 63 = 1
      · have bitsOf : orderedBits bits = ~~~bits := by
          rw [orderedBits, nan, if_neg (by simp), if_pos negative]
        rw [if_neg (fun high => (orderedBitsNegative nan).mp high negative), bitsOf,
          UInt64.not_not]
        rfl
      · have bitsOf : orderedBits bits = bits ^^^ 0x8000000000000000 := by
          rw [orderedBits, nan, if_neg (by simp), if_neg negative]
        rw [if_pos ((orderedBitsNegative nan).mpr negative), bitsOf, flipTwice]
        rfl
  | string s =>
    rw [encodeOrdered, decodeOrdered.eq_def]
    dsimp only
    rw [if_neg (by decide), if_neg (by decide), if_neg (by decide),
      if_neg (by decide), if_pos rfl, unescapeBack]
    change (if valid : isUtf8 s.bytes then pure (string ⟨s.bytes, valid⟩)
      else invalidFormat "ordered string not utf8" : Fallible Value) = _
    rw [dif_pos s.valid]
    rfl
  | bytes b =>
    rw [encodeOrdered, decodeOrdered.eq_def]
    dsimp only
    rw [if_neg (by decide), if_neg (by decide), if_neg (by decide),
      if_neg (by decide), if_neg (by decide), if_pos rfl, unescapeBack]
    rfl

theorem canonicalSame (v : Value) : encodeOrdered (canonical v) = encodeOrdered v := by
  cases v with
  | float bits =>
    rw [canonicalFloat]
    cases nan : isNan bits with
    | true =>
      rw [if_pos rfl, encodeOrdered, encodeOrdered, orderedBits, orderedBits, nan]
      rfl
    | false => rfl
  | _ => rfl

end Reading

/-- The order, the tuples and the lengths of encodings, and what they are read back as. -/
theorem encodingOrders (a b : Value) :
    cmp (encodeOrdered a) (encodeOrdered b) = valueCmp a b ∧
      (encodeOrdered a = encodeOrdered b ↔ valueCmp a b = .eq) ∧
      (encodeOrdered a <+: encodeOrdered b → encodeOrdered a = encodeOrdered b) ∧
      (∀ x y, cmp (encodeOrdered a ++ x) (encodeOrdered b ++ y) = (valueCmp a b).then (cmp x y)) ∧
      (∀ x y, cmp (x.flatMap encodeOrdered) (y.flatMap encodeOrdered) = tupleCmp x y) ∧
      (∀ rest, orderedValueLen (encodeOrdered a ++ rest) = .ok (encodeOrdered a).length) ∧
      ∃ v, decodeOrdered (encodeOrdered a) = .ok v ∧ valueCmp v a = .eq ∧
        (v = a ∨ ∃ bits, a = float bits ∧ isNan bits ∧ v = float anyNan) := by
  refine ⟨encodeOrderedCmp a b, valueCmpEq.symm, ?_, encodeSuffixCmp a b, encodeTupleCmp,
    orderedLenBack a, canonical a, decodeOrderedBack a, valueCmpEq.mpr (canonicalSame a), ?_⟩
  · intro start
    have delimited := (encodeOrderedDelimited a b).prefix_iff []
    rw [List.append_nil] at delimited
    exact delimited.mp start
  · cases a with
    | float bits =>
      rw [canonicalFloat]
      cases nan : isNan bits with
      | true => exact .inr ⟨bits, rfl, nan, rfl⟩
      | false => exact .inl rfl
    | _ => exact .inl rfl

end MyLsmDb.Value
