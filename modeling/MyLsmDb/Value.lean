import MyLsmDb.Manifest
import MyLsmDb.LittleEndian

/-! The values of fields and their stored form: a tag for the type, then the payload. -/
namespace MyLsmDb
open ByteOrder (Bytes)
open LittleEndian
open Effect

/-- The bytes that may follow the first one of a character, as UTF-8 has them. -/
def following (a : UInt8) : Option (List (UInt8 × UInt8)) :=
  if a < 0x80 then some []
  else if a < 0xC2 then none
  else if a ≤ 0xDF then some [(0x80, 0xBF)]
  else if a = 0xE0 then some [(0xA0, 0xBF), (0x80, 0xBF)]
  else if a = 0xED then some [(0x80, 0x9F), (0x80, 0xBF)]
  else if a ≤ 0xEF then some [(0x80, 0xBF), (0x80, 0xBF)]
  else if a = 0xF0 then some [(0x90, 0xBF), (0x80, 0xBF), (0x80, 0xBF)]
  else if a ≤ 0xF3 then some [(0x80, 0xBF), (0x80, 0xBF), (0x80, 0xBF)]
  else if a = 0xF4 then some [(0x80, 0x8F), (0x80, 0xBF), (0x80, 0xBF)]
  else none

def utf8From : List (UInt8 × UInt8) → Bytes → Bool
  | [], [] => true
  | _ :: _, [] => false
  | [], a :: rest =>
    match following a with
    | none => false
    | some ranges => utf8From ranges rest
  | (lo, hi) :: ranges, b :: rest => decide (lo ≤ b ∧ b ≤ hi) && utf8From ranges rest

def isUtf8 (data : Bytes) : Bool := utf8From [] data

/-- A text by its bytes. -/
structure Utf8 where
  bytes : Bytes
  valid : isUtf8 bytes = true
  deriving DecidableEq

/-- The text of the bytes; the empty text where they are none. -/
def Utf8.ofBytes (data : Bytes) : Utf8 :=
  if valid : isUtf8 data = true then ⟨data, valid⟩ else ⟨[], rfl⟩

inductive Value where
  | null
  | bool (b : Bool)
  | int (i : Int64)
  | float (bits : UInt64)
  | string (s : Utf8)
  | bytes (b : Bytes)
  deriving DecidableEq

namespace Value

def isNan (bits : UInt64) : Bool := (bits &&& 0x7FFFFFFFFFFFFFFF) > 0x7FF0000000000000

/-- `==` of two floats: no NaN is equal to anything, the two zeros are equal. -/
def floatEq (a b : UInt64) : Bool :=
  !isNan a && !isNan b && (a = b || (a &&& 0x7FFFFFFFFFFFFFFF = 0 && b &&& 0x7FFFFFFFFFFFFFFF = 0))

def partialEq : Value → Value → Bool
  | float a, float b => floatEq a b
  | a, b => a = b

def tagNull : UInt8 := 0
def tagBool : UInt8 := 1
def tagInt : UInt8 := 2
def tagFloat : UInt8 := 3
def tagString : UInt8 := 4
def tagBytes : UInt8 := 5

def encode : Value → Bytes
  | null => [tagNull]
  | bool b => [tagBool, if b then 1 else 0]
  | int i => tagInt :: leBytes 8 i.toUInt64.toNat
  | float bits => tagFloat :: leBytes 8 bits.toNat
  | string s => tagString :: (leBytes 4 s.bytes.length ++ s.bytes)
  | bytes b => tagBytes :: (leBytes 4 b.length ++ b)

/-- The length that is announced and the bytes behind it. -/
def readLenPrefix (data : Bytes) : Fallible (Nat × Bytes) :=
  if data.length < 5 then invalidFormat "len-prefixed value too short"
  else pure (fromLe ((data.drop 1).take 4), data.drop 5)

def decode (data : Bytes) : Fallible Value :=
  match data with
  | [] => invalidFormat "empty value"
  | tag :: rest =>
    if tag = tagNull then pure null
    else if tag = tagBool then
      match rest with
      | [] => invalidFormat "bool value too short"
      | b :: _ => pure (bool (b ≠ 0))
    else if tag = tagInt then
      if data.length < 9 then invalidFormat "int value too short"
      else pure (int (UInt64.ofNat (fromLe (rest.take 8))).toInt64)
    else if tag = tagFloat then
      if data.length < 9 then invalidFormat "float value too short"
      else pure (float (UInt64.ofNat (fromLe (rest.take 8))))
    else if tag = tagString then do
      let (len, s) ← readLenPrefix data
      if s.length < len then invalidFormat "string too short"
      else if valid : isUtf8 (s.take len) then pure (string ⟨s.take len, valid⟩)
      else invalidFormat "invalid utf8 string"
    else if tag = tagBytes then do
      let (len, s) ← readLenPrefix data
      if s.length < len then invalidFormat "bytes too short" else pure (bytes (s.take len))
    else invalidFormat s!"unknown value tag {tag.toNat}"

/-- The length of the payload has room in its field. -/
def Small : Value → Prop
  | string s => s.bytes.length < 2 ^ 32
  | bytes b => b.length < 2 ^ 32
  | _ => True

theorem readLenPrefixed {tag : UInt8} {n : Nat} (small : n < 2 ^ 32) (rest : Bytes) :
    readLenPrefix (tag :: (leBytes 4 n ++ rest)) = .ok (n, rest) := by
  have long : ¬ (tag :: (leBytes 4 n ++ rest)).length < 5 := by simp
  rw [readLenPrefix, if_neg long, List.drop_one, List.tail_cons, List.drop_succ_cons,
    List.take_left' (leBytesLength 4 n), List.drop_left' (leBytesLength 4 n),
    fromLeFits (by simpa using small)]
  rfl

theorem decodeEncode {v : Value} (small : v.Small) : decode v.encode = .ok v := by
  cases v with
  | null => rfl
  | bool b => cases b <;> rfl
  | int i =>
    have whole : UInt64.ofNat (fromLe ((leBytes 8 i.toUInt64.toNat).take 8)) = i.toUInt64 := by
      rw [List.take_of_length_le (by simp), fromLeFits (by simpa using i.toUInt64.toNat_lt),
        UInt64.ofNat_toNat]
    have long : ¬ (tagInt :: leBytes 8 i.toUInt64.toNat).length < 9 := by simp
    change (if (tagInt :: leBytes 8 i.toUInt64.toNat).length < 9 then
      invalidFormat "int value too short" else
      pure (int (UInt64.ofNat (fromLe ((leBytes 8 i.toUInt64.toNat).take 8))).toInt64) :
        Fallible Value) = _
    rw [if_neg long, whole]
    rfl
  | float bits =>
    have whole : UInt64.ofNat (fromLe ((leBytes 8 bits.toNat).take 8)) = bits := by
      rw [List.take_of_length_le (by simp), fromLeFits (by simpa using bits.toNat_lt),
        UInt64.ofNat_toNat]
    have long : ¬ (tagFloat :: leBytes 8 bits.toNat).length < 9 := by simp
    change (if (tagFloat :: leBytes 8 bits.toNat).length < 9 then
      invalidFormat "float value too short" else
      pure (float (UInt64.ofNat (fromLe ((leBytes 8 bits.toNat).take 8)))) : Fallible Value) = _
    rw [if_neg long, whole]
    rfl
  | string s =>
    change (do
      let (len, s) ← readLenPrefix (tagString :: (leBytes 4 s.bytes.length ++ s.bytes))
      if s.length < len then invalidFormat "string too short"
      else if valid : isUtf8 (s.take len) then pure (string ⟨s.take len, valid⟩)
      else invalidFormat "invalid utf8 string" : Fallible Value) = _
    have whole : s.bytes.take s.bytes.length = s.bytes := List.take_length
    have valid : isUtf8 (s.bytes.take s.bytes.length) = true := whole.symm ▸ s.valid
    rw [readLenPrefixed small]
    change (if s.bytes.length < s.bytes.length then invalidFormat "string too short"
      else if valid : isUtf8 (s.bytes.take s.bytes.length) then
        pure (string ⟨s.bytes.take s.bytes.length, valid⟩)
      else invalidFormat "invalid utf8 string" : Fallible Value) = _
    rw [if_neg (lt_irrefl _), dif_pos valid]
    simp only [whole]
    rfl
  | bytes b =>
    change (do
      let (len, s) ← readLenPrefix (tagBytes :: (leBytes 4 b.length ++ b))
      if s.length < len then invalidFormat "bytes too short"
      else pure (bytes (s.take len)) : Fallible Value) = _
    rw [readLenPrefixed small]
    change (if b.length < b.length then invalidFormat "bytes too short"
      else pure (bytes (b.take b.length)) : Fallible Value) = _
    rw [if_neg (lt_irrefl _), List.take_length]
    rfl

end Value
end MyLsmDb
