import MyLsmDb.LittleEndian
import MyLsmDb.OrderedEntries
import MyLsmDb.OrderedValue

/-! The keys under which fields of entities and entries of indexes are stored, and the ranges
that the scans over them use. -/
namespace MyLsmDb
open ByteOrder (Bytes Delimited delimitedOfLength prefixLe prefixConvex appendLtAppend appendLeAppend)
open Effect
open LittleEndian
open OrderedEntries

def entityTag : UInt8 := 0x45
def indexTag : UInt8 := 0x49

/-- In the place of the field id in the keys of a composite index. -/
def compositeFieldMarker : UInt32 := 0xFFFFFFFF

def le32 (n : UInt32) : Bytes := leBytes 4 n.toNat

def readLe32 (b : Bytes) : UInt32 := UInt32.ofNat (fromLe b)

def encodeIndexKey (collection field : UInt32) (encoded entity : Bytes) : Bytes :=
  indexTag :: (le32 collection ++ le32 field ++ encoded ++ leBytes 4 entity.length ++ entity)

def indexFieldPrefix (collection field : UInt32) : Bytes :=
  indexTag :: (le32 collection ++ le32 field)

def compositePrefix (collection index : UInt32) : Bytes :=
  indexTag :: (le32 collection ++ le32 compositeFieldMarker ++ le32 index)

def encodeCompositeIndexKey (collection index : UInt32) (components : List Bytes)
    (entity : Bytes) : Bytes :=
  compositePrefix collection index ++ components.flatten ++ leBytes 4 entity.length ++ entity

def collectionPrefix (collection : UInt32) : Bytes := entityTag :: le32 collection

def entityPrefix (collection : UInt32) (entity : Bytes) : Bytes :=
  entityTag :: (le32 collection ++ leBytes 4 entity.length ++ entity)

def encodeEntityKey (collection : UInt32) (entity : Bytes) (field : UInt32) : Bytes :=
  entityPrefix collection entity ++ le32 field

/-- Bytes behind the field id are passed over. -/
def decodeEntityKey (key : Bytes) : Option (UInt32 × Bytes × UInt32) :=
  if key.length < 13 ∨ key.head? ≠ some entityTag then none
  else
    let collection := readLe32 ((key.drop 1).take 4)
    let length := fromLe ((key.drop 5).take 4)
    if 9 + length + 4 > key.length then none
    else
      let rest := key.drop 9
      some (collection, rest.take length, readLe32 ((rest.drop length).take 4))

/-- The last byte that is not 0xFF is raised, and what follows it is cut off. -/
def successorLoop : Bytes → Option Bytes
  | [] => none
  | b :: rest => if b ≠ 0xFF then some ((b + 1) :: rest).reverse else successorLoop rest

def successor (start : Bytes) : Option Bytes := successorLoop start.reverse

def entityRange (collection : UInt32) (entity : Bytes) : Bytes × Option Bytes :=
  let start := entityPrefix collection entity
  (start, successor start)

section Successor

theorem firstByte {b : UInt8} {t : Bytes} (le : [b] ≤ t) : ∃ d t', t = d :: t' ∧ b ≤ d := by
  cases t with
  | nil => exact absurd (List.nil_lt_cons b []) (not_lt.mpr le)
  | cons d t' =>
    refine ⟨d, t', rfl, not_lt.mp (fun less => ?_)⟩
    exact absurd (List.cons_lt_cons_iff.mpr (.inl less)) (not_lt.mpr le)

theorem successorLoopBetween {r s : Bytes} (found : successorLoop r = some s) (key : Bytes) :
    (r.reverse ≤ key ∧ key < s) ↔ r.reverse <+: key := by
  induction r generalizing s with
  | nil => cases found
  | cons b r ih =>
    rw [List.reverse_cons]
    unfold successorLoop at found
    by_cases full : b = 0xFF
    · rw [if_neg (by simp [full])] at found
      constructor
      · intro inside
        have start : r.reverse ≤ key := (prefixLe (List.prefix_append _ _)).trans inside.1
        obtain ⟨t, rfl⟩ := (ih found).mp ⟨start, inside.2⟩
        obtain ⟨d, t', rfl, le⟩ := firstByte ((appendLeAppend _ _ _).mp inside.1)
        have same : d = b := by
          refine le_antisymm ?_ le
          rw [full, UInt8.le_iff_toNat_le]
          have := d.toNat_lt
          change d.toNat ≤ 255
          omega
        rw [same]
        exact ⟨t', by simp⟩
      · intro extends_
        exact ⟨prefixLe extends_, ((ih found).mpr ((List.prefix_append _ _).trans extends_)).2⟩
    · rw [if_pos full] at found
      obtain rfl := Option.some.inj found
      have next : b < b + 1 := by
        rw [UInt8.lt_iff_toNat_lt, UInt8.toNat_add]
        have small := b.toNat_lt
        have not : b.toNat ≠ 255 := fun same => full (UInt8.toNat_inj.mp same)
        change b.toNat < (b.toNat + 1) % 256
        omega
      rw [List.reverse_cons]
      constructor
      · intro inside
        have start : r.reverse <+: key :=
          prefixConvex (List.prefix_append _ _) (List.prefix_append _ _) inside.1 (le_of_lt inside.2)
        obtain ⟨t, rfl⟩ := start
        obtain ⟨d, t', rfl, le⟩ := firstByte ((appendLeAppend _ _ _).mp inside.1)
        have below := (appendLtAppend _ _ _).mp inside.2
        rcases List.cons_lt_cons_iff.mp below with less | ⟨-, none⟩
        · have same : d = b := by
            refine le_antisymm ?_ le
            rw [UInt8.lt_iff_toNat_lt, UInt8.toNat_add] at less
            rw [UInt8.le_iff_toNat_le]
            have := b.toNat_lt
            change d.toNat < (b.toNat + 1) % 256 at less
            omega
          rw [same]
          exact ⟨t', by simp⟩
        · exact absurd none (List.not_lt_nil t')
      · intro extends_
        refine ⟨prefixLe extends_, ?_⟩
        obtain ⟨t, rfl⟩ := extends_
        rw [List.append_assoc, appendLtAppend]
        exact List.cons_lt_cons_iff.mpr (.inl next)

theorem successorBetween {start s : Bytes} (found : successor start = some s) (key : Bytes) :
    between (some start) (some s) key ↔ start <+: key := by
  have := successorLoopBetween found key
  rw [List.reverse_reverse] at this
  simpa [between] using this

theorem successorLoopSome {r : Bytes} (low : ∃ b ∈ r, b ≠ 0xFF) : ∃ s, successorLoop r = some s := by
  induction r with
  | nil =>
    obtain ⟨b, mem, -⟩ := low
    cases mem
  | cons b r ih =>
    unfold successorLoop
    by_cases full : b = 0xFF
    · rw [if_neg (by simp [full])]
      obtain ⟨x, mem, not⟩ := low
      rcases List.mem_cons.mp mem with rfl | mem
      · exact absurd full not
      · exact ih ⟨x, mem, not⟩
    · exact ⟨_, if_pos full⟩

theorem successorSome {b : UInt8} (rest : Bytes) (low : b ≠ 0xFF) :
    ∃ s, successor (b :: rest) = some s :=
  successorLoopSome ⟨b, List.mem_reverse.mpr List.mem_cons_self, low⟩

end Successor

section Entities

@[simp] theorem le32Length (n : UInt32) : (le32 n).length = 4 := leBytesLength 4 _

@[simp] theorem readLe32Back (n : UInt32) : readLe32 (le32 n) = n := by
  rw [readLe32, le32, fromLeFits (by simpa using n.toNat_lt), UInt32.ofNat_toNat]

theorem le32Inj {a b : UInt32} (same : le32 a = le32 b) : a = b := by
  rw [← readLe32Back a, same, readLe32Back]

theorem shortLength {a b : Bytes} (ha : a.length < 2 ^ 32) (hb : b.length < 2 ^ 32)
    (same : leBytes 4 a.length = leBytes 4 b.length) : a.length = b.length := by
  rw [← fromLeFits (w := 4) (n := a.length) (by simpa using ha), same,
    fromLeFits (by simpa using hb)]

variable {c c' : UInt32} {e e' : Bytes}

theorem entityPrefixDelimited (short : e.length < 2 ^ 32) (short' : e'.length < 2 ^ 32) :
    Delimited (entityPrefix c e) (entityPrefix c' e') := by
  refine Delimited.cons (fun _ => ?_)
  rw [List.append_assoc, List.append_assoc]
  refine (delimitedOfLength (by simp)).append (fun _ => ?_)
  refine (delimitedOfLength (by simp)).append (fun same => ?_)
  exact delimitedOfLength (shortLength short short' same)

theorem entityPrefixInj (same : entityPrefix c e = entityPrefix c' e') : c = c' ∧ e = e' := by
  have rest := (List.cons.inj same).2
  rw [List.append_assoc, List.append_assoc] at rest
  obtain ⟨collections, rest⟩ := List.append_inj rest (by simp)
  exact ⟨le32Inj collections, (List.append_inj rest (by simp)).2⟩

theorem entityPrefixOf (short : e.length < 2 ^ 32) (short' : e'.length < 2 ^ 32) (f : UInt32) :
    entityPrefix c e <+: encodeEntityKey c' e' f ↔ c = c' ∧ e = e' := by
  rw [encodeEntityKey, (entityPrefixDelimited short short').prefix_iff]
  constructor
  · exact entityPrefixInj
  · intro same
    rw [same.1, same.2]

theorem encodeEntityKeyInj {f f' : UInt32} (short : e.length < 2 ^ 32) (short' : e'.length < 2 ^ 32)
    (same : encodeEntityKey c e f = encodeEntityKey c' e' f') : c = c' ∧ e = e' ∧ f = f' := by
  obtain ⟨front, fields⟩ := (entityPrefixDelimited short short').eq_of_append same
  obtain ⟨rfl, rfl⟩ := entityPrefixInj front
  exact ⟨rfl, rfl, le32Inj fields⟩

theorem decodeEncodeEntityKey (c : UInt32) (short : e.length < 2 ^ 32) (f : UInt32) :
    decodeEntityKey (encodeEntityKey c e f) = some (c, e, f) := by
  have whole : encodeEntityKey c e f =
      entityTag :: (le32 c ++ (leBytes 4 e.length ++ (e ++ le32 f))) := by
    simp [encodeEntityKey, entityPrefix]
  have first : (encodeEntityKey c e f).drop 1 = le32 c ++ (leBytes 4 e.length ++ (e ++ le32 f)) := by
    rw [whole]
    rfl
  have second : (encodeEntityKey c e f).drop 5 = leBytes 4 e.length ++ (e ++ le32 f) := by
    rw [← List.drop_drop (i := 4) (j := 1), first, List.drop_left' (le32Length c)]
  have third : (encodeEntityKey c e f).drop 9 = e ++ le32 f := by
    rw [← List.drop_drop (i := 4) (j := 5), second, List.drop_left' (leBytesLength 4 _)]
  have length : (encodeEntityKey c e f).length = 13 + e.length := by
    rw [whole]
    simp
    omega
  have number : fromLe (leBytes 4 e.length) = e.length := fromLeFits (by simpa using short)
  have tagged : (encodeEntityKey c e f).head? = some entityTag := by
    rw [whole]
    rfl
  rw [decodeEntityKey, if_neg (by rw [length, tagged]; simp)]
  simp only [first, second, third, List.take_left' (le32Length c),
    List.take_left' (leBytesLength 4 e.length), number, List.take_left, List.drop_left]
  rw [if_neg (by omega), List.take_of_length_le (by simp), readLe32Back, readLe32Back]

theorem entityRangeBetween (c : UInt32) (e key : Bytes) :
    between (some (entityRange c e).1) (entityRange c e).2 key ↔ entityPrefix c e <+: key := by
  obtain ⟨s, found⟩ := successorSome (b := entityTag) (le32 c ++ leBytes 4 e.length ++ e) (by decide)
  have range : (entityRange c e).2 = some s := found
  rw [range]
  exact successorBetween found key

end Entities
end MyLsmDb
