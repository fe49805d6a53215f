import MyLsmDb.CompositeExact

/-! The three kinds of keys: each is read back as what it was made of, none is made of two
things, and no key of one kind is a key of another. -/
namespace MyLsmDb.Index
open ByteOrder (Bytes Delimited)
open LittleEndian
open Value (canonical encodeOrdered valueCmp valueCmpEq)

section Trip
variable {c c' f f' i i' : UInt32} {v v' : Value} {vals vals' : List Value} {e e' : Utf8}

theorem decodeIndexKeyBack (c f : UInt32) (v : Value) {e : Bytes} (short : e.length < 2 ^ 32) :
    decodeIndexKey (encodeIndexKey c f (encodeOrdered v) e) = some (c, f, e) := by
  have parts := indexKeyParts c f (encodeOrdered v) e
  have size : (indexFieldPrefix c f).length = 9 := by simp [indexFieldPrefix]
  have length : ¬ (encodeIndexKey c f (encodeOrdered v) e).length < 13 := by
    rw [parts]
    simp [size]
    omega
  have tagged : (encodeIndexKey c f (encodeOrdered v) e).head? = some indexTag := rfl
  have first : (encodeIndexKey c f (encodeOrdered v) e).drop 1 =
      le32 c ++ (le32 f ++ (encodeOrdered v ++ (leBytes 4 e.length ++ e))) := by
    simp [encodeIndexKey]
  have second : (encodeIndexKey c f (encodeOrdered v) e).drop 5 =
      le32 f ++ (encodeOrdered v ++ (leBytes 4 e.length ++ e)) := by
    rw [← List.drop_drop (i := 4) (j := 1), first, List.drop_left' (le32Length c)]
  have third : (encodeIndexKey c f (encodeOrdered v) e).drop 9 =
      encodeOrdered v ++ (leBytes 4 e.length ++ e) := by
    rw [parts, List.drop_left' size]
  rw [decodeIndexKey, if_neg (by rw [tagged]; simpa using length)]
  simp only [first, second, third, Value.orderedLenBack, ← List.drop_drop, List.drop_left,
    List.take_left' (le32Length _), readLe32Back, List.take_left' (leBytesLength 4 _),
    List.drop_left' (leBytesLength 4 _)]
  rw [if_neg (by simp), fromLeFits (by simpa using short), if_neg (lt_irrefl _), List.take_length]

theorem decodeIndexKeyValueBack (c f : UInt32) (v : Value) (short : e.bytes.length < 2 ^ 32) :
    decodeIndexKeyValue (encodeIndexKey c f (encodeOrdered v) e.bytes) =
      .ok (some (canonical v, e)) := by
  have size : (indexFieldPrefix c f).length = 9 := by simp [indexFieldPrefix]
  have valid : decodeEntityId e.bytes = .ok e := by
    rw [decodeEntityId, dif_pos e.valid]
    rfl
  rw [decodeIndexKeyValue, decodeIndexKeyBack c f v short, indexKeyParts]
  simp only [bind, Except.bind, List.drop_left' size, Value.orderedLenBack, List.take_left,
    Value.decodeOrderedBack, valid]
  rfl

theorem indexKeyInj : encodeIndexKey c f (encodeOrdered v) e.bytes =
      encodeIndexKey c' f' (encodeOrdered v') e'.bytes ↔
    c = c' ∧ f = f' ∧ valueCmp v v' = .eq ∧ e = e' := by
  constructor
  · intro same
    rw [indexKeyParts, indexKeyParts] at same
    obtain ⟨fields, rest⟩ := List.append_inj same (by simp [indexFieldPrefix])
    obtain ⟨rfl, rfl⟩ := fieldPrefixInj fields
    obtain ⟨values, rest⟩ := (Value.encodeOrderedDelimited v v').eq_of_append rest
    have ids := (List.append_inj rest (by simp)).2
    exact ⟨rfl, rfl, valueCmpEq.mpr values, utf8Same.mp ids⟩
  · intro h
    obtain ⟨rfl, rfl, values, rfl⟩ := h
    rw [valueCmpEq.mp values]

theorem compositePrefixInj (same : compositePrefix c i = compositePrefix c' i') :
    c = c' ∧ i = i' := by
  have rest := (List.cons.inj same).2
  obtain ⟨fronts, indexes⟩ := List.append_inj rest (by simp)
  exact ⟨le32Inj (List.append_inj fronts (by simp)).1, le32Inj indexes⟩

theorem encodedSame (same : List.Forall₂ (fun v v' => valueCmp v v' = .eq) vals vals') :
    vals.map encodeOrdered = vals'.map encodeOrdered := by
  induction same with
  | nil => rfl
  | cons first rest ih => rw [List.map_cons, List.map_cons, valueCmpEq.mp first, ih]

theorem compositeKeyInj (count : i = i' → vals.length = vals'.length) :
    encodeCompositeIndexKey c i (vals.map encodeOrdered) e.bytes =
        encodeCompositeIndexKey c' i' (vals'.map encodeOrdered) e'.bytes ↔
      c = c' ∧ i = i' ∧ List.Forall₂ (fun v v' => valueCmp v v' = .eq) vals vals' ∧ e = e' := by
  constructor
  · intro same
    rw [compositeKeyParts, compositeKeyParts] at same
    obtain ⟨fronts, rest⟩ := List.append_inj same (by simp [compositePrefix])
    obtain ⟨rfl, rfl⟩ := compositePrefixInj fronts
    obtain ⟨values, rest⟩ := componentsInj (count rfl) rest
    have ids := (List.append_inj rest (by simp)).2
    exact ⟨rfl, rfl, values, utf8Same.mp ids⟩
  · intro h
    obtain ⟨rfl, rfl, values, rfl⟩ := h
    rw [encodedSame values]

theorem entityKeyApart (c c' f f' i' : UInt32) (e : Bytes) (encoded id : Bytes)
    (comps : List Bytes) : encodeEntityKey c e f ≠ encodeIndexKey c' f' encoded id ∧
      encodeEntityKey c e f ≠ encodeCompositeIndexKey c' i' comps id := by
  have first : (encodeEntityKey c e f).head? = some entityTag := rfl
  have other : some entityTag ≠ some indexTag := by decide
  constructor
  · intro same
    rw [same] at first
    exact other first.symm
  · intro same
    rw [same] at first
    exact other first.symm

theorem indexKeyApart (marker : f ≠ compositeFieldMarker) (encoded id id' : Bytes)
    (comps : List Bytes) : encodeIndexKey c f encoded id ≠ encodeCompositeIndexKey c' i' comps id' := by
  intro same
  have parts : encodeCompositeIndexKey c' i' comps id' = indexFieldPrefix c' compositeFieldMarker ++
      (le32 i' ++ comps.flatten ++ leBytes 4 id'.length ++ id') := by
    simp [encodeCompositeIndexKey, compositePrefix, indexFieldPrefix]
  rw [indexKeyParts, parts] at same
  exact marker (fieldPrefixInj (List.append_inj same (by simp [indexFieldPrefix])).1).2

end Trip

def ReadBack (c f i : UInt32) (v : Value) (vals : List Value) (e : Utf8) : Prop :=
  decodeEntityKey (encodeEntityKey c e.bytes f) = some (c, e.bytes, f) ∧
    decodeIndexKey (encodeIndexKey c f (encodeOrdered v) e.bytes) = some (c, f, e.bytes) ∧
    decodeIndexKeyValue (encodeIndexKey c f (encodeOrdered v) e.bytes) =
      .ok (some (canonical v, e)) ∧
    decodeCompositeKeyValue (encodeCompositeIndexKey c i (vals.map encodeOrdered) e.bytes)
      vals.length = .ok (some (vals.map canonical, e))

theorem keysFaithful (c c' f f' i i' : UInt32) (v v' : Value) (vals vals' : List Value) (e e' : Utf8)
    (short : e.bytes.length < 2 ^ 32) (short' : e'.bytes.length < 2 ^ 32)
    (marker : f ≠ compositeFieldMarker) (count : i = i' → vals.length = vals'.length) :
    ReadBack c f i v vals e ∧
      (encodeEntityKey c e.bytes f = encodeEntityKey c' e'.bytes f' ↔ c = c' ∧ e = e' ∧ f = f') ∧
      (encodeIndexKey c f (encodeOrdered v) e.bytes = encodeIndexKey c' f' (encodeOrdered v') e'.bytes ↔
        c = c' ∧ f = f' ∧ valueCmp v v' = .eq ∧ e = e') ∧
      (encodeCompositeIndexKey c i (vals.map encodeOrdered) e.bytes =
          encodeCompositeIndexKey c' i' (vals'.map encodeOrdered) e'.bytes ↔
        c = c' ∧ i = i' ∧ List.Forall₂ (fun v v' => valueCmp v v' = .eq) vals vals' ∧ e = e') ∧
      encodeEntityKey c e.bytes f ≠ encodeIndexKey c' f' (encodeOrdered v') e'.bytes ∧
      encodeEntityKey c e.bytes f ≠
        encodeCompositeIndexKey c' i' (vals'.map encodeOrdered) e'.bytes ∧
      encodeIndexKey c f (encodeOrdered v) e.bytes ≠
        encodeCompositeIndexKey c' i' (vals'.map encodeOrdered) e'.bytes := by
  refine ⟨⟨decodeEncodeEntityKey c short f, decodeIndexKeyBack c f v short,
    decodeIndexKeyValueBack c f v short, decodeCompositeBack c i vals short⟩, ?_, indexKeyInj,
    compositeKeyInj count, (entityKeyApart c c' f f' i' _ _ _ []).1,
    (entityKeyApart c c' f f' i' _ [] _ _).2,
    indexKeyApart marker _ _ _ _⟩
  constructor
  · intro same
    obtain ⟨collections, ids, fields⟩ := encodeEntityKeyInj short short' same
    exact ⟨collections, utf8Same.mp ids, fields⟩
  · intro h
    obtain ⟨rfl, rfl, rfl⟩ := h
    rfl

theorem keysFaithfulPair :
    ReadBack 1 2 3 (.int 7) [.null, .float 0x7FF0000000000001] ⟨[97], by decide⟩ ∧
      encodeIndexKey 1 2 (encodeOrdered (.int 7)) [97] ≠
        encodeCompositeIndexKey 1 3 ([.null, .null].map encodeOrdered) [97] := by
  have all := keysFaithful 1 1 2 2 3 3 (.int 7) (.int 7) [.null, .float 0x7FF0000000000001]
    [.null, .null] ⟨[97], by decide⟩ ⟨[97], by decide⟩ (by decide) (by decide) (by decide)
    (fun _ => rfl)
  exact ⟨all.1, all.2.2.2.2.2.2⟩

end MyLsmDb.Index
