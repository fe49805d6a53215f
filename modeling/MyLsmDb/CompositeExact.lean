import MyLsmDb.ReadPaths

/-! What a lookup through a composite index finds, and which lists of bounds it is meant for. -/
namespace MyLsmDb.Index
open ByteOrder (Bytes Delimited prefixLe prefixConvex appendLtAppend appendLeAppend)
open LittleEndian
open OrderedEntries
open Text
open Value (encodeOrdered valueCmp valueCmpEq)

def findComposite (v : ReadView) (schema : Schema) (c : UInt32) (fields : List Chars)
    (leading : List Leading) : Fallible (List Utf8) :=
  let fieldIds := fields.filterMap (schema.lookupFieldId c)
  if fieldIds.length ≠ fields.length then invalidArgument "unknown composite field"
  else match schema.findIndexByFields c fieldIds with
    | none => invalidArgument "no composite index on fields"
    | some d => findCompositeM v schema c d.id fieldIds.length leading

section Ranges

def Equality (l : Leading) : Prop :=
  ∃ v w, l.2 = (.inclusive v, .inclusive w) ∧ valueCmp v w = .eq

def Inside : List Value → List Leading → Prop
  | _, [] => True
  | [], _ :: _ => False
  | w :: ws, (_, lower, upper) :: rest => within w lower upper ∧ Inside ws rest

def startBehind (pre : Bytes) : Bound → Bytes
  | .unbounded => pre
  | .inclusive v => pre ++ v.encodeOrdered
  | .exclusive v => pre ++ (successor v.encodeOrdered).getD []

def stopBehind (pre : Bytes) : Bound → Bytes
  | .unbounded => (successor pre).getD pre
  | .inclusive v => pre ++ (successor v.encodeOrdered).getD []
  | .exclusive v => pre ++ v.encodeOrdered

def Bounded (pre : Bytes) : Prop := ∃ s, successor pre = some s

theorem Bounded.append {pre : Bytes} (_ : Bounded pre) (v : Value) :
    Bounded (pre ++ encodeOrdered v) := by
  obtain ⟨s, found⟩ := encodeSuccessor v
  exact ⟨pre ++ s, successorAppend found pre⟩

variable {pre : Bytes}

theorem lastPrefixed (h : Bounded pre) {lower upper : Bound} {key : Bytes}
    (inside : between (some (startBehind pre lower)) (some (stopBehind pre upper)) key) :
    pre <+: key := by
  have start : pre <+: startBehind pre lower := by
    cases lower with
    | unbounded => exact List.prefix_rfl
    | inclusive v => exact List.prefix_append _ _
    | exclusive v => exact List.prefix_append _ _
  simp only [between, Option.all_some, Bool.and_eq_true, decide_eq_true_eq] at inside
  obtain ⟨above, below⟩ := inside
  cases upper with
  | unbounded =>
    obtain ⟨s, found⟩ := h
    simp only [stopBehind, found, Option.getD_some] at below
    obtain less | whole := (belowSuccessor found key).mp below
    · exact absurd ((prefixLe start).trans above) (not_le.mpr less)
    · exact whole
  | inclusive v => exact prefixConvex start (List.prefix_append _ _) above (le_of_lt below)
  | exclusive v => exact prefixConvex start (List.prefix_append _ _) above (le_of_lt below)

theorem lastWithin (h : Bounded pre) (lower upper : Bound) (w : Value) (rest : Bytes) :
    between (some (startBehind pre lower)) (some (stopBehind pre upper))
      (pre ++ (encodeOrdered w ++ rest)) ↔ within w lower upper := by
  have low : startBehind pre lower ≤ pre ++ (encodeOrdered w ++ rest) ↔
      within w lower .unbounded := by
    cases lower with
    | unbounded => simp [startBehind, within, prefixLe (List.prefix_append _ _)]
    | inclusive v =>
      simp only [startBehind, appendLeAppend, (encodedCmp w v rest).1, within]
      simp
    | exclusive v =>
      obtain ⟨s, found⟩ := encodeSuccessor v
      have cmp := encodedCmp w v rest
      simp only [startBehind, found, Option.getD_some, appendLeAppend]
      rw [← not_lt, belowSuccessor found, cmp.2.1, cmp.2.2, within]
      cases valueCmp w v <;> simp
  have high : pre ++ (encodeOrdered w ++ rest) < stopBehind pre upper ↔
      within w .unbounded upper := by
    cases upper with
    | unbounded =>
      obtain ⟨s, found⟩ := h
      have below := (belowSuccessor found (pre ++ (encodeOrdered w ++ rest))).mpr
        (.inr (List.prefix_append _ _))
      simp [stopBehind, found, below, within]
    | inclusive v =>
      obtain ⟨s, found⟩ := encodeSuccessor v
      have cmp := encodedCmp w v rest
      simp only [stopBehind, found, Option.getD_some, appendLtAppend]
      rw [belowSuccessor found, cmp.2.1, cmp.2.2, within]
      cases valueCmp w v <;> simp
    | exclusive v =>
      simp only [stopBehind, appendLtAppend, (encodedCmp w v rest).2.1, within]
      simp
  have both : within w lower upper = (within w lower .unbounded && within w .unbounded upper) := by
    simp [within]
  rw [both, Bool.and_eq_true, ← low, ← high]
  simp [between]

theorem prefixBounded (c index : UInt32) : Bounded (compositePrefix c index) :=
  successorSome _ (by decide)

def rangeBehind (pre : Bytes) (leading : List Leading) : Bytes × Option Bytes :=
  match equalityPrefix pre leading with
  | none => (pre, successor pre)
  | some eq => match leading.getLast? with
    | none => (eq, some ((successor pre).getD pre))
    | some (_, lower, upper) => (startBehind eq lower, some (stopBehind eq upper))

theorem rangeIs (c index : UInt32) (leading : List Leading) :
    compositeIndexRange c index leading = rangeBehind (compositePrefix c index) leading := by
  unfold compositeIndexRange rangeBehind
  cases h : equalityPrefix (compositePrefix c index) leading with
  | none => simp only [h]
  | some eq =>
    cases last : leading.getLast? with
    | none => simp only [h]
    | some l =>
      obtain ⟨idx, lower, upper⟩ := l
      simp only [h]
      cases lower with
      | unbounded => cases upper <;> rfl
      | inclusive v => cases upper <;> rfl
      | exclusive v => cases upper <;> rfl

theorem equalityPrefixed {leading : List Leading} {eq : Bytes}
    (h : equalityPrefix pre leading = some eq) : pre <+: eq ∧ (Bounded pre → Bounded eq) := by
  induction leading generalizing pre with
  | nil =>
    cases h
    exact ⟨List.prefix_rfl, id⟩
  | cons l rest ih =>
    cases rest with
    | nil =>
      cases h
      exact ⟨List.prefix_rfl, id⟩
    | cons l' rest =>
      obtain ⟨idx, lower, upper⟩ := l
      cases lower with
      | unbounded => cases h
      | exclusive v => cases h
      | inclusive v =>
        obtain ⟨longer, bounded⟩ := ih h
        exact ⟨(List.prefix_append _ _).trans longer, fun b => bounded (b.append v)⟩

theorem rangePrefixed (bounded : Bounded pre) {leading : List Leading} {key : Bytes}
    (inside : between (some (rangeBehind pre leading).1) (rangeBehind pre leading).2 key) :
    pre <+: key := by
  unfold rangeBehind at inside
  cases h : equalityPrefix pre leading with
  | none =>
    obtain ⟨s, found⟩ := bounded
    rw [h] at inside
    simp only [found] at inside
    exact (successorBetween found key).mp inside
  | some eq =>
    obtain ⟨longer, bounds⟩ := equalityPrefixed h
    rw [h] at inside
    cases last : leading.getLast? with
    | none =>
      have none : leading = [] := List.getLast?_eq_none_iff.mp last
      subst none
      cases h
      have open_ : between (some (startBehind pre .unbounded)) (some (stopBehind pre .unbounded)) key = true := inside
      exact lastPrefixed bounded open_
    | some l =>
      simp only [last] at inside
      exact longer.trans (lastPrefixed (bounds bounded) inside)

theorem equalityWithin {l : Leading} (h : Equality l) {w : Value} :
    ∃ v, l.2.1 = .inclusive v ∧ (within w l.2.1 l.2.2 ↔ encodeOrdered v = encodeOrdered w) := by
  obtain ⟨v, v', bounds, same⟩ := h
  refine ⟨v, by rw [bounds], ?_⟩
  have encodings := valueCmpEq.mp same
  have cmp : valueCmp w v' = valueCmp w v := by
    rw [← Value.encodeOrderedCmp, ← Value.encodeOrderedCmp, encodings]
  have flip : encodeOrdered v = encodeOrdered w ↔ valueCmp w v = .eq := by
    rw [eq_comm, valueCmpEq]
  rw [bounds, flip, within, cmp]
  cases valueCmp w v <;> simp

theorem equalitySome {leading : List Leading} (equal : ∀ l ∈ leading.dropLast, Equality l) :
    ∃ eq, equalityPrefix pre leading = some eq := by
  induction leading generalizing pre with
  | nil => exact ⟨pre, rfl⟩
  | cons l rest ih =>
    cases rest with
    | nil => exact ⟨pre, rfl⟩
    | cons l' rest =>
      obtain ⟨v, v', bounds, -⟩ := equal l List.mem_cons_self
      obtain ⟨idx, lower, upper⟩ := l
      cases bounds
      exact ih (fun l m => equal l (List.mem_cons_of_mem _ m))

theorem rangeInside (bounded : Bounded pre) {leading : List Leading}
    (equal : ∀ l ∈ leading.dropLast, Equality l) {vals : List Value}
    (enough : leading.length ≤ vals.length) (rest : Bytes) :
    between (some (rangeBehind pre leading).1) (rangeBehind pre leading).2
      (pre ++ (vals.flatMap encodeOrdered ++ rest)) ↔ Inside vals leading := by
  induction leading generalizing pre vals with
  | nil =>
    obtain ⟨s, found⟩ := bounded
    have all := (successorBetween found (pre ++ (vals.flatMap encodeOrdered ++ rest))).mpr
      (List.prefix_append _ _)
    simp [rangeBehind, equalityPrefix, found, all, Inside]
  | cons l others ih =>
    obtain ⟨idx, lower, upper⟩ := l
    cases vals with
    | nil => simp at enough
    | cons w vals =>
      rw [List.flatMap_cons, List.append_assoc]
      cases others with
      | nil =>
        have last := lastWithin bounded lower upper w (vals.flatMap encodeOrdered ++ rest)
        simpa [rangeBehind, equalityPrefix, Inside] using last
      | cons l' others =>
        have first : Equality (idx, lower, upper) := equal _ List.mem_cons_self
        have later : ∀ l ∈ (l' :: others).dropLast, Equality l :=
          fun l m => equal l (List.mem_cons_of_mem _ m)
        obtain ⟨v, is, inside⟩ := equalityWithin first (w := w)
        have is : lower = .inclusive v := is
        subst is
        have step : rangeBehind pre ((idx, .inclusive v, upper) :: l' :: others) =
            rangeBehind (pre ++ encodeOrdered v) (l' :: others) := by
          obtain ⟨eq, found⟩ := equalitySome later
          have found' : equalityPrefix pre ((idx, .inclusive v, upper) :: l' :: others) =
            some eq := found
          rw [rangeBehind, rangeBehind, found, found', List.getLast?_cons_cons]
          cases h : (l' :: others).getLast? with
          | none => cases List.getLast?_eq_none_iff.mp h
          | some l => rfl
        rw [step, Inside]
        have more := ih (bounded.append v) later (by simpa using enough)
        have moved (same : encodeOrdered v = encodeOrdered w) :
            pre ++ (encodeOrdered w ++ (vals.flatMap encodeOrdered ++ rest)) =
              (pre ++ encodeOrdered v) ++ (vals.flatMap encodeOrdered ++ rest) := by
          rw [same, List.append_assoc]
        constructor
        · intro h
          have start := rangePrefixed (bounded.append v) h
          rw [List.prefix_append_right_inj, (encodedCmp w v _).2.2, valueCmpEq] at start
          rw [moved start.symm] at h
          exact ⟨inside.mpr start.symm, more.mp h⟩
        · intro h
          rw [moved (inside.mp h.1)]
          exact more.mpr h.2

end Ranges

section Keys

theorem readComponentsBack (vals : List Value) (rest : Bytes) :
    readComponents vals.length (vals.flatMap encodeOrdered ++ rest) =
      .ok (vals.map Value.canonical, rest) := by
  induction vals with
  | nil => rfl
  | cons v vals ih =>
    rw [List.flatMap_cons, List.append_assoc, List.length_cons, readComponents,
      Value.orderedLenBack]
    simp only [bind, Except.bind, List.take_left, List.drop_left, Value.decodeOrderedBack, ih]
    rfl

theorem compositeKeyParts (c index : UInt32) (vals : List Value) (e : Bytes) :
    encodeCompositeIndexKey c index (vals.map encodeOrdered) e =
      compositePrefix c index ++
        (vals.flatMap encodeOrdered ++ (leBytes 4 e.length ++ e)) := by
  simp [encodeCompositeIndexKey, List.flatMap_def]

theorem decodeCompositeBack (c index : UInt32) (vals : List Value) {e : Utf8}
    (short : e.bytes.length < 2 ^ 32) :
    decodeCompositeKeyValue (encodeCompositeIndexKey c index (vals.map encodeOrdered) e.bytes)
      vals.length = .ok (some (vals.map Value.canonical, e)) := by
  have parts := compositeKeyParts c index vals e.bytes
  have size : (compositePrefix c index).length = 13 := by simp [compositePrefix]
  have length : ¬ (encodeCompositeIndexKey c index (vals.map encodeOrdered) e.bytes).length < 17 := by
    rw [parts]
    simp [size]
    omega
  have tagged : (encodeCompositeIndexKey c index (vals.map encodeOrdered) e.bytes).head? =
      some indexTag := by
    rw [parts]
    rfl
  have marked : readLe32 (((encodeCompositeIndexKey c index (vals.map encodeOrdered)
      e.bytes).drop 5).take 4) = compositeFieldMarker := by
    have front : compositePrefix c index =
        (indexTag :: le32 c) ++ (le32 compositeFieldMarker ++ le32 index) := by
      simp [compositePrefix]
    rw [parts, front, List.append_assoc, List.drop_left' (by simp), List.append_assoc,
      List.take_left' (le32Length _), readLe32Back]
  have valid : decodeEntityId e.bytes = .ok e := by
    rw [decodeEntityId, dif_pos e.valid]
    rfl
  rw [decodeCompositeKeyValue, if_neg (by rw [tagged]; simpa using length),
    if_neg (by rw [marked]; simp), parts, List.drop_left' size]
  simp only [bind, Except.bind, readComponentsBack]
  rw [if_neg (by simp), List.take_left' (leBytesLength 4 _), fromLeFits (by simpa using short),
    List.drop_left' (leBytesLength 4 _), if_neg (by simp), List.take_length, valid]
  rfl

end Keys

section Finding
variable (rows : List Rec) (c : UInt32) (fids : List UInt32) (leading : List Leading)

def Holds (id : Utf8) (f : UInt32) (value : Value) : Prop :=
  fieldValue (.ofRows rows) c id.bytes f = .ok (some value)

/-- The entity has a value within the bounds at each position that is listed. -/
def Satisfies (id : Utf8) : Prop := ∀ l ∈ leading, ∃ f value, fids[l.1]? = some f ∧
  Holds rows c id f value ∧ within value l.2.1 l.2.2

/-- The list binds the first components, all but the last of them to one value. -/
def Listed : Prop := leading.map Prod.fst = List.range leading.length ∧
  leading.length ≤ fids.length ∧ ∀ l ∈ leading.dropLast, Equality l

/-- An index whose entries are complete; there may be more of them than entities, and deleted ones. -/
structure Indexed (d : IndexDef) : Prop where
  readable : ∀ id : Utf8, ∀ f ∈ d.fieldIds, ∃ found,
    fieldValue (.ofRows rows) c id.bytes f = .ok found
  entries : ∀ r ∈ rows, compositePrefix c d.id <+: r.1 → ∃ (vals : List Value) (id : Utf8),
    vals.length = d.fieldIds.length ∧ id.bytes.length < 2 ^ 32 ∧
      r.1 = encodeCompositeIndexKey c d.id (vals.map encodeOrdered) id.bytes
  complete : ∀ (id : Utf8) vals, List.Forall₂ (Holds rows c id) d.fieldIds vals →
    ∃ stored, (encodeCompositeIndexKey c d.id (vals.map encodeOrdered) id.bytes, some stored) ∈ rows

/-- What a lookup owes: the ids of the entities that have all components and lie in the bounds, each
once, or a refusal of a list that is not made for the index. -/
structure Exact (result : Fallible (List Utf8)) : Prop where
  found : Listed fids leading → ∃ ids, result = .ok ids ∧ ids.Nodup ∧
    ∀ id, id ∈ ids ↔ (∀ f ∈ fids, ∃ value, Holds rows c id f value) ∧
      Satisfies rows c fids leading id
  refused : ¬ Listed fids leading → ∃ what, result = .error (.error (.invalidArgument what))

/-- No entry within the bounds is left of an entity that still lies within them without having all
components. -/
def NoneStale (d : IndexDef) : Prop := ∀ r ∈ rows, ∀ (vals : List Value) (id : Utf8),
  vals.length = d.fieldIds.length →
  r.1 = encodeCompositeIndexKey c d.id (vals.map encodeOrdered) id.bytes → Inside vals leading →
  Satisfies rows c d.fieldIds leading id → ∀ f ∈ d.fieldIds, ∃ value, Holds rows c id f value

variable {rows c fids leading}

theorem satisfiesCons {l : Leading} {id : Utf8} : Satisfies rows c fids (l :: leading) id ↔
    (∃ f value, fids[l.1]? = some f ∧ Holds rows c id f value ∧ within value l.2.1 l.2.2) ∧
      Satisfies rows c fids leading id := List.forall_mem_cons

theorem verifiedRun {id : Utf8}
    (readable : ∀ f ∈ fids, ∃ found, fieldValue (.ofRows rows) c id.bytes f = .ok found) :
    ((∃ l ∈ leading, fids[l.1]? = none) ∧
      verified (.ofRows rows) c fids id.bytes leading = .error .panic) ∨
    ∃ b, verified (.ofRows rows) c fids id.bytes leading = .ok b ∧
      (b = true ↔ Satisfies rows c fids leading id) := by
  induction leading with
  | nil => exact .inr ⟨true, rfl, by simp [Satisfies]⟩
  | cons l others ih =>
    obtain ⟨idx, lower, upper⟩ := l
    cases hf : fids[idx]? with
    | none =>
      refine .inl ⟨⟨_, List.mem_cons_self, hf⟩, ?_⟩
      rw [verified, hf]
      rfl
    | some f =>
      obtain ⟨found, read⟩ := readable f (List.mem_of_getElem? hf)
      have rest : ∀ x, verified (.ofRows rows) c fids id.bytes others = x →
          verified (.ofRows rows) c fids id.bytes ((idx, lower, upper) :: others) =
            match found with
            | none => .ok false
            | some actual => if within actual lower upper then x else .ok false := by
        intro x same
        rw [verified, hf]
        simp only [read, bind, Except.bind, same]
        cases found with
        | none => rfl
        | some actual => rfl
      cases found with
      | none =>
        refine .inr ⟨false, rest _ rfl, ?_⟩
        rw [satisfiesCons]
        constructor
        · intro h
          cases h
        · intro h
          obtain ⟨⟨f', value, hf', holds, -⟩, -⟩ := h
          cases hf.symm.trans hf'
          cases read.symm.trans holds
      | some actual =>
        by_cases here : within actual lower upper
        · have step := rest _ rfl
          simp only [if_pos here] at step
          have both : Satisfies rows c fids ((idx, lower, upper) :: others) id ↔
              Satisfies rows c fids others id := by
            rw [satisfiesCons]
            exact and_iff_right ⟨f, actual, hf, read, here⟩
          cases ih with
          | inl h =>
            obtain ⟨⟨l, m, out⟩, stops⟩ := h
            exact .inl ⟨⟨l, List.mem_cons_of_mem _ m, out⟩, step.trans stops⟩
          | inr h =>
            obtain ⟨b, run, exact_⟩ := h
            exact .inr ⟨b, step.trans run, exact_.trans both.symm⟩
        · have step := rest _ rfl
          simp only [if_neg here] at step
          refine .inr ⟨false, step, ?_⟩
          rw [satisfiesCons]
          constructor
          · intro h
            cases h
          · intro h
            obtain ⟨⟨f', value, hf', holds, inside⟩, -⟩ := h
            cases hf.symm.trans hf'
            cases read.symm.trans holds
            exact absurd inside here

theorem loopRun {n : Nat} {keys : List Rec} {seen : List Utf8}
    (readable : ∀ id : Utf8, ∀ f ∈ fids, ∃ found,
      fieldValue (.ofRows rows) c id.bytes f = .ok found)
    (decodes : ∀ r ∈ keys, ∃ comps id, decodeCompositeKeyValue r.1 n = .ok (some (comps, id))) :
    ((∃ l ∈ leading, fids[l.1]? = none) ∧
      findCompositeLoop (.ofRows rows) c fids n leading seen keys = .error .panic) ∨
    ∃ ids, findCompositeLoop (.ofRows rows) c fids n leading seen keys = .ok ids ∧ ids.Nodup ∧
      ∀ id, id ∈ ids ↔ id ∉ seen ∧ Satisfies rows c fids leading id ∧
        ∃ r ∈ keys, ∃ comps, decodeCompositeKeyValue r.1 n = .ok (some (comps, id)) := by
  induction keys generalizing seen with
  | nil => exact .inr ⟨[], rfl, List.nodup_nil, by simp⟩
  | cons r keys ih =>
    obtain ⟨key, value⟩ := r
    obtain ⟨comps, eid, decoded⟩ := decodes _ List.mem_cons_self
    have rest := fun r m => decodes r (List.mem_cons_of_mem _ m)
    have among : ∀ id, (∃ r ∈ (key, value) :: keys, ∃ comps,
        decodeCompositeKeyValue r.1 n = .ok (some (comps, id))) ↔
        id = eid ∨ ∃ r ∈ keys, ∃ comps, decodeCompositeKeyValue r.1 n = .ok (some (comps, id)) := by
      intro id
      rw [List.exists_mem_cons_iff]
      refine or_congr ?_ Iff.rfl
      constructor
      · intro h
        obtain ⟨comps', same⟩ := h
        cases decoded.symm.trans same
        rfl
      · intro same
        exact ⟨comps, same ▸ decoded⟩
    have step : findCompositeLoop (.ofRows rows) c fids n leading seen ((key, value) :: keys) =
        (verified (.ofRows rows) c fids eid.bytes leading >>= fun ok =>
          if ok then
            if eid ∈ seen then findCompositeLoop (.ofRows rows) c fids n leading seen keys
            else do return eid :: (← findCompositeLoop (.ofRows rows) c fids n leading
              (eid :: seen) keys)
          else findCompositeLoop (.ofRows rows) c fids n leading seen keys) := by
      rw [findCompositeLoop]
      simp only [decoded, bind, Except.bind]
    rw [step]
    obtain ⟨out, stops⟩ | ⟨b, run, exact_⟩ := verifiedRun (readable eid)
    · exact .inl ⟨out, by rw [stops]; rfl⟩
    rw [run]
    cases b with
    | false =>
      have fails : ¬ Satisfies rows c fids leading eid := fun h => by cases exact_.mpr h
      obtain ⟨out, stops⟩ | ⟨ids, run, nodup, members⟩ := ih rest
      · exact .inl ⟨out, stops⟩
      · refine .inr ⟨ids, run, nodup, fun id => ?_⟩
        rw [members, among]
        constructor
        · exact fun h => ⟨h.1, h.2.1, .inr h.2.2⟩
        · intro h
          obtain ⟨new, good, same | later⟩ := h
          · exact absurd (same ▸ good) fails
          · exact ⟨new, good, later⟩
    | true =>
      have good : Satisfies rows c fids leading eid := exact_.mp rfl
      by_cases old : eid ∈ seen
      · obtain ⟨out, stops⟩ | ⟨ids, run, nodup, members⟩ := ih rest
        · exact .inl ⟨out, by simpa [bind, Except.bind, old] using stops⟩
        · refine .inr ⟨ids, by simpa [bind, Except.bind, old] using run, nodup, fun id => ?_⟩
          rw [members, among]
          constructor
          · exact fun h => ⟨h.1, h.2.1, .inr h.2.2⟩
          · intro h
            obtain ⟨new, good, same | later⟩ := h
            · exact absurd (same ▸ old) new
            · exact ⟨new, good, later⟩
      · obtain ⟨out, stops⟩ | ⟨ids, run, nodup, members⟩ := @ih (eid :: seen) rest
        · exact .inl ⟨out, by simp [bind, Except.bind, old, stops]⟩
        · refine .inr ⟨eid :: ids, by simp [bind, Except.bind, old, run, pure, Except.pure], ?_,
            fun id => ?_⟩
          · refine List.nodup_cons.mpr ⟨fun m => ?_, nodup⟩
            exact ((members eid).mp m).1 List.mem_cons_self
          · rw [List.mem_cons, members, among, List.mem_cons]
            constructor
            · intro h
              obtain same | ⟨new, good', later⟩ := h
              · exact ⟨same ▸ old, same ▸ good, .inl same⟩
              · exact ⟨fun m => new (.inr m), good', .inr later⟩
            · intro h
              obtain ⟨new, good', same | later⟩ := h
              · exact .inl same
              · by_cases same : id = eid
                · exact .inl same
                · exact .inr ⟨fun m => m.elim same new, good', later⟩

theorem insideAt {vals : List Value} {leading : List Leading} : Inside vals leading ↔
    ∀ (i : Nat) l, leading[i]? = some l → ∃ w, vals[i]? = some w ∧ within w l.2.1 l.2.2 := by
  induction leading generalizing vals with
  | nil => simp [Inside]
  | cons l others ih =>
    cases vals with
    | nil =>
      simp only [Inside, false_iff]
      intro h
      obtain ⟨w, none, -⟩ := h 0 l rfl
      cases none
    | cons w vals =>
      rw [Inside, ih]
      constructor
      · intro h i l' at_
        cases i with
        | zero =>
          cases at_
          exact ⟨w, rfl, h.1⟩
        | succ i => exact h.2 i l' at_
      · intro h
        refine ⟨?_, fun i l' at_ => h (i + 1) l' at_⟩
        obtain ⟨w', same, inside⟩ := h 0 l rfl
        cases same
        exact inside

theorem listedAt (listed : Listed fids leading) {i : Nat} {l : Leading} (at_ : leading[i]? = some l) :
    l.1 = i ∧ i < fids.length := by
  obtain ⟨positions, enough, -⟩ := listed
  have here : (leading.map Prod.fst)[i]? = some l.1 := by rw [List.getElem?_map, at_]; rfl
  have small : i < leading.length := (List.getElem?_eq_some_iff.mp at_).1
  rw [positions, List.getElem?_range small] at here
  exact ⟨(Option.some.inj here).symm, small.trans_le enough⟩

theorem listedInRange (listed : Listed fids leading) {l : Leading} (m : l ∈ leading) :
    fids[l.1]? ≠ none := by
  obtain ⟨i, at_⟩ := List.mem_iff_getElem?.mp m
  obtain ⟨same, small⟩ := listedAt listed at_
  rw [same]
  exact fun none => absurd small (not_lt.mpr (List.getElem?_eq_none_iff.mp none))

theorem satisfiesInside (listed : Listed fids leading) {id : Utf8} {vals : List Value}
    (all : List.Forall₂ (Holds rows c id) fids vals) (h : Satisfies rows c fids leading id) :
    Inside vals leading := by
  refine insideAt.mpr (fun i l at_ => ?_)
  obtain ⟨same, small⟩ := listedAt listed at_
  obtain ⟨f, value, hf, holds, inside⟩ := h l (List.mem_of_getElem? at_)
  rw [same] at hf
  have small' : i < vals.length := all.length_eq ▸ small
  have pair := all.get small small'
  have field : fids.get ⟨i, small⟩ = f := by
    rw [List.getElem?_eq_getElem small] at hf
    exact Option.some.inj hf
  rw [field] at pair
  have value' : vals.get ⟨i, small'⟩ = value := by
    unfold Holds at pair holds
    rw [holds] at pair
    exact (Option.some.inj (Except.ok.inj pair)).symm
  exact ⟨value, by rw [← value']; exact List.getElem?_eq_getElem small', inside⟩

theorem valuesOf {id : Utf8} (all : ∀ f ∈ fids, ∃ value, Holds rows c id f value) :
    ∃ vals, List.Forall₂ (Holds rows c id) fids vals := by
  induction fids with
  | nil => exact ⟨[], .nil⟩
  | cons f fids ih =>
    obtain ⟨value, holds⟩ := all f List.mem_cons_self
    obtain ⟨vals, rest⟩ := ih (fun f m => all f (List.mem_cons_of_mem _ m))
    exact ⟨value :: vals, .cons holds rest⟩

theorem componentsInj {vals vals' : List Value} {x y : Bytes} (length : vals.length = vals'.length)
    (same : vals.flatMap encodeOrdered ++ x = vals'.flatMap encodeOrdered ++ y) :
    List.Forall₂ (fun v v' => valueCmp v v' = .eq) vals vals' ∧ x = y := by
  induction vals generalizing vals' with
  | nil =>
    cases vals' with
    | nil => exact ⟨.nil, same⟩
    | cons v' vals' => cases length
  | cons v vals ih =>
    cases vals' with
    | nil => cases length
    | cons v' vals' =>
      rw [List.flatMap_cons, List.flatMap_cons, List.append_assoc, List.append_assoc] at same
      obtain ⟨first, rest⟩ := (Value.encodeOrderedDelimited v v').eq_of_append same
      obtain ⟨all, behind⟩ := ih (Nat.succ.inj length) rest
      exact ⟨.cons (valueCmpEq.mpr first) all, behind⟩

theorem entryInj {index : UInt32} {vals vals' : List Value} {id id' : Utf8}
    (length : vals.length = vals'.length)
    (same : encodeCompositeIndexKey c index (vals.map encodeOrdered) id.bytes =
      encodeCompositeIndexKey c index (vals'.map encodeOrdered) id'.bytes) : id = id' := by
  rw [compositeKeyParts, compositeKeyParts, List.append_cancel_left_eq] at same
  have rest := (componentsInj length same).2
  have ids := (List.append_inj rest (by simp)).2
  cases id
  cases id'
  cases ids
  rfl

/-- `find_composite` keeps its contract exactly for the lists that it is made for, where no stale
entry is in the way. -/
theorem compositeExactly {schema : Schema} {fields : List Chars} {d : IndexDef}
    (names : fields.map (schema.lookupFieldId c) = d.fieldIds.map some)
    (known : schema.findIndexByFields c d.fieldIds = some d)
    (single : schema.indexById d.id = some d) (ready : d.status = .ready)
    (h : Indexed rows c d) (leading : List Leading) :
    Exact rows c d.fieldIds leading (findComposite (.ofRows rows) schema c fields leading) ↔
      Listed d.fieldIds leading ∧ NoneStale rows c leading d := by
  set keys := rangeOf (some (compositeIndexRange c d.id leading).1)
    (compositeIndexRange c d.id leading).2 rows with hkeys
  have start : findComposite (.ofRows rows) schema c fields leading =
      findCompositeLoop (.ofRows rows) c d.fieldIds d.fieldIds.length leading [] keys := by
    have ids : fields.filterMap (schema.lookupFieldId c) = d.fieldIds := by
      have mapped := congrArg (List.filterMap id) names
      rw [List.filterMap_map, List.filterMap_map] at mapped
      simpa using mapped
    have lengths : ¬ d.fieldIds.length ≠ fields.length := by
      simpa using (congrArg List.length names).symm
    unfold findComposite
    rw [ids, if_neg lengths]
    simp only [known]
    unfold findCompositeM
    simp only [single, ready, ReadView.ofRowsRows]
    rfl
  have entry : ∀ r ∈ keys, ∃ (vals : List Value) (id : Utf8), r ∈ rows ∧
      vals.length = d.fieldIds.length ∧ id.bytes.length < 2 ^ 32 ∧
      r.1 = encodeCompositeIndexKey c d.id (vals.map encodeOrdered) id.bytes ∧
      decodeCompositeKeyValue r.1 d.fieldIds.length =
        .ok (some (vals.map Value.canonical, id)) := by
    intro r m
    obtain ⟨inside, between_⟩ := memRange.mp m
    rw [rangeIs] at between_
    obtain ⟨vals, id, count, short, key⟩ :=
      h.entries r inside (rangePrefixed (prefixBounded c d.id) between_)
    exact ⟨vals, id, inside, count, short, key,
      by rw [key, ← count]; exact decodeCompositeBack c d.id vals short⟩
  have decodes : ∀ r ∈ keys, ∃ comps id,
      decodeCompositeKeyValue r.1 d.fieldIds.length = .ok (some (comps, id)) := by
    intro r m
    obtain ⟨vals, id, -, -, -, -, decoded⟩ := entry r m
    exact ⟨_, id, decoded⟩
  have scanned : Listed d.fieldIds leading → ∀ r ∈ rows, ∀ (vals : List Value) (id : Utf8),
      vals.length = d.fieldIds.length →
      r.1 = encodeCompositeIndexKey c d.id (vals.map encodeOrdered) id.bytes →
      (r ∈ keys ↔ Inside vals leading) := by
    intro listed r m vals id count key
    rw [hkeys, memRange, and_iff_right m, rangeIs, key, compositeKeyParts]
    exact rangeInside (prefixBounded c d.id) listed.2.2 (count ▸ listed.2.1) _
  rw [start]
  constructor
  · intro exact_
    have listed : Listed d.fieldIds leading := by
      by_contra bad
      obtain ⟨what, refuses⟩ := exact_.refused bad
      obtain ⟨-, stops⟩ | ⟨ids, run, -⟩ := loopRun h.readable decodes
      · cases stops.symm.trans refuses
      · cases run.symm.trans refuses
    refine ⟨listed, fun r m vals id count key inside good => ?_⟩
    obtain ⟨ids, run, -, members⟩ := exact_.found listed
    have near : r ∈ keys := (scanned listed r m vals id count key).mpr inside
    obtain ⟨vals', id', -, count', -, key', decoded⟩ := entry r near
    have same : id' = id := entryInj (count'.trans count.symm) (key'.symm.trans key)
    obtain ⟨⟨l, ml, out⟩, -⟩ | ⟨ids', run', -, members'⟩ :=
      loopRun h.readable decodes
    · exact absurd out (listedInRange listed ml)
    · cases run.symm.trans run'
      exact ((members id).mp ((members' id).mpr
        ⟨List.not_mem_nil, good, r, near, _, same ▸ decoded⟩)).1
  · intro condition
    obtain ⟨listed, fresh⟩ := condition
    refine ⟨fun _ => ?_, fun bad => absurd listed bad⟩
    obtain ⟨⟨l, ml, out⟩, -⟩ | ⟨ids, run, nodup, members⟩ :=
      loopRun h.readable decodes
    · exact absurd out (listedInRange listed ml)
    refine ⟨ids, run, nodup, fun id => ?_⟩
    rw [members]
    constructor
    · intro found
      obtain ⟨-, good, r, near, comps, decoded⟩ := found
      obtain ⟨vals, id', m, count, -, key, decoded'⟩ := entry r near
      cases decoded.symm.trans decoded'
      have inside := (scanned listed r m vals id count key).mp near
      exact ⟨fresh r m vals id count key inside good, good⟩
    · intro found
      obtain ⟨all, good⟩ := found
      obtain ⟨vals, each⟩ := valuesOf all
      obtain ⟨stored, m⟩ := h.complete id vals each
      have near := (scanned listed _ m vals id each.length_eq.symm rfl).mpr
        (satisfiesInside listed each good)
      obtain ⟨vals', id', -, count', -, key', decoded⟩ := entry _ near
      have same : id' = id := (entryInj (each.length_eq.symm.trans count'.symm) key').symm
      exact ⟨List.not_mem_nil, good, _, near, _, same ▸ decoded⟩

theorem fieldValueRows (e : Bytes) (f : UInt32) : fieldValue (.ofRows rows) c e f =
    match (rows.lookup (encodeEntityKey c e f)).join with
    | some stored => Value.decode stored >>= fun value => pure (some value)
    | none => .ok none := by
  have read : (ReadView.ofRows rows).find (encodeEntityKey c e f) =
    .ok (rows.lookup (encodeEntityKey c e f)).join := rfl
  unfold fieldValue
  rw [read]
  cases (rows.lookup (encodeEntityKey c e f)).join with
  | none => rfl
  | some stored => rfl

theorem holdsMem {id : Utf8} {f : UInt32} {value : Value} (h : Holds rows c id f value) :
    ∃ stored, (encodeEntityKey c id.bytes f, some stored) ∈ rows ∧
      Value.decode stored = .ok value := by
  rw [Holds, fieldValueRows] at h
  cases found : (rows.lookup (encodeEntityKey c id.bytes f)).join with
  | none =>
    rw [found] at h
    cases h
  | some stored =>
    rw [found] at h
    dsimp only at h
    refine ⟨stored, lookupMem (Option.join_eq_some_iff.mp found), ?_⟩
    cases decoded : Value.decode stored with
    | error e =>
      rw [decoded] at h
      cases h
    | ok v =>
      rw [decoded] at h
      cases h
      rfl

theorem readableRows (whole : ∀ r ∈ rows, ∀ stored, r.2 = some stored →
    r.1.head? = some entityTag → ∃ value, Value.decode stored = .ok value) (id : Utf8) (f : UInt32) :
    ∃ found, fieldValue (.ofRows rows) c id.bytes f = .ok found := by
  rw [fieldValueRows]
  cases found : (rows.lookup (encodeEntityKey c id.bytes f)).join with
  | none => exact ⟨none, rfl⟩
  | some stored =>
    obtain ⟨value, decoded⟩ :=
      whole _ (lookupMem (Option.join_eq_some_iff.mp found)) stored rfl rfl
    exact ⟨some value, by dsimp only; rw [decoded]; rfl⟩

end Finding

theorem readBack {stored : Bytes} (h : (Value.decode stored).toOption.isSome) :
    ∃ value, Value.decode stored = .ok value := by
  cases decoded : Value.decode stored with
  | ok value => exact ⟨value, rfl⟩
  | error e =>
    rw [decoded] at h
    cases h

theorem cellParts {rows : List Rec} {c : UInt32} (short : ∀ r ∈ rows, r.1.length < 2 ^ 32)
    {id : Utf8} {f : UInt32} {stored : Bytes} (m : (encodeEntityKey c id.bytes f, some stored) ∈ rows) :
    id.bytes.length < 2 ^ 32 ∧ decodeEntityKey (encodeEntityKey c id.bytes f) = some (c, id.bytes, f) := by
  have length : (encodeEntityKey c id.bytes f).length < 2 ^ 32 := short _ m
  rw [encodeEntityKeyLength] at length
  have inside : id.bytes.length < 2 ^ 32 := by omega
  exact ⟨inside, decodeEncodeEntityKey c inside f⟩

section Pair

def pairSchema : Schema :=
  let s := (((Schema.new.collectionId ['u']).2.fieldId 0 ['x']).2.fieldId 0 ['y']).2
  let (id, s) := s.createCompositeIndex 0 [0, 1]
  s.setIndexReady id

def pairIndex : IndexDef := (pairSchema.indexes).headD ⟨0, 0, [], .building⟩

def pairCells : List (Bytes × UInt32 × Value) :=
  [([0x61], 0, .null), ([0x61], 1, .bool true), ([0x62], 0, .null), ([0x62], 1, .int 3),
    ([0x63], 0, .int 7), ([0x63], 1, .null)]

def pairEntries : List (List Value × Utf8) :=
  [([.null, .bool true], .ofBytes [0x61]), ([.null, .int 3], .ofBytes [0x62]),
    ([.int 7, .null], .ofBytes [0x63])]

def pairRows : List Rec :=
  pairCells.map (fun cell => (encodeEntityKey 0 cell.1 cell.2.1, some cell.2.2.encode)) ++
    pairEntries.map (fun e =>
      (encodeCompositeIndexKey 0 pairIndex.id (e.1.map encodeOrdered) e.2.bytes, some []))

theorem pairShort : ∀ r ∈ pairRows, r.1.length < 2 ^ 32 := by decide +kernel

theorem pairHolds {id : Utf8} {f : UInt32} {value : Value} (h : Holds pairRows 0 id f value) :
    (id.bytes, f, value) ∈ pairCells := by
  obtain ⟨stored, m, decoded⟩ := holdsMem h
  have listed : ∀ r ∈ pairRows, ∀ cell ∈ decodeEntityKey r.1, ∀ stored ∈ r.2,
      ∀ value ∈ (Value.decode stored).toOption, (cell.2.1, cell.2.2, value) ∈ pairCells := by
    decide +kernel
  exact listed _ m _ (cellParts pairShort m).2 _ rfl _ (by rw [decoded]; rfl)

theorem pairIndexed : Indexed pairRows 0 pairIndex := by
  have fids : pairIndex.fieldIds = [0, 1] := rfl
  refine ⟨fun id f _ => readableRows ?_ id f, ?_, ?_⟩
  · have reads : ∀ r ∈ pairRows, ∀ stored ∈ r.2, r.1.head? = some entityTag →
        (Value.decode stored).toOption.isSome := by decide +kernel
    intro r m stored live tagged
    exact readBack (reads r m stored live tagged)
  · have entry : ∀ r ∈ pairRows, compositePrefix 0 pairIndex.id <+: r.1 → ∃ e ∈ pairEntries,
        e.1.length = 2 ∧ e.2.bytes.length < 2 ^ 32 ∧
          r.1 = encodeCompositeIndexKey 0 pairIndex.id (e.1.map encodeOrdered) e.2.bytes := by
      decide +kernel
    intro r m inside
    obtain ⟨e, -, is⟩ := entry r m inside
    exact ⟨e.1, e.2, is⟩
  · have complete : ∀ a ∈ pairCells, ∀ b ∈ pairCells, a.1 = b.1 → a.2.1 = 0 → b.2.1 = 1 →
        (encodeCompositeIndexKey 0 pairIndex.id ([a.2.2, b.2.2].map encodeOrdered) a.1, some []) ∈
          pairRows := by
      decide +kernel
    intro id vals each
    rw [fids] at each
    obtain _ | ⟨first, _ | ⟨second, _ | _⟩⟩ := each
    exact ⟨[], complete _ (pairHolds first) _ (pairHolds second) rfl rfl rfl⟩

theorem compositeExactlyPair :
    Exact pairRows 0 [0, 1] [(0, .inclusive .null, .inclusive .null), (1, .unbounded, .unbounded)]
        (findComposite (.ofRows pairRows) pairSchema 0 [['x'], ['y']]
          [(0, .inclusive .null, .inclusive .null), (1, .unbounded, .unbounded)]) ↔
      Listed [0, 1] [(0, .inclusive .null, .inclusive .null), (1, .unbounded, .unbounded)] ∧
        NoneStale pairRows 0
          [(0, .inclusive .null, .inclusive .null), (1, .unbounded, .unbounded)] pairIndex :=
  compositeExactly (d := pairIndex) rfl rfl rfl rfl pairIndexed _

/-- A list that binds the second component only is answered as if it bound the first one. -/
theorem secondComponentAnswered : ¬ ∀ (rows : List Rec) (c : UInt32) (schema : Schema)
    (fields : List Chars) (d : IndexDef), fields.map (schema.lookupFieldId c) = d.fieldIds.map some →
    schema.findIndexByFields c d.fieldIds = some d → schema.indexById d.id = some d →
    d.status = .ready → Indexed rows c d → ∀ leading,
    Exact rows c d.fieldIds leading (findComposite (.ofRows rows) schema c fields leading) := by
  intro claim
  set leading : List Leading := [(1, .inclusive (.bool true), .inclusive (.bool true))]
  have exact_ := claim pairRows 0 pairSchema [['x'], ['y']] pairIndex rfl rfl rfl rfl pairIndexed
    leading
  have answered : findComposite (.ofRows pairRows) pairSchema 0 [['x'], ['y']] leading = .ok [] := rfl
  obtain ⟨what, refuses⟩ := exact_.refused (fun listed => by cases listed.1)
  cases answered.symm.trans refuses

end Pair
end MyLsmDb.Index
