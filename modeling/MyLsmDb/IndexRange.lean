import MyLsmDb.Keys
import MyLsmDb.ValueOrder

/-! Which keys a range of an index takes: those of its own field whose value lies between
the bounds, and no key of an entity or of a composite index. -/
namespace MyLsmDb
open ByteOrder (Bytes Delimited prefixLe prefixConvex appendLtAppend appendLeAppend)
open LittleEndian
open OrderedEntries
open Value (encodeOrdered valueCmp valueCmpEq encodeSuffixCmp cmpBytes)

inductive Bound where
  | unbounded
  | inclusive (v : Value)
  | exclusive (v : Value)
  deriving DecidableEq

abbrev Leading := Nat × Bound × Bound

inductive FindOp where
  | eq (v : Value)
  | gt (v : Value)
  | gte (v : Value)
  | lt (v : Value)
  | lte (v : Value)
  | between (l h : Value)
  deriving DecidableEq

def FindOp.toBounds : FindOp → Bound × Bound
  | .eq v => (.inclusive v, .inclusive v)
  | .gt v => (.exclusive v, .unbounded)
  | .gte v => (.inclusive v, .unbounded)
  | .lt v => (.unbounded, .exclusive v)
  | .lte v => (.unbounded, .inclusive v)
  | .between l h => (.inclusive l, .inclusive h)

def indexValuePrefix (collection field : UInt32) (encoded : Bytes) : Bytes :=
  indexFieldPrefix collection field ++ encoded

def indexRange (collection field : UInt32) (lower upper : Bound) : Bytes × Option Bytes :=
  let fp := indexFieldPrefix collection field
  let vp (v : Value) := indexValuePrefix collection field (encodeOrdered v)
  let start := match lower with
    | .unbounded => fp
    | .inclusive v => vp v
    | .exclusive v => (successor (vp v)).getD fp
  let stop := match upper with
    | .unbounded => successor fp
    | .exclusive v => some (vp v)
    | .inclusive v => successor (vp v)
  (start, stop)

def within (value : Value) (lower upper : Bound) : Bool :=
  let lo := match lower with
    | .unbounded => true
    | .inclusive v => valueCmp value v != .lt
    | .exclusive v => valueCmp value v == .gt
  let hi := match upper with
    | .unbounded => true
    | .exclusive v => valueCmp value v == .lt
    | .inclusive v => valueCmp value v != .gt
  lo && hi

section Successor

theorem successorLoopAppend {r s : Bytes} (found : successorLoop r = some s) (t : Bytes) :
    successorLoop (r ++ t) = some (t.reverse ++ s) := by
  induction r with
  | nil => cases found
  | cons b r ih =>
    rw [List.cons_append]
    unfold successorLoop at found ⊢
    by_cases full : b ≠ 0xFF
    · rw [if_pos full] at found ⊢
      rw [← Option.some.inj found]
      simp
    · rw [if_neg full] at found ⊢
      exact ih found

theorem successorAppend {q s : Bytes} (found : successor q = some s) (p : Bytes) :
    successor (p ++ q) = some (p ++ s) := by
  have := successorLoopAppend found p.reverse
  rwa [← List.reverse_append, List.reverse_reverse] at this

theorem belowSuccessor {p s : Bytes} (found : successor p = some s) (t : Bytes) :
    t < s ↔ t < p ∨ p <+: t := by
  have inside := successorBetween found
  have above : p < s := by
    have := (inside p).mpr List.prefix_rfl
    simpa [between] using this
  constructor
  · intro below
    obtain less | le := lt_or_ge t p
    · exact .inl less
    · exact .inr ((inside t).mp (by simp [between, le, below]))
  · intro h
    obtain less | start := h
    · exact less.trans above
    · have := (inside t).mpr start
      simp only [between, Option.all_some, Bool.and_eq_true, decide_eq_true_eq] at this
      exact this.2

theorem successorLeast {p s : Bytes} (found : successor p = some s) :
    (∀ t, p <+: t → t < s) ∧ ∀ u, (∀ t, p <+: t → t < u) → s ≤ u := by
  constructor
  · intro t start
    exact (belowSuccessor found t).mpr (.inr start)
  · intro u above
    by_contra below
    have start : p <+: u := by
      obtain less | start := (belowSuccessor found u).mp (not_le.mp below)
      · exact absurd (above p List.prefix_rfl) (lt_asymm less)
      · exact start
    exact absurd (above u start) (lt_irrefl u)

end Successor

section Range

theorem encodeSuccessor (v : Value) : ∃ s, successor (encodeOrdered v) = some s := by
  cases v <;> exact successorSome _ (by decide)

theorem encodedCmp (v w : Value) (rest : Bytes) :
    (encodeOrdered w ≤ encodeOrdered v ++ rest ↔ valueCmp v w ≠ .lt) ∧
      (encodeOrdered v ++ rest < encodeOrdered w ↔ valueCmp v w = .lt) ∧
      (encodeOrdered w <+: encodeOrdered v ++ rest ↔ valueCmp v w = .eq) := by
  have less : encodeOrdered v ++ rest < encodeOrdered w ↔ valueCmp v w = .lt := by
    have suffix := encodeSuffixCmp v w rest []
    rw [List.append_nil] at suffix
    rw [← (cmpBytes _ _).1, suffix]
    cases valueCmp v w with
    | eq => simp [Ordering.then, (cmpBytes rest []).1, List.not_lt_nil]
    | lt => simp [Ordering.then]
    | gt => simp [Ordering.then]
  refine ⟨?_, less, ?_⟩
  · rw [← not_lt, less]
  · rw [(Value.encodeOrderedDelimited w v).prefix_iff, valueCmpEq]
    exact eq_comm

variable {c c' f f' : UInt32} {lower upper : Bound}

theorem fieldSuccessor (c f : UInt32) : ∃ s, successor (indexFieldPrefix c f) = some s :=
  successorSome _ (by decide)

theorem valueSuccessor (c f : UInt32) (v : Value) : ∃ s, successor (encodeOrdered v) = some s ∧
    successor (indexValuePrefix c f (encodeOrdered v)) = some (indexFieldPrefix c f ++ s) := by
  obtain ⟨s, found⟩ := encodeSuccessor v
  exact ⟨s, found, successorAppend found _⟩

theorem rangeStart (c f : UInt32) (lower upper : Bound) :
    indexFieldPrefix c f <+: (indexRange c f lower upper).1 := by
  cases lower with
  | unbounded => exact List.prefix_rfl
  | inclusive v => exact List.prefix_append _ _
  | exclusive v =>
    obtain ⟨s, _, found⟩ := valueSuccessor c f v
    simp only [indexRange, found, Option.getD_some]
    exact List.prefix_append _ _

theorem rangeInField {key : Bytes}
    (inside : between (some (indexRange c f lower upper).1) (indexRange c f lower upper).2 key) :
    indexFieldPrefix c f <+: key := by
  have start := rangeStart c f lower upper
  simp only [between, Option.all_some, Bool.and_eq_true, decide_eq_true_eq] at inside
  obtain ⟨above, below⟩ := inside
  have inField {stop : Bytes} (stopIn : indexFieldPrefix c f <+: stop) (less : key < stop) :
    indexFieldPrefix c f <+: key := prefixConvex start stopIn above (le_of_lt less)
  cases upper with
  | unbounded =>
    obtain ⟨s, found⟩ := fieldSuccessor c f
    simp only [indexRange, found, Option.all_some, decide_eq_true_eq] at below
    obtain less | whole := (belowSuccessor found key).mp below
    · exact absurd ((prefixLe start).trans above) (not_le.mpr less)
    · exact whole
  | inclusive v =>
    obtain ⟨s, _, found⟩ := valueSuccessor c f v
    simp only [indexRange, found, Option.all_some, decide_eq_true_eq] at below
    exact inField (List.prefix_append _ _) below
  | exclusive v =>
    simp only [indexRange, Option.all_some, decide_eq_true_eq] at below
    exact inField (List.prefix_append _ _) below

theorem indexKeyParts (c f : UInt32) (encoded entity : Bytes) : encodeIndexKey c f encoded entity =
    indexFieldPrefix c f ++ (encoded ++ (leBytes 4 entity.length ++ entity)) := by
  simp [encodeIndexKey, indexFieldPrefix]

theorem fieldPrefixInj (same : indexFieldPrefix c f = indexFieldPrefix c' f') :
    c = c' ∧ f = f' := by
  have rest := (List.cons.inj same).2
  obtain ⟨collections, fields⟩ := List.append_inj rest (by simp)
  exact ⟨le32Inj collections, le32Inj fields⟩

theorem fieldPrefixOf {rest : Bytes} :
    indexFieldPrefix c f <+: indexFieldPrefix c' f' ++ rest ↔ c' = c ∧ f' = f := by
  have delimited : Delimited (indexFieldPrefix c f) (indexFieldPrefix c' f') :=
    ByteOrder.delimitedOfLength (by simp [indexFieldPrefix])
  rw [delimited.prefix_iff]
  constructor
  · intro same
    obtain ⟨rfl, rfl⟩ := fieldPrefixInj same
    exact ⟨rfl, rfl⟩
  · intro same
    rw [same.1, same.2]

theorem rangeWithin (c f : UInt32) (lower upper : Bound) (v : Value) (rest : Bytes) :
    between (some (indexRange c f lower upper).1) (indexRange c f lower upper).2
      (indexFieldPrefix c f ++ (encodeOrdered v ++ rest)) ↔ within v lower upper := by
  have low : (indexRange c f lower upper).1 ≤ indexFieldPrefix c f ++ (encodeOrdered v ++ rest) ↔
      within v lower .unbounded := by
    cases lower with
    | unbounded => simp [indexRange, within, prefixLe (List.prefix_append _ _)]
    | inclusive w =>
      simp only [indexRange, indexValuePrefix, appendLeAppend, (encodedCmp v w rest).1, within]
      simp
    | exclusive w =>
      obtain ⟨s, found, whole⟩ := valueSuccessor c f w
      have cmp := encodedCmp v w rest
      simp only [indexRange, whole, Option.getD_some, appendLeAppend]
      rw [← not_lt, belowSuccessor found, cmp.2.1, cmp.2.2, within]
      cases valueCmp v w <;> simp
  have high : between none (indexRange c f lower upper).2
      (indexFieldPrefix c f ++ (encodeOrdered v ++ rest)) ↔ within v .unbounded upper := by
    unfold between
    cases upper with
    | unbounded =>
      obtain ⟨s, found⟩ := fieldSuccessor c f
      have below := (belowSuccessor found (indexFieldPrefix c f ++ (encodeOrdered v ++ rest))).mpr
        (.inr (List.prefix_append _ _))
      simp [indexRange, found, below, within]
    | inclusive w =>
      obtain ⟨s, found, whole⟩ := valueSuccessor c f w
      have cmp := encodedCmp v w rest
      simp only [indexRange, whole, Option.all_none, Option.all_some, Bool.true_and,
        decide_eq_true_eq, appendLtAppend]
      rw [belowSuccessor found, cmp.2.1, cmp.2.2, within]
      cases valueCmp v w <;> simp
    | exclusive w =>
      simp only [indexRange, indexValuePrefix, Option.all_none, Option.all_some, Bool.true_and,
        decide_eq_true_eq, appendLtAppend, (encodedCmp v w rest).2.1, within]
      simp
  have both : within v lower upper = (within v lower .unbounded && within v .unbounded upper) := by
    simp [within]
  rw [both, Bool.and_eq_true, ← low, ← high]
  simp [between]

theorem indexKeyInRange (c c' f f' : UInt32) (lower upper : Bound) (v : Value) (entity : Bytes) :
    between (some (indexRange c f lower upper).1) (indexRange c f lower upper).2
      (encodeIndexKey c' f' (encodeOrdered v) entity) ↔ c' = c ∧ f' = f ∧ within v lower upper := by
  rw [indexKeyParts]
  constructor
  · intro inside
    obtain ⟨rfl, rfl⟩ := fieldPrefixOf.mp (rangeInField inside)
    exact ⟨rfl, rfl, (rangeWithin c' f' lower upper v _).mp inside⟩
  · intro h
    obtain ⟨rfl, rfl, inside⟩ := h
    exact (rangeWithin c' f' lower upper v _).mpr inside

theorem entityKeyOutside (c c' f g : UInt32) (lower upper : Bound) (e : Bytes) :
    ¬ between (some (indexRange c f lower upper).1) (indexRange c f lower upper).2
      (encodeEntityKey c' e g) := by
  intro inside
  have tags := (List.cons_prefix_cons.mp (rangeInField inside)).1
  exact absurd tags (by decide)

theorem compositeKeyOutside (marker : f ≠ compositeFieldMarker) (lower upper : Bound)
    (c' index : UInt32) (components : List Bytes) (e : Bytes) :
    ¬ between (some (indexRange c f lower upper).1) (indexRange c f lower upper).2
      (encodeCompositeIndexKey c' index components e) := by
  intro inside
  have parts : encodeCompositeIndexKey c' index components e =
      indexFieldPrefix c' compositeFieldMarker ++
        (le32 index ++ components.flatten ++ leBytes 4 e.length ++ e) := by
    simp [encodeCompositeIndexKey, compositePrefix, indexFieldPrefix]
  have field := rangeInField inside
  rw [parts] at field
  exact marker (fieldPrefixOf.mp field).2.symm

end Range

section Entity
variable {c c' : UInt32} {e e' : Bytes}

/-- The length in a key is cut to 32 bits: an id may pass for the front of a far longer one. -/
theorem entityPrefixStarts (g : UInt32) : entityPrefix c e <+: encodeEntityKey c' e' g ↔
    c' = c ∧ e.length % 2 ^ 32 = e'.length % 2 ^ 32 ∧ e <+: e' ++ le32 g := by
  have parts (c : UInt32) (e : Bytes) : entityPrefix c e =
      entityTag :: (le32 c ++ leBytes 4 e.length) ++ e := by
    simp [entityPrefix]
  have front : Delimited (entityTag :: (le32 c ++ leBytes 4 e.length))
    (entityTag :: (le32 c' ++ leBytes 4 e'.length)) := ByteOrder.delimitedOfLength (by simp)
  rw [encodeEntityKey, parts, parts, List.append_assoc]
  constructor
  · intro start
    have fronts := front.prefix_iff (e' ++ le32 g)
    have same := fronts.mp ((List.prefix_append _ _).trans start)
    rw [same] at start
    obtain ⟨collections, lengths⟩ := List.append_inj (List.cons.inj same).2 (by simp)
    exact ⟨(le32Inj collections).symm, leBytesEq.mp lengths,
      (List.prefix_append_right_inj _).mp start⟩
  · intro h
    obtain ⟨rfl, lengths, start⟩ := h
    have same : leBytes 4 e.length = leBytes 4 e'.length := leBytesEq.mpr lengths
    rw [same]
    exact (List.prefix_append_right_inj _).mpr start

/-- `e'` goes on where `e` ends, by a multiple of 2^32 bytes. -/
def Overruns (e e' : Bytes) : Prop :=
  e <+: e' ∧ e.length < e'.length ∧ e.length % 2 ^ 32 = e'.length % 2 ^ 32

theorem entityRangeExactly (c c' : UInt32) (e e' : Bytes) (g : UInt32) :
    (between (some (entityRange c e).1) (entityRange c e).2 (encodeEntityKey c' e' g) ↔
      c' = c ∧ e' = e) ↔ ¬ (c' = c ∧ Overruns e e') := by
  rw [entityRangeBetween, entityPrefixStarts]
  constructor
  · intro exactly beyond
    obtain ⟨same, start, longer, lengths⟩ := beyond
    have equal := (exactly.mp ⟨same, lengths, start.trans (List.prefix_append _ _)⟩).2
    rw [equal] at longer
    exact lt_irrefl _ longer
  · intro never
    constructor
    · intro h
      obtain ⟨same, lengths, start⟩ := h
      refine ⟨same, ?_⟩
      have le := start.length_le
      rw [List.length_append, le32Length] at le
      have short : e.length ≤ e'.length := by omega
      have inside : e <+: e' :=
        List.prefix_of_prefix_length_le start (List.prefix_append _ _) short
      obtain less | equal := lt_or_eq_of_le short
      · exact absurd ⟨same, inside, less, lengths⟩ never
      · exact (inside.eq_of_length equal).symm
    · intro h
      obtain ⟨rfl, rfl⟩ := h
      exact ⟨rfl, rfl, List.prefix_append _ _⟩

end Entity

theorem keyRangesExact (c c' f f' : UInt32) (marker : f ≠ compositeFieldMarker)
    (lower upper : Bound) (v : Value) (e e' : Bytes) (g : UInt32) :
    let inRange := between (some (indexRange c f lower upper).1) (indexRange c f lower upper).2
    ((∀ entity, inRange (encodeIndexKey c' f' (encodeOrdered v) entity) ↔
        c' = c ∧ f' = f ∧ within v lower upper) ∧
      (∀ c₂ entity field, ¬ inRange (encodeEntityKey c₂ entity field)) ∧
      (∀ c₂ index components entity,
        ¬ inRange (encodeCompositeIndexKey c₂ index components entity)) ∧
      (between (some (entityRange c e).1) (entityRange c e).2 (encodeEntityKey c' e' g) ↔
        c' = c ∧ e' = e) ∧
      (∀ p s, successor p = some s → (∀ t, p <+: t → t < s) ∧
        ∀ u, (∀ t, p <+: t → t < u) → s ≤ u)) ↔
      ¬ (c' = c ∧ Overruns e e') := by
  dsimp only
  rw [← entityRangeExactly c c' e e' g]
  constructor
  · intro h
    exact h.2.2.2.1
  · intro exactly
    exact ⟨indexKeyInRange c c' f f' lower upper v,
      fun c₂ entity field => entityKeyOutside c c₂ f field lower upper entity,
      compositeKeyOutside marker lower upper, exactly, fun _ _ => successorLeast⟩

theorem keyRangesExactInside :
    let inRange := between (some (indexRange 1 2 (.exclusive .null) .unbounded).1)
      (indexRange 1 2 (.exclusive .null) .unbounded).2
    2 ≠ compositeFieldMarker ∧
      (∀ entity, inRange (encodeIndexKey 1 2 (encodeOrdered (.int 7)) entity)) ∧
      (between (some (entityRange 1 [97]).1) (entityRange 1 [97]).2 (encodeEntityKey 1 [97, 98] 3) ↔
        (1 : UInt32) = 1 ∧ [97, 98] = ([97] : Bytes)) := by
  have marker : 2 ≠ compositeFieldMarker := by decide
  have short : ¬ ((1 : UInt32) = 1 ∧ Overruns [97] [97, 98]) := fun h => absurd h.2.2.2 (by decide)
  have all := (keyRangesExact 1 1 2 2 marker (.exclusive .null) .unbounded (.int 7) [97] [97, 98]
    3).mpr short
  exact ⟨marker, fun entity => (all.1 entity).mpr ⟨rfl, rfl, rfl⟩, all.2.2.2.1⟩

theorem overrunInRange {e' : Bytes} (over_ : Overruns [97] e') :
    ¬ (between (some (entityRange 1 [97]).1) (entityRange 1 [97]).2 (encodeEntityKey 1 e' 3) ↔
      (1 : UInt32) = 1 ∧ e' = [97]) := fun h =>
  (entityRangeExactly 1 1 [97] e' 3).mp h ⟨rfl, over_⟩

/-- The rows of an entity with an id of 2^32 + 1 bytes count as those of the entity `a`. -/
theorem longIdInRange :
    ¬ (between (some (entityRange 1 [97]).1) (entityRange 1 [97]).2
        (encodeEntityKey 1 (97 :: List.replicate (2 ^ 32) 97) 3) ↔
      (1 : UInt32) = 1 ∧ (97 :: List.replicate (2 ^ 32) 97 : Bytes) = [97]) := by
  have length : (97 :: List.replicate (2 ^ 32) 97 : Bytes).length = 2 ^ 32 + 1 := by
    rw [List.length_cons, List.length_replicate]
  refine overrunInRange ⟨List.cons_prefix_cons.mpr ⟨rfl, List.nil_prefix⟩, ?_, ?_⟩
  · rw [length]
    decide
  · rw [length]
    decide

end MyLsmDb
