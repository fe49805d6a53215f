import MyLsmDb.Executor

/-! The aggregates over the rows of a query. One pass collects what any of them needs; over
integers the sum and the extremes are exact. -/
namespace MyLsmDb.Executor
open Effect
open Text

/-- What has been collected of the numbers in a field. -/
structure Totals where
  hasFloat : Bool
  iSum : Int
  fSum : UInt64
  count : Nat
  iExtreme : Option Int64
  fExtreme : Option UInt64
  deriving DecidableEq

namespace Totals

def new : Totals := ⟨false, 0, 0, 0, none, none⟩

/-- `i128::saturating_add` -/
def saturatingAdd (a b : Int) : Int := max (-2 ^ 127) (min (2 ^ 127 - 1) (a + b))

def extremeInt (isMin : Bool) (c i : Int64) : Int64 := if isMin then min c i else max c i

def extremeFloat (isMin : Bool) (c f : UInt64) : UInt64 :=
  if isMin then Binary64.fmin c f else Binary64.fmax c f

def addInt (isMin : Bool) (t : Totals) (i : Int64) : Totals :=
  let f := Binary64.ofInt i.toInt
  { t with
    iSum := saturatingAdd t.iSum i.toInt
    fSum := Binary64.add t.fSum f
    count := t.count + 1
    iExtreme := some (t.iExtreme.elim i (fun c => extremeInt isMin c i))
    fExtreme := some (t.fExtreme.elim f (fun c => extremeFloat isMin c f)) }

def addFloat (isMin : Bool) (t : Totals) (x : UInt64) : Totals :=
  { t with
    hasFloat := true
    fSum := Binary64.add t.fSum x
    count := t.count + 1
    fExtreme := some (t.fExtreme.elim x (fun c => extremeFloat isMin c x)) }

/-- A row without the field, or with a value in it that is no finite number, counts for nothing. -/
def addRow (field : Chars) (isMin : Bool) (t : Totals) (r : Row) : Totals :=
  match r.2.field field with
  | some (.int i) => t.addInt isMin i
  | some (.float x) => if Binary64.finite x then t.addFloat isMin x else t
  | _ => t

end Totals

def collectTotals (field : Chars) (isMin : Bool) (rows : List Row) : Totals :=
  rows.foldl (Totals.addRow field isMin) .new

/-- The sum cut down to what an `i64` holds. -/
def clampInt (s : Int) : Int64 :=
  if 2 ^ 63 - 1 < s then Int64.maxValue else if s < -2 ^ 63 then Int64.minValue else Int64.ofInt s

def sumOf (t : Totals) : Option Value :=
  if t.count = 0 then none
  else if t.hasFloat then some (.float t.fSum)
  else some (.int (clampInt t.iSum))

def avgOf (t : Totals) : Option Value :=
  if t.count = 0 then none
  else some (.float (Binary64.div t.fSum (Binary64.ofInt t.count)))

def extremeOf (t : Totals) : Option Value :=
  if t.count = 0 then none
  else if t.hasFloat then t.fExtreme.map .float
  else t.iExtreme.map .int

def aggregateRows (rows : List Row) : Aggregate → Fallible (Option Value)
  | .count => pure (some (.int (Int64.ofInt rows.length)))
  | .sum field => pure (sumOf (collectTotals field false rows))
  | .avg field => pure (avgOf (collectTotals field false rows))
  | .min field => pure (extremeOf (collectTotals field true rows))
  | .max field => pure (extremeOf (collectTotals field false rows))

/-- The greater of two integers is one of them and not below the other. -/
instance greaterInt : Std.LawfulOrderMax Int64 := by
  have larger : ∀ a b : Int64, max a b = if a ≤ b then b else a := fun _ _ => rfl
  apply Std.LawfulOrderMax.of_le_max
  · intro a b
    rw [larger]
    split
    · assumption
    · exact Int64.le_refl a
  · intro a b
    rw [larger]
    split
    · exact Int64.le_refl b
    · rename_i h
      exact (Int64.le_total a b).resolve_left h
  · intro a b
    rw [larger]
    split
    · exact .inr rfl
    · exact .inl rfl

section Integers
variable {field : Chars} {isMin : Bool} {rows : List Row}

/-- No float in the field. -/
def IntegerData (field : Chars) (rows : List Row) : Prop :=
  ∀ r ∈ rows, ∀ x, r.2.field field ≠ some (.float x)

def intOf (field : Chars) (r : Row) : Option Int64 :=
  match r.2.field field with
  | some (.int i) => some i
  | _ => none

def integers (field : Chars) (rows : List Row) : List Int64 := rows.filterMap (intOf field)

theorem addRowInteger {r : Row} (data : ∀ x, r.2.field field ≠ some (.float x)) (t : Totals) :
    t.addRow field isMin r = (intOf field r).elim t (t.addInt isMin) := by
  unfold Totals.addRow intOf
  cases h : r.2.field field with
  | none => rfl
  | some v =>
    cases v with
    | float x => exact absurd h (data x)
    | _ => rfl

theorem collectIntegers (data : IntegerData field rows) :
    collectTotals field isMin rows = (integers field rows).foldl (Totals.addInt isMin) .new := by
  unfold collectTotals integers
  generalize Totals.new = t
  induction rows generalizing t with
  | nil => rfl
  | cons r rows ih =>
    have rest := ih (fun x m => data x (List.mem_cons_of_mem _ m))
    rw [List.foldl_cons, addRowInteger (data r List.mem_cons_self), rest, List.filterMap_cons]
    cases intOf field r with
    | none => rfl
    | some i => rfl

theorem foldPlain (l : List Int64) (t : Totals) :
    (l.foldl (Totals.addInt isMin) t).hasFloat = t.hasFloat ∧
      (l.foldl (Totals.addInt isMin) t).count = t.count + l.length := by
  induction l generalizing t with
  | nil => exact ⟨rfl, rfl⟩
  | cons i l ih =>
    obtain ⟨float, count⟩ := ih (t.addInt isMin i)
    refine ⟨float, ?_⟩
    rw [List.foldl_cons, count, List.length_cons]
    change t.count + 1 + l.length = _
    omega

theorem sumBound (l : List Int64) : -(l.length * 2 ^ 63 : Int) ≤ (l.map Int64.toInt).sum ∧
    (l.map Int64.toInt).sum ≤ l.length * 2 ^ 63 := by
  induction l with
  | nil => simp
  | cons i l ih =>
    have low := i.le_toInt
    have high := i.toInt_lt
    rw [List.map_cons, List.sum_cons, List.length_cons]
    push_cast
    omega

theorem foldSum (l : List Int64) (t : Totals) (room : ∀ n ≤ l.length,
      -2 ^ 127 ≤ t.iSum + ((l.take n).map Int64.toInt).sum ∧
        t.iSum + ((l.take n).map Int64.toInt).sum < 2 ^ 127) :
    (l.foldl (Totals.addInt isMin) t).iSum = t.iSum + (l.map Int64.toInt).sum := by
  induction l generalizing t with
  | nil => simp
  | cons i l ih =>
    have one : (t.addInt isMin i).iSum = t.iSum + i.toInt := by
      have inside := room 1 (by simp)
      simp only [List.take_succ_cons, List.take_zero, List.map_cons, List.map_nil, List.sum_cons,
        List.sum_nil, add_zero] at inside
      change Totals.saturatingAdd t.iSum i.toInt = _
      unfold Totals.saturatingAdd
      omega
    rw [List.foldl_cons, ih, one, List.map_cons, List.sum_cons]
    · omega
    · intro n le
      have inside := room (n + 1) (by simpa using le)
      rw [List.take_succ_cons, List.map_cons, List.sum_cons, ← add_assoc] at inside
      rw [one]
      exact inside

theorem foldExtreme (l : List Int64) (t : Totals) :
    (l.foldl (Totals.addInt isMin) t).iExtreme =
      match t.iExtreme with
      | none => if isMin then l.min? else l.max?
      | some c => some (l.foldl (Totals.extremeInt isMin) c) := by
  induction l generalizing t with
  | nil =>
    cases h : t.iExtreme with
    | none => cases isMin <;> exact h
    | some c => exact h
  | cons i l ih =>
    rw [List.foldl_cons, ih]
    cases h : t.iExtreme with
    | none =>
      change some (l.foldl (Totals.extremeInt isMin) (t.iExtreme.elim i _)) = _
      rw [h]
      cases isMin with
      | true => exact (List.min?_cons' : (i :: l).min? = _).symm
      | false => exact (List.max?_cons' : (i :: l).max? = _).symm
    | some c =>
      change some (l.foldl (Totals.extremeInt isMin) (t.iExtreme.elim i _)) = _
      rw [h]
      rfl

theorem integersLength (field : Chars) (rows : List Row) :
    (integers field rows).length ≤ rows.length := List.length_filterMap_le _ _

theorem collectedIntegers (few : rows.length < 2 ^ 63) (data : IntegerData field rows) :
    collectTotals field isMin rows = { collectTotals field isMin rows with
      hasFloat := false
      iSum := ((integers field rows).map Int64.toInt).sum
      count := (integers field rows).length
      iExtreme := if isMin then (integers field rows).min? else (integers field rows).max? } := by
  have short := integersLength field rows
  have total : ((integers field rows).foldl (Totals.addInt isMin) .new).iSum =
      0 + ((integers field rows).map Int64.toInt).sum := by
    apply foldSum
    intro n le
    have bound := sumBound ((integers field rows).take n)
    rw [List.length_take, min_eq_left le] at bound
    change -2 ^ 127 ≤ 0 + _ ∧ 0 + _ < 2 ^ 127
    omega
  obtain ⟨float, count⟩ := @foldPlain isMin (integers field rows) .new
  have extreme := @foldExtreme isMin (integers field rows) .new
  rw [collectIntegers data]
  generalize (integers field rows).foldl (Totals.addInt isMin) .new = t at float count total extreme
  obtain ⟨hasFloat, iSum, fSum, number, iExtreme, fExtreme⟩ := t
  cases float
  cases count.trans (Nat.zero_add _)
  cases total.trans (zero_add _)
  cases extreme
  rfl

theorem clampIntIs (s : Int) : (clampInt s).toInt = max (-2 ^ 63) (min (2 ^ 63 - 1) s) := by
  unfold clampInt
  split
  · change (2 ^ 63 - 1 : Int) = _
    omega
  · split
    · change (-2 ^ 63 : Int) = _
      omega
    · rw [Int64.toInt_ofInt_of_le (by omega) (by omega)]
      omega

/-- The sum of the integers, cut down to 64 bits, where there are any. -/
def SumOf (found : List Int64) (v : Option Value) : Prop :=
  (v = none ↔ found = []) ∧ ∀ x, v = some x → ∃ s : Int64, x = .int s ∧
    s.toInt = max (-2 ^ 63) (min (2 ^ 63 - 1) (found.map Int64.toInt).sum)

def LeastOf (found : List Int64) (v : Option Value) : Prop :=
  (v = none ↔ found = []) ∧ ∀ x, v = some x → ∃ m ∈ found, x = .int m ∧ ∀ i ∈ found, m.toInt ≤ i.toInt

def GreatestOf (found : List Int64) (v : Option Value) : Prop :=
  (v = none ↔ found = []) ∧ ∀ x, v = some x → ∃ m ∈ found, x = .int m ∧ ∀ i ∈ found, i.toInt ≤ m.toInt

theorem sumExact (few : rows.length < 2 ^ 63) (data : IntegerData field rows) :
    SumOf (integers field rows) (sumOf (collectTotals field false rows)) := by
  rw [collectedIntegers few data]
  unfold sumOf
  by_cases none : integers field rows = []
  · simp [none, SumOf]
  · have some_ : (integers field rows).length ≠ 0 := fun zero => none (List.eq_nil_of_length_eq_zero zero)
    rw [if_neg some_]
    refine ⟨by simp [none], fun x is => ?_⟩
    cases is
    exact ⟨_, rfl, clampIntIs _⟩

theorem leastExact (few : rows.length < 2 ^ 63) (data : IntegerData field rows) :
    LeastOf (integers field rows) (extremeOf (collectTotals field true rows)) := by
  rw [collectedIntegers few data]
  unfold extremeOf
  by_cases none : integers field rows = []
  · simp [none, LeastOf]
  · have some_ : (integers field rows).length ≠ 0 := fun zero => none (List.eq_nil_of_length_eq_zero zero)
    rw [if_neg some_]
    obtain ⟨m, least⟩ := Option.ne_none_iff_exists'.mp (mt List.min?_eq_none_iff.mp none)
    obtain ⟨mem, below⟩ := List.min?_eq_some_iff.mp least
    simp only [if_true, least, Bool.false_eq_true, if_false, Option.map_some]
    refine ⟨by simp [none], fun x is => ?_⟩
    cases is
    exact ⟨m, mem, rfl, fun i mi => Int64.le_iff_toInt_le.mp (below i mi)⟩

theorem greatestExact (few : rows.length < 2 ^ 63) (data : IntegerData field rows) :
    GreatestOf (integers field rows) (extremeOf (collectTotals field false rows)) := by
  rw [collectedIntegers few data]
  unfold extremeOf
  by_cases none : integers field rows = []
  · simp [none, GreatestOf]
  · have some_ : (integers field rows).length ≠ 0 := fun zero => none (List.eq_nil_of_length_eq_zero zero)
    rw [if_neg some_]
    obtain ⟨m, greatest⟩ := Option.ne_none_iff_exists'.mp (mt List.max?_eq_none_iff.mp none)
    obtain ⟨mem, above⟩ := List.max?_eq_some_iff.mp greatest
    simp only [greatest, Bool.false_eq_true, if_false, Option.map_some]
    refine ⟨by simp [none], fun x is => ?_⟩
    cases is
    exact ⟨m, mem, rfl, fun i mi => Int64.le_iff_toInt_le.mp (above i mi)⟩

theorem permutedInteger {rows' : List Row} (perm : rows.Perm rows') (few : rows.length < 2 ^ 63)
    (data : IntegerData field rows) : rows'.length < 2 ^ 63 ∧ IntegerData field rows' ∧
      (integers field rows).Perm (integers field rows') :=
  ⟨perm.length_eq ▸ few, fun r m => data r (perm.mem_iff.mpr m), perm.filterMap _⟩

end Integers

/-- Over integers every aggregate but the average is exact, whatever the order of the rows. -/
theorem aggregatesExact {field : Chars} {rows : List Row} (few : rows.length < 2 ^ 63)
    (data : IntegerData field rows) :
    (∃ n : Int64, aggregateRows rows .count = .ok (some (.int n)) ∧ n.toInt = rows.length) ∧
      (∃ v, aggregateRows rows (.sum field) = .ok v ∧ SumOf (integers field rows) v) ∧
      (∃ v, aggregateRows rows (.min field) = .ok v ∧ LeastOf (integers field rows) v) ∧
      (∃ v, aggregateRows rows (.max field) = .ok v ∧ GreatestOf (integers field rows) v) ∧
      ∀ rows' : List Row, rows.Perm rows' →
        ∀ agg ∈ [Aggregate.count, .sum field, .min field, .max field],
          aggregateRows rows' agg = aggregateRows rows agg := by
  refine ⟨⟨_, rfl, Int64.toInt_ofInt_of_le (by omega) (by omega)⟩, ⟨_, rfl, sumExact few data⟩,
    ⟨_, rfl, leastExact few data⟩, ⟨_, rfl, greatestExact few data⟩, ?_⟩
  intro rows' perm agg mem
  obtain ⟨few', data', same⟩ := permutedInteger perm few data
  have total : ((integers field rows').map Int64.toInt).sum =
      ((integers field rows).map Int64.toInt).sum := (same.map _).sum_eq.symm
  have size : (integers field rows').length = (integers field rows).length := same.length_eq.symm
  have least : (integers field rows').min? = (integers field rows).min? := by
    apply Option.ext
    intro m
    rw [List.min?_eq_some_iff, List.min?_eq_some_iff]
    simp only [same.mem_iff]
  have greatest : (integers field rows').max? = (integers field rows).max? := by
    apply Option.ext
    intro m
    rw [List.max?_eq_some_iff, List.max?_eq_some_iff]
    simp only [same.mem_iff]
  simp only [List.mem_cons, List.not_mem_nil, or_false] at mem
  rcases mem with rfl | rfl | rfl | rfl
  · rw [aggregateRows, aggregateRows, perm.length_eq]
  · rw [aggregateRows, aggregateRows, collectedIntegers few data, collectedIntegers few' data']
    unfold sumOf
    simp only [total, size, Bool.false_eq_true, if_false]
  · rw [aggregateRows, aggregateRows, collectedIntegers few data, collectedIntegers few' data']
    unfold extremeOf
    simp only [least, size, Bool.false_eq_true, if_false, if_true]
  · rw [aggregateRows, aggregateRows, collectedIntegers few data, collectedIntegers few' data']
    unfold extremeOf
    simp only [greatest, size, Bool.false_eq_true, if_false]

theorem aggregatesExactLarge :
    let rows : List Row := [(⟨[97], by decide⟩, ⟨[(['n'], .int Int64.maxValue)]⟩),
      (⟨[98], by decide⟩, ⟨[(['n'], .null)]⟩), (⟨[99], by decide⟩, ⟨[(['n'], .int Int64.maxValue)]⟩),
      (⟨[100], by decide⟩, ⟨[(['n'], .string ⟨[120], by decide⟩)]⟩)]
    ∃ v, aggregateRows rows (.sum ['n']) = .ok v ∧ SumOf (integers ['n'] rows) v := by
  intro rows
  have data : IntegerData ['n'] rows := by
    intro r m x
    simp only [rows, List.mem_cons, List.not_mem_nil, or_false] at m
    rcases m with rfl | rfl | rfl | rfl <;> simp [Entity.field]
  exact (aggregatesExact (by decide) data).2.1

end MyLsmDb.Executor
