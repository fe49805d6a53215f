import MyLsmDb.IndexRange
import MyLsmDb.Planner

/-! The bounds that the planner makes of the literals on a field: those of one clause are joined
to the narrowest, those of several clauses to the widest. -/
namespace MyLsmDb.Planner
open ByteOrder (Bytes)
open Text
open Value (encodeOrdered valueCmp valueCmpEq valueCmpGt valueCmpLt)

/-- Of two lower bounds with the same value the inclusive one counts as the stronger. -/
def lowerStronger : Bound → Bound → Bool
  | .unbounded, _ => false
  | _, .unbounded => true
  | .inclusive x, .inclusive y => valueCmp x y = .gt
  | .exclusive x, .exclusive y => valueCmp x y = .gt
  | .inclusive x, .exclusive y => match valueCmp x y with
    | .gt => true
    | .lt => false
    | .eq => true
  | .exclusive x, .inclusive y => match valueCmp x y with
    | .gt => true
    | .lt => false
    | .eq => false

def upperStronger : Bound → Bound → Bool
  | .unbounded, _ => false
  | _, .unbounded => true
  | .inclusive x, .inclusive y => valueCmp x y = .lt
  | .exclusive x, .exclusive y => valueCmp x y = .lt
  | .inclusive x, .exclusive y => match valueCmp x y with
    | .lt => true
    | .gt => false
    | .eq => false
  | .exclusive x, .inclusive y => match valueCmp x y with
    | .lt => true
    | .gt => false
    | .eq => true

def tightenLower (cur next : Bound) : Bound := if lowerStronger next cur then next else cur

def tightenUpper (cur next : Bound) : Bound := if upperStronger next cur then next else cur

def mergeLit (acc : Bound × Bound) (l : Lit) : Bound × Bound :=
  match l.cmp with
  | .eq => (tightenLower acc.1 (.inclusive l.value), tightenUpper acc.2 (.inclusive l.value))
  | .gt => (tightenLower acc.1 (.exclusive l.value), acc.2)
  | .gte => (tightenLower acc.1 (.inclusive l.value), acc.2)
  | .lt => (acc.1, tightenUpper acc.2 (.exclusive l.value))
  | .lte => (acc.1, tightenUpper acc.2 (.inclusive l.value))
  | .ne => acc

/-- The literals that an index on the field can answer. -/
def indexableOn (field : Chars) (lits : List Lit) : List Lit :=
  lits.filter (fun l => l.indexable && l.field = field)

def mergeBounds (lits : List Lit) (field : Chars) : Bound × Bound :=
  (indexableOn field lits).foldl mergeLit (.unbounded, .unbounded)

def loosenLower (cur next : Bound) : Bound := if lowerStronger next cur then cur else next

def loosenUpper (cur next : Bound) : Bound := if upperStronger next cur then cur else next

/-- The weaker of the bounds so far and those of one more clause. -/
def uniteBounds (cur next : Bound × Bound) : Bound × Bound :=
  (loosenLower cur.1 next.1, loosenUpper cur.2 next.2)

def unionBounds (clauses : List (List Lit)) (field : Chars) : Bound × Bound :=
  match clauses with
  | [] => (.unbounded, .unbounded)
  | clause :: rest =>
    rest.foldl (fun cur c => uniteBounds cur (mergeBounds c field)) (mergeBounds clause field)

section Fold
variable {α β : Type} [LinearOrder β]

theorem foldBest {rank : α → β} {f : α → α → α} (one : ∀ a b, f a b = a ∨ f a b = b)
    (left : ∀ a b, rank a ≤ rank (f a b)) (right : ∀ a b, rank b ≤ rank (f a b))
    (l : List α) (a : α) : l.foldl f a ∈ a :: l ∧ ∀ b ∈ a :: l, rank b ≤ rank (l.foldl f a) := by
  induction l generalizing a with
  | nil => exact ⟨List.mem_cons_self, fun b m => (List.mem_singleton.mp m) ▸ le_rfl⟩
  | cons c l ih =>
    obtain ⟨mem, best⟩ := ih (f a c)
    rw [List.foldl_cons]
    constructor
    · rcases List.mem_cons.mp mem with first | later
      · rcases one a c with h | h
        · rw [first, h]
          exact List.mem_cons_self
        · rw [first, h]
          exact List.mem_cons_of_mem _ List.mem_cons_self
      · exact List.mem_cons_of_mem _ (List.mem_cons_of_mem _ later)
    · intro b m
      have next := best (f a c) List.mem_cons_self
      rcases List.mem_cons.mp m with rfl | m
      · exact (left b c).trans next
      · rcases List.mem_cons.mp m with rfl | m
        · exact (right a b).trans next
        · exact best b (List.mem_cons_of_mem _ m)

variable {rank : α → β} {s : α → α → Bool}

theorem foldStrongest (strict : ∀ a b, s a b = true ↔ rank b < rank a) (l : List α) (a : α) :
    l.foldl (fun cur next => if s next cur then next else cur) a ∈ a :: l ∧
      ∀ b ∈ a :: l, rank b ≤ rank (l.foldl (fun cur next => if s next cur then next else cur) a) := by
  apply foldBest
  · intro a b
    split
    · exact .inr rfl
    · exact .inl rfl
  · intro a b
    split
    · rename_i h
      exact le_of_lt ((strict _ _).mp h)
    · exact le_rfl
  · intro a b
    split
    · exact le_rfl
    · rename_i h
      exact not_lt.mp (fun less => h ((strict _ _).mpr less))

theorem foldWeakest (strict : ∀ a b, s a b = true ↔ rank b < rank a) (l : List α) (a : α) :
    l.foldl (fun cur next => if s next cur then cur else next) a ∈ a :: l ∧
      ∀ b ∈ a :: l, rank (l.foldl (fun cur next => if s next cur then cur else next) a) ≤ rank b := by
  have rest := @foldBest α βᵒᵈ _ (OrderDual.toDual ∘ rank)
    (fun cur next => if s next cur then cur else next)
  apply rest
  · intro a b
    split
    · exact .inl rfl
    · exact .inr rfl
  · intro a b
    split
    · exact le_rfl
    · rename_i h
      exact not_lt.mp (fun less => h ((strict _ _).mpr less))
  · intro a b
    split
    · rename_i h
      exact le_of_lt ((strict _ _).mp h)
    · exact le_rfl

end Fold

section Rank

/-- The order of `lowerStronger`: among bounds at the same value the inclusive one is higher. -/
def lowerRank : Bound → WithBot (Bytes ×ₗ Nat)
  | .unbounded => ⊥
  | .exclusive v => ↑(toLex (encodeOrdered v, 0))
  | .inclusive v => ↑(toLex (encodeOrdered v, 1))

def upperRank : Bound → WithTop (Bytes ×ₗ Nat)
  | .unbounded => ⊤
  | .exclusive v => ↑(toLex (encodeOrdered v, 0))
  | .inclusive v => ↑(toLex (encodeOrdered v, 1))

/-- The encodings that a lower bound lets through. -/
def Above : Bound → Bytes → Prop
  | .unbounded, _ => True
  | .inclusive v, key => encodeOrdered v ≤ key
  | .exclusive v, key => encodeOrdered v < key

def Below : Bound → Bytes → Prop
  | .unbounded, _ => True
  | .inclusive v, key => key ≤ encodeOrdered v
  | .exclusive v, key => key < encodeOrdered v

theorem lexLt {a b : Bytes} {m n : Nat} : (toLex (a, m) : Bytes ×ₗ Nat) < toLex (b, n) ↔
    a < b ∨ a = b ∧ m < n := Prod.Lex.toLex_lt_toLex

theorem lowerStrongerIff (a b : Bound) : lowerStronger a b = true ↔ lowerRank b < lowerRank a := by
  cases a with
  | unbounded => cases b <;> simp [lowerStronger, lowerRank]
  | inclusive x =>
    cases b with
    | unbounded => simp [lowerStronger, lowerRank]
    | inclusive y => simp [lowerStronger, lowerRank, lexLt, valueCmpGt]
    | exclusive y =>
      simp only [lowerStronger, lowerRank, WithBot.coe_lt_coe, lexLt]
      cases h : valueCmp x y with
      | lt => simp [lt_asymm (valueCmpLt.mp h), (valueCmpLt.mp h).ne']
      | eq => simp [valueCmpEq.mp h]
      | gt => simp [valueCmpGt.mp h]
  | exclusive x =>
    cases b with
    | unbounded => simp [lowerStronger, lowerRank]
    | inclusive y =>
      simp only [lowerStronger, lowerRank, WithBot.coe_lt_coe, lexLt]
      cases h : valueCmp x y with
      | lt => simp [lt_asymm (valueCmpLt.mp h)]
      | eq => simp [valueCmpEq.mp h]
      | gt => simp [valueCmpGt.mp h]
    | exclusive y => simp [lowerStronger, lowerRank, lexLt, valueCmpGt]

theorem upperStrongerIff (a b : Bound) : upperStronger a b = true ↔ upperRank a < upperRank b := by
  cases a with
  | unbounded => cases b <;> simp [upperStronger, upperRank]
  | inclusive x =>
    cases b with
    | unbounded => simp [upperStronger, upperRank]
    | inclusive y => simp [upperStronger, upperRank, lexLt, valueCmpLt]
    | exclusive y =>
      simp only [upperStronger, upperRank, WithTop.coe_lt_coe, lexLt]
      cases h : valueCmp x y with
      | lt => simp [valueCmpLt.mp h]
      | eq => simp [valueCmpEq.mp h]
      | gt => simp [lt_asymm (valueCmpGt.mp h)]
  | exclusive x =>
    cases b with
    | unbounded => simp [upperStronger, upperRank]
    | inclusive y =>
      simp only [upperStronger, upperRank, WithTop.coe_lt_coe, lexLt]
      cases h : valueCmp x y with
      | lt => simp [valueCmpLt.mp h]
      | eq => simp [valueCmpEq.mp h]
      | gt => simp [lt_asymm (valueCmpGt.mp h), (valueCmpGt.mp h).ne']
    | exclusive y => simp [upperStronger, upperRank, lexLt, valueCmpLt]

theorem withinIff (v : Value) (lower upper : Bound) :
    within v lower upper = true ↔ Above lower (encodeOrdered v) ∧ Below upper (encodeOrdered v) := by
  rw [within.eq_def]
  refine Bool.and_eq_true_iff.trans (and_congr ?_ ?_)
  · cases lower with
    | unbounded => simp [Above]
    | inclusive w => simp [Above, valueCmpLt]
    | exclusive w => simp [Above, valueCmpGt]
  · cases upper with
    | unbounded => simp [Below]
    | inclusive w => simp [Below, valueCmpGt]
    | exclusive w => simp [Below, valueCmpLt]

theorem belowRank {b : Bound} {key : Bytes} :
    Below b key ↔ ((toLex (key, 1) : Bytes ×ₗ Nat) : WithTop _) ≤ upperRank b := by
  cases b with
  | unbounded => simp [Below, upperRank]
  | inclusive v =>
    simp only [Below, upperRank, WithTop.coe_le_coe, Prod.Lex.toLex_le_toLex]
    exact ⟨fun h => (lt_or_eq_of_le h).imp_right (fun e => ⟨e, le_rfl⟩),
      fun h => h.elim le_of_lt (fun e => e.1.le)⟩
  | exclusive v =>
    simp only [Below, upperRank, WithTop.coe_le_coe, Prod.Lex.toLex_le_toLex]
    simp

/-- The value of a lower bound is not above the key. -/
def From (b : Bound) (key : Bytes) : Prop :=
  lowerRank b ≤ ((toLex (key, 1) : Bytes ×ₗ Nat) : WithBot _)

theorem fromIff {b : Bound} {key : Bytes} : From b key ↔
    match b with
    | .unbounded => True
    | .inclusive v => encodeOrdered v ≤ key
    | .exclusive v => encodeOrdered v ≤ key := by
  unfold From
  cases b with
  | unbounded => simp [lowerRank]
  | inclusive v =>
    simp only [lowerRank, WithBot.coe_le_coe, Prod.Lex.toLex_le_toLex]
    exact ⟨fun h => h.elim le_of_lt (fun e => e.1.le),
      fun h => (lt_or_eq_of_le h).imp_right (fun e => ⟨e, le_rfl⟩)⟩
  | exclusive v =>
    simp only [lowerRank, WithBot.coe_le_coe, Prod.Lex.toLex_le_toLex]
    exact ⟨fun h => h.elim le_of_lt (fun e => e.1.le),
      fun h => (lt_or_eq_of_le h).imp_right (fun e => ⟨e, Nat.zero_le _⟩)⟩

theorem Above.from_ {b : Bound} {key : Bytes} (h : Above b key) : From b key := by
  rw [fromIff]
  cases b with
  | unbounded => trivial
  | inclusive v => exact h
  | exclusive v => exact le_of_lt h

theorem From.above {b : Bound} {key : Bytes} (h : From b key) :
    Above b key ∨ ∃ s, b = .exclusive s ∧ encodeOrdered s = key := by
  rw [fromIff] at h
  cases b with
  | unbounded => exact .inl trivial
  | inclusive v => exact .inl h
  | exclusive v =>
    rcases lt_or_eq_of_le h with less | same
    · exact .inl less
    · exact .inr ⟨v, rfl, same⟩

/-- A stronger lower bound lets through less, but for the tie of the two kinds. -/
theorem aboveMono {a b : Bound} {key : Bytes} (le : lowerRank b ≤ lowerRank a)
    (h : Above a key) : Above b key ∨
      ∃ s i, b = .exclusive s ∧ a = .inclusive i ∧ encodeOrdered s = key ∧ encodeOrdered i = key := by
  have start : From b key := le.trans h.from_
  rcases start.above with above | ⟨s, rfl, same⟩
  · exact .inl above
  · cases a with
    | unbounded => simp [lowerRank] at le
    | exclusive v =>
      have more : encodeOrdered s ≤ encodeOrdered v := by
        simp only [lowerRank, WithBot.coe_le_coe, Prod.Lex.toLex_le_toLex] at le
        exact le.elim le_of_lt (fun e => e.1.le)
      exact .inl (more.trans_lt h)
    | inclusive i =>
      refine .inr ⟨s, i, rfl, rfl, same, ?_⟩
      have more : encodeOrdered s ≤ encodeOrdered i := by
        simp only [lowerRank, WithBot.coe_le_coe, Prod.Lex.toLex_le_toLex] at le
        exact le.elim le_of_lt (fun e => e.1.le)
      exact le_antisymm h (same ▸ more)

end Rank

section Literals

def lowerOf (l : Lit) : Option Bound :=
  match l.cmp with
  | .eq => some (.inclusive l.value)
  | .gte => some (.inclusive l.value)
  | .gt => some (.exclusive l.value)
  | _ => none

def upperOf (l : Lit) : Option Bound :=
  match l.cmp with
  | .eq => some (.inclusive l.value)
  | .lte => some (.inclusive l.value)
  | .lt => some (.exclusive l.value)
  | _ => none

def lowers (lits : List Lit) (field : Chars) : List Bound := (indexableOn field lits).filterMap lowerOf

def uppers (lits : List Lit) (field : Chars) : List Bound := (indexableOn field lits).filterMap upperOf

theorem mergeFold (l : List Lit) (acc : Bound × Bound) : l.foldl mergeLit acc =
    ((l.filterMap lowerOf).foldl tightenLower acc.1,
      (l.filterMap upperOf).foldl tightenUpper acc.2) := by
  induction l generalizing acc with
  | nil => rfl
  | cons lit l ih =>
    rw [List.foldl_cons, ih]
    cases h : lit.cmp <;> simp [mergeLit, lowerOf, upperOf, h]

theorem mergeBoundsParts (lits : List Lit) (field : Chars) : mergeBounds lits field =
    ((lowers lits field).foldl tightenLower .unbounded,
      (uppers lits field).foldl tightenUpper .unbounded) := mergeFold _ _

theorem mergedLower (lits : List Lit) (field : Chars) :
    (mergeBounds lits field).1 ∈ .unbounded :: lowers lits field ∧
      ∀ b ∈ lowers lits field, lowerRank b ≤ lowerRank (mergeBounds lits field).1 := by
  rw [mergeBoundsParts]
  obtain ⟨mem, best⟩ := foldStrongest lowerStrongerIff (lowers lits field) .unbounded
  exact ⟨mem, fun b m => best b (List.mem_cons_of_mem _ m)⟩

theorem mergedUpper (lits : List Lit) (field : Chars) :
    (mergeBounds lits field).2 ∈ .unbounded :: uppers lits field ∧
      ∀ b ∈ uppers lits field, upperRank (mergeBounds lits field).2 ≤ upperRank b := by
  rw [mergeBoundsParts]
  obtain ⟨mem, best⟩ := @foldStrongest _ _ _ (OrderDual.toDual ∘ upperRank) _ upperStrongerIff
    (uppers lits field) .unbounded
  exact ⟨mem, fun b m => best b (List.mem_cons_of_mem _ m)⟩

/-- A strict comparison as the one that also takes the value itself. -/
def weakened : Cmp → Cmp
  | .gt => .gte
  | c => c

theorem indexableCmp {field : Chars} {lits : List Lit} {l : Lit} (m : l ∈ indexableOn field lits) :
    l.cmp ≠ .ne := by
  have good := (List.mem_filter.mp m).2
  simp only [Lit.indexable, Bool.and_eq_true, decide_eq_true_eq] at good
  exact good.1.2

theorem compareIff {l : Lit} (some_ : l.cmp ≠ .ne) (v : Value) :
    Predicate.compare v l.cmp l.value = true ↔
      (∀ b, lowerOf l = some b → Above b (encodeOrdered v)) ∧
        ∀ b, upperOf l = some b → Below b (encodeOrdered v) := by
  cases h : l.cmp with
  | ne => exact absurd h some_
  | eq =>
    simp only [Predicate.compare, lowerOf, upperOf, h, Option.some.injEq, forall_eq', Above, Below,
      decide_eq_true_eq, valueCmpEq]
    exact ⟨fun e => ⟨e.ge, e.le⟩, fun e => le_antisymm e.2 e.1⟩
  | lt => simp [Predicate.compare, lowerOf, upperOf, h, Below, valueCmpLt]
  | lte => simp [Predicate.compare, lowerOf, upperOf, h, Below, valueCmpGt]
  | gt => simp [Predicate.compare, lowerOf, upperOf, h, Above, valueCmpGt]
  | gte => simp [Predicate.compare, lowerOf, upperOf, h, Above, valueCmpLt]

theorem weakenedIff {l : Lit} (some_ : l.cmp ≠ .ne) (v : Value) :
    Predicate.compare v (weakened l.cmp) l.value = true ↔
      (∀ b, lowerOf l = some b → From b (encodeOrdered v)) ∧
        ∀ b, upperOf l = some b → Below b (encodeOrdered v) := by
  have same : l.cmp ≠ .gt → ((∀ b, lowerOf l = some b → From b (encodeOrdered v)) ↔
      ∀ b, lowerOf l = some b → Above b (encodeOrdered v)) := by
    intro other
    cases h : l.cmp <;> simp_all [lowerOf, fromIff, Above]
  by_cases strict : l.cmp = .gt
  · simp [strict, weakened, Predicate.compare, lowerOf, upperOf, fromIff, valueCmpLt]
  · have kept : weakened l.cmp = l.cmp := by
      cases h : l.cmp <;> simp_all [weakened]
    rw [kept, compareIff some_, same strict]

end Literals

section Clause

/-- The values that satisfy the literals on the field are those within the merged bounds. -/
def Intersects (lits : List Lit) (field : Chars) : Prop :=
  ∀ v, (∀ l ∈ lits, l.indexable = true → l.field = field →
      Predicate.compare v l.cmp l.value = true) ↔
    within v (mergeBounds lits field).1 (mergeBounds lits field).2 = true

/-- A `>` stands beside a `>=` or `=` of the same value, which satisfies all else. -/
def Tied (lits : List Lit) (field : Chars) : Prop :=
  ∃ s ∈ indexableOn field lits, ∃ i ∈ indexableOn field lits,
    s.cmp = .gt ∧ (i.cmp = .eq ∨ i.cmp = .gte) ∧ valueCmp s.value i.value = .eq ∧
      ∀ l ∈ indexableOn field lits, Predicate.compare s.value (weakened l.cmp) l.value = true

variable {lits : List Lit} {field : Chars}

theorem memLowers {b : Bound} : b ∈ lowers lits field ↔
    ∃ l ∈ indexableOn field lits, lowerOf l = some b := List.mem_filterMap

theorem memUppers {b : Bound} : b ∈ uppers lits field ↔
    ∃ l ∈ indexableOn field lits, upperOf l = some b := List.mem_filterMap

theorem lowerExclusive {l : Lit} {v : Value} (h : lowerOf l = some (.exclusive v)) :
    l.cmp = .gt ∧ l.value = v := by
  cases c : l.cmp <;> simp_all [lowerOf]

theorem lowerInclusive {l : Lit} {v : Value} (h : lowerOf l = some (.inclusive v)) :
    (l.cmp = .eq ∨ l.cmp = .gte) ∧ l.value = v := by
  cases c : l.cmp <;> simp_all [lowerOf]

theorem admitsIff (v : Value) : (∀ l ∈ lits, l.indexable = true → l.field = field →
      Predicate.compare v l.cmp l.value = true) ↔
    (∀ b ∈ lowers lits field, Above b (encodeOrdered v)) ∧
      ∀ b ∈ uppers lits field, Below b (encodeOrdered v) := by
  have on : (∀ l ∈ lits, l.indexable = true → l.field = field →
      Predicate.compare v l.cmp l.value = true) ↔
      ∀ l ∈ indexableOn field lits, Predicate.compare v l.cmp l.value = true := by
    simp only [indexableOn, List.mem_filter, Bool.and_eq_true, decide_eq_true_eq]
    exact ⟨fun h l m => h l m.1 m.2.1 m.2.2, fun h l m i f => h l ⟨m, i, f⟩⟩
  rw [on]
  constructor
  · intro h
    constructor
    · intro b m
      obtain ⟨l, ml, eq⟩ := memLowers.mp m
      exact ((compareIff (indexableCmp ml) v).mp (h l ml)).1 b eq
    · intro b m
      obtain ⟨l, ml, eq⟩ := memUppers.mp m
      exact ((compareIff (indexableCmp ml) v).mp (h l ml)).2 b eq
  · intro h l ml
    exact (compareIff (indexableCmp ml) v).mpr
      ⟨fun b eq => h.1 b (memLowers.mpr ⟨l, ml, eq⟩), fun b eq => h.2 b (memUppers.mpr ⟨l, ml, eq⟩)⟩

theorem mergedBelow {key : Bytes} : Below (mergeBounds lits field).2 key ↔
    ∀ b ∈ uppers lits field, Below b key := by
  obtain ⟨mem, best⟩ := mergedUpper lits field
  constructor
  · intro h b m
    exact belowRank.mpr ((belowRank.mp h).trans (best b m))
  · intro h
    rcases List.mem_cons.mp mem with none | m
    · rw [none]
      trivial
    · exact h _ m

theorem mergedFrom {key : Bytes} (h : Above (mergeBounds lits field).1 key) :
    ∀ b ∈ lowers lits field, From b key :=
  fun b m => ((mergedLower lits field).2 b m).trans h.from_

theorem mergedAbove {key : Bytes} (h : ∀ b ∈ lowers lits field, Above b key) :
    Above (mergeBounds lits field).1 key := by
  rcases List.mem_cons.mp (mergedLower lits field).1 with none | m
  · rw [none]
    trivial
  · exact h _ m

theorem intersectsIff (lits : List Lit) (field : Chars) :
    Intersects lits field ↔ ¬ Tied lits field := by
  constructor
  · rintro exact_ ⟨s, ms, i, mi, strict, closed, same, all⟩
    have equal := valueCmpEq.mp same
    have weak := fun l ml => (weakenedIff (indexableCmp ml) s.value).mp (all l ml)
    have inclusive : lowerOf i = some (.inclusive i.value) := by
      rcases closed with c | c
      · simp [lowerOf, c]
      · simp [lowerOf, c]
    have inside : within s.value (mergeBounds lits field).1 (mergeBounds lits field).2 = true := by
      rw [withinIff, mergedBelow]
      constructor
      · obtain ⟨mem, best⟩ := mergedLower lits field
        have over_ := best _ (memLowers.mpr ⟨i, mi, inclusive⟩)
        rcases List.mem_cons.mp mem with none | m
        · rw [none]
          trivial
        · obtain ⟨l, ml, eq⟩ := memLowers.mp m
          rcases ((weak l ml).1 _ eq).above with above | ⟨w, is, at_⟩
          · exact above
          · rw [is] at over_
            simp [lowerRank, Prod.Lex.toLex_le_toLex, at_, equal] at over_
      · intro b m
        obtain ⟨l, ml, eq⟩ := memUppers.mp m
        exact (weak l ml).2 b eq
    have holds := ((admitsIff s.value).mp ((exact_ s.value).mpr inside)).1
    have above : Above (.exclusive s.value) (encodeOrdered s.value) :=
      holds _ (memLowers.mpr ⟨s, ms, by simp [lowerOf, strict]⟩)
    exact lt_irrefl _ above
  · intro untied v
    rw [admitsIff, withinIff, mergedBelow]
    refine ⟨fun h => ⟨mergedAbove h.1, h.2⟩, fun h => ⟨fun b m => ?_, h.2⟩⟩
    obtain ⟨mem, best⟩ := mergedLower lits field
    rcases aboveMono (best b m) h.1 with above | ⟨s, i, rfl, is, atS, atI⟩
    · exact above
    · exfalso
      rw [is] at mem
      obtain ⟨ls, ms, eqS⟩ := memLowers.mp m
      obtain ⟨li, mi, eqI⟩ := memLowers.mp ((List.mem_cons.mp mem).resolve_left (by simp))
      obtain ⟨strict, rfl⟩ := lowerExclusive eqS
      obtain ⟨closed, rfl⟩ := lowerInclusive eqI
      refine untied ⟨ls, ms, li, mi, strict, closed, valueCmpEq.mpr (atS.trans atI.symm), ?_⟩
      intro l ml
      rw [weakenedIff (indexableCmp ml), atS]
      exact ⟨fun b eq => mergedFrom h.1 b (memLowers.mpr ⟨l, ml, eq⟩),
        fun b eq => h.2 b (memUppers.mpr ⟨l, ml, eq⟩)⟩

end Clause

section Clauses

/-- What is within the merged bounds of a clause is within the bounds of all of them. -/
def Covers (clauses : List (List Lit)) (field : Chars) : Prop :=
  (∀ clause ∈ clauses, ∃ l ∈ clause, l.indexable = true ∧ l.field = field) →
    ∀ clause ∈ clauses, ∀ v,
      within v (mergeBounds clause field).1 (mergeBounds clause field).2 = true →
        within v (unionBounds clauses field).1 (unionBounds clauses field).2 = true

/-- The literals let values through from `w` on. -/
def StartsAt (lits : List Lit) (field : Chars) (w : Value) : Prop :=
  (∃ l ∈ indexableOn field lits, (l.cmp = .eq ∨ l.cmp = .gte) ∧ valueCmp l.value w = .eq) ∧
    ∀ l ∈ indexableOn field lits, l.cmp = .eq ∨ l.cmp = .gt ∨ l.cmp = .gte →
      valueCmp l.value w ≠ .gt

/-- The literals let values through above `w`. -/
def StartsBehind (lits : List Lit) (field : Chars) (w : Value) : Prop :=
  (∃ l ∈ indexableOn field lits, l.cmp = .gt ∧ valueCmp l.value w = .eq) ∧
    ∀ l ∈ indexableOn field lits, l.cmp = .eq ∨ l.cmp = .gt ∨ l.cmp = .gte →
      valueCmp l.value w ≠ .gt ∧ (valueCmp l.value w = .eq → l.cmp = .gt)

/-- Of the clauses that start lowest one takes the value where it starts and one does not. -/
def Crossed (clauses : List (List Lit)) (field : Chars) : Prop :=
  ∃ w, (∃ a ∈ clauses, StartsBehind a field w) ∧
    (∃ b ∈ clauses, StartsAt b field w ∧ ∀ l ∈ indexableOn field b,
      l.cmp = .eq ∨ l.cmp = .lt ∨ l.cmp = .lte → Predicate.compare w l.cmp l.value = true) ∧
    ∀ c ∈ clauses, ∃ l ∈ indexableOn field c, (l.cmp = .eq ∨ l.cmp = .gt ∨ l.cmp = .gte) ∧
      valueCmp w l.value ≠ .gt

variable {lits : List Lit} {clauses : List (List Lit)} {field : Chars}

theorem lowerSome {l : Lit} : l.cmp = .eq ∨ l.cmp = .gt ∨ l.cmp = .gte ↔
    l.cmp = .gt ∧ lowerOf l = some (.exclusive l.value) ∨
      (l.cmp = .eq ∨ l.cmp = .gte) ∧ lowerOf l = some (.inclusive l.value) := by
  cases h : l.cmp <;> simp [lowerOf, h]

theorem lowerBounds {l : Lit} {b : Bound} (h : lowerOf l = some b) :
    l.cmp = .gt ∧ b = .exclusive l.value ∨ (l.cmp = .eq ∨ l.cmp = .gte) ∧ b = .inclusive l.value := by
  cases c : l.cmp <;> simp_all [lowerOf]

theorem rankInclusive {b : Bound} {w : Value} : lowerRank b ≤ lowerRank (.inclusive w) ↔
    From b (encodeOrdered w) := .rfl

theorem rankExclusive {b : Bound} {w : Value} : lowerRank b ≤ lowerRank (.exclusive w) ↔
    match b with
    | .unbounded => True
    | .inclusive v => encodeOrdered v < encodeOrdered w
    | .exclusive v => encodeOrdered v ≤ encodeOrdered w := by
  cases b with
  | unbounded => simp [lowerRank]
  | inclusive v => simp [lowerRank, Prod.Lex.toLex_le_toLex]
  | exclusive v =>
    simp only [lowerRank, WithBot.coe_le_coe, Prod.Lex.toLex_le_toLex]
    exact ⟨fun h => h.elim le_of_lt (fun e => e.1.le),
      fun h => (lt_or_eq_of_le h).imp_right (fun e => ⟨e, le_rfl⟩)⟩

theorem exclusiveRank {b : Bound} {w : Value} : lowerRank (.exclusive w) ≤ lowerRank b ↔
    match b with
    | .unbounded => False
    | .inclusive v => encodeOrdered w ≤ encodeOrdered v
    | .exclusive v => encodeOrdered w ≤ encodeOrdered v := by
  cases b with
  | unbounded => simp [lowerRank]
  | inclusive v =>
    simp only [lowerRank, WithBot.coe_le_coe, Prod.Lex.toLex_le_toLex]
    exact ⟨fun h => h.elim le_of_lt (fun e => e.1.le),
      fun h => (lt_or_eq_of_le h).imp_right (fun e => ⟨e, Nat.zero_le _⟩)⟩
  | exclusive v =>
    simp only [lowerRank, WithBot.coe_le_coe, Prod.Lex.toLex_le_toLex]
    exact ⟨fun h => h.elim le_of_lt (fun e => e.1.le),
      fun h => (lt_or_eq_of_le h).imp_right (fun e => ⟨e, le_rfl⟩)⟩

theorem rankSame {b : Bound} {w : Value} :
    (lowerRank b = lowerRank (.inclusive w) ↔
      ∃ v, b = .inclusive v ∧ encodeOrdered v = encodeOrdered w) ∧
    (lowerRank b = lowerRank (.exclusive w) ↔
      ∃ v, b = .exclusive v ∧ encodeOrdered v = encodeOrdered w) := by
  cases b <;> simp [lowerRank]

theorem startsAtIff {w : Value} : StartsAt lits field w ↔
    lowerRank (mergeBounds lits field).1 = lowerRank (.inclusive w) := by
  obtain ⟨mem, best⟩ := mergedLower lits field
  constructor
  · intro starts
    obtain ⟨⟨l, ml, closed, same⟩, all⟩ := starts
    apply le_antisymm
    · rw [rankInclusive]
      rcases List.mem_cons.mp mem with none | m
      · rw [none, fromIff]
        trivial
      · obtain ⟨k, mk, eq⟩ := memLowers.mp m
        rw [fromIff]
        rcases lowerBounds eq with ⟨c, is⟩ | ⟨c, is⟩
        · rw [is]
          exact not_lt.mp (fun more => all k mk (.inr (.inl c)) (valueCmpGt.mpr more))
        · rw [is]
          exact not_lt.mp (fun more => all k mk (c.imp_right .inr) (valueCmpGt.mpr more))
    · have inclusive : lowerOf l = some (.inclusive l.value) := by
        rcases closed with c | c
        · simp [lowerOf, c]
        · simp [lowerOf, c]
      have high := best _ (memLowers.mpr ⟨l, ml, inclusive⟩)
      have equal : lowerRank (.inclusive l.value) = lowerRank (.inclusive w) :=
        rankSame.1.mpr ⟨_, rfl, valueCmpEq.mp same⟩
      rwa [equal] at high
  · intro rank
    obtain ⟨v, is, same⟩ := rankSame.1.mp rank
    rw [is] at mem
    obtain ⟨l, ml, eq⟩ := memLowers.mp ((List.mem_cons.mp mem).resolve_left (by simp))
    obtain ⟨closed, rfl⟩ := lowerInclusive eq
    refine ⟨⟨l, ml, closed, valueCmpEq.mpr same⟩, fun k mk lower more => ?_⟩
    have above := valueCmpGt.mp more
    rcases lowerSome.mp lower with ⟨-, found⟩ | ⟨-, found⟩
    · have le := best _ (memLowers.mpr ⟨k, mk, found⟩)
      rw [rank, rankInclusive, fromIff] at le
      exact absurd above (not_lt.mpr le)
    · have le := best _ (memLowers.mpr ⟨k, mk, found⟩)
      rw [rank, rankInclusive, fromIff] at le
      exact absurd above (not_lt.mpr le)

theorem startsBehindIff {w : Value} : StartsBehind lits field w ↔
    lowerRank (mergeBounds lits field).1 = lowerRank (.exclusive w) := by
  obtain ⟨mem, best⟩ := mergedLower lits field
  constructor
  · intro starts
    obtain ⟨⟨l, ml, strict, same⟩, all⟩ := starts
    apply le_antisymm
    · rw [rankExclusive]
      rcases List.mem_cons.mp mem with none | m
      · rw [none]
        trivial
      · obtain ⟨k, mk, eq⟩ := memLowers.mp m
        rcases lowerBounds eq with ⟨c, is⟩ | ⟨c, is⟩
        · rw [is]
          exact not_lt.mp (fun more => (all k mk (.inr (.inl c))).1 (valueCmpGt.mpr more))
        · rw [is]
          have le := not_lt.mp (fun more => (all k mk (c.imp_right .inr)).1 (valueCmpGt.mpr more))
          refine lt_of_le_of_ne le (fun equal => ?_)
          have open_ := (all k mk (c.imp_right .inr)).2 (valueCmpEq.mpr equal)
          simp [open_] at c
    · have high := best _ (memLowers.mpr ⟨l, ml, show lowerOf l = some (.exclusive l.value) by
        simp [lowerOf, strict]⟩)
      have equal : lowerRank (.exclusive l.value) = lowerRank (.exclusive w) :=
        rankSame.2.mpr ⟨_, rfl, valueCmpEq.mp same⟩
      rwa [equal] at high
  · intro rank
    obtain ⟨v, is, same⟩ := rankSame.2.mp rank
    rw [is] at mem
    obtain ⟨l, ml, eq⟩ := memLowers.mp ((List.mem_cons.mp mem).resolve_left (by simp))
    obtain ⟨strict, rfl⟩ := lowerExclusive eq
    refine ⟨⟨l, ml, strict, valueCmpEq.mpr same⟩, fun k mk lower => ?_⟩
    rcases lowerSome.mp lower with ⟨open_, found⟩ | ⟨-, found⟩
    · have le := best _ (memLowers.mpr ⟨k, mk, found⟩)
      rw [rank, rankExclusive] at le
      exact ⟨fun more => absurd (valueCmpGt.mp more) (not_lt.mpr le), fun _ => open_⟩
    · have less := best _ (memLowers.mpr ⟨k, mk, found⟩)
      rw [rank, rankExclusive] at less
      exact ⟨fun more => lt_asymm less (valueCmpGt.mp more),
        fun equal => absurd (valueCmpEq.mp equal) less.ne⟩

theorem united (some_ : clauses ≠ []) :
    (∃ c ∈ clauses, (unionBounds clauses field).1 = (mergeBounds c field).1) ∧
      ∀ c ∈ clauses, lowerRank (unionBounds clauses field).1 ≤ lowerRank (mergeBounds c field).1 ∧
        upperRank (mergeBounds c field).2 ≤ upperRank (unionBounds clauses field).2 := by
  cases clauses with
  | nil => exact absurd rfl some_
  | cons clause rest =>
    have folded : unionBounds (clause :: rest) field =
        (rest.map (fun c => mergeBounds c field)).foldl uniteBounds (mergeBounds clause field) := by
      rw [unionBounds, List.foldl_map]
    have parts : ∀ (l : List (Bound × Bound)) (a : Bound × Bound), l.foldl uniteBounds a =
        ((l.map Prod.fst).foldl loosenLower a.1, (l.map Prod.snd).foldl loosenUpper a.2) := by
      intro l
      induction l with
      | nil => exact fun _ => rfl
      | cons x l ih => exact fun a => ih (uniteBounds a x)
    have starts := foldWeakest lowerStrongerIff
      ((rest.map (fun c => mergeBounds c field)).map Prod.fst) (mergeBounds clause field).1
    have ends := @foldWeakest _ _ _ (OrderDual.toDual ∘ upperRank) _ upperStrongerIff
      ((rest.map (fun c => mergeBounds c field)).map Prod.snd) (mergeBounds clause field).2
    rw [folded, parts]
    have listed {f : Bound × Bound → Bound} : f (mergeBounds clause field) ::
        (rest.map (fun c => mergeBounds c field)).map f =
        (clause :: rest).map (fun c => f (mergeBounds c field)) := by simp
    constructor
    · have mem := starts.1
      rw [listed] at mem
      obtain ⟨c, mc, eq⟩ := List.mem_map.mp mem
      exact ⟨c, mc, eq.symm⟩
    · intro c mc
      constructor
      · refine starts.2 _ ?_
        rw [listed]
        exact List.mem_map.mpr ⟨c, mc, rfl⟩
      · refine ends.2 _ ?_
        rw [listed]
        exact List.mem_map.mpr ⟨c, mc, rfl⟩

theorem coversIff (clauses : List (List Lit)) (field : Chars) :
    Covers clauses field ↔ ¬ Crossed clauses field := by
  constructor
  · intro covers crossed
    obtain ⟨w, ⟨a, ma, behind⟩, ⟨b, mb, starts, fits⟩, all⟩ := crossed
    have carried : ∀ c ∈ clauses, ∃ l ∈ c, l.indexable = true ∧ l.field = field := by
      intro c mc
      obtain ⟨l, ml, -⟩ := all c mc
      obtain ⟨here, good⟩ := List.mem_filter.mp ml
      exact ⟨l, here, by simpa using good⟩
    obtain ⟨v, is, same⟩ := rankSame.1.mp (startsAtIff.mp starts)
    have inside : within w (mergeBounds b field).1 (mergeBounds b field).2 = true := by
      rw [withinIff, mergedBelow, is]
      refine ⟨same.le, fun u m => ?_⟩
      obtain ⟨l, ml, eq⟩ := memUppers.mp m
      refine ((compareIff (indexableCmp ml) w).mp (fits l ml ?_)).2 u eq
      cases c : l.cmp <;> simp_all [upperOf]
    have found := ((withinIff _ _ _).mp (covers carried b mb w inside)).1
    obtain ⟨⟨c, mc, eq⟩, least⟩ := @united clauses field (List.ne_nil_of_mem ma)
    obtain ⟨l, ml, lower, high⟩ := all c mc
    have le : encodeOrdered w ≤ encodeOrdered l.value := not_lt.mp (fun more =>
      high (valueCmpGt.mpr more))
    have above : lowerRank (.exclusive w) ≤ lowerRank (unionBounds clauses field).1 := by
      rw [eq]
      rcases lowerSome.mp lower with ⟨-, bound⟩ | ⟨-, bound⟩
      · exact (exclusiveRank.mpr le).trans ((mergedLower c field).2 _ (memLowers.mpr ⟨l, ml, bound⟩))
      · exact (exclusiveRank.mpr le).trans ((mergedLower c field).2 _ (memLowers.mpr ⟨l, ml, bound⟩))
    have rank := le_antisymm ((startsBehindIff.mp behind) ▸ (least a ma).1) above
    obtain ⟨s, isS, sameS⟩ := rankSame.2.mp rank
    rw [isS] at found
    exact absurd sameS found.ne
  · intro uncrossed carried b mb v inside
    rw [withinIff] at inside ⊢
    obtain ⟨⟨a, ma, eq⟩, least⟩ := @united clauses field (List.ne_nil_of_mem mb)
    refine ⟨?_, belowRank.mpr ((belowRank.mp inside.2).trans (least b mb).2)⟩
    rcases aboveMono (least b mb).1 inside.1 with above | ⟨s, i, isS, isI, atS, atI⟩
    · exact above
    · refine absurd ⟨s, ⟨a, ma, ?_⟩, ⟨b, mb, ?_, ?_⟩, ?_⟩ uncrossed
      · rw [startsBehindIff, ← eq, isS]
      · rw [startsAtIff, isI]
        exact rankSame.1.mpr ⟨i, rfl, atI.trans atS.symm⟩
      · intro l ml upper
        have kept : weakened l.cmp = l.cmp := by
          rcases upper with c | c | c <;> simp [weakened, c]
        rw [← kept, weakenedIff (indexableCmp ml), atS]
        exact ⟨fun x found => mergedFrom inside.1 x (memLowers.mpr ⟨l, ml, found⟩),
          fun x found => mergedBelow.mp inside.2 x (memUppers.mpr ⟨l, ml, found⟩)⟩
      · intro c mc
        have le := (least c mc).1
        rw [isS] at le
        rcases List.mem_cons.mp (mergedLower c field).1 with none | m
        · rw [none] at le
          exact (exclusiveRank.mp le).elim
        · obtain ⟨l, ml, found⟩ := memLowers.mp m
          refine ⟨l, ml, ?_⟩
          rcases lowerBounds found with ⟨c, is⟩ | ⟨c, is⟩
          · rw [is, exclusiveRank] at le
            exact ⟨.inr (.inl c), fun more => absurd (valueCmpGt.mp more) (not_lt.mpr le)⟩
          · rw [is, exclusiveRank] at le
            exact ⟨c.imp_right .inr, fun more => absurd (valueCmpGt.mp more) (not_lt.mpr le)⟩

end Clauses

/-- Both joins of bounds are right exactly where no `>` ties with a `>=` or `=`. -/
theorem boundsExactly (lits : List Lit) (clauses : List (List Lit)) (field : Chars) :
    Intersects lits field ∧ Covers clauses field ↔
      ¬ Tied lits field ∧ ¬ Crossed clauses field := by
  rw [intersectsIff, coversIff]

/-- `a > 5 AND a >= 5` is read as `a >= 5`, and `a > 5 OR a >= 5` as `a > 5`. -/
theorem inclusiveWins :
    ¬ Intersects [⟨['a'], .gt, .int 5, false⟩, ⟨['a'], .gte, .int 5, false⟩] ['a'] ∧
      ¬ Covers [[⟨['a'], .gt, .int 5, false⟩], [⟨['a'], .gte, .int 5, false⟩]] ['a'] := by
  constructor
  · intro exact_
    have five := exact_ (.int 5)
    revert five
    decide
  · intro covers
    have five := covers (by decide) [⟨['a'], .gte, .int 5, false⟩] (by decide) (.int 5)
    revert five
    decide

end MyLsmDb.Planner
