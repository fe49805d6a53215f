import MyLsmDb.FloatExact
import MyLsmDb.Translate

/-! Which values reach the planner: the places of an expression keep their order, and a number
goes through a float on its way. -/
namespace MyLsmDb.Lsmql
open Text (Chars)

namespace Expr

@[elab_as_elim, induction_eliminator]
theorem byCases {motive : Expr → Prop} (and : ∀ es, (∀ e ∈ es, motive e) → motive (.and es))
    (or : ∀ es, (∀ e ∈ es, motive e) → motive (.or es))
    (not : ∀ e, motive e → motive (.not e)) (pred : ∀ p, motive (.pred p)) (e : Expr) :
    motive e := by
  refine @Expr.rec motive (fun es => ∀ e ∈ es, motive e) and or not pred ?_ ?_ e
  · intro e mem
    exact absurd mem List.not_mem_nil
  · intro head tail first rest e mem
    rcases List.mem_cons.mp mem with rfl | later
    · exact first
    · exact rest e later

end Expr

def Predicate.values : Predicate → List Value
  | eq _ v => [v]
  | ne _ v => [v]
  | lt _ v => [v]
  | le _ v => [v]
  | gt _ v => [v]
  | ge _ v => [v]
  | in_ _ vals => vals
  | isNull _ => [.null]
  | isAbsent _ => []

mutual

def Expr.values : Expr → List Value
  | .and es => valuesOf es
  | .or es => valuesOf es
  | .not e => e.values
  | .pred p => p.values

def valuesOf : List Expr → List Value
  | [] => []
  | e :: es => e.values ++ valuesOf es

end

def constants : DbPred → List DbValue
  | .and a b => constants a ++ constants b
  | .or a b => constants a ++ constants b
  | .not p => constants p
  | .field _ _ v => [v]

section Lists
variable {ε α β γ : Type}

theorem mapMOk {f : α → Except ε β} {xs : List α} {ys : List β} (run : xs.mapM f = .ok ys) :
    List.Forall₂ (fun x y => f x = .ok y) xs ys := by
  induction xs generalizing ys with
  | nil =>
    cases Except.ok.inj run
    exact .nil
  | cons x xs ih =>
    rw [List.mapM_cons] at run
    obtain ⟨y, here, run⟩ := bindOk run
    obtain ⟨rest, later, run⟩ := bindOk run
    cases Except.ok.inj run
    exact .cons here (ih later)

theorem forallTrans {R : α → β → Prop} {S : β → γ → Prop} {xs : List α} {ys : List β} {zs : List γ}
    (left : List.Forall₂ R xs ys) (right : List.Forall₂ S ys zs) :
    List.Forall₂ (fun x z => ∃ y, R x y ∧ S y z) xs zs := by
  induction left generalizing zs with
  | nil =>
    cases right
    exact .nil
  | cons here _ ih =>
    cases right with
    | cons there later => exact .cons ⟨_, here, there⟩ (ih later)

theorem memBoth {R S : α → β → Prop} {xs : List α} {ys : List β} (all : List.Forall₂ R xs ys)
    (also : List.Forall₂ S xs ys) {x : α} (mem : x ∈ xs) : ∃ y, R x y ∧ S x y := by
  induction all with
  | nil => exact absurd mem List.not_mem_nil
  | cons here _ ih =>
    cases also with
    | cons there rest =>
      rcases List.mem_cons.mp mem with rfl | later
      · exact ⟨_, here, there⟩
      · exact ih rest later

theorem forallMem {R S : α → β → Prop} {xs : List α} {ys : List β} (all : List.Forall₂ R xs ys)
    (each : ∀ x ∈ xs, ∀ y, R x y → S x y) : List.Forall₂ S xs ys := by
  induction all with
  | nil => exact .nil
  | cons here _ ih =>
    exact .cons (each _ List.mem_cons_self _ here)
      (ih (fun x mem => each x (List.mem_cons_of_mem _ mem)))

end Lists

theorem substList {params : Params} (es : List Expr) :
    substExprs params es = es.mapM (substExpr params) := by
  induction es with
  | nil => rfl
  | cons e es ih => rw [substExprs, ih, List.mapM_cons]

theorem toPredList (es : List Expr) : toPreds es = es.mapM toPred := by
  induction es with
  | nil => rfl
  | cons e es ih => rw [toPreds, ih, List.mapM_cons]

theorem valuesList (es : List Expr) : valuesOf es = es.flatMap Expr.values := by
  induction es with
  | nil => rfl
  | cons e es ih => rw [valuesOf, ih, List.flatMap_cons]

theorem flatMapForall {α β γ δ : Type} {R : γ → δ → Prop} {S : α → β → Prop} {f : α → List γ}
    {g : β → List δ} {xs : List α} {ys : List β} (all : List.Forall₂ S xs ys)
    (each : ∀ x ∈ xs, ∀ y, S x y → List.Forall₂ R (f x) (g y)) :
    List.Forall₂ R (xs.flatMap f) (ys.flatMap g) := by
  induction all with
  | nil => exact .nil
  | cons here _ ih =>
    rw [List.flatMap_cons, List.flatMap_cons]
    exact List.rel_append (each _ List.mem_cons_self _ here)
      (ih (fun x mem => each x (List.mem_cons_of_mem _ mem)))

theorem substValues {params : Params} {e e' : Expr} (run : substExpr params e = .ok e') :
    List.Forall₂ (fun v w => substValue params v = .ok w) e.values e'.values := by
  induction e generalizing e' with
  | and es ih =>
    unfold substExpr at run
    obtain ⟨es', list, run⟩ := bindOk run
    cases Except.ok.inj run
    rw [Expr.values, Expr.values, valuesList, valuesList]
    exact flatMapForall (mapMOk (substList es ▸ list)) ih
  | or es ih =>
    unfold substExpr at run
    obtain ⟨es', list, run⟩ := bindOk run
    cases Except.ok.inj run
    rw [Expr.values, Expr.values, valuesList, valuesList]
    exact flatMapForall (mapMOk (substList es ▸ list)) ih
  | not e ih =>
    unfold substExpr at run
    obtain ⟨inner, here, run⟩ := bindOk run
    cases Except.ok.inj run
    rw [Expr.values, Expr.values]
    exact ih here
  | pred p =>
    unfold substExpr at run
    obtain ⟨p', here, run⟩ := bindOk run
    cases Except.ok.inj run
    rw [Expr.values, Expr.values]
    cases p with
    | in_ f vals =>
      obtain ⟨vals', list, run⟩ := bindOk here
      cases Except.ok.inj run
      exact mapMOk list
    | isNull f =>
      cases Except.ok.inj here
      exact .cons rfl .nil
    | isAbsent f =>
      cases Except.ok.inj here
      exact .nil
    | _ f v =>
      obtain ⟨w, value, run⟩ := bindOk here
      cases Except.ok.inj run
      exact .cons value .nil

theorem unwrappedOk {α : Type} {x : Translated α} {a : α} (run : unwrapped x = .ok a) : x = .ok a := by
  cases x with
  | ok b => exact run
  | error e => cases run

theorem fieldCmpOk {f : Chars} {cmp : Cmp} {v : Value} {p : DbPred} (run : fieldCmp f cmp v = .ok p) :
    ∃ c, toDbValue v = .ok c ∧ p = .field f cmp c := by
  obtain ⟨c, value, run⟩ := bindOk run
  exact ⟨c, value, (Except.ok.inj run).symm⟩

theorem inOk {f : Chars} {vals : List Value} {acc p : DbPred}
    (run : vals.foldlM (fun acc v => do return .or acc (← unwrapped (fieldCmp f .eq v))) acc =
      (.ok p : Translated DbPred)) :
    ∃ cs, List.Forall₂ (fun v c => toDbValue v = .ok c) vals cs ∧
      p = (cs.map (.field f .eq)).foldl .or acc := by
  induction vals generalizing acc with
  | nil => exact ⟨[], .nil, (Except.ok.inj run).symm⟩
  | cons v vals ih =>
    rw [List.foldlM_cons] at run
    obtain ⟨next, here, run⟩ := bindOk run
    obtain ⟨q, found, here⟩ := bindOk here
    obtain ⟨c, value, rfl⟩ := fieldCmpOk (unwrappedOk found)
    cases Except.ok.inj here
    obtain ⟨cs, values, same⟩ := ih run
    exact ⟨c :: cs, .cons value values, same⟩

theorem joinedOk {join : DbPred → DbPred → DbPred} {feature reason : String} {ps : List DbPred}
    {p : DbPred} (run : joined join (unsupported feature reason) ps = .ok p) :
    ∃ first rest, ps = first :: rest ∧ p = rest.foldl join first := by
  cases ps with
  | nil => cases run
  | cons first rest => exact ⟨first, rest, rfl, (Except.ok.inj run).symm⟩

theorem joinedConstants {join : DbPred → DbPred → DbPred}
    (both : ∀ a b, constants (join a b) = constants a ++ constants b) (rest : List DbPred)
    (first : DbPred) : constants (rest.foldl join first) = (first :: rest).flatMap constants := by
  induction rest generalizing first with
  | nil => exact (List.append_nil _).symm
  | cons p rest ih =>
    rw [List.foldl_cons, ih, List.flatMap_cons, both, List.append_assoc, List.flatMap_cons,
      List.flatMap_cons]

theorem fieldConstants (f : Chars) (cs : List DbValue) :
    (cs.map (Predicate.field f .eq)).flatMap constants = cs := by
  rw [List.flatMap_map]
  exact List.flatMap_singleton' cs

theorem atomConstants {a : Predicate} {p : DbPred} (run : toAtom a = .ok p) :
    List.Forall₂ (fun v c => toDbValue v = .ok c) a.values (constants p) := by
  cases a with
  | in_ f vals =>
    cases vals with
    | nil => cases run
    | cons v vals =>
      obtain ⟨first, here, run⟩ := bindOk run
      obtain ⟨c, value, rfl⟩ := fieldCmpOk here
      obtain ⟨cs, values, rfl⟩ := inOk run
      rw [joinedConstants (fun _ _ => rfl), List.flatMap_cons, fieldConstants]
      exact .cons value values
  | isNull f =>
    cases Except.ok.inj run
    exact .cons rfl .nil
  | isAbsent f => cases run
  | _ f v =>
    obtain ⟨c, value, rfl⟩ := fieldCmpOk run
    exact .cons value .nil

theorem predConstants {e : Expr} {p : DbPred} (run : toPred e = .ok p) :
    List.Forall₂ (fun v c => toDbValue v = .ok c) e.values (constants p) := by
  induction e generalizing p with
  | and es ih =>
    unfold toPred at run
    obtain ⟨ps, list, run⟩ := bindOk run
    obtain ⟨first, rest, rfl, rfl⟩ := joinedOk run
    rw [Expr.values, valuesList, joinedConstants (fun _ _ => rfl)]
    exact flatMapForall (mapMOk (toPredList es ▸ list)) ih
  | or es ih =>
    unfold toPred at run
    obtain ⟨ps, list, run⟩ := bindOk run
    obtain ⟨first, rest, rfl, rfl⟩ := joinedOk run
    rw [Expr.values, valuesList, joinedConstants (fun _ _ => rfl)]
    exact flatMapForall (mapMOk (toPredList es ▸ list)) ih
  | not e ih =>
    unfold toPred at run
    obtain ⟨inner, here, run⟩ := bindOk run
    cases Except.ok.inj run
    rw [Expr.values, constants]
    exact ih here
  | pred a =>
    unfold toPred at run
    rw [Expr.values]
    exact atomConstants run

/-- An integer that is a float, but not the least one. -/
def KeptInt (i : Int64) : Prop := i ≠ Int64.minValue ∧ Binary64.Exact i.toInt.natAbs

/-- A float that is no integer of 64 bits. -/
def KeptFloat (f : UInt64) : Prop :=
  ¬ (Binary64.whole f = true ∧ Binary64.magnitude f < 2 ^ 63 * 2 ^ 1075)

/-- The values that come out of a query as they went in. -/
def Kept : DbValue → Prop
  | .int i => KeptInt i
  | .float f => KeptFloat f
  | .bytes _ => False
  | _ => True

theorem numberValue (n : UInt64) : toDbValue (.number n) =
    .ok (if Binary64.whole n = true ∧ Binary64.magnitude n < 2 ^ 63 * 2 ^ 1075 then
      .int (Binary64.toInt64 n) else .float n) := by
  change (if (Binary64.whole n && Binary64.lt (Binary64.abs n) (Binary64.ofInt (2 ^ 63 - 1))) = true
    then pure (Value.int (Binary64.toInt64 n)) else pure (.float n) : Translated DbValue) = _
  cases whole : Binary64.whole n with
  | false => simp only [Bool.false_and, Bool.false_eq_true, if_false, false_and, pure, Except.pure]
  | true =>
    have isFinite : Binary64.finite n = true := (Bool.and_eq_true_iff.mp whole).1
    rw [Binary64.absBelow isFinite]
    simp only [Bool.true_and, decide_eq_true_eq, true_and]
    split
    · rfl
    · rfl

theorem natAbsSigned {minus : Bool} {n : Nat} {i : Int} (same : i = if minus then -(n : Int) else n) :
    i.natAbs = n := by
  cases minus <;> simp [same]

theorem integerKept {minus : Bool} {n : Nat} {i : Int64} {c : DbValue}
    (same : i.toInt = if minus then -(n : Int) else n)
    (run : toDbValue (.number (Binary64.signed minus (Binary64.nearest n 1))) = .ok c) :
    c = .int i ↔ KeptInt i := by
  have size := natAbsSigned same
  rw [numberValue] at run
  generalize bits : Binary64.signed minus (Binary64.nearest n 1) = f at run
  constructor
  · rintro rfl
    split at run
    · rename_i small
      obtain ⟨whole, below⟩ := small
      obtain ⟨isFinite, rest⟩ := Bool.and_eq_true_iff.mp whole
      have back := Binary64.toInt64Whole isFinite below
      rw [Value.int.inj (Except.ok.inj run)] at back
      have cut : i.toInt.natAbs = Binary64.trunc f := natAbsSigned back
      have total : Binary64.magnitude f = Binary64.trunc f * 2 ^ 1075 :=
        (Nat.div_mul_cancel (Nat.dvd_of_mod_eq_zero (of_decide_eq_true rest))).symm
      rw [total] at below
      have bound := Nat.lt_of_mul_lt_mul_right below
      refine ⟨?_, cut ▸ Binary64.exactOfMagnitude total⟩
      rintro rfl
      rw [Int64.toInt_minValue] at cut
      omega
    · cases run
  · intro kept
    obtain ⟨other, exact_⟩ := kept
    have low := i.le_toInt
    have high := i.toInt_lt
    have least : i.toInt ≠ -2 ^ 63 := fun h => other (Int64.toInt_inj.mp h)
    have small : n < 2 ^ 63 := by omega
    rw [size] at exact_
    obtain ⟨isFinite, total, sign⟩ := @Binary64.signedExact minus n exact_ (by omega)
    rw [bits] at isFinite total sign
    have whole : Binary64.whole f = true := by
      unfold Binary64.whole
      rw [isFinite, total, Nat.mul_mod_left]
      rfl
    have below : Binary64.magnitude f < 2 ^ 63 * 2 ^ 1075 := by
      rw [total]
      exact Nat.mul_lt_mul_of_pos_right small (Nat.two_pow_pos 1075)
    have cut : Binary64.trunc f = n := by
      unfold Binary64.trunc
      rw [total]
      exact Nat.mul_div_cancel n (Nat.two_pow_pos 1075)
    rw [if_pos ⟨whole, below⟩] at run
    rw [← Except.ok.inj run]
    apply congrArg Value.int
    rw [← Int64.toInt_inj, Binary64.toInt64Whole isFinite below, cut, sign, same]

theorem boundKept {x c : DbValue} (run : toDbValue (dbValueToLsmql x) = .ok c) :
    c = x ↔ Kept x := by
  cases x with
  | null =>
    cases Except.ok.inj run
    exact ⟨fun _ => trivial, fun _ => rfl⟩
  | bool b =>
    cases Except.ok.inj run
    exact ⟨fun _ => trivial, fun _ => rfl⟩
  | string s =>
    have same : MyLsmDb.Value.string (.ofChars s.chars) = c := Except.ok.inj run
    rw [charsBack] at same
    exact ⟨fun _ => trivial, fun _ => same.symm⟩
  | bytes b =>
    cases Except.ok.inj run
    exact ⟨MyLsmDb.Value.noConfusion, False.elim⟩
  | int i =>
    have same : i.toInt = if decide (i.toInt < 0) then -(i.toInt.natAbs : Int)
        else i.toInt.natAbs := by
      split
      · rename_i below
        have := of_decide_eq_true below
        omega
      · rename_i above
        have : ¬ i.toInt < 0 := fun below => above (decide_eq_true below)
        omega
    exact integerKept same run
  | float f =>
    change toDbValue (.number f) = .ok c at run
    rw [numberValue] at run
    constructor
    · rintro rfl integer
      rw [if_pos integer] at run
      cases run
    · intro kept
      rw [if_neg kept] at run
      exact (Except.ok.inj run).symm

def filterOf : LogicalPlan → Option DbPred
  | .collection _ => none
  | .filter _ p => some p
  | .sort input _ _ => filterOf input
  | .limit input _ => filterOf input

theorem sortsFilter (items : List OrderItem) (b : QueryBuilder) :
    filterOf (items.foldl (fun b o => b.sort o.field o.dir.asQueryDir) b).plan =
      filterOf b.plan := by
  induction items generalizing b with
  | nil => rfl
  | cons o items ih => exact ih _

theorem limitedFilter {b b' : QueryBuilder} {limit : Option Nat} {offset : Nat}
    (run : limited b limit offset = .ok b') : filterOf b'.plan = filterOf b.plan := by
  cases limit with
  | none => rw [Except.ok.inj run]
  | some n =>
    unfold limited at run
    dsimp only at run
    split at run
    · rw [← Except.ok.inj run]
      rfl
    · cases run

theorem projectPlan {b b' : QueryBuilder} {items : List ProjItem}
    (run : project b items = .ok b') : b'.plan = b.plan := by
  unfold project at run
  dsimp only at run
  cases found : items.filterMap ProjItem.aggregate with
  | nil =>
    rw [found] at run
    rw [← Except.ok.inj run]
    split <;> rfl
  | cons agg rest =>
    rw [found] at run
    dsimp only at run
    split at run
    · cases run
    · rw [← Except.ok.inj run]
      rfl

theorem builderFilter {q : Query} {e : Expr} {b : QueryBuilder} (pred : q.predicate = some e)
    (run : toBuilder q = .ok b) : ∃ p, toPred e = .ok p ∧ filterOf b.plan = some p := by
  unfold toBuilder at run
  rw [pred] at run
  obtain ⟨first, here, run⟩ := bindOk run
  obtain ⟨p, found, here⟩ := bindOk here
  obtain ⟨last, cut, run⟩ := bindOk run
  refine ⟨p, found, ?_⟩
  have same : b.plan = last.plan := by
    cases found : q.projection with
    | star =>
      rw [found] at run
      rw [Except.ok.inj run]
    | items items =>
      rw [found] at run
      exact projectPlan run
  rw [same, limitedFilter cut, sortsFilter, ← Except.ok.inj here]
  rfl

theorem plannedSteps {schema : Schema} {params : Params} {src : Utf8} {q q' : Query}
    {b : QueryBuilder} {e : Expr} (query : parsed src = .ok q) (pred : q.predicate = some e)
    (run : planned schema params src = .ok (q', b)) :
    ∃ e' p, substExpr params e = .ok e' ∧ toPred e' = .ok p ∧ filterOf b.plan = some p := by
  obtain ⟨⟨q₁, b₁⟩, found, run⟩ := bindOk run
  obtain ⟨q₂, again, found⟩ := bindOk found
  cases Except.ok.inj (again.symm.trans query)
  obtain ⟨q₃, put, found⟩ := bindOk found
  obtain ⟨⟨⟩, -, found⟩ := bindOk found
  obtain ⟨b₂, built, found⟩ := bindOk found
  cases Except.ok.inj found
  have last : b₁ = b := by
    dsimp only at run
    split at run
    · cases run
    · exact (Prod.mk.inj (Except.ok.inj run)).2
  subst last
  unfold substituteParams at put
  rw [pred] at put
  obtain ⟨e', value, put⟩ := bindOk put
  cases Except.ok.inj put
  obtain ⟨p, translated, there⟩ := builderFilter rfl built
  exact ⟨e', p, value, translated, there⟩

/-- What stands in the place of a parameter is the value bound to it. -/
def Carried (params : Params) (v : Value) (c : DbValue) : Prop :=
  ∀ name, v = .param name → params name = some c

/-- The query is not refused before it is planned, and this is its predicate. -/
def Accepted (schema : Schema) (params : Params) (src : Utf8) (e : Expr) (p : DbPred) : Prop :=
  ∃ q q' b, parsed src = .ok q ∧ q.predicate = some e ∧
    planned schema params src = .ok (q', b) ∧ filterOf b.plan = some p

theorem acceptedValues {schema : Schema} {params : Params} {src : Utf8} {e : Expr} {p : DbPred}
    (h : Accepted schema params src e p) : List.Forall₂ (fun v c => ∃ w,
      substValue params v = .ok w ∧ toDbValue w = .ok c) e.values (constants p) := by
  obtain ⟨q, q', b, query, pred, run, there⟩ := h
  obtain ⟨e', p', put, translated, found⟩ := plannedSteps query pred run
  cases Option.some.inj (there.symm.trans found)
  exact forallTrans (substValues put) (predConstants translated)

/-- The parameters of a predicate reach the planner as they are bound, or the query is refused. -/
def ParamsKept (schema : Schema) (params : Params) (src : Utf8) : Prop :=
  ∀ e p, Accepted schema params src e p → List.Forall₂ (Carried params) e.values (constants p)

theorem paramsExactly (schema : Schema) (params : Params) (src : Utf8) :
    ParamsKept schema params src ↔ ∀ e p, Accepted schema params src e p →
      ∀ name x, .param name ∈ e.values → params name = some x → Kept x := by
  have each {v : Value} {c : DbValue} (h : ∃ w, substValue params v = .ok w ∧ toDbValue w = .ok c) :
      Carried params v c ↔ ∀ name x, .param name = v → params name = some x → Kept x := by
    obtain ⟨w, put, value⟩ := h
    constructor
    · rintro carried name x rfl bound
      unfold substValue at put
      dsimp only at put
      rw [bound] at put
      cases Except.ok.inj put
      have same := (carried name rfl).symm.trans bound
      exact (boundKept value).mp (Option.some.inj same)
    · rintro kept name rfl
      unfold substValue at put
      dsimp only at put
      cases bound : params name with
      | none =>
        rw [bound] at put
        cases put
      | some x =>
        rw [bound] at put
        cases Except.ok.inj put
        rw [(boundKept value).mpr (kept name x rfl bound)]
  constructor
  · intro kept e p accepted name x mem bound
    obtain ⟨c, h, carried⟩ := memBoth (acceptedValues accepted) (kept e p accepted) mem
    exact (each h).mp carried name x rfl bound
  · intro kept e p accepted
    refine forallMem (acceptedValues accepted) (fun v mem c h => (each h).mpr ?_)
    rintro name x rfl bound
    exact kept e p accepted name x mem bound

def oneFieldSchema : Schema := (((Schema.new.collectionId ['t']).2).fieldId 0 ['f']).2

def boundText : Utf8 where
  bytes := [83, 69, 76, 69, 67, 84, 32, 42, 32, 70, 82, 79, 77, 32, 116, 32, 87, 72, 69, 82, 69, 32,
    102, 32, 61, 32, 36, 120]
  valid := by decide

def oneParam (x : DbValue) : Params := fun name => if name = ['x'] then some x else none

theorem plannedFilter {schema : Schema} {params : Params} {src : Utf8} {p : DbPred}
    (run : (planned schema params src).toOption.map (fun r => filterOf r.2.plan) = some (some p)) :
    ∃ q b, planned schema params src = .ok (q, b) ∧ filterOf b.plan = some p := by
  cases found : planned schema params src with
  | error e =>
    rw [found] at run
    cases run
  | ok r =>
    rw [found] at run
    exact ⟨r.1, r.2, rfl, Option.some.inj run⟩

/-- 2^53 + 1 is bound, and 2^53 is looked for. -/
theorem boundRounded :
    ¬ ParamsKept oneFieldSchema (oneParam (.int 9007199254740993)) boundText := by
  intro kept
  have query : parsed boundText = .ok ⟨false, .star, ['t'],
      some (.pred (.eq ['f'] (.param ['x']))), [], [], none, 0⟩ := rfl
  have run : (planned oneFieldSchema (oneParam (.int 9007199254740993)) boundText).toOption.map
      (fun r => filterOf r.2.plan) = some (some (.field ['f'] .eq (.int 9007199254740992))) := by
    decide +kernel
  obtain ⟨q, b, plan, there⟩ := plannedFilter run
  have all := kept _ _ ⟨_, q, b, query, rfl, plan, there⟩
  cases all with
  | cons carried _ => exact absurd (carried ['x'] rfl) (by decide)

end MyLsmDb.Lsmql
