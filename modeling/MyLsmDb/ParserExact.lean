import MyLsmDb.Grammar

/-! What each function of the parser reads, and from it which token lists the parser accepts. -/
namespace MyLsmDb.Lsmql
open Recognizer
open Text (Chars)

section Parts
variable {α β : Type}

theorem recognizesExpect {want : Tok} (token : want ≠ .eof) :
    Recognizes (expect want) (fun _ ks _ => ks = [want]) := by
  intro ts
  apply recognizesCongr _ (recognizesBranch (M := fun _ _ _ => False) (q := fun found =>
      failWith [.text "expected ", .debug want, .text ", found ", .debug found]) token
    (fun _ tail _ => recognizesPure () tail) (recognizesFail _ fun _ _ _ _ no => no))
  intro t ks u
  constructor
  · intro reads
    obtain ⟨js, rfl, rfl, -⟩ | ⟨-, no⟩ := reads
    · rfl
    · exact no.elim
  · intro single
    exact .inl ⟨[], single, rfl, rfl⟩

theorem recognizesAfter (want : Tok) (token : want ≠ .eof) {p : Parse α} {L : Lookahead Tok α}
    (h : Recognizes p L) :
    Recognizes (expect want >>= fun _ => p) (fun t ks a => ∃ js, ks = want :: js ∧ L t js a) := by
  intro ts
  apply recognizesCongr _ (recognizesBind (recognizesExpect token ts) (fun _ _ rest _ _ => h rest))
  intro t ks a
  constructor
  · intro reads
    obtain ⟨left, right, _, rfl, rfl, here⟩ := reads
    exact ⟨right, rfl, here⟩
  · intro reads
    obtain ⟨js, rfl, here⟩ := reads
    exact ⟨[want], js, (), rfl, rfl, here⟩

theorem recognizesBefore (want : Tok) (token : want ≠ .eof) {p : Parse α} {L : Lookahead Tok α}
    {ts : List Token} (h : RecognizesAt p L ts) (f : α → β) :
    RecognizesAt (p >>= fun a => expect want >>= fun _ => pure (f a))
      (fun _ ks b => ∃ js a, ks = js ++ [want] ∧ L want js a ∧ f a = b) ts := by
  apply recognizesCongr _ (recognizesBind h (fun a _ rest _ _ =>
    recognizesAfter want token (recognizesPure (f a)) rest))
  intro _ ks b
  constructor
  · intro reads
    obtain ⟨left, right, a, rfl, here, js, rfl, rfl, rfl⟩ := reads
    exact ⟨left, a, rfl, here, rfl⟩
  · intro reads
    obtain ⟨js, a, rfl, here, rfl⟩ := reads
    exact ⟨js, [want], a, rfl, here, [], rfl, rfl, rfl⟩

def identName : Tok → Option Chars
  | .ident s => some s
  | _ => none

theorem identField {ks : List Tok} {s : Chars} :
    (∃ k, ks = [k] ∧ identName k = some s) ↔ FieldOf ks s := by
  constructor
  · intro reads
    obtain ⟨k, rfl, found⟩ := reads
    unfold identName at found
    split at found
    · cases found
      exact .ident
    · nomatch found
  · intro reads
    cases reads
    exact ⟨_, rfl, rfl⟩

theorem recognizesIdent : Recognizes expectIdent (fun _ => FieldOf) := by
  intro ts
  refine recognizesCongr (fun _ _ _ => identField) (recognizesOne rfl ?_ ?_ ts)
  · intro t s found
    unfold identName at found
    split at found
    · cases found
      rfl
    · cases found
  · intro t missed
    refine ⟨fun ts => parseError [.text "expected identifier, found ", .debug t] (posOf ts), ?_⟩
    split
    · cases missed
    · rfl

theorem literalValue {ks : List Tok} {v : Value} :
    (∃ k, ks = [k] ∧ literal k = some v) ↔ ValueOf ks v := by
  constructor
  · intro reads
    obtain ⟨k, rfl, found⟩ := reads
    cases k with
    | str s =>
      cases found
      exact .str
    | num n =>
      cases found
      exact .num
    | bool b =>
      cases found
      exact .bool
    | param p =>
      cases found
      exact .param
    | kwNull =>
      cases found
      exact .null
    | _ => nomatch found
  · intro reads
    cases reads
    all_goals exact ⟨_, rfl, rfl⟩

theorem recognizesValue : Recognizes parseValue (fun _ => ValueOf) := by
  intro ts
  refine recognizesCongr (fun _ _ _ => literalValue) (recognizesOne (f := literal) rfl ?_ ?_ ts)
  · intro t v found
    rw [found]
  · intro t missed
    rw [missed]
    exact ⟨_, rfl⟩

theorem aggKindFunction {k : Tok} {kind : AggKind} : aggKind k = some kind ↔ FunctionOf k kind := by
  constructor
  · intro found
    unfold aggKind at found
    split at found
    · cases found
      exact .count
    · cases found
      exact .sum
    · cases found
      exact .avg
    · cases found
      exact .min
    · cases found
      exact .max
    · nomatch found
  · intro reads
    cases reads
    all_goals rfl

theorem recognizesAggKind :
    Recognizes parseAggKind (fun _ ks kind => ∃ k, ks = [k] ∧ aggKind k = some kind) := by
  refine recognizesOne rfl ?_ ?_
  · intro t kind found
    rw [found]
  · intro t missed
    rw [missed]
    exact ⟨_, rfl⟩

theorem comparisonOp {k : Tok} {op : Chars → Value → Predicate} :
    comparison k = some op ↔ OpOf k op := by
  constructor
  · intro found
    unfold comparison at found
    split at found
    · cases found
      exact .eq
    · cases found
      exact .ne
    · cases found
      exact .lt
    · cases found
      exact .le
    · cases found
      exact .gt
    · cases found
      exact .ge
    · nomatch found
  · intro reads
    cases reads
    all_goals rfl

def countOf : Tok → Option Nat
  | .num n => if Binary64.whole n && Binary64.nonnegative n then some (Binary64.toUsize n) else none
  | _ => none

theorem countAccepted {ks : List Tok} {k : Nat} :
    (∃ t, ks = [t] ∧ countOf t = some k) ↔ OffsetOf accepted ks k := by
  constructor
  · intro reads
    obtain ⟨t, rfl, found⟩ := reads
    unfold countOf at found
    split at found
    · split at found
      · rename_i good
        cases found
        obtain ⟨whole, nonnegative⟩ := Bool.and_eq_true_iff.mp good
        exact .int ⟨whole, nonnegative, rfl⟩
      · nomatch found
    · nomatch found
  · intro reads
    cases reads with
    | int counted =>
      obtain ⟨whole, nonnegative, rfl⟩ := counted
      refine ⟨_, rfl, ?_⟩
      exact if_pos (Bool.and_eq_true_iff.mpr ⟨whole, nonnegative⟩)

theorem recognizesUsize : Recognizes parseUsize (fun _ => OffsetOf accepted) := by
  intro ts
  refine recognizesCongr (fun _ _ _ => countAccepted) (recognizesOne rfl ?_ ?_ ts)
  · intro t k found
    unfold countOf at found
    split at found
    · split at found
      · rename_i good
        cases found
        exact if_pos good
      · nomatch found
    · nomatch found
  · intro t missed
    refine ⟨fun ts =>
      parseError [.text "expected non-negative integer, found ", .debug t] (posOf ts), ?_⟩
    unfold countOf at missed
    split at missed
    · split at missed
      · nomatch missed
      · rename_i bad
        exact if_neg bad
    · rename_i other
      cases t with
      | num n => exact absurd rfl (other n)
      | _ => rfl

inductive AggFieldOf : Language Tok (Option Chars)
  | star : AggFieldOf [.star] none
  | field {s} : AggFieldOf [.ident s] (some s)

theorem recognizesAggField : Recognizes parseAggField (fun _ => AggFieldOf) := by
  intro ts
  apply recognizesCongr _ (recognizesBranch (k := .star) (q := fun _ => expectIdent >>= _)
    Tok.noConfusion (fun _ tail _ => recognizesPure none tail)
    (recognizesMap recognizesIdent some ts))
  intro t ks f
  constructor
  · intro reads
    obtain ⟨js, rfl, rfl, rfl⟩ | ⟨-, s, ident, rfl⟩ := reads
    · exact .star
    · cases ident
      exact .field
  · intro reads
    cases reads with
    | star => exact .inl ⟨[], rfl, rfl, rfl⟩
    | field => exact .inr ⟨Tok.noConfusion, _, .ident, rfl⟩

theorem recognizesAggregate :
    Recognizes (parseAggKind >>= fun kind => expect .lparen >>= fun _ => parseAggField >>= fun field =>
      expect .rparen >>= fun _ => pure (ProjItem.agg kind field))
      (fun _ ks i => ∃ k kind js field, ks = k :: .lparen :: js ++ [.rparen] ∧ aggKind k = some kind ∧
        AggFieldOf js field ∧ i = .agg kind field) := by
  intro ts
  apply recognizesCongr _ (recognizesBind (recognizesAggKind ts) (fun kind _ rest _ _ =>
    recognizesAfter .lparen Tok.noConfusion
      (fun rest => recognizesBefore .rparen Tok.noConfusion (recognizesAggField rest)
        (ProjItem.agg kind)) rest))
  intro _ ks i
  constructor
  · intro reads
    obtain ⟨_, _, kind, rfl, ⟨k, rfl, found⟩, _, rfl, js, field, rfl, inner, rfl⟩ := reads
    exact ⟨k, kind, js, field, rfl, found, inner, rfl⟩
  · intro reads
    obtain ⟨k, kind, js, field, rfl, found, inner, rfl⟩ := reads
    exact ⟨[k], _, kind, rfl, ⟨k, rfl, found⟩, _, rfl, js, field, rfl, inner, rfl⟩

theorem recognizesProjItem : Recognizes parseProjItem (fun _ => ItemOf accepted) := by
  intro ts
  unfold parseProjItem
  rw [recognizesAtCongr (peekStep ts)]
  by_cases seen : (aggKind (next ts)).isSome = true
  · rw [if_pos seen]
    apply recognizesHere _ (recognizesAggregate ts)
    intro used rest i split
    rw [split, nextAppend] at seen
    generalize kinds used = ks at seen
    constructor
    · intro reads
      obtain ⟨k, kind, js, field, rfl, found, inner, rfl⟩ := reads
      cases inner with
      | star => exact .star (aggKindFunction.mp found) trivial
      | field => exact .ofField (aggKindFunction.mp found) trivial
    · intro reads
      cases reads with
      | field => nomatch seen
      | star function _ => exact ⟨_, _, _, _, rfl, aggKindFunction.mpr function, .star, rfl⟩
      | ofField function _ => exact ⟨_, _, _, _, rfl, aggKindFunction.mpr function, .field, rfl⟩
  · rw [if_neg seen]
    apply recognizesHere _ (recognizesMap recognizesIdent ProjItem.field ts)
    intro used rest i split
    rw [split, nextAppend] at seen
    generalize kinds used = ks at seen
    constructor
    · intro reads
      obtain ⟨s, ident, rfl⟩ := reads
      cases ident
      exact .field
    · intro reads
      cases reads with
      | field => exact ⟨_, .ident, rfl⟩
      | star function _ => exact absurd (Option.isSome_of_eq_some (aggKindFunction.mpr function)) seen
      | ofField function _ => exact absurd (Option.isSome_of_eq_some (aggKindFunction.mpr function)) seen

theorem itemHead {r : Reading} {ks : List Tok} {i : ProjItem} (h : ItemOf r ks i) :
    ∃ k js, ks = k :: js ∧ k ≠ .star := by
  cases h with
  | field => exact ⟨_, _, rfl, Tok.noConfusion⟩
  | star function _ =>
    refine ⟨_, _, rfl, ?_⟩
    intro same
    subst same
    nomatch function
  | ofField function _ =>
    refine ⟨_, _, rfl, ?_⟩
    intro same
    subst same
    nomatch function

def projectionBefore : Lookahead Tok Projection := fun t ks p =>
  ProjectionOf accepted ks p ∧ (p ≠ .star → t ≠ .comma)

theorem recognizesProjection : Recognizes parseProjection projectionBefore := by
  intro ts
  apply recognizesCongr _ (recognizesBranch (k := Tok.star)
    (q := fun _ => separatedList .comma _ >>= _) Tok.noConfusion
    (fun _ tail _ => recognizesPure Projection.star tail)
    (recognizesMap (recognizesSeparated Tok.noConfusion recognizesProjItem) Projection.items ts))
  intro t ks p
  constructor
  · intro reads
    obtain ⟨js, rfl, rfl, rfl⟩ | ⟨other, is, items, rfl⟩ := reads
    · exact ⟨.star, fun no => absurd rfl no⟩
    · obtain ⟨items, stops⟩ := separatedPlain.mp items
      exact ⟨.items items, fun _ => stops⟩
  · intro reads
    obtain ⟨reads, stops⟩ := reads
    cases reads with
    | star => exact .inl ⟨[], rfl, rfl, rfl⟩
    | items items =>
      obtain ⟨k, js, rfl, other⟩ := separatedHead itemHead items
      refine .inr ⟨other, _, separatedPlain.mpr ⟨items, stops ?_⟩, rfl⟩
      exact Projection.noConfusion

def orderItemBefore : Lookahead Tok OrderItem := fun t ks i =>
  OrderItemOf ks i ∧ (ks.length = 1 → sortDir t = none)

theorem recognizesSortDir : Recognizes parseSortDir (fun t ks dir =>
    (ks = [] ∧ dir = .asc ∧ sortDir t = none) ∨ ∃ k, ks = [k] ∧ sortDir k = some dir) := by
  intro ts
  unfold parseSortDir
  rw [recognizesAtCongr (peekStep ts)]
  cases seen : sortDir (next ts) with
  | none =>
    apply recognizesHere _ (recognizesPure SortDir.asc ts)
    intro used rest i split
    rw [split, nextAppend] at seen
    generalize kinds used = ks at seen
    constructor
    · intro reads
      obtain ⟨rfl, rfl⟩ := reads
      exact .inl ⟨rfl, rfl, seen⟩
    · intro reads
      obtain ⟨rfl, rfl, -⟩ | ⟨k, rfl, found⟩ := reads
      · exact ⟨rfl, rfl⟩
      · nomatch seen.symm.trans found
  | some dir =>
    have token : next ts ≠ .eof := by
      intro last
      rw [last] at seen
      nomatch seen
    obtain ⟨x, tail, rfl, -⟩ := nextToken rfl token
    apply recognizesTake (bumpToken token)
    · intro i reads
      obtain ⟨-, -, other⟩ | ⟨k, none, -⟩ := reads
      · nomatch seen.symm.trans other
      · nomatch none
    · apply recognizesCongr _ (recognizesPure dir tail)
      intro t ks i
      constructor
      · intro reads
        obtain ⟨rfl, rfl⟩ := reads
        exact .inr ⟨_, rfl, seen⟩
      · intro reads
        obtain ⟨none, -⟩ | ⟨k, same, found⟩ := reads
        · nomatch none
        · obtain ⟨rfl, rfl⟩ := List.cons.inj same
          exact ⟨rfl, Option.some.inj (seen.symm.trans found)⟩

theorem recognizesOrderItem : Recognizes parseOrderItem orderItemBefore := by
  intro ts
  apply recognizesCongr _ (recognizesBind (recognizesIdent ts)
    (fun field _ rest _ _ => recognizesMap recognizesSortDir (OrderItem.mk field) rest))
  intro t ks i
  constructor
  · intro reads
    obtain ⟨left, right, field, rfl, ident, dir, after, rfl⟩ := reads
    cases ident
    obtain ⟨rfl, rfl, stops⟩ | ⟨k, rfl, found⟩ := after
    · exact ⟨.plain, fun _ => stops⟩
    · constructor
      · cases k with
        | kwAsc =>
          cases found
          exact .asc
        | kwDesc =>
          cases found
          exact .desc
        | _ => nomatch found
      · intro one
        nomatch one
  · intro reads
    obtain ⟨reads, stops⟩ := reads
    cases reads with
    | plain => exact ⟨_, [], _, rfl, .ident, .asc, .inl ⟨rfl, rfl, stops rfl⟩, rfl⟩
    | asc => exact ⟨_, [.kwAsc], _, rfl, .ident, .asc, .inr ⟨_, rfl, rfl⟩, rfl⟩
    | desc => exact ⟨_, [.kwDesc], _, rfl, .ident, .desc, .inr ⟨_, rfl, rfl⟩, rfl⟩

/-- What is left of `IS …` behind its first token. -/
inductive IsOf (field : Chars) : Tok → Language Tok Expr
  | null : IsOf field .kwNull [] (.pred (.isNull field))
  | notNull : IsOf field .kwNot [.kwNull] (.pred (.ne field .null))
  | absent : IsOf field .kwAbsent [] (.pred (.isAbsent field))

theorem recognizesIs (field : Chars) : Recognizes (parseIs field) (fun _ ks e =>
    ∃ k js, ks = k :: js ∧ IsOf field k js e) := by
  apply recognizesFirst (M := fun k _ => IsOf field k)
  · intro _ _ _ reads
    nomatch reads
  · intro k rest
    have plain {e : Expr} (only : ∀ ks e', IsOf field k ks e' ↔ ks = [] ∧ e = e') :
        RecognizesAt (pure e : Parse Expr) (fun _ => IsOf field k) rest :=
      recognizesCongr (fun _ ks e' => (only ks e').symm) (recognizesPure e rest)
    cases k with
    | kwNot =>
      apply recognizesCongr _ (recognizesAfter .kwNull Tok.noConfusion
        (recognizesPure (Expr.pred (.ne field .null))) rest)
      intro t ks e
      constructor
      · intro reads
        obtain ⟨js, rfl, rfl, rfl⟩ := reads
        exact .notNull
      · intro reads
        cases reads
        exact ⟨[], rfl, rfl, rfl⟩
    | kwNull =>
      apply plain
      intro ks e
      constructor
      · intro reads
        cases reads
        exact ⟨rfl, rfl⟩
      · intro reads
        obtain ⟨rfl, rfl⟩ := reads
        exact .null
    | kwAbsent =>
      apply plain
      intro ks e
      constructor
      · intro reads
        cases reads
        exact ⟨rfl, rfl⟩
      · intro reads
        obtain ⟨rfl, rfl⟩ := reads
        exact .absent
    | _ =>
      apply recognizesFail
      intro _ _ _ _ reads
      nomatch reads

theorem recognizesIn (field : Chars) : Recognizes (parseIn field) (fun _ ks e =>
    ∃ js vs, ks = .lparen :: js ++ [.rparen] ∧ Separated .comma ValueOf js vs ∧
      e = .pred (.in_ field vs)) := by
  intro ts
  apply recognizesCongr _ (recognizesAfter .lparen Tok.noConfusion
    (fun rest => recognizesBefore .rparen Tok.noConfusion
      (recognizesSeparated Tok.noConfusion recognizesValue rest)
      (fun vs => Expr.pred (.in_ field vs))) ts)
  intro t ks e
  constructor
  · intro reads
    obtain ⟨_, rfl, js, vs, rfl, values, rfl⟩ := reads
    exact ⟨js, vs, rfl, (separatedPlain.mp values).1, rfl⟩
  · intro reads
    obtain ⟨js, vs, rfl, values, rfl⟩ := reads
    exact ⟨_, rfl, js, vs, rfl, separatedPlain.mpr ⟨values, Tok.noConfusion⟩, rfl⟩

theorem recognizesComparison (field : Chars) : Recognizes (parseComparison field) (fun _ ks e =>
    ∃ k js, ks = k :: js ∧ ∃ op v, OpOf k op ∧ ValueOf js v ∧ e = .pred (op field v)) := by
  apply recognizesFirst
    (M := fun k _ js e => ∃ op v, OpOf k op ∧ ValueOf js v ∧ e = Expr.pred (op field v))
  · intro _ _ _ reads
    obtain ⟨op, v, operator, -⟩ := reads
    nomatch operator
  · intro k rest
    cases found : comparison k with
    | none =>
      apply recognizesFail
      intro _ _ _ _ reads
      obtain ⟨op, v, operator, -⟩ := reads
      nomatch found.symm.trans (comparisonOp.mpr operator)
    | some op =>
      apply recognizesCongr _ (recognizesMap recognizesValue (fun v => Expr.pred (op field v)) rest)
      intro t ks e
      constructor
      · intro reads
        obtain ⟨v, value, rfl⟩ := reads
        exact ⟨op, v, comparisonOp.mp found, value, rfl⟩
      · intro reads
        obtain ⟨other, v, operator, value, rfl⟩ := reads
        have same := Option.some.inj (found.symm.trans (comparisonOp.mpr operator))
        exact ⟨v, value, by rw [same]⟩

def fieldPred : Language Tok Expr := fun ks e => ∃ p, FieldPredOf ks p ∧ e = .pred p

def fieldRest (field : Chars) : Lookahead Tok Expr := fun _ ks e =>
  fieldPred (.ident field :: ks) e

theorem recognizesFieldRest (field : Chars) : Recognizes (peek >>= fun t =>
    if t = .kwIs then bump >>= fun _ => parseIs field
    else if t = .kwIn then bump >>= fun _ => parseIn field
    else parseComparison field) (fieldRest field) := by
  intro ts
  have inner := (recognizesAtCongr (peekStep ts)).mp (recognizesBranch (k := .kwIn)
    (q := fun _ => parseComparison field) Tok.noConfusion
    (fun _ tail _ => recognizesIn field tail) (recognizesComparison field ts))
  apply recognizesCongr _ (recognizesBranch (k := .kwIs)
    (q := fun t => if t = .kwIn then bump >>= fun _ => parseIn field else parseComparison field)
    Tok.noConfusion (fun _ tail _ => recognizesIs field tail) inner)
  intro t ks e
  constructor
  · intro reads
    obtain ⟨js, rfl, k, rest, rfl, after⟩ | ⟨-, reads⟩ := reads
    · cases after with
      | null => exact ⟨_, .isNull, rfl⟩
      | notNull => exact ⟨_, .isNotNull, rfl⟩
      | absent => exact ⟨_, .isAbsent, rfl⟩
    · obtain ⟨_, rfl, js, vs, rfl, values, rfl⟩ | ⟨-, k, js, rfl, op, v, operator, value, rfl⟩ := reads
      · exact ⟨_, .in_ values, rfl⟩
      · exact ⟨_, .compare operator value, rfl⟩
  · intro reads
    obtain ⟨p, reads, rfl⟩ := reads
    cases reads with
    | isNull => exact .inl ⟨_, rfl, _, _, rfl, .null⟩
    | isNotNull => exact .inl ⟨_, rfl, _, _, rfl, .notNull⟩
    | isAbsent => exact .inl ⟨_, rfl, _, _, rfl, .absent⟩
    | in_ values => exact .inr ⟨Tok.noConfusion, .inl ⟨_, rfl, _, _, rfl, values, rfl⟩⟩
    | @compare f k op js v operator value =>
      have other : k ≠ .kwIs ∧ k ≠ .kwIn := by
        cases operator
        all_goals exact ⟨Tok.noConfusion, Tok.noConfusion⟩
      exact .inr ⟨other.1, .inr ⟨other.2, k, js, rfl, op, v, operator, value, rfl⟩⟩

theorem recognizesFieldPred : Recognizes parseFieldPred (fun _ => fieldPred) := by
  intro ts
  apply recognizesCongr _ (recognizesBind (recognizesIdent ts) (fun field _ rest _ _ =>
    recognizesFieldRest field rest))
  intro t ks e
  constructor
  · intro reads
    obtain ⟨left, right, field, rfl, ident, after⟩ := reads
    cases ident
    exact after
  · intro reads
    have split : ∃ field js, ks = .ident field :: js := by
      obtain ⟨p, reads, -⟩ := reads
      cases reads
      all_goals exact ⟨_, _, rfl⟩
    obtain ⟨field, js, rfl⟩ := split
    exact ⟨[.ident field], js, field, rfl, .ident, reads⟩

end Parts

section Expressions

/- The tokens that do not go on with an expression of the level. Where a chain of `OR` is
read no further, an `AND` is the concern of whoever read its left side. -/
def Follows : Level → Tok → List Tok → Prop
  | .or, t, _ => t ≠ .kwOr ∧ t ≠ .kwAnd
  | .orRest _ _, t, ks => t ≠ .kwOr ∧ (ks ≠ [] → t ≠ .kwAnd)
  | .and, t, _ | .andRest _ _, t, _ => t ≠ .kwAnd
  | _, _, _ => True

def exprBefore (level : Level) : Lookahead Tok Expr := fun t ks e =>
  ExprOf level ks e ∧ Follows level t ks

def parserAt : Level → Nat → Parse Expr
  | .or => parseOr
  | .orRest first more => fun fuel => orLoop fuel (disjunction first more)
  | .and => parseAnd
  | .andRest first more => fun fuel => andLoop fuel (conjunction first more)
  | .not => parseNot
  | .pred => parsePredExpr

/-- The fuel that a level takes on this many tokens. -/
def need : Level → Nat → Nat
  | .or, n => 4 * n + 4
  | .and, n => 4 * n + 3
  | .not, n => 4 * n + 2
  | _, n => 4 * n + 1

theorem orWithLast (first next : Expr) (more : List Expr) :
    (disjunction first more).orWith next = disjunction first (more ++ [next]) := by
  cases more with
  | nil => cases first <;> rfl
  | cons e more =>
    cases first with
    | or es => exact congrArg Expr.or (List.append_assoc es (e :: more) [next])
    | _ => rfl

theorem andWithLast (first next : Expr) (more : List Expr) :
    (conjunction first more).andWith next = conjunction first (more ++ [next]) := by
  cases more with
  | nil => cases first <;> rfl
  | cons e more =>
    cases first with
    | and es => exact congrArg Expr.and (List.append_assoc es (e :: more) [next])
    | _ => rfl

theorem orRestHead {first e : Expr} {more : List Expr} {t : Tok} {ks : List Tok}
    (h : ExprOf (.orRest first more) ks e) (follows : t ≠ .kwAnd) : ahead t ks ≠ .kwAnd := by
  cases h with
  | orEnd => exact follows
  | orMore _ _ => exact Tok.noConfusion

theorem fieldPredHead {t : Tok} {ks : List Tok} {p : Predicate} (h : FieldPredOf ks p) :
    ahead t ks ≠ .lparen := by
  cases h
  all_goals exact Tok.noConfusion

theorem predHead {t : Tok} {ks : List Tok} {e : Expr} (h : ExprOf .pred ks e) :
    ahead t ks ≠ .kwNot := by
  cases h with
  | paren _ => exact Tok.noConfusion
  | field inner =>
    cases inner
    all_goals exact Tok.noConfusion

theorem splitShorter {ts used rest : List Token} (split : ts = used ++ rest) :
    rest.length ≤ ts.length := by
  rw [split, List.length_append]
  exact Nat.le_add_left _ _

/-- Every level is recognized with this much fuel, where it is enough. -/
def Recognized (fuel : Nat) : Prop := ∀ level (ts : List Token), need level ts.length ≤ fuel →
  RecognizesAt (parserAt level fuel) (exprBefore level) ts

section Levels
variable {fuel : Nat} {ts : List Token}

theorem Recognized.or (ih : Recognized fuel) (enough : need .or ts.length ≤ fuel + 1) :
    RecognizesAt (parseOr (fuel + 1)) (exprBefore .or) ts := by
  apply recognizesCongr _ (recognizesBind (M := fun first => exprBefore (.orRest first []))
    (ih .and ts (Nat.le_of_succ_le_succ enough)) _)
  · intro t ks e
    constructor
    · intro reads
      obtain ⟨ks, js, first, rfl, ⟨begins, next⟩, rest, notOr, notAnd⟩ := reads
      refine ⟨.or begins rest, notOr, ?_⟩
      cases js with
      | nil => exact next
      | cons _ _ => exact notAnd (List.cons_ne_nil _ _)
    · intro reads
      obtain ⟨reads, notOr, notAnd⟩ := reads
      cases reads with
      | or begins rest =>
        exact ⟨_, _, _, rfl, ⟨begins, orRestHead rest notAnd⟩, rest, notOr, fun _ => notAnd⟩
  · intro first used rest split _
    have shorter := splitShorter split
    have less : need (.orRest first []) rest.length ≤ fuel := by
      simp only [need] at enough ⊢
      omega
    exact ih (.orRest first []) rest less

theorem Recognized.orRest (ih : Recognized fuel) {first : Expr} {more : List Expr}
    (enough : need (.orRest first more) ts.length ≤ fuel + 1) :
    RecognizesAt (orLoop (fuel + 1) (disjunction first more)) (exprBefore (.orRest first more))
      ts := by
  apply recognizesCongr _ (recognizesBranch (k := .kwOr)
    (q := fun _ => pure (disjunction first more))
    (L := (exprBefore .and).bind fun next => exprBefore (.orRest first (more ++ [next])))
    Tok.noConfusion _ (recognizesPure _ ts))
  · intro t ks e
    constructor
    · intro reads
      obtain ⟨_, rfl, ks, js, next, rfl, ⟨begins, after⟩, rest, notOr, notAnd⟩ |
        ⟨other, rfl, rfl⟩ := reads
      · refine ⟨.orMore begins rest, notOr, fun _ => ?_⟩
        cases js with
        | nil => exact after
        | cons _ _ => exact notAnd (List.cons_ne_nil _ _)
      · exact ⟨.orEnd, other, fun no => absurd rfl no⟩
    · intro reads
      obtain ⟨reads, notOr, notAnd⟩ := reads
      cases reads with
      | orEnd => exact .inr ⟨notOr, rfl, rfl⟩
      | orMore begins rest =>
        have notAnd := notAnd (List.cons_ne_nil _ _)
        exact .inl ⟨_, rfl, _, _, _, rfl, ⟨begins, orRestHead rest notAnd⟩, rest, notOr,
          fun _ => notAnd⟩
  · intro x tail here
    subst here
    have begins : need .and tail.length ≤ fuel := by
      simp only [need, List.length_cons] at enough ⊢
      omega
    apply recognizesBind (ih .and tail begins)
    intro next used rest split _
    have shorter := splitShorter split
    have less : need (.orRest first (more ++ [next])) rest.length ≤ fuel := by
      simp only [need, List.length_cons] at enough ⊢
      omega
    rw [orWithLast]
    exact ih (.orRest first (more ++ [next])) rest less

theorem Recognized.and (ih : Recognized fuel) (enough : need .and ts.length ≤ fuel + 1) :
    RecognizesAt (parseAnd (fuel + 1)) (exprBefore .and) ts := by
  apply recognizesCongr _ (recognizesBind (M := fun first => exprBefore (.andRest first []))
    (ih .not ts (Nat.le_of_succ_le_succ enough)) _)
  · intro t ks e
    constructor
    · intro reads
      obtain ⟨ks, js, first, rfl, ⟨begins, -⟩, rest, stops⟩ := reads
      exact ⟨.and begins rest, stops⟩
    · intro reads
      obtain ⟨reads, stops⟩ := reads
      cases reads with
      | and begins rest => exact ⟨_, _, _, rfl, ⟨begins, trivial⟩, rest, stops⟩
  · intro first used rest split _
    have shorter := splitShorter split
    have less : need (.andRest first []) rest.length ≤ fuel := by
      simp only [need] at enough ⊢
      omega
    exact ih (.andRest first []) rest less

theorem Recognized.andRest (ih : Recognized fuel) {first : Expr} {more : List Expr}
    (enough : need (.andRest first more) ts.length ≤ fuel + 1) :
    RecognizesAt (andLoop (fuel + 1) (conjunction first more)) (exprBefore (.andRest first more))
      ts := by
  apply recognizesCongr _ (recognizesBranch (k := .kwAnd)
    (q := fun _ => pure (conjunction first more))
    (L := (exprBefore .not).bind fun next => exprBefore (.andRest first (more ++ [next])))
    Tok.noConfusion _ (recognizesPure _ ts))
  · intro t ks e
    constructor
    · intro reads
      obtain ⟨_, rfl, ks, js, next, rfl, ⟨begins, -⟩, rest, stops⟩ | ⟨other, rfl, rfl⟩ := reads
      · exact ⟨.andMore begins rest, stops⟩
      · exact ⟨.andEnd, other⟩
    · intro reads
      obtain ⟨reads, stops⟩ := reads
      cases reads with
      | andEnd => exact .inr ⟨stops, rfl, rfl⟩
      | andMore begins rest =>
        exact .inl ⟨_, rfl, _, _, _, rfl, ⟨begins, trivial⟩, rest, stops⟩
  · intro x tail here
    subst here
    have begins : need .not tail.length ≤ fuel := by
      simp only [need, List.length_cons] at enough ⊢
      omega
    apply recognizesBind (ih .not tail begins)
    intro next used rest split _
    have shorter := splitShorter split
    have less : need (.andRest first (more ++ [next])) rest.length ≤ fuel := by
      simp only [need, List.length_cons] at enough ⊢
      omega
    rw [andWithLast]
    exact ih (.andRest first (more ++ [next])) rest less

theorem Recognized.not (ih : Recognized fuel) (enough : need .not ts.length ≤ fuel + 1) :
    RecognizesAt (parseNot (fuel + 1)) (exprBefore .not) ts := by
  apply recognizesCongr _ (recognizesBranch (k := .kwNot) (q := fun _ => parsePredExpr fuel)
    (L := Lookahead.image Expr.not (exprBefore .not)) Tok.noConfusion _
    (ih .pred ts (Nat.le_of_succ_le_succ enough)))
  · intro t ks e
    constructor
    · intro reads
      obtain ⟨js, rfl, inner, ⟨reads, -⟩, rfl⟩ | ⟨-, reads, -⟩ := reads
      · exact ⟨.not reads, trivial⟩
      · exact ⟨.pred reads, trivial⟩
    · intro reads
      obtain ⟨reads, -⟩ := reads
      cases reads with
      | not inner => exact .inl ⟨_, rfl, _, ⟨inner, trivial⟩, rfl⟩
      | pred inner => exact .inr ⟨predHead inner, inner, trivial⟩
  · intro x tail here
    subst here
    have less : need .not tail.length ≤ fuel := by
      simp only [need, List.length_cons] at enough ⊢
      omega
    exact recognizesMapAt (ih .not tail less) Expr.not

theorem Recognized.paren (ih : Recognized fuel) (enough : need .or ts.length ≤ fuel) :
    RecognizesAt (do
      let e ← parseOr fuel
      expect .rparen
      pure e) (fun _ ks e => ∃ js, ks = js ++ [.rparen] ∧ exprBefore .or .rparen js e) ts := by
  apply recognizesCongr _ (recognizesBefore .rparen Tok.noConfusion (ih .or ts enough) id)
  intro t ks e
  constructor
  · intro reads
    obtain ⟨js, _, rfl, reads, rfl⟩ := reads
    exact ⟨js, rfl, reads⟩
  · intro reads
    obtain ⟨js, rfl, reads⟩ := reads
    exact ⟨js, e, rfl, reads, rfl⟩

theorem Recognized.pred (ih : Recognized fuel) (enough : need .pred ts.length ≤ fuel + 1) :
    RecognizesAt (parsePredExpr (fuel + 1)) (exprBefore .pred) ts := by
  apply recognizesCongr _ (recognizesBranch (k := .lparen) (q := fun _ => parseFieldPred)
    (L := fun _ ks e => ∃ js, ks = js ++ [.rparen] ∧ exprBefore .or .rparen js e)
    Tok.noConfusion _ (recognizesFieldPred ts))
  · intro t ks e
    constructor
    · intro reads
      obtain ⟨_, rfl, js, rfl, reads, -⟩ | ⟨-, p, reads, rfl⟩ := reads
      · exact ⟨.paren reads, trivial⟩
      · exact ⟨.field reads, trivial⟩
    · intro reads
      obtain ⟨reads, -⟩ := reads
      cases reads with
      | paren inner => exact .inl ⟨_, rfl, _, rfl, inner, Tok.noConfusion, Tok.noConfusion⟩
      | field inner => exact .inr ⟨fieldPredHead inner, _, inner, rfl⟩
  · intro x tail here
    subst here
    have less : need .or tail.length ≤ fuel := by
      simp only [need, List.length_cons] at enough ⊢
      omega
    exact ih.paren less

end Levels

/-- By induction on the fuel; each level goes down to the next one, or takes a token. -/
theorem recognizesLevel (fuel : Nat) : Recognized fuel := by
  induction fuel with
  | zero =>
    intro level ts enough
    cases level
    all_goals exact absurd enough (Nat.not_succ_le_zero _)
  | succ fuel ih =>
    intro level ts enough
    cases level with
    | or => exact ih.or enough
    | orRest first more => exact ih.orRest enough
    | and => exact ih.and enough
    | andRest first more => exact ih.andRest enough
    | not => exact ih.not enough
    | pred => exact ih.pred enough

theorem recognizesExpr : Recognizes parseExpr (exprBefore .or) := by
  intro ts
  have same : parseExpr ts = parserAt .or (4 * ts.length + 4) ts := by
    unfold parseExpr parserAt
    rfl
  rw [recognizesAtCongr same]
  exact recognizesLevel _ .or ts (Nat.le_refl _)

end Expressions

section Queries
open Lookahead

def whereBefore : Lookahead Tok (Option Expr) := image some (exprBefore .or)

def orderBefore : Lookahead Tok (List OrderItem) := fun t ks items =>
  ∃ js, ks = .kwBy :: js ∧ SeparatedBefore .comma orderItemBefore t js items

def groupBefore : Lookahead Tok (List Chars) := fun t ks fields =>
  ∃ js, ks = .kwBy :: js ∧ SeparatedBefore .comma (fun _ => FieldOf) t js fields

def limitBefore : Lookahead Tok (Option Nat) := image some (fun _ => OffsetOf accepted)

abbrev offsetPartBefore : Lookahead Tok (Nat × Unit) :=
  ClauseBefore .kwOffset (fun _ => OffsetOf accepted) 0 (fun _ ks _ => ks = [])

abbrev limitPartBefore : Lookahead Tok (Option Nat × Nat × Unit) :=
  ClauseBefore .kwLimit limitBefore none offsetPartBefore

abbrev groupPartBefore : Lookahead Tok (List Chars × Option Nat × Nat × Unit) :=
  ClauseBefore .kwGroup groupBefore [] limitPartBefore

abbrev orderPartBefore :
    Lookahead Tok (List OrderItem × List Chars × Option Nat × Nat × Unit) :=
  ClauseBefore .kwOrder orderBefore [] groupPartBefore

abbrev clausesBefore : Lookahead Tok Clauses :=
  ClauseBefore .kwWhere whereBefore none orderPartBefore

def completed (explain : Bool) (projection : Projection) (source : Chars) (c : Clauses) : Query :=
  ⟨explain, projection, source, c.1, c.2.2.1, c.2.1, c.2.2.2.1, c.2.2.2.2.1⟩

theorem recognizesClauses (explain : Bool) (projection : Projection) (source : Chars) :
    Recognizes (do
      let predicate ← clause .kwWhere (do let e ← parseExpr; pure (some e)) none
      let orderBy ← clause .kwOrder (do expect .kwBy; separatedList .comma parseOrderItem) []
      let groupBy ← clause .kwGroup (do expect .kwBy; separatedList .comma expectIdent) []
      let limit ← clause .kwLimit (do let n ← parseUsize; pure (some n)) none
      let offset ← clause .kwOffset parseUsize 0
      pure ⟨explain, projection, source, predicate, groupBy, orderBy, limit, offset⟩ : Parse Query)
      (image (completed explain projection source) clausesBefore) := by
  apply recognizesClause (f := fun predicate rest =>
    completed explain projection source (predicate, rest)) Tok.noConfusion
    (recognizesMap recognizesExpr some)
  intro predicate
  apply recognizesClause (f := fun order rest =>
    completed explain projection source (predicate, order, rest)) Tok.noConfusion
    (recognizesAfter .kwBy Tok.noConfusion
      (recognizesSeparated Tok.noConfusion recognizesOrderItem))
  intro order
  apply recognizesClause (f := fun group rest =>
    completed explain projection source (predicate, order, group, rest)) Tok.noConfusion
    (recognizesAfter .kwBy Tok.noConfusion
      (recognizesSeparated Tok.noConfusion recognizesIdent))
  intro group
  apply recognizesClause (f := fun limit rest =>
    completed explain projection source (predicate, order, group, limit, rest)) Tok.noConfusion
    (recognizesMap recognizesUsize some)
  intro limit
  apply recognizesClause (f := fun offset rest =>
    completed explain projection source (predicate, order, group, limit, offset, rest))
    Tok.noConfusion recognizesUsize
  intro offset ts
  apply recognizesCongr _ (recognizesPure _ ts)
  intro t ks q
  constructor
  · intro reads
    obtain ⟨rfl, rfl⟩ := reads
    exact ⟨(), rfl, rfl⟩
  · intro reads
    obtain ⟨_, rfl, rfl⟩ := reads
    exact ⟨rfl, rfl⟩

theorem recognizesExplain : Recognizes parseExplain (fun t ks explain =>
    ExplainOf ks explain ∧ (ks = [] → t ≠ .kwExplain)) := by
  intro ts
  apply recognizesCongr _ (recognizesBranch (k := .kwExplain) (q := fun _ => pure false)
    Tok.noConfusion (fun _ tail _ => recognizesPure true tail) (recognizesPure false ts))
  intro t ks explain
  constructor
  · intro reads
    obtain ⟨js, rfl, rfl, rfl⟩ | ⟨other, rfl, rfl⟩ := reads
    · exact ⟨.present, fun no => absurd no (List.cons_ne_nil _ _)⟩
    · exact ⟨.absent, fun _ => other⟩
  · intro reads
    obtain ⟨reads, stops⟩ := reads
    cases reads with
    | absent => exact .inr ⟨stops rfl, rfl, rfl⟩
    | present => exact .inl ⟨[], rfl, rfl, rfl⟩

/-- A query as the parser reads it before a token of kind `t`. -/
inductive QueryBefore (t : Tok) : Language Tok Query
  | query {xs explain ps projection source ks clauses} :
      ExplainOf xs explain → ProjectionOf accepted ps projection → clausesBefore t ks clauses →
      QueryBefore t (xs ++ .kwSelect :: (ps ++ .kwFrom :: .ident source :: ks))
        (completed explain projection source clauses)

theorem recognizesQuery : Recognizes parseQuery QueryBefore := by
  intro ts
  apply recognizesCongr _ (recognizesBind (recognizesExplain ts) (fun explain _ rest _ _ =>
    recognizesAfter .kwSelect Tok.noConfusion (fun rest =>
      recognizesBind (recognizesProjection rest) (fun projection _ rest _ _ =>
        recognizesAfter .kwFrom Tok.noConfusion (fun rest =>
          recognizesBind (recognizesIdent rest) (fun source _ rest _ _ =>
            recognizesClauses explain projection source rest)) rest)) rest))
  intro t ks q
  constructor
  · intro reads
    obtain ⟨xs, _, explain, rfl, ⟨explained, -⟩, _, rfl, ps, _, projection, rfl, ⟨projected, -⟩,
      _, rfl, _, js, source, rfl, ident, clauses, after, rfl⟩ := reads
    cases ident
    exact .query explained projected after
  · intro reads
    cases reads with
    | query explained projected after =>
      exact ⟨_, _, _, rfl, ⟨explained, fun _ => Tok.noConfusion⟩, _, rfl, _, _, _, rfl,
        ⟨projected, fun _ => Tok.noConfusion⟩, _, rfl, _, _, _, rfl, .ident, _, after, rfl⟩

end Queries

end MyLsmDb.Lsmql
