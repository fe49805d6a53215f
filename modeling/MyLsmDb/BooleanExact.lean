import MyLsmDb.ParamExact

/-! Boolean expressions through the parser and the translation: what a tree means, how it is
written as tokens, and that the predicate which is made of the tokens means the tree. -/
namespace MyLsmDb.Lsmql
open Recognizer
open Text (Chars)

inductive Literal where
  | string (s : Chars)
  | number (bits : UInt64)
  | bool (b : Bool)
  | null

namespace Literal

def tok : Literal → Tok
  | string s => .str s
  | number n => .num n
  | bool b => .bool b
  | null => .kwNull

def value : Literal → Value
  | string s => .string s
  | number n => .number n
  | bool b => .bool b
  | null => .null

/-- A number without a fraction is an integer as long as it has 64 bits. -/
def constant : Literal → DbValue
  | string s => .string (.ofChars s)
  | number n => if Binary64.whole n = true ∧ Binary64.magnitude n < 2 ^ 63 * 2 ^ 1075 then
      .int (Binary64.toInt64 n) else .float n
  | bool b => .bool b
  | null => .null

theorem read (l : Literal) : ValueOf [l.tok] l.value := by
  cases l with
  | string s => exact .str
  | number n => exact .num
  | bool b => exact .bool
  | null => exact .null

theorem become (l : Literal) : toDbValue l.value = .ok l.constant := by
  cases l with
  | number n => exact numberValue n
  | _ => rfl

end Literal

inductive Tree where
  | compare (cmp : Cmp) (field : Chars) (l : Literal)
  | in_ (field : Chars) (first : Literal) (rest : List Literal)
  | isNull (field : Chars)
  | isNotNull (field : Chars)
  | and (a b : Tree)
  | or (a b : Tree)
  | not (a : Tree)

def satisfies : Cmp → Ordering → Bool
  | .eq, o => o.isEq
  | .ne, o => o.isNe
  | .lt, o => o.isLT
  | .lte, o => o.isLE
  | .gt, o => o.isGT
  | .gte, o => o.isGE

namespace Tree

/-- A field that is missing differs from every value, and it satisfies nothing else. -/
def eval (x : Entity) : Tree → Bool
  | compare cmp f l => match x.field f with
    | none => cmp = .ne
    | some actual => satisfies cmp (Value.valueCmp actual l.constant)
  | in_ f first rest => match x.field f with
    | none => false
    | some actual => (first :: rest).any (fun l => (Value.valueCmp actual l.constant).isEq)
  | isNull f => x.field f = some .null
  | isNotNull f => x.field f ≠ some .null
  | and a b => a.eval x && b.eval x
  | or a b => a.eval x || b.eval x
  | not a => !a.eval x

end Tree

def cmpTok : Cmp → Tok
  | .eq => .eq
  | .ne => .ne
  | .lt => .lt
  | .lte => .le
  | .gt => .gt
  | .gte => .ge

def listed : Literal → List Literal → List Tok
  | l, [] => [l.tok]
  | l, m :: rest => l.tok :: .comma :: listed m rest

inductive Prec where
  | or
  | and
  | not
  | pred

/-- How a tree is written where an operator of the grammar stands around it. A parenthesis may
stand around any tree, and it must where the tree binds less than what is around it. -/
inductive Rendered : Prec → Tree → List Tok → Prop
  | compare {cmp f l} : Rendered .pred (.compare cmp f l) [.ident f, cmpTok cmp, l.tok]
  | in_ {f first rest} : Rendered .pred (.in_ f first rest)
      (.ident f :: .kwIn :: .lparen :: listed first rest ++ [.rparen])
  | isNull {f} : Rendered .pred (.isNull f) [.ident f, .kwIs, .kwNull]
  | isNotNull {f} : Rendered .pred (.isNotNull f) [.ident f, .kwIs, .kwNot, .kwNull]
  | paren {t ks} : Rendered .or t ks → Rendered .pred t (.lparen :: ks ++ [.rparen])
  | pred {t ks} : Rendered .pred t ks → Rendered .not t ks
  | not {t ks} : Rendered .not t ks → Rendered .not (.not t) (.kwNot :: ks)
  | alone {t ks} : Rendered .not t ks → Rendered .and t ks
  | and {a b ks js} : Rendered .and a ks → Rendered .and b js →
      Rendered .and (.and a b) (ks ++ .kwAnd :: js)
  | single {t ks} : Rendered .and t ks → Rendered .or t ks
  | or {a b ks js} : Rendered .or a ks → Rendered .or b js →
      Rendered .or (.or a b) (ks ++ .kwOr :: js)

/-- The translated expression means this on every entity. -/
def Denotes (e : Expr) (meaning : Entity → Bool) : Prop :=
  ∃ p, toPred e = .ok p ∧ ∀ x, p.evalInner x = meaning x

section Translation
variable {e left right : Expr} {g h : Entity → Bool}

theorem denotesNot (meant : Denotes e g) : Denotes (.not e) (fun x => !g x) := by
  obtain ⟨p, run, means⟩ := meant
  refine ⟨.not p, ?_, fun x => ?_⟩
  · rw [toPred, run]
    rfl
  · change _ = !g x
    rw [← means x]
    rfl

theorem pairPreds {p q : DbPred} (first : toPred left = .ok p) (second : toPred right = .ok q) :
    toPreds [left, right] = .ok [p, q] := by
  rw [toPreds, first, toPreds, second, toPreds]
  rfl

theorem appendPreds {es : List Expr} {ps : List DbPred} {q : DbPred} (first : toPreds es = .ok ps)
    (second : toPred right = .ok q) : toPreds (es ++ [right]) = .ok (ps ++ [q]) := by
  rw [toPredList] at first ⊢
  rw [List.mapM_append, first, List.mapM_cons, second]
  rfl

theorem andPreds {p q : DbPred} (first : toPred left = .ok p) (second : toPred right = .ok q) :
    toPred (left.andWith right) = .ok (.and p q) := by
  cases left with
  | and es =>
    unfold toPred at first
    obtain ⟨ps, list, first⟩ := bindOk first
    obtain ⟨head, rest, rfl, rfl⟩ := joinedOk first
    unfold Expr.andWith toPred
    rw [appendPreds list second]
    exact congrArg Except.ok (List.foldl_concat _ _ _ _)
  | _ =>
    rw [Expr.andWith.eq_def]
    dsimp only
    rw [toPred, pairPreds first second]
    rfl

theorem orPreds {p q : DbPred} (first : toPred left = .ok p) (second : toPred right = .ok q) :
    toPred (left.orWith right) = .ok (.or p q) := by
  cases left with
  | or es =>
    unfold toPred at first
    obtain ⟨ps, list, first⟩ := bindOk first
    obtain ⟨head, rest, rfl, rfl⟩ := joinedOk first
    unfold Expr.orWith toPred
    rw [appendPreds list second]
    exact congrArg Except.ok (List.foldl_concat _ _ _ _)
  | _ =>
    rw [Expr.orWith.eq_def]
    dsimp only
    rw [toPred, pairPreds first second]
    rfl

theorem denotesAnd (first : Denotes left g) (second : Denotes right h) :
    Denotes (left.andWith right) (fun x => g x && h x) := by
  obtain ⟨p, run, means⟩ := first
  obtain ⟨q, run', means'⟩ := second
  refine ⟨.and p q, andPreds run run', fun x => ?_⟩
  change _ = (g x && h x)
  rw [← means x, ← means' x]
  rfl

theorem denotesOr (first : Denotes left g) (second : Denotes right h) :
    Denotes (left.orWith right) (fun x => g x || h x) := by
  obtain ⟨p, run, means⟩ := first
  obtain ⟨q, run', means'⟩ := second
  refine ⟨.or p q, orPreds run run', fun x => ?_⟩
  change _ = (g x || h x)
  rw [← means x, ← means' x]
  rfl

end Translation

section Atoms
variable {f : Chars}

theorem compareSatisfies (cmp : Cmp) (a b : DbValue) :
    MyLsmDb.Predicate.compare a cmp b = satisfies cmp (Value.valueCmp a b) := by
  unfold MyLsmDb.Predicate.compare satisfies
  cases cmp <;> cases Value.valueCmp a b <;> rfl

theorem comparisonMeans (cmp : Cmp) (l : Literal) : ∃ op, OpOf (cmpTok cmp) op ∧
    Denotes (.pred (op f l.value)) (Tree.compare cmp f l).eval := by
  have atom : ∃ op, OpOf (cmpTok cmp) op ∧ ∀ v, toAtom (op f v) = fieldCmp f cmp v := by
    cases cmp with
    | eq => exact ⟨_, .eq, fun _ => rfl⟩
    | ne => exact ⟨_, .ne, fun _ => rfl⟩
    | lt => exact ⟨_, .lt, fun _ => rfl⟩
    | lte => exact ⟨_, .le, fun _ => rfl⟩
    | gt => exact ⟨_, .gt, fun _ => rfl⟩
    | gte => exact ⟨_, .ge, fun _ => rfl⟩
  obtain ⟨op, sign, same⟩ := atom
  refine ⟨op, sign, .field f cmp l.constant, ?_, fun x => ?_⟩
  · rw [toPred, same, fieldCmp, l.become]
    rfl
  · change _ = Tree.eval x (.compare cmp f l)
    unfold Predicate.evalInner Tree.eval
    cases x.field f with
    | none => rfl
    | some actual => exact compareSatisfies cmp actual l.constant

theorem listedValues (first : Literal) (rest : List Literal) :
    Separated .comma ValueOf (listed first rest) ((first :: rest).map Literal.value) := by
  induction rest generalizing first with
  | nil => exact .last first.read
  | cons next rest ih => exact .more first.read (ih next)

theorem alternatives (rest : List Literal) (acc : DbPred) :
    (rest.map Literal.value).foldlM
      (fun acc v => do return .or acc (← unwrapped (fieldCmp f .eq v))) acc =
      (.ok ((rest.map (fun l => Predicate.field f .eq l.constant)).foldl .or acc) :
        Translated DbPred) := by
  induction rest generalizing acc with
  | nil => rfl
  | cons l rest ih =>
    have here : unwrapped (fieldCmp f .eq l.value) = .ok (.field f .eq l.constant) := by
      unfold fieldCmp
      rw [l.become]
      rfl
    rw [List.map_cons, List.foldlM_cons, here, List.map_cons, List.foldl_cons]
    exact ih _

theorem evalAlternatives (x : Entity) (ps : List DbPred) (acc : DbPred) :
    (ps.foldl .or acc).evalInner x = (acc :: ps).any (fun p => p.evalInner x) := by
  induction ps generalizing acc with
  | nil => exact (Bool.or_false _).symm
  | cons p ps ih =>
    rw [List.foldl_cons, ih, List.any_cons, List.any_cons, List.any_cons, ← Bool.or_assoc]
    rfl

theorem inMeans (first : Literal) (rest : List Literal) :
    Denotes (.pred (.in_ f ((first :: rest).map Literal.value))) (Tree.in_ f first rest).eval := by
  refine ⟨(rest.map (fun l => Predicate.field f .eq l.constant)).foldl .or
    (.field f .eq first.constant), ?_, fun x => ?_⟩
  · rw [toPred, List.map_cons, toAtom, fieldCmp, first.become]
    exact alternatives rest _
  · have each (l : Literal) : (Predicate.field f .eq l.constant).evalInner x =
        match x.field f with
        | none => false
        | some actual => (Value.valueCmp actual l.constant).isEq := by
      unfold Predicate.evalInner
      cases x.field f with
      | none => rfl
      | some actual => exact compareSatisfies .eq actual l.constant
    change _ = Tree.eval x (.in_ f first rest)
    rw [evalAlternatives, List.any_cons, List.any_map, each]
    unfold Tree.eval
    cases found : x.field f with
    | none =>
      rw [Bool.false_or]
      refine List.any_eq_false.mpr (fun l _ => ?_)
      rw [Function.comp_apply, each, found]
      exact Bool.false_ne_true
    | some actual =>
      dsimp only
      rw [List.any_cons]
      congr 1
      refine congrArg rest.any (funext fun l => ?_)
      rw [Function.comp_apply, each, found]

theorem compareNull (a : DbValue) : (Value.valueCmp a .null).isEq = decide (a = .null) := by
  cases a with
  | null => rfl
  | _ => exact (decide_eq_false (fun same => by cases same)).symm

theorem nullMeans : Denotes (.pred (.isNull f)) (Tree.isNull f).eval := by
  refine ⟨.field f .eq .null, rfl, fun x => ?_⟩
  change _ = Tree.eval x (.isNull f)
  unfold Predicate.evalInner Tree.eval
  cases x.field f with
  | none => rfl
  | some actual =>
    dsimp only
    rw [compareSatisfies]
    exact (compareNull actual).trans (decide_eq_decide.mpr Option.some_inj.symm)

theorem notNullMeans : Denotes (.pred (.ne f .null)) (Tree.isNotNull f).eval := by
  refine ⟨.field f .ne .null, rfl, fun x => ?_⟩
  change _ = Tree.eval x (.isNotNull f)
  unfold Predicate.evalInner Tree.eval
  cases x.field f with
  | none => rfl
  | some actual =>
    dsimp only
    rw [compareSatisfies]
    change (Value.valueCmp actual .null).isNe = _
    rw [show (Value.valueCmp actual .null).isNe = !(Value.valueCmp actual .null).isEq by
      cases Value.valueCmp actual .null <;> rfl, compareNull]
    simp

end Atoms

section Derivation
variable {t : Tree} {ks : List Tok}

/-- A nonterminal of chains, what goes on with one, the node of the operands and their word. -/
structure ChainKind where
  begins : Level
  rest : Expr → List Expr → Level
  node : Expr → List Expr → Expr
  op : Tok
  join : Bool → Bool → Bool

def ors : ChainKind := ⟨.or, .orRest, disjunction, .kwOr, or⟩

def ands : ChainKind := ⟨.and, .andRest, conjunction, .kwAnd, and⟩

/-- What an expression of a level is read as when it begins a chain, and when it goes on
with one. -/
structure Chain (c : ChainKind) (t : Tree) (ks : List Tok) : Prop where
  first : ∃ left more, Denotes (c.node left more) (fun x => t.eval x) ∧
    ∀ js e, ExprOf (c.rest left more) js e → ExprOf c.begins (ks ++ js) e
  more : ∀ left more g, Denotes (c.node left more) g →
    ∃ more', Denotes (c.node left more') (fun x => c.join (g x) (t.eval x)) ∧
      ∀ js e, ExprOf (c.rest left more') js e → ExprOf (c.rest left more) (c.op :: ks ++ js) e

/-- A chain within a chain is one chain, because the operation is associative. -/
theorem chainJoined {c : ChainKind} {a b both : Tree} {js : List Tok}
    (assoc : ∀ x y z, c.join (c.join x y) z = c.join x (c.join y z))
    (means : ∀ x, both.eval x = c.join (a.eval x) (b.eval x))
    (ha : Chain c a ks) (hb : Chain c b js) : Chain c both (ks ++ c.op :: js) where
  first := by
    obtain ⟨left, more, meant, derives⟩ := ha.first
    obtain ⟨more', meant', goes⟩ := hb.more left more _ meant
    refine ⟨left, more', ?_, fun ls e later => ?_⟩
    · rw [funext means]
      exact meant'
    · rw [List.append_assoc]
      exact derives _ e (goes ls e later)
  more left more g meant := by
    obtain ⟨more', meant', goes⟩ := ha.more left more g meant
    obtain ⟨more'', meant'', goes'⟩ := hb.more left more' _ meant'
    refine ⟨more'', ?_, fun ls e later => ?_⟩
    · have same : (fun x => c.join (g x) (both.eval x)) =
          fun x => c.join (c.join (g x) (a.eval x)) (b.eval x) :=
        funext fun x => by rw [means, assoc]
      rw [same]
      exact meant''
    · have split : c.op :: (ks ++ c.op :: js) ++ ls = c.op :: ks ++ (c.op :: js ++ ls) := by
        rw [← List.cons_append, List.append_assoc]
      rw [split]
      exact goes _ e (goes' ls e later)

def Derived (p : Prec) (t : Tree) (ks : List Tok) : Prop :=
  match p with
  | .or => Chain ors t ks
  | .and => Chain ands t ks
  | .not => ∃ e, ExprOf .not ks e ∧ Denotes e (fun x => t.eval x)
  | .pred => ∃ e, ExprOf .pred ks e ∧ Denotes e (fun x => t.eval x)

theorem wholeOr (h : Derived .or t ks) : ∃ e, ExprOf .or ks e ∧ Denotes e (fun x => t.eval x) := by
  obtain ⟨left, more, meant, derives⟩ := h.first
  have whole := derives [] _ .orEnd
  rw [List.append_nil] at whole
  exact ⟨_, whole, meant⟩

theorem wholeAnd (h : Derived .and t ks) : ∃ e, ExprOf .and ks e ∧ Denotes e (fun x => t.eval x) := by
  obtain ⟨left, more, meant, derives⟩ := h.first
  have whole := derives [] _ .andEnd
  rw [List.append_nil] at whole
  exact ⟨_, whole, meant⟩

theorem derivedAnd (h : Derived .not t ks) : Derived .and t ks := by
  obtain ⟨e, derives, meant⟩ := h
  constructor
  · exact ⟨e, [], meant, fun _ _ later => .and derives later⟩
  · intro left more g first
    refine ⟨more ++ [e], ?_, fun _ _ later => .andMore derives later⟩
    change Denotes (conjunction left (more ++ [e])) (fun x => g x && t.eval x)
    rw [← andWithLast]
    exact denotesAnd first meant

theorem derivedOr (h : Derived .and t ks) : Derived .or t ks := by
  obtain ⟨e, derives, meant⟩ := wholeAnd h
  constructor
  · exact ⟨e, [], meant, fun _ _ later => .or derives later⟩
  · intro left more g first
    refine ⟨more ++ [e], ?_, fun _ _ later => .orMore derives later⟩
    change Denotes (disjunction left (more ++ [e])) (fun x => g x || t.eval x)
    rw [← orWithLast]
    exact denotesOr first meant

theorem renderedDerived {p : Prec} (h : Rendered p t ks) : Derived p t ks := by
  induction h with
  | compare =>
    obtain ⟨op, sign, meant⟩ := comparisonMeans _ _
    exact ⟨_, .field (.compare sign (Literal.read _)), meant⟩
  | in_ => exact ⟨_, .field (.in_ (listedValues _ _)), inMeans _ _⟩
  | isNull => exact ⟨_, .field .isNull, nullMeans⟩
  | isNotNull => exact ⟨_, .field .isNotNull, notNullMeans⟩
  | paren _ ih =>
    obtain ⟨e, derives, meant⟩ := wholeOr ih
    exact ⟨e, .paren derives, meant⟩
  | pred _ ih =>
    obtain ⟨e, derives, meant⟩ := ih
    exact ⟨e, .pred derives, meant⟩
  | not _ ih =>
    obtain ⟨e, derives, meant⟩ := ih
    exact ⟨.not e, .not derives, denotesNot meant⟩
  | alone _ ih => exact derivedAnd ih
  | and _ _ iha ihb => exact chainJoined Bool.and_assoc (fun _ => rfl) iha ihb
  | single _ ih => exact derivedOr ih
  | or _ _ iha ihb => exact chainJoined Bool.or_assoc (fun _ => rfl) iha ihb

end Derivation

namespace Tree

def prec : Tree → Prec
  | and .. => .and
  | or .. => .or
  | not _ => .not
  | _ => .pred

/-- The tree needs no parenthesis at this place. -/
def fits : Prec → Prec → Bool
  | .or, _ => true
  | .and, own => match own with
    | .or => false
    | _ => true
  | .not, own => match own with
    | .or | .and => false
    | _ => true
  | .pred, own => match own with
    | .pred => true
    | _ => false

def around (place own : Prec) (ks : List Tok) : List Tok :=
  if fits place own then ks else .lparen :: ks ++ [.rparen]

def render : Tree → List Tok
  | compare cmp f l => [.ident f, cmpTok cmp, l.tok]
  | in_ f first rest => .ident f :: .kwIn :: .lparen :: listed first rest ++ [.rparen]
  | isNull f => [.ident f, .kwIs, .kwNull]
  | isNotNull f => [.ident f, .kwIs, .kwNot, .kwNull]
  | and a b => around .and a.prec a.render ++ .kwAnd :: around .and b.prec b.render
  | or a b => around .or a.prec a.render ++ .kwOr :: around .or b.prec b.render
  | not a => .kwNot :: around .not a.prec a.render

end Tree

section Rendering
variable {t : Tree} {ks : List Tok}

theorem renderedTop {p : Prec} (h : Rendered p t ks) : Rendered .or t ks := by
  cases p with
  | or => exact h
  | and => exact .single h
  | not => exact .single (.alone h)
  | pred => exact .single (.alone (.pred h))

theorem renderedAround {place own : Prec} (h : Rendered own t ks) :
    Rendered place t (Tree.around place own ks) := by
  have closed : Rendered .pred t (.lparen :: ks ++ [.rparen]) := .paren (renderedTop h)
  unfold Tree.around
  cases place with
  | or => exact renderedTop h
  | and =>
    cases own with
    | or => exact .alone (.pred closed)
    | and => exact h
    | not => exact .alone h
    | pred => exact .alone (.pred h)
  | not =>
    cases own with
    | or => exact .pred closed
    | and => exact .pred closed
    | not => exact h
    | pred => exact .pred h
  | pred =>
    cases own with
    | pred => exact h
    | _ => exact closed

theorem renderRendered (t : Tree) : Rendered t.prec t t.render := by
  induction t with
  | compare => exact .compare
  | in_ => exact .in_
  | isNull => exact .isNull
  | isNotNull => exact .isNotNull
  | and a b iha ihb => exact .and (renderedAround iha) (renderedAround ihb)
  | or a b iha ihb => exact .or (renderedAround iha) (renderedAround ihb)
  | not a ih => exact .not (renderedAround ih)

end Rendering

/-- Every tree can be written, and wherever tokens are one of the ways to write it and no
connective follows them, the parser takes exactly these tokens, and the predicate that is made
of what it reads has the truth value of the tree on every entity. -/
theorem booleanPipeline (t : Tree) : Rendered .or t t.render ∧
    ∀ used rest : List Token, Rendered .or t (kinds used) →
      next rest ≠ Tok.kwOr ∧ next rest ≠ Tok.kwAnd →
      ∃ e p, Yields parseExpr (used ++ rest) e rest ∧ toPred e = .ok p ∧
        ∀ x, p.eval x = .ok (t.eval x) := by
  refine ⟨renderedTop (renderRendered t), fun used rest written stop => ?_⟩
  obtain ⟨e, derives, p, run, means⟩ := wholeOr (renderedDerived written)
  refine ⟨e, p, ?_, run, fun x => congrArg Except.ok (means x)⟩
  exact ((recognizesExpr (used ++ rest)).2 e rest).mpr ⟨used, rfl, derives, stop⟩

def mixedTree : Tree :=
  .and (.or (.compare .eq ['f'] (.bool true)) (.isNull ['f'])) (.not (.compare .ne ['f'] .null))

def mixedTokens : List Token :=
  mixedTree.render.map (fun t => ⟨t, ⟨1, 1⟩⟩)

theorem mixedPipeline : mixedTokens.length = 14 ∧ ∃ e p, Yields parseExpr (mixedTokens ++ []) e [] ∧
    toPred e = .ok p ∧ ∀ x, p.eval x = .ok (mixedTree.eval x) :=
  ⟨rfl, (booleanPipeline mixedTree).2 mixedTokens [] (booleanPipeline mixedTree).1
    ⟨Tok.noConfusion, Tok.noConfusion⟩⟩

end MyLsmDb.Lsmql
