import MyLsmDb.Parser

/-! The grammar of queries, each derivation with the tree it denotes, and what the parser
reads of it. -/
namespace MyLsmDb.Lsmql
open Recognizer
open Text (Chars)

/-- What an aggregate may stand over, and which count the number of a LIMIT or an OFFSET
denotes. -/
structure Reading where
  aggregate : AggKind → Option Chars → Prop
  count : UInt64 → Nat → Prop

/- `"COUNT" "(" "*" ")" | ("SUM" | "AVG" | "MIN" | "MAX") "(" field ")"`, and numbers as
they are written. -/
def documented : Reading where
  aggregate kind field := kind = .count ↔ field = none
  count n k := Binary64.whole n ∧ Binary64.nonnegative n ∧ k = Binary64.trunc n

/-- A star or a field in every aggregate, and counts cut down to 64 bits. -/
def accepted : Reading where
  aggregate _ _ := True
  count n k := Binary64.whole n ∧ Binary64.nonnegative n ∧ k = Binary64.toUsize n

/-- The documented grammar, as far as a count of 64 bits can say what is written. -/
def representable : Reading where
  aggregate := documented.aggregate
  count n k := documented.count n k ∧ k < 2 ^ 64

inductive FunctionOf : Tok → AggKind → Prop
  | count : FunctionOf .kwCount .count
  | sum : FunctionOf .kwSum .sum
  | avg : FunctionOf .kwAvg .avg
  | min : FunctionOf .kwMin .min
  | max : FunctionOf .kwMax .max

/-- `field := IDENT` -/
inductive FieldOf : Language Tok Chars
  | ident {s} : FieldOf [.ident s] s

/-- `aggOrField := aggregate | field` -/
inductive ItemOf (r : Reading) : Language Tok ProjItem
  | field {s} : ItemOf r [.ident s] (.field s)
  | star {k kind} : FunctionOf k kind → r.aggregate kind none →
      ItemOf r [k, .lparen, .star, .rparen] (.agg kind none)
  | ofField {k kind s} : FunctionOf k kind → r.aggregate kind (some s) →
      ItemOf r [k, .lparen, .ident s, .rparen] (.agg kind (some s))

/-- `projection := "*" | aggOrField ("," aggOrField)*` -/
inductive ProjectionOf (r : Reading) : Language Tok Projection
  | star : ProjectionOf r [.star] .star
  | items {ks is} : Separated .comma (ItemOf r) ks is → ProjectionOf r ks (.items is)

/-- `value := string | number | bool | param | "NULL"` -/
inductive ValueOf : Language Tok Value
  | str {s} : ValueOf [.str s] (.string s)
  | num {n} : ValueOf [.num n] (.number n)
  | bool {b} : ValueOf [.bool b] (.bool b)
  | param {p} : ValueOf [.param p] (.param p)
  | null : ValueOf [.kwNull] .null

/-- `op := "=" | "!=" | "<" | "<=" | ">" | ">="` -/
inductive OpOf : Tok → (Chars → Value → Predicate) → Prop
  | eq : OpOf .eq .eq
  | ne : OpOf .ne .ne
  | lt : OpOf .lt .lt
  | le : OpOf .le .le
  | gt : OpOf .gt .gt
  | ge : OpOf .ge .ge

/-- The alternatives of `pred` but the parenthesis. -/
inductive FieldPredOf : Language Tok Predicate
  | compare {f k op ks v} : OpOf k op → ValueOf ks v → FieldPredOf (.ident f :: k :: ks) (op f v)
  | in_ {f ks vs} : Separated .comma ValueOf ks vs →
      FieldPredOf (.ident f :: .kwIn :: .lparen :: ks ++ [.rparen]) (.in_ f vs)
  | isNull {f} : FieldPredOf [.ident f, .kwIs, .kwNull] (.isNull f)
  | isNotNull {f} : FieldPredOf [.ident f, .kwIs, .kwNot, .kwNull] (.ne f .null)
  | isAbsent {f} : FieldPredOf [.ident f, .kwIs, .kwAbsent] (.isAbsent f)

/- The operands of an `OR` as one node. A first operand that is one already, in parentheses,
takes the others in. -/
def disjunction : Expr → List Expr → Expr
  | first, [] => first
  | .or es, more => .or (es ++ more)
  | first, more => .or (first :: more)

def conjunction : Expr → List Expr → Expr
  | first, [] => first
  | .and es, more => .and (es ++ more)
  | first, more => .and (first :: more)

/- The nonterminals of expressions; those of the repetitions carry the operands before them. -/
inductive Level where
  | or
  | orRest (first : Expr) (more : List Expr)
  | and
  | andRest (first : Expr) (more : List Expr)
  | not
  | pred

/- `orExpr := andExpr ("OR" andExpr)*`, `andExpr := notExpr ("AND" notExpr)*`,
`notExpr := "NOT" notExpr | pred`; a parenthesis leaves no node. -/
inductive ExprOf : Level → Language Tok Expr
  | or {ks first js e} : ExprOf .and ks first → ExprOf (.orRest first []) js e →
      ExprOf .or (ks ++ js) e
  | orEnd {first more} : ExprOf (.orRest first more) [] (disjunction first more)
  | orMore {first more ks next js e} : ExprOf .and ks next →
      ExprOf (.orRest first (more ++ [next])) js e →
      ExprOf (.orRest first more) (.kwOr :: ks ++ js) e
  | and {ks first js e} : ExprOf .not ks first → ExprOf (.andRest first []) js e →
      ExprOf .and (ks ++ js) e
  | andEnd {first more} : ExprOf (.andRest first more) [] (conjunction first more)
  | andMore {first more ks next js e} : ExprOf .not ks next →
      ExprOf (.andRest first (more ++ [next])) js e →
      ExprOf (.andRest first more) (.kwAnd :: ks ++ js) e
  | not {ks e} : ExprOf .not ks e → ExprOf .not (.kwNot :: ks) (.not e)
  | pred {ks e} : ExprOf .pred ks e → ExprOf .not ks e
  | paren {ks e} : ExprOf .or ks e → ExprOf .pred (.lparen :: ks ++ [.rparen]) e
  | field {ks p} : FieldPredOf ks p → ExprOf .pred ks (.pred p)

/-- `orderItem := field ("ASC" | "DESC")?` -/
inductive OrderItemOf : Language Tok OrderItem
  | plain {f} : OrderItemOf [.ident f] ⟨f, .asc⟩
  | asc {f} : OrderItemOf [.ident f, .kwAsc] ⟨f, .asc⟩
  | desc {f} : OrderItemOf [.ident f, .kwDesc] ⟨f, .desc⟩

inductive WhereOf : Language Tok (Option Expr)
  | expr {ks e} : ExprOf .or ks e → WhereOf ks (some e)

inductive OrderOf : Language Tok (List OrderItem)
  | by_ {ks items} : Separated .comma OrderItemOf ks items → OrderOf (.kwBy :: ks) items

inductive GroupOf : Language Tok (List Chars)
  | by_ {ks fields} : Separated .comma FieldOf ks fields → GroupOf (.kwBy :: ks) fields

inductive OffsetOf (r : Reading) : Language Tok Nat
  | int {n k} : r.count n k → OffsetOf r [.num n] k

inductive LimitOf (r : Reading) : Language Tok (Option Nat)
  | int {n k} : r.count n k → LimitOf r [.num n] (some k)

abbrev Clauses := Option Expr × List OrderItem × List Chars × Option Nat × Nat × Unit

abbrev OffsetPart (r : Reading) : Language Tok (Nat × Unit) :=
  Clause .kwOffset (OffsetOf r) 0 (fun ks _ => ks = [])

abbrev LimitPart (r : Reading) : Language Tok (Option Nat × Nat × Unit) :=
  Clause .kwLimit (LimitOf r) none (OffsetPart r)

abbrev GroupPart (r : Reading) : Language Tok (List Chars × Option Nat × Nat × Unit) :=
  Clause .kwGroup GroupOf [] (LimitPart r)

abbrev OrderPart (r : Reading) :
    Language Tok (List OrderItem × List Chars × Option Nat × Nat × Unit) :=
  Clause .kwOrder OrderOf [] (GroupPart r)

abbrev ClausesOf (r : Reading) : Language Tok Clauses :=
  Clause .kwWhere WhereOf none (OrderPart r)

inductive ExplainOf : Language Tok Bool
  | absent : ExplainOf [] false
  | present : ExplainOf [.kwExplain] true

/-- `query := explain? select from where? order? group? limit? offset?` -/
inductive QueryOf (r : Reading) : Language Tok Query
  | query {xs explain ps projection source ks predicate order group limit offset} :
      ExplainOf xs explain → ProjectionOf r ps projection →
      ClausesOf r ks (predicate, order, group, limit, offset, ()) →
      QueryOf r (xs ++ .kwSelect :: (ps ++ .kwFrom :: .ident source :: ks))
        ⟨explain, projection, source, predicate, group, order, limit, offset⟩

end MyLsmDb.Lsmql
